import SociSgx.Protocol.FusedExchange

/-!
# FusedDecision — a fused predicate decides its formula

The two predicates on the fused path return what their formulas say of the plaintexts, and so what
an engine without a fused backend reveals.
-/

namespace SociSgx
namespace Protocol

open Exec Paillier
open Secure (PredicateType PredicateContext PruneInputs AcceptInputs)
open Secure.PredicateEngine (compared)

/-! ## The two predicates -/

/-- A ciphertext of the solver that holds `x`. -/
def Carries (parties : Parties) (mode : UInt8) (ciphertext : Secure.Ciphertext) (x : Int) : Prop :=
  ∃ c, encodeCiphertext mode ciphertext = .ok c ∧ Encrypts parties.modulus c x

/-- The plaintexts of `PRUNE_NODE` are small, and its comparisons fit into one batch. -/
structure PruneFits (v : PruneInputs Int) : Prop where
  linearUpper : Small v.linearUpper
  costLowers : v.hasIncumbent = true →
    (1 ≤ v.costLowers.length ∧ v.costLowers.length + 1 ≤ thresholdMaxBatchSize) ∧
      (∀ lower ∈ v.costLowers, Small lower) ∧ Small v.incumbentCost

structure AcceptFits (v : AcceptInputs Int) : Prop where
  candidate : Small v.linear ∧ Small v.c3 ∧ Small v.cost ∧ Small v.c12
  incumbent : v.hasIncumbent = true → Small v.incumbentCost ∧ Small v.incumbentC12

theorem predicateBit_prune (v : PruneInputs Int) :
    predicateBit .pruneNode v.hasIncumbent
        (compared (Secure.PredicateEngine.pruneComparisons 0 v)) =
      v.holds := by
  rw [Secure.PredicateEngine.compared_pruneComparisons, predicateBit, pruneBit,
    PruneInputs.holds]
  cases v.hasIncumbent
  · simp
  · simp [List.any_map]

theorem predicateBit_accept (v : AcceptInputs Int) :
    predicateBit .acceptCandidate v.hasIncumbent
      (compared (Secure.PredicateEngine.acceptComparisons 0 v)) = v.holds := by
  have hlinear : (!decide (v.linear < 0)) = decide (0 ≤ v.linear) := by
    rw [← decide_not, decide_eq_decide, not_lt]
  rw [Secure.PredicateEngine.compared_acceptComparisons, AcceptInputs.holds]
  cases v.hasIncumbent with
  | false => simp [predicateBit, acceptBit, hlinear]
  | true =>
      -- equality is the absence of both strict comparisons
      rcases lt_trichotomy v.cost v.incumbentCost with hlt | heq | hgt
      · simp [predicateBit, acceptBit, hlinear, hlt, hlt.asymm, hlt.ne]
      · simp [predicateBit, acceptBit, hlinear, heq]
      · simp [predicateBit, acceptBit, hlinear, hgt, hgt.asymm, hgt.ne']

section

variable {parties : Parties} {mode : UInt8} {a b : Secure.Ciphertext} {x y : Int}
  {zeroCiphertext : Nat}

theorem small_zero : Small 0 := by
  norm_num [Small]

theorem encodePair_spec (ha : Carries parties mode a x) (hb : Carries parties mode b y)
    (hx : Small x) (hy : Small y) :
    ∃ item, encodePair mode a b = .ok item ∧ (Encrypts parties.modulus item.1 x ∧ Small x) ∧
      Encrypts parties.modulus item.2 y ∧ Small y := by
  rcases ha with ⟨c, hc, hencC⟩
  rcases hb with ⟨d, hd, hencD⟩
  exact ⟨(c, d), bind_eq_ok.2 ⟨c, hc, bind_eq_ok.2 ⟨d, hd, rfl⟩⟩, ⟨hencC, hx⟩, hencD, hy⟩

theorem lowerPairs_spec (hb : Carries parties mode b y) (hy : Small y) :
    ∀ {lowers : List Secure.Ciphertext} {xs : List Int},
      List.Forall₂ (Carries parties mode) lowers xs → (∀ x ∈ xs, Small x) →
        ∃ items, (lowers.mapM fun lower => encodePair mode lower b) = .ok items ∧
          Parties.Operands parties items (xs.map fun x => (x, y)) := by
  intro lowers xs hlowers
  induction hlowers with
  | nil => exact fun _ => ⟨[], rfl, .nil⟩
  | cons hfirst _ ih =>
      intro hsmall
      rcases List.forall_mem_cons.1 hsmall with ⟨hx, hrest⟩
      rcases encodePair_spec hfirst hb hx hy with ⟨item, hitem, henc⟩
      rcases ih hrest with ⟨items, hitems, hops⟩
      refine ⟨item :: items, ?_, .cons henc hops⟩
      rw [List.mapM_cons]
      exact bind_eq_ok.2 ⟨item, hitem, bind_eq_ok.2 ⟨items, hitems, rfl⟩⟩

theorem pruneItems_spec {inputs : PruneInputs Secure.Ciphertext} {v : PruneInputs Int}
    (hzero : Encrypts parties.modulus zeroCiphertext 0)
    (hin : inputs.Holds (Carries parties mode) v) (hfits : PruneFits v) :
    ∃ items, Parties.pruneItems mode zeroCiphertext inputs = .ok items ∧
      Parties.Operands parties items (Secure.PredicateEngine.pruneComparisons 0 v) := by
  rcases hin.linearUpper with ⟨c, hc, hencC⟩
  have hfirst := And.intro (And.intro hzero small_zero) (And.intro hencC hfits.linearUpper)
  unfold Parties.pruneItems Secure.PredicateEngine.pruneComparisons
  rw [hin.hasIncumbent, ok_bind hc]
  cases hinc : v.hasIncumbent with
  | false => exact ⟨_, rfl, .cons hfirst .nil⟩
  | true =>
      rcases hfits.costLowers hinc with ⟨_, hsmall, hcost⟩
      rcases lowerPairs_spec (hin.incumbentCost hinc) hcost hin.costLowers hsmall with
        ⟨items, hitems, hops⟩
      exact ⟨_, bind_eq_ok.2 ⟨items, hitems, rfl⟩, .cons hfirst hops⟩

theorem acceptItems_spec {inputs : AcceptInputs Secure.Ciphertext} {v : AcceptInputs Int}
    (hzero : Encrypts parties.modulus zeroCiphertext 0)
    (hin : inputs.Holds (Carries parties mode) v) (hfits : AcceptFits v) :
    ∃ items, Parties.acceptItems mode zeroCiphertext inputs = .ok items ∧
      Parties.Operands parties items (Secure.PredicateEngine.acceptComparisons 0 v) := by
  rcases hfits.candidate with ⟨hlinear, hc3, hcost, hc12⟩
  rcases hin.linear with ⟨c, hc, hencC⟩
  rcases hin.c3 with ⟨d, hd, hencD⟩
  have hfirst := And.intro (And.intro hzero small_zero) (And.intro hencC hlinear)
  have hsecond := And.intro (And.intro hencD hc3) (And.intro hzero small_zero)
  unfold Parties.acceptItems Secure.PredicateEngine.acceptComparisons
  rw [hin.hasIncumbent, ok_bind hc, ok_bind hd]
  cases hinc : v.hasIncumbent with
  | false => exact ⟨_, rfl, .cons hfirst (.cons hsecond .nil)⟩
  | true =>
      rcases hfits.incumbent hinc with ⟨hicost, hic12⟩
      have hcostIn := hin.incumbentCost hinc
      rcases encodePair_spec hcostIn hin.cost hicost hcost with ⟨lt, hlt, hencLt⟩
      rcases encodePair_spec hin.cost hcostIn hcost hicost with ⟨gt, hgt, hencGt⟩
      rcases encodePair_spec (hin.incumbentC12 hinc) hin.c12 hic12 hc12 with ⟨c12, h12, henc12⟩
      refine ⟨_, bind_eq_ok.2 ⟨lt, hlt, bind_eq_ok.2 ⟨gt, hgt, bind_eq_ok.2 ⟨c12, h12, rfl⟩⟩⟩, ?_⟩
      exact .cons hfirst (.cons hsecond (.cons hencLt (.cons hencGt (.cons henc12 .nil))))

end

theorem length_pruneComparisons (v : PruneInputs Int) :
    (Secure.PredicateEngine.pruneComparisons 0 v).length =
      if v.hasIncumbent then v.costLowers.length + 1 else 1 := by
  unfold Secure.PredicateEngine.pruneComparisons
  cases v.hasIncumbent with
  | false => rfl
  | true => exact congrArg (· + 1) (List.length_map _)

theorem length_acceptComparisons (v : AcceptInputs Int) :
    (Secure.PredicateEngine.acceptComparisons 0 v).length = if v.hasIncumbent then 5 else 2 := by
  unfold Secure.PredicateEngine.acceptComparisons
  cases v.hasIncumbent <;> rfl

/-- A batch of comparisons for which there is a circuit. -/
def HasCircuit (type : PredicateType) (hasIncumbent : Bool) (count : Nat) : Prop :=
  (1 ≤ count ∧ count ≤ thresholdMaxBatchSize) ∧
    ∃ c, predicateCircuit type count hasIncumbent = .ok c

theorem prune_hasCircuit {v : PruneInputs Int} (hfits : PruneFits v) :
    HasCircuit .pruneNode v.hasIncumbent (Secure.PredicateEngine.pruneComparisons 0 v).length := by
  have hcosts := hfits.costLowers
  rw [length_pruneComparisons]
  cases hinc : v.hasIncumbent with
  | false =>
      rw [if_neg (by decide)]
      exact ⟨⟨by decide, by decide⟩, _, rfl⟩
  | true =>
      rcases hcosts hinc with ⟨⟨hlo, hhi⟩, _⟩
      have htwo : ¬ v.costLowers.length + 1 < 2 := by omega
      rw [if_pos rfl]
      exact ⟨⟨Nat.le_add_left .., hhi⟩, pruneCircuit (v.costLowers.length + 1), if_neg htwo⟩

theorem accept_hasCircuit (v : AcceptInputs Int) : HasCircuit .acceptCandidate v.hasIncumbent
    (Secure.PredicateEngine.acceptComparisons 0 v).length := by
  rw [length_acceptComparisons]
  cases v.hasIncumbent with
  | false => exact ⟨⟨by decide, by decide⟩, _, rfl⟩
  | true => exact ⟨⟨by decide, by decide⟩, _, rfl⟩

theorem predicateCircuit_type {type : PredicateType} {count : Nat} {hasIncumbent : Bool}
    {c : BooleanCircuit} (h : predicateCircuit type count hasIncumbent = .ok c) :
    type = .pruneNode ∨ type = .acceptCandidate := by
  cases type with
  | pruneNode => exact Or.inl rfl
  | acceptCandidate => exact Or.inr rfl
  | other value => cases h

/-! ## The unfused path -/

/-- An engine without a fused backend, whose parties compute with small plaintexts and tell the
truth. -/
structure Unfused {σ C : Type} [Secure.CiphertextLike C] (e : Secure.PredicateEngine σ C)
    (D : C → Int → Prop) (J : σ → Prop) : Prop where
  parties : Secure.PredicateEngine.Parties e D Small (· ≤ thresholdMaxBatchSize) J Eq Never
  none : e.ops.fused = none

section

variable {σ C : Type} [Secure.CiphertextLike C] {e : Secure.PredicateEngine σ C}
  {D : C → Int → Prop} {J : σ → Prop} {context : PredicateContext} {consumed : List Bytes} {s : σ}

theorem evaluates_returns {p : Bool} {m : Secure.SecureM (Secure.EngineWorld σ) Bool}
    (h : Secure.PredicateEngine.Evaluates J Eq Never context consumed p m) (hs : J s)
    (hfresh : Secure.replayKey context ∉ consumed) :
    ∃ w, m (s, consumed) = .ok p w := by
  rcases h.run (s := (s, consumed)) ⟨hs, rfl⟩ with
    ⟨b, w, hrun, hb, _⟩ | ⟨err, w, _, ⟨hmem, _⟩ | hnever⟩
  · obtain rfl : p = b := hb
    exact ⟨w, hrun⟩
  · exact absurd hmem hfresh
  · exact hnever.elim

/-- Without an incumbent the lower bounds are not read. -/
theorem pruneNode_without (hnone : e.ops.fused = none) {inputs : PruneInputs C}
    (hinc : inputs.hasIncumbent = false) :
    e.pruneNode context inputs = e.pruneNode context { inputs with costLowers := [] } := by
  rcases inputs with ⟨linearUpper, costLowers, hasIncumbent, incumbentCost⟩
  obtain rfl : hasIncumbent = false := hinc
  have hunasked (lowers : List C) (error : Error) :
      (require (false = true → lowers.isEmpty = false) error : Secure.SecureM σ PUnit) = pure ⟨⟩ :=
    funext fun _ => require_of_pos fun hyes => absurd hyes (by decide)
  have hbit (lowers : List C) :
      Secure.PredicateEngine.pruneBit e.ops ⟨linearUpper, lowers, false, incumbentCost⟩ =
        Secure.PredicateEngine.pruneBit e.ops ⟨linearUpper, [], false, incumbentCost⟩ := by
    simp only [Secure.PredicateEngine.pruneBit, Secure.PredicateEngine.pruneComparisons, hunasked]
    rfl
  simp only [Secure.PredicateEngine.pruneNode, Secure.PredicateEngine.fusedBackend, hnone,
    pure_bind]
  rw [hbit costLowers]

theorem unfused_prune (h : Unfused e D J) (hvalid : Secure.PredicateEngine.Valid context)
    (htype : context.predicateType = .pruneNode) (hs : J s)
    (hfresh : Secure.replayKey context ∉ consumed) {inputs : PruneInputs C} {v : PruneInputs Int}
    (hin : inputs.Holds D v) (hfits : PruneFits v) :
    ∃ w, e.pruneNode context inputs (s, consumed) = .ok v.holds w := by
  have hbits : Small 0 ∧ Small 1 := ⟨small_zero, by norm_num [Small]⟩
  cases hinc : v.hasIncumbent with
  | false =>
      have hinputs : inputs.hasIncumbent = false := hin.hasIncumbent.trans hinc
      have hin' : PruneInputs.Holds D { inputs with costLowers := [] }
          { v with costLowers := [] } :=
        ⟨hin.linearUpper, .nil, hin.hasIncumbent, hin.incumbentCost⟩
      have hadm : PruneInputs.Admits Small (· ≤ thresholdMaxBatchSize)
          { v with costLowers := [] } :=
        ⟨hbits, hfits.linearUpper, fun hyes => absurd (hinc.symm.trans hyes) (by decide),
          fun k _ hk => hk.trans (Nat.succ_le_of_lt (by decide : 0 < thresholdMaxBatchSize))⟩
      have hholds : ({ v with costLowers := [] } : PruneInputs Int).holds = v.holds := by
        simp [PruneInputs.holds, hinc]
      rw [pruneNode_without h.none hinputs, ← hholds]
      exact evaluates_returns (Secure.PredicateEngine.pruneNode_spec consumed h.parties hvalid htype
        hin' hadm) hs hfresh
  | true =>
      rcases hfits.costLowers hinc with ⟨hcount, hsmall, hcost⟩
      have hadm : v.Admits Small (· ≤ thresholdMaxBatchSize) :=
        ⟨hbits, hfits.linearUpper,
          fun _ => ⟨List.length_pos_iff.1 hcount.1, hsmall, hcost⟩,
          fun k _ hk => hk.trans hcount.2⟩
      exact evaluates_returns (Secure.PredicateEngine.pruneNode_spec consumed h.parties hvalid htype
        hin hadm) hs hfresh

theorem unfused_accept (h : Unfused e D J) (hvalid : Secure.PredicateEngine.Valid context)
    (htype : context.predicateType = .acceptCandidate) (hs : J s)
    (hfresh : Secure.replayKey context ∉ consumed) {inputs : AcceptInputs C}
    {v : AcceptInputs Int} (hin : inputs.Holds D v) (hfits : AcceptFits v) :
    ∃ w, e.acceptCandidate context inputs (s, consumed) = .ok v.holds w := by
  have hadm : v.Admits Small (· ≤ thresholdMaxBatchSize) :=
    ⟨⟨small_zero, by norm_num [Small]⟩, hfits.candidate, hfits.incumbent,
      fun k _ hk => hk.trans (by decide)⟩
  exact evaluates_returns (Secure.PredicateEngine.acceptCandidate_spec consumed h.parties hvalid
    htype hin hadm) hs hfresh

end

/-! ## Decisions -/

/-- A run begins with a server between two predicates, after any history in which the pair was not
consumed, and in surroundings in which keys are drawn and replies arrive. -/
structure Fresh (csp : Csp) (sha256 : Bytes → Label) (ot : OtKey) (context : PredicateContext)
    (server : Server) (key : Nat → BelowNonzero ot.n)
    (startEnv finishEnv : Surroundings csp.modulus) : Prop where
  reached : ∃ history, server = Server.run csp sha256 history
  phase : server.phase = .serving
  idle : server.state.pending = none
  fresh : (context.sessionId, context.operationId) ∉ consumedPairs server.state.events
  keys : startEnv.keys = .ok fun i => (key i).value
  startSends : ∀ reply, startEnv.send reply = .ok ()
  finishSends : ∀ reply, finishEnv.send reply = .ok ()

theorem zero_notMem_identifier {value : Bytes} (h : validIdentifier value = true) :
    (0 : UInt8) ∉ value := by
  simp only [validIdentifier, Bool.and_eq_true, List.all_eq_true] at h
  exact fun hmem => absurd (h.2 0 hmem) (by decide)

theorem contextField_identifier {value : Bytes} (h : validIdentifier value = true) :
    ContextField value := by
  simp only [validIdentifier, Bool.and_eq_true, decide_eq_true_eq, Bool.not_eq_true',
    List.isEmpty_eq_false_iff] at h
  exact ⟨h.1.1, h.1.2⟩

theorem Fresh.meets {csp : Csp} {sha256 : Bytes → Label} {ot : OtKey} {context : PredicateContext}
    {server : Server} {key : Nat → BelowNonzero ot.n}
    {startEnv finishEnv : Surroundings csp.modulus}
    (h : Fresh csp sha256 ot context server key startEnv finishEnv)
    (hvalid : Secure.PredicateEngine.Valid context) :
    Meets csp ot context server key startEnv finishEnv := by
  rcases h.reached with ⟨history, hserver⟩
  have hsound : server.Sound := by
    rw [hserver]
    exact Server.run_sound csp sha256 history
  refine ⟨h.phase, h.idle, fun hmem => ?_, h.keys, h.startSends, h.finishSends⟩
  rcases List.mem_map.1 ((hsound.state.mem_replays _).1 hmem) with ⟨pair, hpair, hkey⟩
  rcases pairKey_eq_iff.1 hkey with rfl | hstraddles | hstraddles
  · exact h.fresh hpair
  · exact not_straddles (zero_notMem_identifier hvalid.1) hstraddles
  · rcases hstraddles with ⟨t, _, hoperation⟩
    have hzero : context.operationId = t ++ 0 :: pair.2 := hoperation
    refine zero_notMem_identifier hvalid.2.1 ?_
    rw [hzero]
    exact List.mem_append_right _ List.mem_cons_self

/-- The run returns this decision and leaves the server between two predicates. -/
def Decides (run : EStateM Error Server Bool) (server : Server) (decision : Bool) : Prop :=
  ∃ server', run server = .ok decision server' ∧ server'.phase = .serving ∧
    server'.state.pending = none

/-- Every engine on the unfused path reveals this decision. -/
def PruneReveals (context : PredicateContext) (v : PruneInputs Int) (decision : Bool) : Prop :=
  ∀ (σ C : Type) (_ : Secure.CiphertextLike C) (e : Secure.PredicateEngine σ C)
    (D : C → Int → Prop) (J : σ → Prop) (consumed : List Bytes) (s : σ) (inputs : PruneInputs C),
    Unfused e D J → J s → Secure.replayKey context ∉ consumed → inputs.Holds D v →
      ∃ w, e.pruneNode context inputs (s, consumed) = .ok decision w

def AcceptReveals (context : PredicateContext) (v : AcceptInputs Int) (decision : Bool) : Prop :=
  ∀ (σ C : Type) (_ : Secure.CiphertextLike C) (e : Secure.PredicateEngine σ C)
    (D : C → Int → Prop) (J : σ → Prop) (consumed : List Bytes) (s : σ) (inputs : AcceptInputs C),
    Unfused e D J → J s → Secure.replayKey context ∉ consumed → inputs.Holds D v →
      ∃ w, e.acceptCandidate context inputs (s, consumed) = .ok decision w

/-- A fused run never fails and decides its predicate, whatever was drawn: the circuit on the
comparisons, and with the comparisons of the two predicates their formulas, as the unfused path
does. -/
theorem fused_decides {parties : Parties} (h : parties.DecryptsCorrectly)
    (hbits : 3072 ≤ sizeInBase2 parties.modulus ∧ sizeInBase2 parties.modulus ≤ 8192)
    {sha256 : Bytes → Label} {ot : OtKey} {context : PredicateContext} {server : Server}
    {key : Nat → BelowNonzero ot.n} {startEnv finishEnv : Surroundings parties.csp.modulus}
    (hvalid : Secure.PredicateEngine.Valid context)
    (hfresh : Fresh parties.csp sha256 ot context server key startEnv finishEnv)
    (draws : FusedDraws parties.modulus ot.n) (mode : UInt8) :
    (∀ items xs hasIncumbent c, Parties.Operands parties items xs → 1 ≤ items.length →
      items.length ≤ 32 →
        predicateCircuit context.predicateType items.length hasIncumbent = .ok c →
          Decides (parties.fusedPredicate sha256 ot context items hasIncumbent draws startEnv
            finishEnv) server
              (predicateBit context.predicateType hasIncumbent (compared xs))) ∧
    (context.predicateType = .pruneNode → ∀ inputs v, PruneInputs.Holds (Carries parties mode)
      inputs v → PruneFits v →
        Decides (parties.fusedPruneNode sha256 ot mode context inputs draws startEnv finishEnv)
          server v.holds ∧ PruneReveals context v v.holds) ∧
    (context.predicateType = .acceptCandidate → ∀ inputs v, AcceptInputs.Holds
      (Carries parties mode) inputs v → AcceptFits v →
        Decides (parties.fusedAcceptCandidate sha256 ot mode context inputs draws startEnv
          finishEnv) server v.holds ∧ AcceptReveals context v v.holds) := by
  have hmeets := hfresh.meets hvalid
  have hfields : ContextFields context := ⟨contextField_identifier hvalid.1,
    contextField_identifier hvalid.2.1, contextField_identifier hvalid.2.2⟩
  have hgeneral : ∀ items xs hasIncumbent c, Parties.Operands parties items xs →
      1 ≤ items.length → items.length ≤ 32 →
        predicateCircuit context.predicateType items.length hasIncumbent = .ok c →
          Decides (parties.fusedPredicate sha256 ot context items hasIncumbent draws startEnv
            finishEnv) server
              (predicateBit context.predicateType hasIncumbent (compared xs)) := by
    intro items xs hasIncumbent c hitems hlo hhi hcircuit
    rcases (Parties.fusedPredicate_spec h hbits.1 hbits.2
      ⟨hfields, predicateCircuit_type hcircuit⟩ hmeets hitems ⟨hlo, hhi⟩ hcircuit).returns rfl with
      ⟨decision, server', hrun, rfl, hphase, hidle⟩
    exact ⟨server', hrun, hphase, hidle⟩
  have hzero := encrypts_paillierEncrypt 0 draws.zero
  refine ⟨hgeneral, fun htype inputs v hin hfits => ⟨?_, ?_⟩,
    fun htype inputs v hin hfits => ⟨?_, ?_⟩⟩
  · rcases pruneItems_spec hzero hin hfits with ⟨items, hitems, hops⟩
    rcases prune_hasCircuit hfits with ⟨hn, c, hcircuit⟩
    rw [← List.Forall₂.length_eq hops] at hn hcircuit
    rw [← htype] at hcircuit
    have hdecides := hgeneral items _ v.hasIncumbent c hops hn.1 hn.2 hcircuit
    rw [htype, predicateBit_prune] at hdecides
    rw [← hin.hasIncumbent] at hdecides
    unfold Parties.fusedPruneNode
    rw [hitems]
    exact hdecides
  · exact fun σ C _ e D J consumed s engineInputs hunfused hs hnew hin =>
      unfused_prune hunfused hvalid htype hs hnew hin hfits
  · rcases acceptItems_spec hzero hin hfits with ⟨items, hitems, hops⟩
    rcases accept_hasCircuit v with ⟨hn, c, hcircuit⟩
    rw [← List.Forall₂.length_eq hops] at hn hcircuit
    rw [← htype] at hcircuit
    have hdecides := hgeneral items _ v.hasIncumbent c hops hn.1 hn.2 hcircuit
    rw [htype, predicateBit_accept] at hdecides
    rw [← hin.hasIncumbent] at hdecides
    unfold Parties.fusedAcceptCandidate
    rw [hitems]
    exact hdecides
  · exact fun σ C _ e D J consumed s engineInputs hunfused hs hnew hin =>
      unfused_accept hunfused hvalid htype hs hnew hin hfits

/-! ## A run on a key of 3072 bits -/

theorem exists_otKey : ∃ ot : OtKey, ot.n = leftPrime * rightPrime := by
  have hkeys := keyPrimes_3072
  have horder : 1 < (leftPrime - 1) * (rightPrime - 1) := by decide +kernel
  have hcoprime : Nat.Coprime rsaF4 ((leftPrime - 1) * (rightPrime - 1)) := by decide +kernel
  obtain ⟨d, _, hd⟩ := Nat.exists_mul_mod_eq_one_of_coprime hcoprime horder
  have hone : rsaF4 * d ≡ 1 [MOD (leftPrime - 1) * (rightPrime - 1)] :=
    hd.trans (Nat.mod_eq_of_lt horder).symm
  have hpos : 0 < rsaF4 * d := by
    refine Nat.pos_of_ne_zero fun hzero => ?_
    rw [hzero, Nat.zero_mod] at hd
    exact Nat.zero_ne_one hd
  refine ⟨⟨leftPrime * rightPrime, rsaF4, d, by decide +kernel, rfl, fun k hk => ?_⟩, rfl⟩
  have hself := Modular.pow_modEq_self hkeys.left hkeys.right hkeys.distinct hpos
    (hone.of_dvd (Nat.dvd_mul_right ..)) (hone.of_dvd (Nat.dvd_mul_left ..)) k
  have hmod : k ^ (rsaF4 * d) % (leftPrime * rightPrime) = k % (leftPrime * rightPrime) := hself
  rw [Modular.powMod_eq, Modular.powMod_eq, ← Nat.pow_mod, ← pow_mul, hmod]
  exact Nat.mod_eq_of_lt hk

/-- The string of a ciphertext carries its plaintext. -/
theorem carries_canonicalBytes {parties : Parties} (hmod : 1 < parties.modulus)
    (hsize : sizeInBase2 parties.modulus ≤ 8192) (mode : UInt8) {c : Nat} {x : Int}
    (henc : Encrypts parties.modulus c x) :
    Carries parties mode ⟨Runtime.canonicalBytes mode (BigEndian.magnitude c)⟩ x := by
  have hsmall : exportedSize c < 2 ^ 32 :=
    Nat.lt_of_le_of_lt ((exportedSize_mono henc.lt.le).trans (exportedSize_square hsize))
      (by decide)
  have hdecode := Runtime.decode_canonicalBytes mode (z := c)
    (Int.natCast_pos.2 (henc.pos hmod)) hsmall
  have hne : Runtime.canonicalBytes mode (BigEndian.magnitude c) ≠ [] := by
    simp [Runtime.canonicalBytes]
  refine ⟨c, bind_eq_ok.2 ⟨(), ensure_eq_ok.2 hne, ?_⟩, henc⟩
  exact bind_eq_ok.2 ⟨(c : Int), congrArg (Except.mapError thrownError) hdecode, rfl⟩

/-- An incumbent of cost 2 and a lower bound of 3. -/
theorem fused_decides_3072 : ∃ (parties : Parties) (ot : OtKey) (server : Server)
    (inputs : PruneInputs Secure.Ciphertext) (draws : FusedDraws parties.modulus ot.n)
    (startEnv finishEnv : Surroundings parties.csp.modulus),
    sizeInBase2 parties.modulus = 3072 ∧
      inputs.Holds (Carries parties 1) ⟨5, [3], true, 2⟩ ∧
        Decides (parties.fusedPruneNode (fun bytes => BitVec.ofNat 256 (BigEndian.ofBytes bytes)) ot
          1 ⟨ascii "s", ascii "op", .pruneNode, 0, ascii "n"⟩ inputs draws startEnv finishEnv)
            server true := by
  rcases exists_parties_3072 with ⟨parties, hcorrect, hsize⟩
  rcases exists_otKey with ⟨ot, hn⟩
  have hmod := one_lt_modulus hsize.ge
  have hbits : 3072 ≤ sizeInBase2 parties.modulus ∧ sizeInBase2 parties.modulus ≤ 8192 := by
    rw [hsize]
    decide
  let nonce := Parties.unitNonce hmod
  let one : BelowNonzero ot.n := ⟨1, Nat.one_pos, by rw [hn]; decide +kernel⟩
  let draw : CompareDraw :=
    ⟨⟨2 ^ 127 + 1, by decide, by decide⟩, Parties.leastMask, by decide, true⟩
  let draws : FusedDraws parties.modulus ot.n :=
    ⟨nonce, fun _ => draw, fun _ => nonce, fun _ => one, fun _ => one, 0, fun _ => 0⟩
  let env : Surroundings parties.csp.modulus :=
    ⟨.ok fun _ => 1, .ok fun _ => nonce, fun _ => 0, 0, fun _ => .ok ()⟩
  let sealed (x : Int) : Secure.Ciphertext :=
    ⟨Runtime.canonicalBytes 1 (BigEndian.magnitude (paillierEncrypt x parties.modulus nonce))⟩
  have hsealed (x : Int) : Carries parties 1 (sealed x) x :=
    carries_canonicalBytes hmod hbits.2 1 (encrypts_paillierEncrypt x nonce)
  have hin : PruneInputs.Holds (Carries parties 1) ⟨sealed 5, [sealed 3], true, sealed 2⟩
      ⟨5, [3], true, 2⟩ :=
    ⟨hsealed 5, .cons (hsealed 3) .nil, rfl, fun _ => hsealed 2⟩
  have hsmall : PruneFits ⟨5, [3], true, 2⟩ :=
    ⟨by norm_num [Small], fun _ => ⟨by decide, by norm_num [Small]⟩⟩
  have hfresh : Fresh parties.csp (fun bytes => BitVec.ofNat 256 (BigEndian.ofBytes bytes)) ot
      ⟨ascii "s", ascii "op", .pruneNode, 0, ascii "n"⟩
      (Server.run parties.csp (fun bytes => BitVec.ofNat 256 (BigEndian.ofBytes bytes))
        [.connect (.ok ())]) (fun _ => one) env env :=
    ⟨⟨_, rfl⟩, rfl, rfl, List.not_mem_nil, rfl, fun _ => rfl, fun _ => rfl⟩
  have hvalid : Secure.PredicateEngine.Valid
      ⟨ascii "s", ascii "op", .pruneNode, 0, ascii "n"⟩ :=
    ⟨by decide, by decide, by decide⟩
  have hdecides := (fused_decides hcorrect hbits hvalid hfresh draws 1).2.1 rfl _ _ hin hsmall
  exact ⟨parties, ot, _, _, draws, env, env, hsize, hin, hdecides.1⟩

end Protocol
end SociSgx

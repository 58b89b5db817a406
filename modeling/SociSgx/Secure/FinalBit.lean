import SociSgx.Secure.PredicateEngine

/-!
# FinalBit — what an evaluation reveals

The engine hands one encrypted bit of an evaluation to `revealFinalBit`.  Here its resolver keeps a
log of these calls, next to the state of the backend; the engine is otherwise the same, which
`logging_pruneNode` and `logging_acceptCandidate` say for every backend and every state.
-/

namespace SociSgx
namespace Secure

open Exec

variable {σ C κ : Type}

/-! ## A backend in a larger state -/

namespace SecureOps

variable (ops : SecureOps σ C)

theorem onFst_sub (a b : C) : Erases Prod.fst ((ops.onFst κ).sub a b) (ops.sub a b) :=
  Erases.onFst.bind fun _ => Erases.onFst

theorem onFst_bitNot (a : EncryptedBit C) :
    Erases Prod.fst ((ops.onFst κ).bitNot a) (ops.bitNot a) :=
  Erases.onFst.bind fun _ => (onFst_sub ops _ _).bind fun _ => Erases.pure _

theorem onFst_bitAnd (a b : EncryptedBit C) :
    Erases Prod.fst ((ops.onFst κ).bitAnd a b) (ops.bitAnd a b) :=
  Erases.onFst.bind fun _ => Erases.pure _

theorem onFst_bitOr (a b : EncryptedBit C) :
    Erases Prod.fst ((ops.onFst κ).bitOr a b) (ops.bitOr a b) := by
  refine Erases.onFst.bind fun product => ?_
  refine Erases.onFst.bind fun sum => ?_
  exact (onFst_sub ops sum product).bind fun c => Erases.pure _

theorem onFst_bitOrExclusive (a b : EncryptedBit C) :
    Erases Prod.fst ((ops.onFst κ).bitOrExclusive a b) (ops.bitOrExclusive a b) :=
  Erases.onFst.bind fun _ => Erases.pure _

theorem onFst_bitOrBatch (items : List (EncryptedBit C × EncryptedBit C)) :
    Erases Prod.fst ((ops.onFst κ).bitOrBatch items) (ops.bitOrBatch items) := by
  refine Erases.onFst.bind fun products => Erases.mapM (fun entry => ?_) _
  refine Erases.onFst.bind fun sum => ?_
  exact (onFst_sub ops sum entry.2).bind fun c => Erases.pure _

end SecureOps

namespace PredicateEngine

theorem foldLayers_onFst (ops : SecureOps σ C) (fuel : Nat) (layer : List (EncryptedBit C)) :
    Erases Prod.fst (foldLayers (ops.onFst κ) fuel layer) (foldLayers ops fuel layer) := by
  induction fuel generalizing layer with
  | zero => exact Erases.pure layer
  | succ fuel ih =>
      by_cases hone : layer.length ≤ 1
      · simp only [foldLayers, if_pos hone]
        exact Erases.pure layer
      · simp only [foldLayers, if_neg hone]
        exact (ops.onFst_bitOrBatch _).bind fun next => ih _

/-! ## The engine with a log -/

/-- A call of `revealFinalBit`. -/
abbrev Reveal (C : Type) := PredicateContext × EncryptedBit C

variable (e : PredicateEngine σ C)

/-- The engine whose resolver notes every call, also one that fails. -/
def logging : PredicateEngine (σ × List (Reveal C)) C where
  ops := e.ops.onFst _
  authorizer := fun context => onFst (e.authorizer context)
  resolver := fun context bit => do
    update (· ++ [(context, bit)])
    onFst (e.resolver context bit)

/-- The world without the log. -/
def forget (world : EngineWorld (σ × List (Reveal C))) : EngineWorld σ :=
  (world.1.1, world.2)

theorem logging_authorizeAndConsume (context : PredicateContext) (expectedType : PredicateType) :
    Erases forget (e.logging.authorizeAndConsume context expectedType)
      (e.authorizeAndConsume context expectedType) := by
  unfold authorizeAndConsume validate
  refine Erases.bind ((Erases.require _ _).bind fun _ => Erases.require _ _) fun _ => ?_
  refine (Erases.require _ _).bind fun _ => ?_
  refine (Erases.lift Erases.onFst).bind fun authorized => ?_
  refine (Erases.require _ _).bind fun _ w => ?_
  by_cases hmem : replayKey context ∈ w.2
  · simp [consume, hmem, seen]
  · simp [consume, hmem, seen]

theorem logging_evaluateFinalBit (context : PredicateContext) (expectedType : PredicateType)
    (finalBit : EncryptedBit C) :
    Erases forget (e.logging.evaluateFinalBit context expectedType finalBit)
      (e.evaluateFinalBit context expectedType finalBit) := by
  refine (logging_authorizeAndConsume e context expectedType).bind fun _ => ?_
  refine Erases.lift fun t => ?_
  exact Erases.onFst (t.1, t.2 ++ [(context, finalBit)])

/-- The fused path over the larger state. -/
def fusedOnFst (fused : FusedPredicateBackend σ C) :
    FusedPredicateBackend (σ × List (Reveal C)) C where
  predicateFusionEnabled := onFst fused.predicateFusionEnabled
  fusedPruneNode := fun context inputs => onFst (fused.fusedPruneNode context inputs)
  fusedAcceptCandidate := fun context inputs => onFst (fused.fusedAcceptCandidate context inputs)

/-- The same path is taken. -/
theorem logging_fusedBackend {α : Type}
    {f' : Option (FusedPredicateBackend (σ × List (Reveal C)) C) →
      SecureM (EngineWorld (σ × List (Reveal C))) α}
    {f : Option (FusedPredicateBackend σ C) → SecureM (EngineWorld σ) α}
    (hnone : Erases forget (f' none) (f none))
    (hsome : ∀ fused, Erases forget (f' (some (fusedOnFst fused))) (f (some fused))) :
    Erases forget (e.logging.fusedBackend >>= f') (e.fusedBackend >>= f) := by
  have hlogged : e.logging.ops.fused = e.ops.fused.map fusedOnFst := rfl
  cases hfused : e.ops.fused with
  | none => simpa [fusedBackend, hlogged, hfused] using hnone
  | some fused =>
      simp only [fusedBackend, hlogged, hfused, Option.map_some, bind_assoc, pure_bind]
      refine (Erases.lift Erases.onFst).bind fun enabled => ?_
      cases enabled
      · exact hnone
      · exact hsome fused

variable [CiphertextLike C]

theorem pruneBit_onFst (ops : SecureOps σ C) (inputs : PruneInputs C) :
    Erases Prod.fst (pruneBit (ops.onFst κ) inputs) (pruneBit ops inputs) := by
  unfold pruneBit
  refine Erases.onFst.bind fun zero => ?_
  refine (Erases.require _ _).bind fun _ => ?_
  refine (Erases.require _ _).bind fun _ => ?_
  refine Erases.onFst.bind fun bits => ?_
  refine (front_erases bits).bind fun finalBit => ?_
  cases inputs.hasIncumbent
  · exact Erases.pure finalBit
  · refine (foldLayers_onFst ops _ _).bind fun layers => ?_
    exact (front_erases layers).bind fun costPrune => ops.onFst_bitOr _ _

theorem acceptBit_onFst (ops : SecureOps σ C) (inputs : AcceptInputs C) :
    Erases Prod.fst (acceptBit (ops.onFst κ) inputs) (acceptBit ops inputs) := by
  unfold acceptBit
  refine Erases.onFst.bind fun zero => ?_
  refine (Erases.require _ _).bind fun _ => ?_
  refine Erases.onFst.bind fun bits => ?_
  split
  · exact (ops.onFst_bitNot _).bind fun linearGe => ops.onFst_bitAnd _ _
  · refine (ops.onFst_bitNot _).bind fun linearGe => ?_
    refine (ops.onFst_bitAnd _ _).bind fun feasible => ?_
    refine (ops.onFst_bitOrExclusive _ _).bind fun costNeq => ?_
    refine (ops.onFst_bitNot _).bind fun costEq => ?_
    refine (ops.onFst_bitAnd _ _).bind fun equalAndC12 => ?_
    exact (ops.onFst_bitOrExclusive _ _).bind fun better => ops.onFst_bitAnd _ _
  · exact Erases.throw _

/-- The log changes nothing, whatever the backend, the authorizer and the resolver do. -/
theorem logging_pruneNode (context : PredicateContext) (inputs : PruneInputs C) :
    Erases forget (e.logging.pruneNode context inputs) (e.pruneNode context inputs) := by
  refine logging_fusedBackend e ?_ fun fused => ?_
  · exact (Erases.lift (pruneBit_onFst e.ops inputs)).bind fun finalBit =>
      logging_evaluateFinalBit e context .pruneNode finalBit
  · refine (Erases.require _ _).bind fun _ => ?_
    refine (logging_authorizeAndConsume e context .pruneNode).bind fun _ => ?_
    exact Erases.lift Erases.onFst

theorem logging_acceptCandidate (context : PredicateContext) (inputs : AcceptInputs C) :
    Erases forget (e.logging.acceptCandidate context inputs)
      (e.acceptCandidate context inputs) := by
  refine logging_fusedBackend e ?_ fun fused => ?_
  · exact (Erases.lift (acceptBit_onFst e.ops inputs)).bind fun finalBit =>
      logging_evaluateFinalBit e context .acceptCandidate finalBit
  · refine (Erases.require _ _).bind fun _ => ?_
    refine (logging_authorizeAndConsume e context .acceptCandidate).bind fun _ => ?_
    exact Erases.lift Erases.onFst

/-! ## One reveal -/

variable {e} {D : C → Int → Prop} {J : σ → Prop} {context : PredicateContext}

/-- The call returns what the resolver said of one bit for the truth `p`, and no other bit was
revealed; a call that throws has revealed at most this bit. -/
def RevealsOnce (e : PredicateEngine σ C) (D : C → Int → Prop) (J : σ → Prop)
    (context : PredicateContext) (p : Bool)
    (call : SecureM (EngineWorld (σ × List (Reveal C))) Bool) : Prop :=
  ∀ log, Triple (fun w => J w.1.1 ∧ w.1.2 = log) call
    (fun b w => ∃ bit, D bit.ciphertext p.toInt ∧ w.1.2 = log ++ [(context, bit)] ∧
      ∃ s s', e.resolver context bit s = .ok b s')
    (fun _ w => w.1.2 = log ∨
      ∃ bit, D bit.ciphertext p.toInt ∧ w.1.2 = log ++ [(context, bit)])

omit [CiphertextLike C] in
theorem authorizeAndConsume_log (log : List (Reveal C)) (expectedType : PredicateType) :
    Triple (fun w => w.1.2 = log) (e.logging.authorizeAndConsume context expectedType)
      (fun _ w => w.1.2 = log) (fun _ w => w.1.2 = log) := by
  unfold authorizeAndConsume validate
  have hcheck : ∀ (c : Prop) [Decidable c] (err : Error),
      Triple (fun w : EngineWorld (σ × List (Reveal C)) => w.1.2 = log) (require c err)
        (fun _ w => w.1.2 = log) (fun _ w => w.1.2 = log) :=
    fun c _ err => Triple.require_any fun _ hw => hw
  refine Triple.bind (Triple.bind (hcheck _ _) fun _ => hcheck _ _) fun _ => ?_
  refine (hcheck _ _).bind fun _ => ?_
  refine Triple.bind (Q := fun _ w => w.1.2 = log) ?_ fun authorized => ?_
  · rintro ⟨⟨s, log'⟩, keys⟩ hw
    unfold logging onFst
    dsimp only
    cases e.authorizer context s <;> exact hw
  · refine (hcheck _ _).bind fun _ w hw => ?_
    by_cases hmem : replayKey context ∈ w.2
    · simpa [consume, hmem] using hw
    · simpa [consume, hmem] using hw

omit [CiphertextLike C] in
/-- The only call of the resolver is the last step. -/
theorem evaluateFinalBit_log (log : List (Reveal C)) (expectedType : PredicateType)
    (bit : EncryptedBit C) :
    Triple (fun w => w.1.2 = log) (e.logging.evaluateFinalBit context expectedType bit)
      (fun b w => w.1.2 = log ++ [(context, bit)] ∧ ∃ s s', e.resolver context bit s = .ok b s')
      (fun _ w => w.1.2 = log ∨ w.1.2 = log ++ [(context, bit)]) := by
  refine Triple.bind (Q := fun _ w => w.1.2 = log)
    ((authorizeAndConsume_log log expectedType).weaken (fun _ hw => hw) (fun _ _ hw => hw)
      fun _ _ hw => Or.inl hw) fun _ => ?_
  rintro ⟨⟨s, log'⟩, keys⟩ hw
  have hlog : log' = log := hw
  subst hlog
  cases hrun : e.resolver context bit s with
  | ok b s' =>
      have hlast : e.logging.resolver context bit (s, log') =
          .ok b (s', log' ++ [(context, bit)]) := by
        have hfst : onFst (e.resolver context bit) (s, log' ++ [(context, bit)]) =
            .ok b (s', log' ++ [(context, bit)]) := by simp [onFst, hrun]
        exact hfst
      simp only [onFst, hlast]
      exact ⟨trivial, s, s', hrun⟩
  | error err s' =>
      have hlast : e.logging.resolver context bit (s, log') =
          .error err (s', log' ++ [(context, bit)]) := by
        have hfst : onFst (e.resolver context bit) (s, log' ++ [(context, bit)]) =
            .error err (s', log' ++ [(context, bit)]) := by simp [onFst, hrun]
        exact hfst
      simp only [onFst, hlast]
      exact Or.inr trivial

omit [CiphertextLike C] in
/-- Without fusion an evaluation makes the final bit and hands it over. -/
theorem revealsOnce_of_bit {p : Bool} (expectedType : PredicateType)
    {m : SecureM (σ × List (Reveal C)) (EncryptedBit C)}
    (hm : ∀ log, Yields (fun t => J t.1 ∧ t.2 = log) m (fun bit => D bit.ciphertext p.toInt)
      (fun _ t => t.2 = log)) :
    RevealsOnce e D J context p (do
      let finalBit ← onFst m
      e.logging.evaluateFinalBit context expectedType finalBit) := by
  intro log
  have hbit := Triple.onFst (κ := List Bytes) (hm log) fun _ => True
  refine Triple.bind (hbit.weaken (fun w hw => ⟨hw, trivial⟩) (fun _ _ hw => hw.1)
    fun _ w hw => Or.inl hw.1) fun bit => Triple.assuming fun hbit => ?_
  refine (evaluateFinalBit_log log expectedType bit).weaken (fun w hw => hw.2) ?_ ?_
  · exact fun b w hw => ⟨bit, hbit, hw⟩
  · exact fun _ w hw => hw.imp id fun hlog => ⟨bit, hbit, hlog⟩

omit [CiphertextLike C] in
theorem logging_unfused (log : List (Reveal C))
    (hunfused : ∀ fused ∈ e.ops.fused, Yields J fused.predicateFusionEnabled (· = false) Never) :
    Triple (fun w : EngineWorld (σ × List (Reveal C)) => J w.1.1 ∧ w.1.2 = log)
      e.logging.fusedBackend (fun found w => found.isNone = true ∧ J w.1.1 ∧ w.1.2 = log)
      Never := by
  have hlogged : e.logging.ops.fused = e.ops.fused.map fusedOnFst := rfl
  cases hfused : e.ops.fused with
  | none =>
      simp only [fusedBackend, hlogged, hfused, Option.map_none]
      exact Yields.pure rfl
  | some fused =>
      simp only [fusedBackend, hlogged, hfused, Option.map_some]
      have henabled := Triple.onFst (κ := List Bytes)
        (Yields.onFst (hunfused fused hfused) fun log' => log' = log) fun _ => True
      refine Triple.bind (henabled.weaken (fun w hw => ⟨hw, trivial⟩) (fun _ _ hw => hw.1)
        fun _ w hw => hw.1) fun enabled => Triple.assuming fun henabled => ?_
      refine Triple.pure fun w hw => ⟨?_, hw⟩
      rw [henabled]
      rfl

/-! ## The contract -/

/-- An evaluation of a predicate with the truth `p`, together with a version of its circuit whose
gates are noted and a version of the call whose reveals are noted. -/
structure Evaluation (e : PredicateEngine σ C) (D : C → Int → Prop) (J : σ → Prop)
    (context : PredicateContext) (p : Bool) (gated : GateM σ C (EncryptedBit C))
    (circuit : SecureM σ (EncryptedBit C))
    (logged : SecureM (EngineWorld (σ × List (Reveal C))) Bool)
    (call : SecureM (EngineWorld σ) Bool) : Prop where
  sameCircuit : Erases Prod.fst gated circuit
  sameCall : Erases forget logged call
  gates : Yields (GatesHold J D) gated (fun bit => D bit.ciphertext p.toInt)
    (fun _ => GatesHold J D)
  once : RevealsOnce e D J context p logged

/-- Over an exact backend and without fusion every evaluation reveals one bit, the predicate, and
every bit on the way to it is a truth value. -/
theorem reveals_the_predicate
    (h : ExactOps e.ops D (fun _ => True) (fun _ => True) J)
    (hunfused : ∀ fused ∈ e.ops.fused, Yields J fused.predicateFusionEnabled (· = false) Never)
    (context : PredicateContext) :
    (∀ inputs v, PruneInputs.Holds D inputs v →
      Evaluation e D J context v.holds (gatedPruneBit e.ops inputs) (pruneBit e.ops inputs)
        (e.logging.pruneNode context inputs) (e.pruneNode context inputs)) ∧
    (∀ inputs v, AcceptInputs.Holds D inputs v →
      Evaluation e D J context v.holds (gatedAcceptBit e.ops inputs) (acceptBit e.ops inputs)
        (e.logging.acceptCandidate context inputs) (e.acceptCandidate context inputs)) := by
  have hlogged := fun log : List (Reveal C) => h.onFst fun log' => log' = log
  have hunfused := fun log : List (Reveal C) => logging_unfused log hunfused
  constructor
  · intro inputs v hin
    have hadm : (v.hasIncumbent = true → v.costLowers ≠ []) →
        v.Admits (fun _ => True) fun _ => True :=
      fun hne => ⟨⟨trivial, trivial⟩, trivial,
        fun hinc => ⟨hne hinc, fun _ _ => trivial, trivial⟩, fun _ _ _ => trivial⟩
    -- The bit is made without a reveal, and then revealed once.
    have hbit : RevealsOnce e D J context v.holds _ := revealsOnce_of_bit .pruneNode
      fun log => pruneBit_total (hlogged log) hin hadm fun _ _ ht => ht.2
    refine ⟨gatedPruneBit_erases e.ops inputs, logging_pruneNode e context inputs,
      gatedPruneBit_spec h hin hadm (Or.inr fun _ _ ht => ht), fun log => ?_⟩
    refine (hunfused log).ofNever.bind fun found => Triple.assuming fun hnone => ?_
    cases found with
    | none => exact hbit log
    | some fused => cases hnone
  · intro inputs v hin
    have hadm : v.Admits (fun _ => True) fun _ => True :=
      ⟨⟨trivial, trivial⟩, ⟨trivial, trivial, trivial, trivial⟩,
        fun _ => ⟨trivial, trivial⟩, fun _ _ _ => trivial⟩
    have hbit : RevealsOnce e D J context v.holds _ := revealsOnce_of_bit .acceptCandidate
      fun log => (acceptBit_spec (hlogged log) hin hadm).ofNever
    refine ⟨gatedAcceptBit_erases e.ops inputs, logging_acceptCandidate e context inputs,
      gatedAcceptBit_spec h hin hadm, fun log => ?_⟩
    refine (hunfused log).ofNever.bind fun found => Triple.assuming fun hnone => ?_
    cases found with
    | none => exact hbit log
    | some fused => cases hnone

/-- An engine whose parties see the plaintexts. -/
def openEngine : PredicateEngine Unit (Option Int) where
  ops := clearOps {}
  authorizer := fun _ => pure true
  resolver := fun _ bit => pure (decide (bit.ciphertext = some 1))

/-- Three lower bounds, the last of which is above the incumbent. -/
def threeLowers : PruneInputs Int :=
  ⟨5, [1, 2, 9], true, 8⟩

theorem reveals_the_predicate_threeLowers :
    RevealsOnce openEngine (fun c x => c = some x) (fun _ => True)
      ⟨ascii "s", ascii "op", .pruneNode, 0, ascii "n"⟩ true
      (openEngine.logging.pruneNode ⟨ascii "s", ascii "op", .pruneNode, 0, ascii "n"⟩
        ⟨some 5, [some 1, some 2, some 9], true, some 8⟩) := by
  have hunfused : ∀ fused ∈ openEngine.ops.fused,
      Yields (fun _ => True) fused.predicateFusionEnabled (· = false) Never := by
    intro fused hfused
    cases hfused
  have hin : PruneInputs.Holds (fun c x => c = some x)
      ⟨some 5, [some 1, some 2, some 9], true, some 8⟩ threeLowers :=
    ⟨rfl, .cons rfl (.cons rfl (.cons rfl .nil)), rfl, fun _ => rfl⟩
  have hholds : threeLowers.holds = true := by decide
  have hrun := (reveals_the_predicate (e := openEngine) (clearOps_exact {} _ _) hunfused
    ⟨ascii "s", ascii "op", .pruneNode, 0, ascii "n"⟩).1 _ _ hin
  rw [hholds] at hrun
  exact hrun.once

end PredicateEngine
end Secure
end SociSgx

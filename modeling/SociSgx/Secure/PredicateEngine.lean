import SociSgx.Lib.GhostLog
import SociSgx.Secure.Ops

/-!
# PredicateEngine — from encrypted bits to control flow

`PredicateEngine` evaluates `PRUNE_NODE` and `ACCEPT_CANDIDATE` and reveals one bit per
evaluation, after identifier validation, authorization, and a single-use check of the pair
(session, operation).  Its state is the set of consumed pairs, next to the state of the backend;
the set survives an exception.

The specifications at the end are stated for parties that answer by a relation `Ans`: the truth
`p` of the predicate may be answered with `b` when `Ans p b`.  With `Ans := Eq` the engine tells the
truth; with `Ans` always true nothing is assumed about the answers.
-/

namespace SociSgx
namespace Secure

open Exec

variable {σ C : Type}

/-! ## Plaintexts -/

/-- The inputs are ciphertexts of the plaintexts `v`; an absent incumbent has no ciphertext. -/
structure PruneInputs.Holds (D : C → Int → Prop) (inputs : PruneInputs C) (v : PruneInputs Int) :
    Prop where
  linearUpper : D inputs.linearUpper v.linearUpper
  costLowers : List.Forall₂ D inputs.costLowers v.costLowers
  hasIncumbent : inputs.hasIncumbent = v.hasIncumbent
  incumbentCost : v.hasIncumbent = true → D inputs.incumbentCost v.incumbentCost

structure AcceptInputs.Holds (D : C → Int → Prop) (inputs : AcceptInputs C)
    (v : AcceptInputs Int) : Prop where
  linear : D inputs.linear v.linear
  c3 : D inputs.c3 v.c3
  cost : D inputs.cost v.cost
  c12 : D inputs.c12 v.c12
  hasIncumbent : inputs.hasIncumbent = v.hasIncumbent
  incumbentCost : v.hasIncumbent = true → D inputs.incumbentCost v.incumbentCost
  incumbentC12 : v.hasIncumbent = true → D inputs.incumbentC12 v.incumbentC12

/-- The plaintexts that `PRUNE_NODE` compares, and the batches that it forms, are admissible. -/
structure PruneInputs.Admits (Fits : Int → Prop) (Batch : Nat → Prop) (v : PruneInputs Int) :
    Prop where
  bits : Fits 0 ∧ Fits 1
  linearUpper : Fits v.linearUpper
  costLowers : v.hasIncumbent = true →
    v.costLowers ≠ [] ∧ (∀ x ∈ v.costLowers, Fits x) ∧ Fits v.incumbentCost
  batch : ∀ k, 1 ≤ k → k ≤ v.costLowers.length + 1 → Batch k

structure AcceptInputs.Admits (Fits : Int → Prop) (Batch : Nat → Prop) (v : AcceptInputs Int) :
    Prop where
  bits : Fits 0 ∧ Fits 1
  candidate : Fits v.linear ∧ Fits v.c3 ∧ Fits v.cost ∧ Fits v.c12
  incumbent : v.hasIncumbent = true → Fits v.incumbentCost ∧ Fits v.incumbentC12
  batch : ∀ k, 1 ≤ k → k ≤ 5 → Batch k

/-- The bits are ciphertexts of these truth values. -/
abbrev BitsHold (D : C → Int → Prop) (bits : List (EncryptedBit C)) (ps : List Bool) : Prop :=
  List.Forall₂ (fun bit p => D bit.ciphertext p.toInt) bits ps

/-! ## The engine -/

/-- The state of the backend and `consumed_operations_`. -/
abbrev EngineWorld (σ : Type) := σ × List Bytes

/-- The members of `secure::PredicateEngine` that do not change. -/
structure PredicateEngine (σ C : Type) where
  ops : SecureOps σ C
  authorizer : PredicateContext → SecureM σ Bool
  resolver : PredicateContext → EncryptedBit C → SecureM σ Bool

/-! ## Replay keys -/

/-- `appendField`: the size, a colon, the value and a bar. -/
def appendField (output value : Bytes) : Bytes :=
  output ++ decimal value.length ++ ascii ":" ++ value ++ ascii "|"

def replayKey (context : PredicateContext) : Bytes :=
  appendField (appendField [] context.sessionId) context.operationId

/-- A numeral ends where the first colon stands. -/
theorem decimal_colon_inj {m n : Nat} {x y : Bytes}
    (h : decimal m ++ 58 :: x = decimal n ++ 58 :: y) : m = n ∧ x = y := by
  have hcolon : ∀ k, (58 : UInt8) ∉ decimal k := by
    intro k hmem
    have hrange := mem_decimal_range hmem
    exact absurd hrange.2 (by decide)
  have hsplit : ∀ (l l' : Bytes), (58 : UInt8) ∉ l → (58 : UInt8) ∉ l' →
      l ++ 58 :: x = l' ++ 58 :: y → l = l' ∧ x = y := by
    intro l
    induction l with
    | nil =>
        intro l' _ hl' heq
        cases l' with
        | nil => simpa using heq
        | cons b l' =>
            simp only [List.nil_append, List.cons_append, List.cons.injEq] at heq
            exact absurd (by simp [heq.1]) hl'
    | cons a l ih =>
        intro l' hl hl' heq
        cases l' with
        | nil =>
            simp only [List.nil_append, List.cons_append, List.cons.injEq] at heq
            exact absurd (by simp [heq.1]) hl
        | cons b l' =>
            simp only [List.cons_append, List.cons.injEq] at heq
            have hrest := ih l' (fun hm => hl (by simp [hm])) (fun hm => hl' (by simp [hm])) heq.2
            exact ⟨by rw [heq.1, hrest.1], hrest.2⟩
  have heq := hsplit _ _ (hcolon m) (hcolon n) h
  exact ⟨decimal_injective heq.1, heq.2⟩

theorem appendField_append (output value rest : Bytes) :
    appendField output value ++ rest =
      output ++ (decimal value.length ++ 58 :: (value ++ 124 :: rest)) := by
  simp [appendField, ascii, byteOf]

theorem field_inj {value value' rest rest' : Bytes}
    (h : appendField [] value ++ rest = appendField [] value' ++ rest') :
    value = value' ∧ rest = rest' := by
  rw [appendField_append, appendField_append, List.nil_append, List.nil_append] at h
  have hnum := decimal_colon_inj h
  have hval := List.append_inj hnum.2 hnum.1
  exact ⟨hval.1, by simpa using hval.2⟩

/-- Two contexts with one replay key name the same session and the same operation. -/
theorem replayKey_inj {c d : PredicateContext}
    (h : replayKey c = replayKey d) :
    c.sessionId = d.sessionId ∧ c.operationId = d.operationId := by
  have hkey : ∀ x : PredicateContext,
      replayKey x = appendField [] x.sessionId ++ (appendField [] x.operationId ++ []) := by
    intro x
    simp [replayKey, appendField]
  rw [hkey, hkey] at h
  have hsession := field_inj h
  exact ⟨hsession.1, (field_inj hsession.2).1⟩

namespace PredicateEngine

def validate (context : PredicateContext) : SecureM (EngineWorld σ) Unit := do
  require (validIdentifier context.sessionId ∧ validIdentifier context.operationId ∧
    validIdentifier context.nodeId) (Error.predicate "invalid predicate context identifier")
  require (context.predicateType = .pruneNode ∨ context.predicateType = .acceptCandidate)
    (Error.predicate "unsupported predicate type")

/-- The guarded `insert` into `consumed_operations_`: nothing removes the key again. -/
def consume (key : Bytes) : SecureM (EngineWorld σ) Unit := fun world =>
  if key ∈ world.2 then
    .error (Error.predicate "predicate operation replayed") world
  else
    .ok () (world.1, key :: world.2)

variable (e : PredicateEngine σ C)

def authorizeAndConsume (context : PredicateContext) (expectedType : PredicateType) :
    SecureM (EngineWorld σ) Unit := do
  validate context
  require (context.predicateType = expectedType)
    (Error.predicate "predicate context type does not match operation")
  let authorized ← onFst (e.authorizer context)
  require (authorized = true) (Error.predicate "predicate evaluation denied")
  consume (replayKey context)

def evaluateFinalBit (context : PredicateContext) (expectedType : PredicateType)
    (finalBit : EncryptedBit C) : SecureM (EngineWorld σ) Bool := do
  e.authorizeAndConsume context expectedType
  onFst (e.resolver context finalBit)

/-- The backend of the fused path, if there is one and fusion is enabled at this moment. -/
def fusedBackend : SecureM (EngineWorld σ) (Option (FusedPredicateBackend σ C)) :=
  match e.ops.fused with
  | none => pure none
  | some fused => do
      let enabled ← onFst fused.predicateFusionEnabled
      return if enabled then some fused else none

/-! ## PRUNE_NODE -/

/-- The pairs of neighbours of a layer, and the member left over when their number is odd. -/
def pairUp {α : Type} : List α → List (α × α) × List α
  | a :: b :: rest => ((a, b) :: (pairUp rest).1, (pairUp rest).2)
  | rest => ([], rest)

theorem pairUp_length {α : Type} (xs : List α) :
    2 * (pairUp xs).1.length + (pairUp xs).2.length = xs.length := by
  induction xs using pairUp.induct with
  | case1 a b rest ih =>
      simp only [pairUp, List.length_cons]
      omega
  | case2 rest hrest => simp [pairUp]

theorem pairUp_left_over {α : Type} (xs : List α) : (pairUp xs).2.length ≤ 1 := by
  induction xs using pairUp.induct with
  | case1 a b rest ih => simpa [pairUp] using ih
  | case2 rest hrest =>
      rcases rest with _ | ⟨a, _ | ⟨b, rest⟩⟩
      · simp [pairUp]
      · simp [pairUp]
      · exact absurd rfl (hrest a b rest)

/-- The next layer of truth values. -/
def orPairs (ps : List Bool) : List Bool :=
  (pairUp ps).1.map (fun p => p.1 || p.2) ++ (pairUp ps).2

theorem any_orPairs (ps : List Bool) : (orPairs ps).any id = ps.any id := by
  induction ps using pairUp.induct with
  | case1 a b rest ih =>
      have hstep : orPairs (a :: b :: rest) = (a || b) :: orPairs rest := by
        simp [orPairs, pairUp]
      rw [hstep, List.any_cons, ih]
      simp [Bool.or_assoc]
  | case2 rest hrest => simp [orPairs, pairUp]

theorem pairUp_forall₂ {α β : Type} {R : α → β → Prop} {xs : List α} {ys : List β}
    (h : List.Forall₂ R xs ys) :
    List.Forall₂ (fun x y => R x.1 y.1 ∧ R x.2 y.2) (pairUp xs).1 (pairUp ys).1 ∧
      List.Forall₂ R (pairUp xs).2 (pairUp ys).2 := by
  induction xs using pairUp.induct generalizing ys with
  | case1 a b rest ih =>
      cases h with
      | cons ha h =>
          cases h with
          | cons hb h =>
              have hrest := ih h
              exact ⟨List.Forall₂.cons ⟨ha, hb⟩ hrest.1, hrest.2⟩
  | case2 rest hrest =>
      cases h with
      | nil => exact ⟨List.Forall₂.nil, List.Forall₂.nil⟩
      | cons ha h =>
          cases h with
          | nil => exact ⟨List.Forall₂.nil, List.Forall₂.cons ha List.Forall₂.nil⟩
          | cons hb h => exact absurd rfl (hrest _ _ _)

/-- `while (layer.size() > 1)`: OR the neighbours of a layer, keep an odd last member.  Every round
shortens the layer, so its length is fuel enough. -/
def foldLayers (ops : SecureOps σ C) : Nat → List (EncryptedBit C) →
    SecureM σ (List (EncryptedBit C))
  | 0, layer => pure layer
  | fuel + 1, layer =>
      if layer.length ≤ 1 then
        pure layer
      else do
        let next ← ops.bitOrBatch (pairUp layer).1
        foldLayers ops fuel (next ++ (pairUp layer).2)

/-- The first member of a vector that a backend returned.  The source reads `front()` of it
unchecked. -/
def front {α : Type} {τ : Type} : List α → SecureM τ α
  | a :: _ => pure a
  | [] => throw (Error.backend "front() of an empty vector")

def pruneComparisons (zero : C) (inputs : PruneInputs C) : List (C × C) :=
  (zero, inputs.linearUpper) ::
    if inputs.hasIncumbent then
      inputs.costLowers.map fun lower => (lower, inputs.incumbentCost)
    else
      []

def acceptComparisons (zero : C) (inputs : AcceptInputs C) : List (C × C) :=
  [(zero, inputs.linear), (inputs.c3, zero)] ++
    if inputs.hasIncumbent then
      [(inputs.incumbentCost, inputs.cost), (inputs.cost, inputs.incumbentCost),
        (inputs.incumbentC12, inputs.c12)]
    else
      []

/-! ## What is compared -/

theorem front_spec {D : C → Int → Prop} {J : σ → Prop} {bits : List (EncryptedBit C)}
    {p : Bool} {ps : List Bool} (hbits : BitsHold D bits (p :: ps)) :
    Yields J (front bits : SecureM σ (EncryptedBit C)) (fun bit => D bit.ciphertext p.toInt)
      Never := by
  cases hbits with
  | cons hbit _ => exact Yields.pure hbit

/-- The truth values of a batch of strict comparisons. -/
def compared (xs : List (Int × Int)) : List Bool :=
  xs.map fun x => decide (x.2 < x.1)

theorem pruneComparisons_hold {D : C → Int → Prop} {inputs : PruneInputs C}
    {v : PruneInputs Int} {zero : C} (hzero : D zero 0) (hin : inputs.Holds D v) :
    List.Forall₂ (fun item x => D item.1 x.1 ∧ D item.2 x.2) (pruneComparisons zero inputs)
      (pruneComparisons 0 v) := by
  refine List.Forall₂.cons ⟨hzero, hin.linearUpper⟩ ?_
  rw [hin.hasIncumbent]
  cases hinc : v.hasIncumbent
  · exact List.Forall₂.nil
  · have hcost := hin.incumbentCost hinc
    simp only [if_true, List.forall₂_map_left_iff, List.forall₂_map_right_iff]
    exact hin.costLowers.imp fun _ _ hlower => ⟨hlower, hcost⟩

theorem compared_pruneComparisons (v : PruneInputs Int) :
    compared (pruneComparisons 0 v) = decide (v.linearUpper < 0) ::
      if v.hasIncumbent then v.costLowers.map fun lower => decide (v.incumbentCost < lower)
      else [] := by
  cases hinc : v.hasIncumbent <;> simp [compared, pruneComparisons, hinc]

theorem acceptComparisons_hold {D : C → Int → Prop} {inputs : AcceptInputs C}
    {v : AcceptInputs Int} {zero : C} (hzero : D zero 0) (hin : inputs.Holds D v) :
    List.Forall₂ (fun item x => D item.1 x.1 ∧ D item.2 x.2) (acceptComparisons zero inputs)
      (acceptComparisons 0 v) := by
  refine List.Forall₂.cons ⟨hzero, hin.linear⟩ (List.Forall₂.cons ⟨hin.c3, hzero⟩ ?_)
  rw [hin.hasIncumbent]
  cases hinc : v.hasIncumbent
  · exact List.Forall₂.nil
  · have hcost := hin.incumbentCost hinc
    have hc12 := hin.incumbentC12 hinc
    exact List.Forall₂.cons ⟨hcost, hin.cost⟩ (List.Forall₂.cons ⟨hin.cost, hcost⟩
      (List.Forall₂.cons ⟨hc12, hin.c12⟩ List.Forall₂.nil))

theorem compared_acceptComparisons (v : AcceptInputs Int) :
    compared (acceptComparisons 0 v) = decide (v.linear < 0) :: decide (0 < v.c3) ::
      if v.hasIncumbent then
        [decide (v.cost < v.incumbentCost), decide (v.incumbentCost < v.cost),
          decide (v.c12 < v.incumbentC12)]
      else [] := by
  cases hinc : v.hasIncumbent <;> simp [compared, acceptComparisons, hinc]

/-- A member of the list of comparisons compares admissible plaintexts. -/
theorem acceptComparisons_fit {Fits : Int → Prop} {Batch : Nat → Prop} {v : AcceptInputs Int}
    (hadm : v.Admits Fits Batch) : ∀ x ∈ acceptComparisons 0 v, Fits x.1 ∧ Fits x.2 := by
  have h0 := hadm.bits.1
  rcases hadm.candidate with ⟨hlinear, hc3, hcost, hc12⟩
  cases hinc : v.hasIncumbent
  · simp [acceptComparisons, hinc, h0, hlinear, hc3]
  · rcases hadm.incumbent hinc with ⟨hicost, hic12⟩
    simp [acceptComparisons, hinc, h0, hlinear, hc3, hcost, hc12, hicost, hic12]

theorem pruneComparisons_fit {Fits : Int → Prop} {Batch : Nat → Prop} {v : PruneInputs Int}
    (hadm : v.Admits Fits Batch) : ∀ x ∈ pruneComparisons 0 v, Fits x.1 ∧ Fits x.2 := by
  intro x hx
  rcases List.mem_cons.1 hx with rfl | hx
  · exact ⟨hadm.bits.1, hadm.linearUpper⟩
  · cases hinc : v.hasIncumbent
    · simp [hinc] at hx
    · rw [hinc, if_pos rfl] at hx
      rcases List.mem_map.1 hx with ⟨lower, hlower, rfl⟩
      exact ⟨(hadm.costLowers hinc).2.1 lower hlower, (hadm.costLowers hinc).2.2⟩

/-! ## Every bit on the way -/

/-- The ciphertext holds a truth value. -/
def IsBit (D : C → Int → Prop) (bit : EncryptedBit C) : Prop :=
  ∃ p : Bool, D bit.ciphertext p.toInt

/-- A step that makes an encrypted bit, with the bits it is made from. -/
inductive Gate (C : Type) where
  | compare (out : EncryptedBit C)
  | bitNot (a out : EncryptedBit C)
  | bitAnd (a b out : EncryptedBit C)
  | bitOr (a b out : EncryptedBit C)
  | bitOrExclusive (a b out : EncryptedBit C)

/-- All bits of the gate hold truth values, and those of an exclusive gate exclude each other. -/
def Gate.Good (D : C → Int → Prop) : Gate C → Prop
  | .compare out => IsBit D out
  | .bitNot a out => IsBit D a ∧ IsBit D out
  | .bitAnd a b out => IsBit D a ∧ IsBit D b ∧ IsBit D out
  | .bitOr a b out => IsBit D a ∧ IsBit D b ∧ IsBit D out
  | .bitOrExclusive a b out =>
      (∃ p q : Bool, D a.ciphertext p.toInt ∧ D b.ciphertext q.toInt ∧ (p && q) = false) ∧
        IsBit D out

/-- A program over the backend whose gates are noted. -/
abbrev GateM (σ C : Type) : Type → Type := EStateM Error (σ × List (Gate C))

section GatedFold

variable (ops : SecureOps σ C)

def gatedFoldLayers : Nat → List (EncryptedBit C) → GateM σ C (List (EncryptedBit C))
  | 0, layer => pure layer
  | fuel + 1, layer =>
      if layer.length ≤ 1 then
        pure layer
      else do
        let next ← noted (fun outs => ((pairUp layer).1.zip outs).map fun entry =>
          Gate.bitOr entry.1.1 entry.1.2 entry.2) (ops.bitOrBatch (pairUp layer).1)
        gatedFoldLayers fuel (next ++ (pairUp layer).2)

theorem gatedFoldLayers_erases (fuel : Nat) (layer : List (EncryptedBit C)) :
    Erases Prod.fst (gatedFoldLayers ops fuel layer) (foldLayers ops fuel layer) := by
  induction fuel generalizing layer with
  | zero => exact Erases.pure layer
  | succ fuel ih =>
      by_cases hone : layer.length ≤ 1
      · simp only [gatedFoldLayers, foldLayers, if_pos hone]
        exact Erases.pure layer
      · simp only [gatedFoldLayers, foldLayers, if_neg hone]
        exact Erases.noted.bind fun next => ih _

theorem front_erases {τ κ : Type} {π : τ → κ} {α : Type} (l : List α) :
    Erases π (front l : SecureM τ α) (front l) := by
  cases l with
  | nil => exact Erases.throw _
  | cons a l => exact Erases.pure a

end GatedFold

section GateRules

variable {D : C → Int → Prop} {J : σ → Prop} {a b : EncryptedBit C} {p q : Bool}
  {m : SecureM σ (EncryptedBit C)} {E : Error → σ × List (Gate C) → Prop}

/-- The invariant of a run whose gates are noted. -/
abbrev GatesHold (J : σ → Prop) (D : C → Int → Prop) : σ × List (Gate C) → Prop :=
  Justified J (Gate.Good D)

theorem gate_not (ha : D a.ciphertext p.toInt)
    (hm : Yields J m (fun out => D out.ciphertext (!p).toInt) Never) :
    Yields (GatesHold J D) (noted (fun out => [Gate.bitNot a out]) m)
      (fun out => D out.ciphertext (!p).toInt) E := by
  exact Yields.notedOne hm fun out hout => ⟨⟨p, ha⟩, ⟨!p, hout⟩⟩

theorem gate_and (ha : D a.ciphertext p.toInt) (hb : D b.ciphertext q.toInt)
    (hm : Yields J m (fun out => D out.ciphertext (p && q).toInt) Never) :
    Yields (GatesHold J D) (noted (fun out => [Gate.bitAnd a b out]) m)
      (fun out => D out.ciphertext (p && q).toInt) E := by
  exact Yields.notedOne hm fun out hout => ⟨⟨p, ha⟩, ⟨q, hb⟩, ⟨p && q, hout⟩⟩

theorem gate_or (ha : D a.ciphertext p.toInt) (hb : D b.ciphertext q.toInt)
    (hm : Yields J m (fun out => D out.ciphertext (p || q).toInt) Never) :
    Yields (GatesHold J D) (noted (fun out => [Gate.bitOr a b out]) m)
      (fun out => D out.ciphertext (p || q).toInt) E := by
  exact Yields.notedOne hm fun out hout => ⟨⟨p, ha⟩, ⟨q, hb⟩, ⟨p || q, hout⟩⟩

theorem gate_orExclusive (ha : D a.ciphertext p.toInt) (hb : D b.ciphertext q.toInt)
    (hpq : (p && q) = false)
    (hm : Yields J m (fun out => D out.ciphertext (p || q).toInt) Never) :
    Yields (GatesHold J D) (noted (fun out => [Gate.bitOrExclusive a b out]) m)
      (fun out => D out.ciphertext (p || q).toInt) E := by
  exact Yields.notedOne hm fun out hout => ⟨⟨p, q, ha, hb, hpq⟩, ⟨p || q, hout⟩⟩

theorem gate_compare {xs : List (Int × Int)} {ms : SecureM σ (List (EncryptedBit C))}
    (hm : Yields J ms (fun bits => BitsHold D bits (compared xs)) Never) :
    Yields (GatesHold J D) (noted (fun outs => outs.map Gate.compare) ms)
      (fun bits => BitsHold D bits (compared xs)) E := by
  refine Yields.noted hm fun bits hbits gate hgate => ?_
  rcases List.mem_map.1 hgate with ⟨bit, hbit, rfl⟩
  rcases mem_right_of_forall₂ hbits.flip hbit with ⟨p, _, hp⟩
  exact ⟨p, hp⟩

end GateRules

variable [CiphertextLike C]

/-! ## The two predicates -/

/-- The final bit of the unfused `pruneNode`. -/
def pruneBit (ops : SecureOps σ C) (inputs : PruneInputs C) : SecureM σ (EncryptedBit C) := do
  let zero ← ops.encryptConstant 0
  require (inputs.hasIncumbent → CiphertextLike.empty inputs.incumbentCost = false)
    (Error.predicate "missing incumbent cost")
  require (inputs.hasIncumbent → inputs.costLowers.isEmpty = false)
    (Error.predicate "missing cost lower bounds")
  let bits ← ops.greaterThanBatch (pruneComparisons zero inputs)
  let finalBit ← front bits
  if inputs.hasIncumbent then
    let layers ← foldLayers ops bits.tail.length bits.tail
    let costPrune ← front layers
    ops.bitOr finalBit costPrune
  else
    return finalBit

def pruneNode (context : PredicateContext) (inputs : PruneInputs C) :
    SecureM (EngineWorld σ) Bool := do
  match ← e.fusedBackend with
  | some fused =>
      require (inputs.hasIncumbent →
          CiphertextLike.empty inputs.incumbentCost = false ∧ inputs.costLowers.isEmpty = false)
        (Error.predicate "missing incumbent cost or cost lower bounds")
      e.authorizeAndConsume context .pruneNode
      onFst (fused.fusedPruneNode context inputs)
  | none =>
      let finalBit ← onFst (pruneBit e.ops inputs)
      e.evaluateFinalBit context .pruneNode finalBit

/-! ## ACCEPT_CANDIDATE -/

/-- The final bit of the unfused `acceptCandidate`. -/
def acceptBit (ops : SecureOps σ C) (inputs : AcceptInputs C) : SecureM σ (EncryptedBit C) := do
  let zero ← ops.encryptConstant 0
  require (inputs.hasIncumbent → CiphertextLike.empty inputs.incumbentCost = false ∧
      CiphertextLike.empty inputs.incumbentC12 = false)
    (Error.predicate "missing incumbent values")
  match inputs.hasIncumbent, ← ops.greaterThanBatch (acceptComparisons zero inputs) with
  | false, linearLt :: c3Gt :: _ =>
      let linearGe ← ops.bitNot linearLt
      ops.bitAnd linearGe c3Gt
  | true, linearLt :: c3Gt :: costLt :: costGt :: c12Lt :: _ =>
      let linearGe ← ops.bitNot linearLt
      let feasible ← ops.bitAnd linearGe c3Gt
      let costNeq ← ops.bitOrExclusive costLt costGt
      let costEq ← ops.bitNot costNeq
      let equalAndC12 ← ops.bitAnd costEq c12Lt
      let better ← ops.bitOrExclusive costLt equalAndC12
      ops.bitAnd feasible better
  | _, _ => throw (Error.backend "comparison batch too short")

def acceptCandidate (context : PredicateContext) (inputs : AcceptInputs C) :
    SecureM (EngineWorld σ) Bool := do
  match ← e.fusedBackend with
  | some fused =>
      require (inputs.hasIncumbent → CiphertextLike.empty inputs.incumbentCost = false ∧
          CiphertextLike.empty inputs.incumbentC12 = false)
        (Error.predicate "missing incumbent values")
      e.authorizeAndConsume context .acceptCandidate
      onFst (fused.fusedAcceptCandidate context inputs)
  | none =>
      let finalBit ← onFst (acceptBit e.ops inputs)
      e.evaluateFinalBit context .acceptCandidate finalBit

/-! ## The predicates with notes -/

section Gated

variable (ops : SecureOps σ C)

/-- `pruneBit` with notes. -/
def gatedPruneBit (inputs : PruneInputs C) : GateM σ C (EncryptedBit C) := do
  let zero ← onFst (ops.encryptConstant 0)
  require (inputs.hasIncumbent → CiphertextLike.empty inputs.incumbentCost = false)
    (Error.predicate "missing incumbent cost")
  require (inputs.hasIncumbent → inputs.costLowers.isEmpty = false)
    (Error.predicate "missing cost lower bounds")
  let bits ← noted (fun outs => outs.map Gate.compare)
    (ops.greaterThanBatch (pruneComparisons zero inputs))
  let finalBit ← front bits
  if inputs.hasIncumbent then
    let layers ← gatedFoldLayers ops bits.tail.length bits.tail
    let costPrune ← front layers
    noted (fun out => [Gate.bitOr finalBit costPrune out]) (ops.bitOr finalBit costPrune)
  else
    return finalBit

/-- `acceptBit` with notes. -/
def gatedAcceptBit (inputs : AcceptInputs C) : GateM σ C (EncryptedBit C) := do
  let gatedNot := fun a => noted (fun out => [Gate.bitNot a out]) (ops.bitNot a)
  let gatedAnd := fun a b => noted (fun out => [Gate.bitAnd a b out]) (ops.bitAnd a b)
  let gatedOrExclusive := fun a b =>
    noted (fun out => [Gate.bitOrExclusive a b out]) (ops.bitOrExclusive a b)
  let zero ← onFst (ops.encryptConstant 0)
  require (inputs.hasIncumbent → CiphertextLike.empty inputs.incumbentCost = false ∧
      CiphertextLike.empty inputs.incumbentC12 = false)
    (Error.predicate "missing incumbent values")
  match inputs.hasIncumbent, ← noted (fun outs => outs.map Gate.compare)
      (ops.greaterThanBatch (acceptComparisons zero inputs)) with
  | false, linearLt :: c3Gt :: _ =>
      let linearGe ← gatedNot linearLt
      gatedAnd linearGe c3Gt
  | true, linearLt :: c3Gt :: costLt :: costGt :: c12Lt :: _ =>
      let linearGe ← gatedNot linearLt
      let feasible ← gatedAnd linearGe c3Gt
      let costNeq ← gatedOrExclusive costLt costGt
      let costEq ← gatedNot costNeq
      let equalAndC12 ← gatedAnd costEq c12Lt
      let better ← gatedOrExclusive costLt equalAndC12
      gatedAnd feasible better
  | _, _ => throw (Error.backend "comparison batch too short")

/-- The notes change nothing, whatever the backend does. -/
theorem gatedPruneBit_erases (inputs : PruneInputs C) :
    Erases Prod.fst (gatedPruneBit ops inputs) (pruneBit ops inputs) := by
  unfold gatedPruneBit pruneBit
  refine Erases.onFst.bind fun zero => ?_
  refine (Erases.require _ _).bind fun _ => ?_
  refine (Erases.require _ _).bind fun _ => ?_
  refine Erases.noted.bind fun bits => ?_
  refine (front_erases bits).bind fun finalBit => ?_
  cases inputs.hasIncumbent
  · exact Erases.pure finalBit
  · refine (gatedFoldLayers_erases ops _ _).bind fun layers => ?_
    exact (front_erases layers).bind fun costPrune => Erases.noted

theorem gatedAcceptBit_erases (inputs : AcceptInputs C) :
    Erases Prod.fst (gatedAcceptBit ops inputs) (acceptBit ops inputs) := by
  unfold gatedAcceptBit acceptBit
  refine Erases.onFst.bind fun zero => ?_
  refine (Erases.require _ _).bind fun _ => ?_
  refine Erases.noted.bind fun bits => ?_
  split
  · exact Erases.noted.bind fun linearGe => Erases.noted
  · refine Erases.noted.bind fun linearGe => ?_
    refine Erases.noted.bind fun feasible => ?_
    refine Erases.noted.bind fun costNeq => ?_
    refine Erases.noted.bind fun costEq => ?_
    refine Erases.noted.bind fun equalAndC12 => ?_
    exact Erases.noted.bind fun better => Erases.noted
  · exact Erases.throw _

end Gated

/-! ## The final bits are the predicates -/

section FinalBits

variable {ops : SecureOps σ C} {D : C → Int → Prop} {Fits : Int → Prop} {Batch : Nat → Prop}
  {J : σ → Prop} {E : Error → σ × List (Gate C) → Prop}

theorem gate_orBatch (h : ExactOps ops D Fits Batch J) (h0 : Fits 0) (h1 : Fits 1)
    {pairs : List (EncryptedBit C × EncryptedBit C)} {ps : List (Bool × Bool)}
    (hbatch : Batch pairs.length)
    (hpairs : List.Forall₂ (fun b p => D b.1.ciphertext p.1.toInt ∧ D b.2.ciphertext p.2.toInt)
      pairs ps) :
    Yields (GatesHold J D)
      (noted (fun outs => (pairs.zip outs).map fun entry =>
        Gate.bitOr entry.1.1 entry.1.2 entry.2) (ops.bitOrBatch pairs))
      (fun bits => BitsHold D bits (ps.map fun p => p.1 || p.2)) E := by
  refine Yields.noted (h.bitOrBatch hbatch hpairs h0 h1) fun bits hbits gate hgate => ?_
  rcases List.mem_map.1 hgate with ⟨entry, hentry, rfl⟩
  have hin : entry.1 ∈ pairs ∧ entry.2 ∈ bits := List.of_mem_zip hentry
  rcases mem_right_of_forall₂ hpairs.flip hin.1 with ⟨p, _, hp⟩
  rcases mem_right_of_forall₂ hbits.flip hin.2 with ⟨q, _, hq⟩
  exact ⟨⟨p.1, hp.1⟩, ⟨p.2, hp.2⟩, ⟨q, hq⟩⟩

/-- A layer folds to the disjunction of its bits. -/
theorem foldLayers_spec (h : ExactOps ops D Fits Batch J) (h0 : Fits 0) (h1 : Fits 1)
    (fuel : Nat) : ∀ {layer : List (EncryptedBit C)} {ps : List Bool}, layer.length ≤ fuel →
      ps ≠ [] → (∀ k, 1 ≤ k → k ≤ ps.length → Batch k) → BitsHold D layer ps →
      Yields (GatesHold J D) (gatedFoldLayers ops fuel layer)
        (fun bits => BitsHold D bits [ps.any id]) E := by
  induction fuel with
  | zero =>
      intro layer ps hfuel hne _ hlayer
      have hlen := hlayer.length_eq
      exact absurd (List.length_eq_zero_iff.1 (by omega)) hne
  | succ fuel ih =>
      intro layer ps hfuel hne hbatch hlayer
      have hlen := hlayer.length_eq
      have hpos : 0 < ps.length := List.length_pos_of_ne_nil hne
      by_cases hone : layer.length ≤ 1
      · rcases List.length_eq_one_iff.1 (show ps.length = 1 by omega) with ⟨p, rfl⟩
        simp only [gatedFoldLayers, if_pos hone]
        exact Yields.pure (by simpa using hlayer)
      · simp only [gatedFoldLayers, if_neg hone]
        have hpairs := pairUp_forall₂ hlayer
        have hbits := pairUp_length layer
        have hrest := pairUp_left_over layer
        have hnum := hpairs.1.length_eq
        refine Yields.bind (gate_orBatch h h0 h1 (hbatch _ (by omega) (by omega)) hpairs.1)
          fun next hnext => ?_
        -- A bit without a partner goes to the next layer as it is, which is shorter by a half.
        have hjoin : BitsHold D (next ++ (pairUp layer).2) (orPairs ps) :=
          List.rel_append hnext hpairs.2
        have hjlen := hjoin.length_eq
        have hnlen := hnext.length_eq
        simp only [List.length_append, List.length_map] at hjlen hnlen
        have hshorter : (orPairs ps).length < ps.length := by omega
        have hleft : orPairs ps ≠ [] := by
          intro hnil
          rw [hnil, List.length_nil] at hjlen
          omega
        have hfold := ih (by rw [List.length_append]; omega) hleft
          (fun k hk hle => hbatch k hk (by omega)) hjoin
        rwa [any_orPairs] at hfold

theorem greaterThanBatch_spec (h : ExactOps ops D Fits Batch J) {items : List (C × C)}
    {xs : List (Int × Int)} (hbatch : Batch xs.length)
    (hitems : List.Forall₂ (fun item x => D item.1 x.1 ∧ D item.2 x.2) items xs)
    (hfit : ∀ x ∈ xs, Fits x.1 ∧ Fits x.2) :
    Yields J (ops.greaterThanBatch items) (fun bits => BitsHold D bits (compared xs)) Never := by
  refine (h.greaterThanBatch (by rwa [hitems.length_eq]) hitems hfit).post fun bits hbits => ?_
  simpa [compared, List.forall₂_map_right_iff] using hbits

theorem prune_present (h : ExactOps ops D Fits Batch J) {inputs : PruneInputs C}
    {v : PruneInputs Int} (hin : inputs.Holds D v) (hinc : inputs.hasIncumbent = true) :
    CiphertextLike.empty inputs.incumbentCost = false ∧
      (inputs.costLowers.isEmpty = false ↔ v.costLowers ≠ []) := by
  refine ⟨h.nonempty (hin.incumbentCost (hin.hasIncumbent ▸ hinc)), ?_⟩
  rw [List.isEmpty_eq_false_iff, ← List.length_pos_iff, ← List.length_pos_iff,
    hin.costLowers.length_eq]

theorem accept_present (h : ExactOps ops D Fits Batch J) {inputs : AcceptInputs C}
    {v : AcceptInputs Int} (hin : inputs.Holds D v) (hinc : inputs.hasIncumbent = true) :
    CiphertextLike.empty inputs.incumbentCost = false ∧
      CiphertextLike.empty inputs.incumbentC12 = false := by
  have hv : v.hasIncumbent = true := hin.hasIncumbent ▸ hinc
  exact ⟨h.nonempty (hin.incumbentCost hv), h.nonempty (hin.incumbentC12 hv)⟩

/-- Every bit that `PRUNE_NODE` makes is a truth value, and the last one is the predicate.  An
incumbent without lower bounds is refused before any bit is made. -/
theorem gatedPruneBit_spec (h : ExactOps ops D Fits Batch J) {inputs : PruneInputs C}
    {v : PruneInputs Int} (hin : inputs.Holds D v)
    (hadm : (v.hasIncumbent = true → v.costLowers ≠ []) → v.Admits Fits Batch)
    (hno : (v.hasIncumbent = true → v.costLowers ≠ []) ∨ ∀ err t, GatesHold J D t → E err t) :
    Yields (GatesHold J D) (gatedPruneBit ops inputs)
      (fun bit => D bit.ciphertext v.holds.toInt) E := by
  have hcount : (pruneComparisons 0 v).length ≤ v.costLowers.length + 1 := by
    cases hinc : v.hasIncumbent <;> simp [pruneComparisons, hinc]
  have hlowers : (inputs.hasIncumbent = true → inputs.costLowers.isEmpty = false) ↔
      (v.hasIncumbent = true → v.costLowers ≠ []) := by
    rw [← hin.hasIncumbent]
    exact forall_congr' fun hinc => (prune_present h hin hinc).2
  unfold gatedPruneBit
  refine Yields.bind (Yields.silent (h.encryptConstant 0)) fun zero hzero => ?_
  refine (Triple.require_of fun hinc => (prune_present h hin hinc).1).bind fun _ => ?_
  refine Triple.bind (Triple.require fun hmissing t ht => ?_) fun _ => Triple.assuming fun hc => ?_
  · rcases hno with hne | hno
    · exact absurd (hlowers.2 hne) hmissing
    · exact hno _ t ht
  have hfit := hadm (hlowers.1 hc)
  refine Yields.bind (gate_compare (greaterThanBatch_spec h
    (hfit.batch _ (by simp [pruneComparisons]) hcount)
    (pruneComparisons_hold hzero hin) (pruneComparisons_fit hfit))) fun bits hbits => ?_
  rw [compared_pruneComparisons] at hbits
  refine (front_spec hbits).ofNever.bind fun finalBit hfinal => ?_
  rw [hin.hasIncumbent]
  cases hinc : v.hasIncumbent
  · exact Yields.pure (by simpa [PruneInputs.holds, hinc] using hfinal)
  · rw [hinc, if_pos rfl] at hbits
    have hne := (hfit.costLowers hinc).1
    -- The first bit is of the linear bound, the others are of the costs.
    have htail : BitsHold D bits.tail
        (v.costLowers.map fun lower => decide (v.incumbentCost < lower)) := by
      cases hbits with
      | cons _ htail => exact htail
    refine Yields.bind (foldLayers_spec h hfit.bits.1 hfit.bits.2 _ le_rfl (by simpa using hne)
      (fun k hk hle => hfit.batch k hk (by simp at hle; omega)) htail) fun layers hlayers => ?_
    refine (front_spec hlayers).ofNever.bind fun costPrune hcost => ?_
    refine Yields.post (gate_or hfinal hcost (h.bitOr hfinal hcost hfit.bits.1 hfit.bits.2))
      fun bit hbit => ?_
    simpa [PruneInputs.holds, hinc] using hbit

/-- Every bit that `ACCEPT_CANDIDATE` makes is a truth value, its exclusive gates are exclusive,
and the last bit is the predicate. -/
theorem gatedAcceptBit_spec (h : ExactOps ops D Fits Batch J) {inputs : AcceptInputs C}
    {v : AcceptInputs Int} (hin : inputs.Holds D v) (hadm : v.Admits Fits Batch) :
    Yields (GatesHold J D) (gatedAcceptBit ops inputs)
      (fun bit => D bit.ciphertext v.holds.toInt) E := by
  have h0 := hadm.bits.1
  have h1 := hadm.bits.2
  have hcount : 1 ≤ (acceptComparisons 0 v).length ∧ (acceptComparisons 0 v).length ≤ 5 := by
    cases hinc : v.hasIncumbent <;> simp [acceptComparisons, hinc]
  unfold gatedAcceptBit
  refine Yields.bind (Yields.silent (h.encryptConstant 0)) fun zero hzero => ?_
  refine (Triple.require_of (accept_present h hin)).bind fun _ => ?_
  refine Yields.bind (gate_compare (greaterThanBatch_spec h (hadm.batch _ hcount.1 hcount.2)
    (acceptComparisons_hold hzero hin) (acceptComparisons_fit hadm))) fun bits hbits => ?_
  rw [compared_acceptComparisons] at hbits
  rw [hin.hasIncumbent]
  cases hinc : v.hasIncumbent
  · rw [hinc] at hbits
    rcases hbits with _ | ⟨hlt, _ | ⟨hgt, _⟩⟩
    refine Yields.bind (gate_not hlt (h.bitNot hlt)) fun linearGe hge => ?_
    refine Yields.post (gate_and hge hgt (h.bitAnd hge hgt h0 h1)) fun bit hbit => ?_
    simpa [AcceptInputs.holds, hinc, ← decide_not] using hbit
  · rw [hinc] at hbits
    rcases hbits with _ | ⟨hlt, _ | ⟨hgt, _ | ⟨hcl, _ | ⟨hcg, _ | ⟨hc12, _⟩⟩⟩⟩⟩
    -- a cost is not both below and above the incumbent's
    have hstrict : (decide (v.cost < v.incumbentCost) && decide (v.incumbentCost < v.cost)) =
        false := by
      simp only [Bool.and_eq_false_iff, decide_eq_false_iff_not]
      omega
    -- equality is the complement of the two strict comparisons
    have hequal : (!(decide (v.cost < v.incumbentCost) || decide (v.incumbentCost < v.cost))) =
        decide (v.cost = v.incumbentCost) := by
      rw [← Bool.decide_or, ← decide_not, decide_eq_decide]
      omega
    have hapart : (decide (v.cost < v.incumbentCost) &&
        (decide (v.cost = v.incumbentCost) && decide (v.c12 < v.incumbentC12))) = false := by
      rw [← hequal]
      by_cases hlt : v.cost < v.incumbentCost <;> simp [hlt]
    refine Yields.bind (gate_not hlt (h.bitNot hlt)) fun linearGe hge => ?_
    refine Yields.bind (gate_and hge hgt (h.bitAnd hge hgt h0 h1)) fun feasible hfeasible => ?_
    refine Yields.bind (gate_orExclusive hcl hcg hstrict (h.bitOrExclusive hcl hcg hstrict))
      fun costNeq hneq => ?_
    refine Yields.bind (gate_not hneq (h.bitNot hneq)) fun costEq heq => ?_
    rw [hequal] at heq
    refine Yields.bind (gate_and heq hc12 (h.bitAnd heq hc12 h0 h1)) fun equalAndC12 hboth => ?_
    refine Yields.bind (gate_orExclusive hcl hboth hapart (h.bitOrExclusive hcl hboth hapart))
      fun better hbetter => ?_
    refine Yields.post (gate_and hfeasible hbetter (h.bitAnd hfeasible hbetter h0 h1))
      fun bit hbit => ?_
    have hlinear : (!decide (v.linear < 0)) = decide (0 ≤ v.linear) := by
      rw [← decide_not, decide_eq_decide]
      omega
    rw [hlinear] at hbit
    simpa [AcceptInputs.holds, hinc] using hbit

/-- `pruneBit` fails only where the incumbent comes without lower bounds. -/
theorem pruneBit_total (h : ExactOps ops D Fits Batch J) {inputs : PruneInputs C}
    {v : PruneInputs Int} (hin : inputs.Holds D v)
    (hadm : (v.hasIncumbent = true → v.costLowers ≠ []) → v.Admits Fits Batch)
    {F : Error → σ → Prop} (hF : ∀ err s, J s → F err s) :
    Yields J (pruneBit ops inputs) (fun bit => D bit.ciphertext v.holds.toInt) F :=
  (gatedPruneBit_erases ops inputs).yields
    (gatedPruneBit_spec h hin hadm (Or.inr fun err t ht => hF err t.1 ht.1))

theorem pruneBit_spec (h : ExactOps ops D Fits Batch J) {inputs : PruneInputs C}
    {v : PruneInputs Int} (hin : inputs.Holds D v) (hadm : v.Admits Fits Batch) :
    Yields J (pruneBit ops inputs) (fun bit => D bit.ciphertext v.holds.toInt) Never :=
  (gatedPruneBit_erases ops inputs).yields (gatedPruneBit_spec h hin (fun _ => hadm)
    (Or.inl fun hinc => (hadm.costLowers hinc).1))

theorem acceptBit_spec (h : ExactOps ops D Fits Batch J) {inputs : AcceptInputs C}
    {v : AcceptInputs Int} (hin : inputs.Holds D v) (hadm : v.Admits Fits Batch) :
    Yields J (acceptBit ops inputs) (fun bit => D bit.ciphertext v.holds.toInt) Never :=
  (gatedAcceptBit_erases ops inputs).yields (gatedAcceptBit_spec h hin hadm)

end FinalBits

/-! ## The engine's calls -/

/-- What the parties around an engine do.  A predicate whose truth is `p` may be answered by `b`
when `Ans p b`; `E` is what may happen otherwise, in particular when the authorizer says no. -/
structure Parties (e : PredicateEngine σ C) (D : C → Int → Prop) (Fits : Int → Prop)
    (Batch : Nat → Prop) (J : σ → Prop) (Ans : Bool → Bool → Prop) (E : Error → σ → Prop) :
    Prop where
  ops : ExactOps e.ops D Fits Batch J
  authorize : ∀ context, Yields J (e.authorizer context)
    (fun b => b = true ∨ ∀ s, J s → E (Error.predicate "predicate evaluation denied") s) E
  resolve : ∀ context {bit : EncryptedBit C} {p : Bool}, D bit.ciphertext p.toInt →
    Yields J (e.resolver context bit) (Ans p) E
  enabled : ∀ fused ∈ e.ops.fused, Yields J fused.predicateFusionEnabled (fun _ => True) E
  fusedPrune : ∀ fused ∈ e.ops.fused, ∀ context {inputs : PruneInputs C} {v : PruneInputs Int},
    inputs.Holds D v → v.Admits Fits Batch →
    Yields J (fused.fusedPruneNode context inputs) (Ans v.holds) E
  fusedAccept : ∀ fused ∈ e.ops.fused, ∀ context {inputs : AcceptInputs C}
    {v : AcceptInputs Int}, inputs.Holds D v → v.Admits Fits Batch →
    Yields J (fused.fusedAcceptCandidate context inputs) (Ans v.holds) E

/-- The identifiers of the context are well formed. -/
def Valid (context : PredicateContext) : Prop :=
  validIdentifier context.sessionId ∧ validIdentifier context.operationId ∧
    validIdentifier context.nodeId

section Calls

variable {e : PredicateEngine σ C} {D : C → Int → Prop} {Fits : Int → Prop}
  {Batch : Nat → Prop} {J : σ → Prop} {Ans : Bool → Bool → Prop} {E : Error → σ → Prop}
  {context : PredicateContext} {consumed : List Bytes}

/-- The world of an engine that has consumed these keys. -/
def Spent (J : σ → Prop) (consumed : List Bytes) (world : EngineWorld σ) : Prop :=
  J world.1 ∧ world.2 = consumed

/-- How an evaluation under `context` may fail: the pair was consumed before, or one of the
parties failed. -/
def Fails (J : σ → Prop) (E : Error → σ → Prop) (context : PredicateContext)
    (consumed : List Bytes) (err : Error) (world : EngineWorld σ) : Prop :=
  (replayKey context ∈ consumed ∧ err = Error.predicate "predicate operation replayed" ∧
    Spent J consumed world) ∨ E err world.1

theorem spent_onFst {α : Type} {m : SecureM σ α} {R : α → Prop} (h : Yields J m R E) :
    Triple (Spent J consumed) (onFst m) (fun a w => R a ∧ Spent J consumed w)
      (Fails J E context consumed) := by
  refine (Triple.onFst h (fun keys => keys = consumed)).weaken (fun _ hw => hw) ?_ ?_
  · intro a w hw
    exact ⟨hw.1.1, hw.1.2, hw.2⟩
  · intro err w hw
    exact Or.inr hw.1

/-- A successful consumption found the key fresh and leaves it consumed. -/
theorem consume_spec :
    Triple (Spent J consumed) (consume (replayKey context))
      (fun _ w => replayKey context ∉ consumed ∧ Spent J (replayKey context :: consumed) w)
      (Fails J E context consumed) := by
  rintro ⟨s, keys⟩ ⟨hs, rfl⟩
  by_cases hmem : replayKey context ∈ keys
  · simp only [consume, if_pos hmem]
    exact Or.inl ⟨hmem, rfl, hs, rfl⟩
  · simp only [consume, if_neg hmem]
    exact ⟨hmem, hs, rfl⟩

theorem authorizeAndConsume_spec (h : Parties e D Fits Batch J Ans E)
    (hvalid : Valid context) {expectedType : PredicateType}
    (htype : context.predicateType = expectedType)
    (hknown : expectedType = .pruneNode ∨ expectedType = .acceptCandidate) :
    Triple (Spent J consumed) (e.authorizeAndConsume context expectedType)
      (fun _ w => replayKey context ∉ consumed ∧ Spent J (replayKey context :: consumed) w)
      (Fails J E context consumed) := by
  unfold authorizeAndConsume validate
  refine Triple.bind (Triple.bind (Triple.require_of hvalid) fun _ =>
    Triple.require_of (by rwa [htype])) fun _ => ?_
  refine (Triple.require_of htype).bind fun _ => ?_
  refine (spent_onFst (h.authorize context)).bind fun authorized => ?_
  refine Triple.assuming fun hauthorized => ?_
  refine Triple.bind (Triple.require fun hno w hw => ?_) fun _ => ?_
  · rcases hauthorized with hyes | hdenied
    · exact absurd hyes hno
    · exact Or.inr (hdenied w.1 hw.1)
  · exact consume_spec.pre fun _ hw => hw.2

/-- What an evaluation that answers the truth `p` does to the world. -/
abbrev Evaluates (J : σ → Prop) (Ans : Bool → Bool → Prop) (E : Error → σ → Prop)
    (context : PredicateContext) (consumed : List Bytes) (p : Bool)
    (m : SecureM (EngineWorld σ) Bool) : Prop :=
  Triple (Spent J consumed) m
    (fun b w => Ans p b ∧ replayKey context ∉ consumed ∧
      Spent J (replayKey context :: consumed) w)
    (Fails J E context consumed)

/-- Once the key is consumed the remaining call answers. -/
theorem evaluates_of_answer {expectedType : PredicateType} {p : Bool} {m : SecureM σ Bool}
    (h : Parties e D Fits Batch J Ans E) (hvalid : Valid context)
    (htype : context.predicateType = expectedType)
    (hknown : expectedType = .pruneNode ∨ expectedType = .acceptCandidate)
    (hm : Yields J m (Ans p) E) :
    Evaluates J Ans E context consumed p (do
      e.authorizeAndConsume context expectedType
      onFst m) := by
  refine (authorizeAndConsume_spec h hvalid htype hknown).bind fun _ => ?_
  refine Triple.assuming fun hfresh => ?_
  refine (Triple.onFst hm (fun keys => keys = replayKey context :: consumed)).weaken
    (fun _ hw => hw) ?_ ?_
  · intro b w hw
    exact ⟨hw.1.1, hfresh, hw.1.2, hw.2⟩
  · intro err w hw
    exact Or.inr hw.1

theorem fusedBackend_spec (h : Parties e D Fits Batch J Ans E) :
    Triple (Spent J consumed) e.fusedBackend
      (fun found w => (∀ fused, found = some fused → fused ∈ e.ops.fused) ∧ Spent J consumed w)
      (Fails J E context consumed) := by
  unfold fusedBackend
  cases hfused : e.ops.fused with
  | none => exact Triple.pure fun w hw => ⟨by simp, hw⟩
  | some fused =>
      refine (spent_onFst (h.enabled fused hfused)).bind fun enabled => ?_
      refine Triple.pure fun w hw => ⟨?_, hw.2⟩
      intro fused' hfound
      cases enabled
      · simp at hfound
      · simpa using hfound

theorem pruneNode_spec (consumed : List Bytes) (h : Parties e D Fits Batch J Ans E)
    (hvalid : Valid context)
    (htype : context.predicateType = .pruneNode) {inputs : PruneInputs C}
    {v : PruneInputs Int} (hin : inputs.Holds D v) (hadm : v.Admits Fits Batch) :
    Evaluates J Ans E context consumed v.holds (e.pruneNode context inputs) := by
  unfold pruneNode
  refine (fusedBackend_spec h).bind fun found => Triple.assuming fun hfound => ?_
  cases found with
  | some fused =>
      have hpresent : inputs.hasIncumbent = true →
          CiphertextLike.empty inputs.incumbentCost = false ∧
            inputs.costLowers.isEmpty = false := by
        intro hinc
        have hin' := prune_present h.ops hin hinc
        exact ⟨hin'.1, hin'.2.2 (hadm.costLowers (hin.hasIncumbent ▸ hinc)).1⟩
      refine (Triple.require_of hpresent).bind fun _ => ?_
      exact evaluates_of_answer h hvalid htype (Or.inl rfl)
        (h.fusedPrune fused (hfound fused rfl) context hin hadm)
  | none =>
      refine (spent_onFst (E := E) (pruneBit_spec h.ops hin hadm).ofNever).bind
        fun finalBit => Triple.assuming fun hbit => ?_
      exact evaluates_of_answer h hvalid htype (Or.inl rfl) (h.resolve context hbit)

theorem acceptCandidate_spec (consumed : List Bytes) (h : Parties e D Fits Batch J Ans E)
    (hvalid : Valid context)
    (htype : context.predicateType = .acceptCandidate) {inputs : AcceptInputs C}
    {v : AcceptInputs Int} (hin : inputs.Holds D v) (hadm : v.Admits Fits Batch) :
    Evaluates J Ans E context consumed v.holds (e.acceptCandidate context inputs) := by
  unfold acceptCandidate
  refine (fusedBackend_spec h).bind fun found => Triple.assuming fun hfound => ?_
  cases found with
  | some fused =>
      refine (Triple.require_of (accept_present h.ops hin)).bind fun _ => ?_
      exact evaluates_of_answer h hvalid htype (Or.inr rfl)
        (h.fusedAccept fused (hfound fused rfl) context hin hadm)
  | none =>
      refine (spent_onFst (E := E) (acceptBit_spec h.ops hin hadm).ofNever).bind
        fun finalBit => Triple.assuming fun hbit => ?_
      exact evaluates_of_answer h hvalid htype (Or.inr rfl) (h.resolve context hbit)

end Calls
end PredicateEngine
end Secure
end SociSgx

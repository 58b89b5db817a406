import SociSgx.Secure.PredicateEngine

/-!
# Recorder — a backend that remembers its secure calls

`recorded` wraps a backend: every secure multiplication, every secure comparison and every fused
predicate is first appended to a record, whatever becomes of the call.  If the backend is exact on
admissible operands, the wrapped one is exact too, and a program that keeps to admissible operands
leaves only such calls in the record.
-/

namespace SociSgx
namespace Secure

open Exec PredicateEngine

variable {σ C : Type} [CiphertextLike C]

/-- A call with ciphertext operands that enter a secure multiplication or comparison. -/
inductive SecureCall (C : Type) where
  | secureMul (a b : C)
  | secureMulBatch (items : List (C × C))
  | greaterThan (a b : C)
  | greaterThanBatch (items : List (C × C))
  | fusedPruneNode (inputs : PruneInputs C)
  | fusedAcceptCandidate (inputs : AcceptInputs C)

/-- The operands of both kinds of predicates; the constant 0 is encrypted by the backend itself. -/
def PruneInputs.operands (inputs : PruneInputs C) : List C :=
  inputs.linearUpper ::
    if inputs.hasIncumbent then inputs.incumbentCost :: inputs.costLowers else []

def AcceptInputs.operands (inputs : AcceptInputs C) : List C :=
  [inputs.linear, inputs.c3] ++
    if inputs.hasIncumbent then
      [inputs.cost, inputs.c12, inputs.incumbentCost, inputs.incumbentC12]
    else
      []

namespace SecureCall

def operands : SecureCall C → List C
  | secureMul a b => [a, b]
  | secureMulBatch items => items.flatMap fun item => [item.1, item.2]
  | greaterThan a b => [a, b]
  | greaterThanBatch items => items.flatMap fun item => [item.1, item.2]
  | fusedPruneNode inputs => inputs.operands
  | fusedAcceptCandidate inputs => inputs.operands

/-- The number of items that the call dispatches together. -/
def size : SecureCall C → Nat
  | secureMul _ _ => 1
  | secureMulBatch items => items.length
  | greaterThan _ _ => 1
  | greaterThanBatch items => items.length
  | fusedPruneNode inputs => 1 + if inputs.hasIncumbent then inputs.costLowers.length else 0
  | fusedAcceptCandidate inputs => if inputs.hasIncumbent then 5 else 2

/-- Every operand is a ciphertext of an admissible plaintext, and so is the size of the call. -/
structure Admissible (D : C → Int → Prop) (Fits : Int → Prop) (Batch : Nat → Prop)
    (call : SecureCall C) : Prop where
  operands : ∀ c ∈ call.operands, ∃ x, D c x ∧ Fits x
  size : Batch call.size

end SecureCall

/-- The backend's state and the record. -/
abbrev Recording (σ C : Type) := σ × List (SecureCall C)

/-- Record a call and make it. -/
def recordCall {α : Type} (call : SecureCall C) (m : SecureM σ α) : SecureM (Recording σ C) α := do
  update fun record => record ++ [call]
  onFst m

def recorded (ops : SecureOps σ C) : SecureOps (Recording σ C) C :=
  { encryptConstant := fun v => onFst (ops.encryptConstant v)
    add := fun a b => onFst (ops.add a b)
    scalarMul := fun a k => onFst (ops.scalarMul a k)
    secureMul := fun a b => recordCall (.secureMul a b) (ops.secureMul a b)
    secureMulBatch := fun items => recordCall (.secureMulBatch items) (ops.secureMulBatch items)
    greaterThan := fun a b => recordCall (.greaterThan a b) (ops.greaterThan a b)
    greaterThanBatch := fun items =>
      recordCall (.greaterThanBatch items) (ops.greaterThanBatch items)
    domain := ops.domain
    fused := ops.fused.map fun fused =>
      { predicateFusionEnabled := onFst fused.predicateFusionEnabled
        fusedPruneNode := fun context inputs =>
          recordCall (.fusedPruneNode inputs) (fused.fusedPruneNode context inputs)
        fusedAcceptCandidate := fun context inputs =>
          recordCall (.fusedAcceptCandidate inputs) (fused.fusedAcceptCandidate context inputs) } }

/-- The engine over the recording backend. -/
def recordedEngine (e : PredicateEngine σ C) : PredicateEngine (Recording σ C) C :=
  { ops := recorded e.ops
    authorizer := fun context => onFst (e.authorizer context)
    resolver := fun context bit => onFst (e.resolver context bit) }

section Contract

variable {D : C → Int → Prop} {Fits : Int → Prop} {Batch : Nat → Prop} {J : σ → Prop}

/-- The record holds admissible calls only. -/
def RecordGood (D : C → Int → Prop) (Fits : Int → Prop) (Batch : Nat → Prop)
    (record : List (SecureCall C)) : Prop :=
  ∀ call ∈ record, call.Admissible D Fits Batch

def RecordOk (J : σ → Prop) (D : C → Int → Prop) (Fits : Int → Prop) (Batch : Nat → Prop)
    (t : Recording σ C) : Prop :=
  J t.1 ∧ RecordGood D Fits Batch t.2

omit [CiphertextLike C] in
/-- A call that is not recorded. -/
theorem onFst_keeps {α : Type} {m : SecureM σ α} {R : α → Prop}
    (h : Triple J m (fun a s => R a ∧ J s) (fun _ => J)) :
    Yields (RecordOk J D Fits Batch) (onFst m) R (fun _ => RecordOk J D Fits Batch) :=
  (Triple.onFst h (RecordGood D Fits Batch)).weaken (fun _ ht => ht)
    (fun _ _ ht => ⟨ht.1.1, ht.1.2, ht.2⟩) (fun _ _ ht => ht)

omit [CiphertextLike C] in
theorem recordCall_spec {α : Type} {call : SecureCall C} {m : SecureM σ α} {R : α → Prop}
    {E : Error → σ → Prop} (hcall : call.Admissible D Fits Batch) (hm : Yields J m R E) :
    Triple (RecordOk J D Fits Batch) (recordCall call m)
      (fun a t => R a ∧ RecordOk J D Fits Batch t)
      (fun err t => E err t.1 ∧ RecordGood D Fits Batch t.2) := by
  refine Triple.bind (Q := fun _ => RecordOk J D Fits Batch) (Triple.update fun t ht => ?_)
    fun _ => ?_
  · refine ⟨ht.1, fun c hc => ?_⟩
    rcases List.mem_append.1 hc with hc | hc
    · exact ht.2 c hc
    · rw [List.mem_singleton.1 hc]
      exact hcall
  · exact (Triple.onFst hm (RecordGood D Fits Batch)).weaken (fun _ ht => ht)
      (fun _ _ ht => ⟨ht.1.1, ht.1.2, ht.2⟩) (fun _ _ ht => ht)

omit [CiphertextLike C] in
theorem recordCall_never {α : Type} {call : SecureCall C} {m : SecureM σ α} {R : α → Prop}
    (hcall : call.Admissible D Fits Batch) (hm : Yields J m R Never) :
    Yields (RecordOk J D Fits Batch) (recordCall call m) R Never :=
  (recordCall_spec hcall hm).weaken (fun _ ht => ht) (fun _ _ ht => ht) (fun _ _ ht => ht.1.elim)

omit [CiphertextLike C] in
theorem pair_operands {items : List (C × C)} {xs : List (Int × Int)}
    (hitems : List.Forall₂ (fun item x => D item.1 x.1 ∧ D item.2 x.2) items xs)
    (hfit : ∀ x ∈ xs, Fits x.1 ∧ Fits x.2) :
    ∀ c ∈ items.flatMap (fun item => [item.1, item.2]), ∃ x, D c x ∧ Fits x := by
  induction hitems with
  | nil =>
      intro c hc
      cases hc
  | @cons item x items xs hitem _ ih =>
      intro c hc
      have hx := hfit x (by simp)
      rw [List.flatMap_cons] at hc
      rcases List.mem_append.1 hc with hc | hc
      · rcases List.mem_cons.1 hc with rfl | hc
        · exact ⟨x.1, hitem.1, hx.1⟩
        · rw [List.mem_singleton.1 hc]
          exact ⟨x.2, hitem.2, hx.2⟩
      · exact ih (fun y hy => hfit y (by simp [hy])) c hc

theorem recorded_exact {ops : SecureOps σ C} (h : ExactOps ops D Fits Batch J) (hone : Batch 1) :
    ExactOps (recorded ops) D Fits Batch (RecordOk J D Fits Batch) where
  nonempty := h.nonempty
  encryptConstant := fun v => (h.encryptConstant v).onFst (RecordGood D Fits Batch)
  add := fun ha hb => (h.add ha hb).onFst (RecordGood D Fits Batch)
  scalarMul := fun k ha => (h.scalarMul k ha).onFst (RecordGood D Fits Batch)
  secureMul := by
    intro a b x y ha hb hx hy
    refine recordCall_never ⟨?_, hone⟩ (h.secureMul ha hb hx hy)
    simpa [SecureCall.operands] using ⟨⟨x, ha, hx⟩, ⟨y, hb, hy⟩⟩
  secureMulBatch := by
    intro items xs hlen hitems hfit
    exact recordCall_never ⟨pair_operands hitems hfit, hlen⟩ (h.secureMulBatch hlen hitems hfit)
  greaterThan := by
    intro a b x y ha hb hx hy
    refine recordCall_never ⟨?_, hone⟩ (h.greaterThan ha hb hx hy)
    simpa [SecureCall.operands] using ⟨⟨x, ha, hx⟩, ⟨y, hb, hy⟩⟩
  greaterThanBatch := by
    intro items xs hlen hitems hfit
    exact recordCall_never ⟨pair_operands hitems hfit, hlen⟩ (h.greaterThanBatch hlen hitems hfit)

omit [CiphertextLike C] in
theorem fusedPrune_admissible {inputs : PruneInputs C} {v : PruneInputs Int}
    (hin : inputs.Holds D v) (hadm : v.Admits Fits Batch) :
    (SecureCall.fusedPruneNode inputs).Admissible D Fits Batch where
  operands := by
    intro c hc
    rcases List.mem_cons.1 hc with rfl | hc
    · exact ⟨_, hin.linearUpper, hadm.linearUpper⟩
    · rw [hin.hasIncumbent] at hc
      cases hinc : v.hasIncumbent
      · simp [hinc] at hc
      · rcases hadm.costLowers hinc with ⟨_, hlowers, hcost⟩
        rw [hinc, if_pos rfl] at hc
        rcases List.mem_cons.1 hc with rfl | hc
        · exact ⟨_, hin.incumbentCost hinc, hcost⟩
        · rcases List.mem_iff_get.1 hc with ⟨i, rfl⟩
          have hi : i.val < v.costLowers.length := by
            rw [← hin.costLowers.length_eq]
            exact i.isLt
          exact ⟨_, hin.costLowers.get i.isLt hi, hlowers _ (List.get_mem _ _)⟩
  size := by
    have hlen := hin.costLowers.length_eq
    refine hadm.batch _ ?_ ?_
    · simp [SecureCall.size]
    · simp only [SecureCall.size]
      split <;> omega

omit [CiphertextLike C] in
theorem fusedAccept_admissible {inputs : AcceptInputs C} {v : AcceptInputs Int}
    (hin : inputs.Holds D v) (hadm : v.Admits Fits Batch) :
    (SecureCall.fusedAcceptCandidate inputs).Admissible D Fits Batch where
  operands := by
    intro c hc
    rcases hadm.candidate with ⟨hlinear, hc3, hcost, hc12⟩
    simp only [SecureCall.operands, AcceptInputs.operands, hin.hasIncumbent] at hc
    cases hinc : v.hasIncumbent
    · simp only [hinc, Bool.false_eq_true, if_false, List.append_nil, List.mem_cons,
        List.not_mem_nil, or_false] at hc
      rcases hc with rfl | rfl
      · exact ⟨_, hin.linear, hlinear⟩
      · exact ⟨_, hin.c3, hc3⟩
    · rcases hadm.incumbent hinc with ⟨hicost, hic12⟩
      simp only [hinc, if_true, List.cons_append, List.nil_append, List.mem_cons,
        List.not_mem_nil, or_false] at hc
      rcases hc with rfl | rfl | rfl | rfl | rfl | rfl
      · exact ⟨_, hin.linear, hlinear⟩
      · exact ⟨_, hin.c3, hc3⟩
      · exact ⟨_, hin.cost, hcost⟩
      · exact ⟨_, hin.c12, hc12⟩
      · exact ⟨_, hin.incumbentCost hinc, hicost⟩
      · exact ⟨_, hin.incumbentC12 hinc, hic12⟩
  size := by
    refine hadm.batch _ ?_ ?_ <;> simp only [SecureCall.size] <;> split <;> decide

/-- Parties that keep the backend's invariant, whatever they answer and whenever they throw. -/
structure Keeps (e : PredicateEngine σ C) (J : σ → Prop) : Prop where
  authorize : ∀ context, Triple J (e.authorizer context) (fun _ => J) (fun _ => J)
  resolve : ∀ context bit, Triple J (e.resolver context bit) (fun _ => J) (fun _ => J)
  enabled : ∀ fused ∈ e.ops.fused,
    Triple J fused.predicateFusionEnabled (fun _ => J) (fun _ => J)
  fusedPrune : ∀ fused ∈ e.ops.fused, ∀ context inputs,
    Triple J (fused.fusedPruneNode context inputs) (fun _ => J) (fun _ => J)
  fusedAccept : ∀ fused ∈ e.ops.fused, ∀ context inputs,
    Triple J (fused.fusedAcceptCandidate context inputs) (fun _ => J) (fun _ => J)

/-- Whatever the parties answer, the record stays admissible. -/
theorem recorded_parties {e : PredicateEngine σ C} (hops : ExactOps e.ops D Fits Batch J)
    (h : Keeps e J) (hone : Batch 1) :
    Parties (recordedEngine e) D Fits Batch (RecordOk J D Fits Batch) (fun _ _ => True)
      (fun _ => RecordOk J D Fits Batch) where
  ops := recorded_exact hops hone
  authorize := fun context =>
    onFst_keeps ((h.authorize context).post fun _ _ hs => ⟨Or.inr fun _ ht => ht, hs⟩)
  resolve := fun context bit _ _ =>
    onFst_keeps ((h.resolve context bit).post fun _ _ hs => ⟨trivial, hs⟩)
  enabled := by
    intro fused hfused
    rcases Option.map_eq_some_iff.1 hfused with ⟨inner, hinner, rfl⟩
    exact onFst_keeps ((h.enabled inner hinner).post fun _ _ hs => ⟨trivial, hs⟩)
  fusedPrune := by
    intro fused hfused context inputs v hin hadm
    rcases Option.map_eq_some_iff.1 hfused with ⟨inner, hinner, rfl⟩
    have hcall : Yields J (inner.fusedPruneNode context inputs) (fun _ => True) (fun _ => J) :=
      (h.fusedPrune inner hinner context inputs).post fun _ _ hs => ⟨trivial, hs⟩
    exact recordCall_spec (fusedPrune_admissible hin hadm) hcall
  fusedAccept := by
    intro fused hfused context inputs v hin hadm
    rcases Option.map_eq_some_iff.1 hfused with ⟨inner, hinner, rfl⟩
    have hcall : Yields J (inner.fusedAcceptCandidate context inputs) (fun _ => True)
        (fun _ => J) :=
      (h.fusedAccept inner hinner context inputs).post fun _ _ hs => ⟨trivial, hs⟩
    exact recordCall_spec (fusedAccept_admissible hin hadm) hcall

end Contract
end Secure
end SociSgx

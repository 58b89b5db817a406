import SociSgx.Lib.Preserves
import SociSgx.Secure.PredicateEngine

/-!
# OpsPreserve — invariants of a backend

What every call of a backend preserves, the derived operations and the two predicates preserve.
An engine needs more than that of the calls that evaluate a predicate: they run only under a context
that the authorizer has let through.
-/

namespace SociSgx
namespace Secure

open Exec

variable {σ C : Type} {I : σ → Prop}

/-! ## The backend -/

structure OpsPreserve (ops : SecureOps σ C) (I : σ → Prop) : Prop where
  encryptConstant : ∀ value, Preserves I (ops.encryptConstant value)
  add : ∀ a b, Preserves I (ops.add a b)
  scalarMul : ∀ a k, Preserves I (ops.scalarMul a k)
  secureMul : ∀ a b, Preserves I (ops.secureMul a b)
  secureMulBatch : ∀ items, Preserves I (ops.secureMulBatch items)
  greaterThan : ∀ a b, Preserves I (ops.greaterThan a b)
  greaterThanBatch : ∀ items, Preserves I (ops.greaterThanBatch items)

namespace OpsPreserve

variable {ops : SecureOps σ C} (h : OpsPreserve ops I)
include h

theorem sub (a b : C) : Preserves I (ops.sub a b) :=
  (h.scalarMul b (-1)).bind fun negated => h.add a negated

theorem lessThan (a b : C) : Preserves I (ops.lessThan a b) :=
  h.greaterThan b a

theorem bitNot (bit : EncryptedBit C) : Preserves I (ops.bitNot bit) := by
  apply (h.encryptConstant 1).bind
  intro one
  apply (h.sub one bit.ciphertext).bind
  intro difference
  exact Preserves.pure _

theorem bitAnd (a b : EncryptedBit C) : Preserves I (ops.bitAnd a b) :=
  (h.secureMul a.ciphertext b.ciphertext).bind fun _ => Preserves.pure _

theorem bitOr (a b : EncryptedBit C) : Preserves I (ops.bitOr a b) := by
  apply (h.secureMul a.ciphertext b.ciphertext).bind
  intro product
  apply (h.add a.ciphertext b.ciphertext).bind
  intro sum
  apply (h.sub sum product).bind
  intro difference
  exact Preserves.pure _

theorem bitOrBatch (items : List (EncryptedBit C × EncryptedBit C)) :
    Preserves I (ops.bitOrBatch items) := by
  apply (h.secureMulBatch _).bind
  intro products
  apply Preserves.mapM
  intro entry
  apply (h.add _ _).bind
  intro sum
  apply (h.sub sum entry.2).bind
  intro difference
  exact Preserves.pure _

theorem bitOrExclusive (a b : EncryptedBit C) : Preserves I (ops.bitOrExclusive a b) :=
  (h.add a.ciphertext b.ciphertext).bind fun _ => Preserves.pure _

theorem select (condition : EncryptedBit C) (trueValue falseValue : C) :
    Preserves I (ops.select condition trueValue falseValue) := by
  apply (h.sub trueValue falseValue).bind
  intro delta
  apply (h.secureMul condition.ciphertext delta).bind
  intro product
  exact h.add falseValue product

theorem min (a b : C) : Preserves I (ops.min a b) :=
  (h.lessThan a b).bind fun condition => h.select condition a b

theorem max (a b : C) : Preserves I (ops.max a b) :=
  (h.greaterThan a b).bind fun condition => h.select condition a b

/-- The same backend in a program with more state. -/
theorem onFst (κ : Type) : OpsPreserve (ops.onFst κ) (Preserves.First I) where
  encryptConstant := fun value => (h.encryptConstant value).onFst
  add := fun a b => (h.add a b).onFst
  scalarMul := fun a k => (h.scalarMul a k).onFst
  secureMul := fun a b => (h.secureMul a b).onFst
  secureMulBatch := fun items => (h.secureMulBatch items).onFst
  greaterThan := fun a b => (h.greaterThan a b).onFst
  greaterThanBatch := fun items => (h.greaterThanBatch items).onFst

end OpsPreserve

/-! ## The two predicates -/

namespace PredicateEngine

section Bits

variable {ops : SecureOps σ C}

theorem front_preserves {α : Type} (l : List α) : Preserves I (front l : SecureM σ α) := by
  cases l with
  | nil => exact Preserves.throw _
  | cons a l => exact Preserves.pure a

theorem foldLayers_preserves (h : OpsPreserve ops I) (fuel : Nat) :
    ∀ layer, Preserves I (foldLayers ops fuel layer) := by
  induction fuel with
  | zero => exact fun layer => Preserves.pure layer
  | succ fuel ih =>
      intro layer
      rw [foldLayers]
      by_cases hone : layer.length ≤ 1
      · rw [if_pos hone]
        exact Preserves.pure layer
      · rw [if_neg hone]
        exact (h.bitOrBatch _).bind fun next => ih _

variable [CiphertextLike C]

theorem pruneBit_preserves (h : OpsPreserve ops I) (inputs : PruneInputs C) :
    Preserves I (pruneBit ops inputs) := by
  refine (h.encryptConstant 0).bind fun zero => (Preserves.require _ _).bind fun _ =>
    (Preserves.require _ _).bind fun _ => (h.greaterThanBatch _).bind fun bits =>
      (front_preserves bits).bind fun finalBit => ?_
  cases inputs.hasIncumbent with
  | false => exact Preserves.pure finalBit
  | true =>
      refine (foldLayers_preserves h _ _).bind fun layers =>
        (front_preserves layers).bind fun costPrune => ?_
      exact h.bitOr finalBit costPrune

theorem acceptBit_preserves (h : OpsPreserve ops I) (inputs : AcceptInputs C) :
    Preserves I (acceptBit ops inputs) := by
  refine (h.encryptConstant 0).bind fun zero => (Preserves.require _ _).bind fun _ =>
    (h.greaterThanBatch _).bind fun bits => ?_
  split
  · exact (h.bitNot _).bind fun _ => h.bitAnd _ _
  · refine (h.bitNot _).bind fun _ => (h.bitAnd _ _).bind fun _ => ?_
    refine (h.bitOrExclusive _ _).bind fun _ => (h.bitNot _).bind fun _ => ?_
    exact (h.bitAnd _ _).bind fun _ => (h.bitOrExclusive _ _).bind fun _ => h.bitAnd _ _
  · exact Preserves.throw _

end Bits

/-! ## The engine -/

/-- The parties of an engine preserve `I`.  What evaluates a predicate does so under contexts that
somebody has `Asked` for, and with `Allowed`: these are the ones that the authorizer lets through. -/
structure PartiesPreserve (e : PredicateEngine σ C) (I : σ → Prop)
    (Asked Allowed : PredicateContext → Prop) : Prop where
  ops : OpsPreserve e.ops I
  authorize : ∀ context, Triple I (e.authorizer context)
    (fun answer s => (answer = true → Allowed context) ∧ I s) (fun _ => I)
  resolve : ∀ context bit, Asked context → Allowed context →
    Preserves I (e.resolver context bit)
  enabled : ∀ fused ∈ e.ops.fused, Preserves I fused.predicateFusionEnabled
  fusedPrune : ∀ fused ∈ e.ops.fused, ∀ context inputs, Asked context → Allowed context →
    Preserves I (fused.fusedPruneNode context inputs)
  fusedAccept : ∀ fused ∈ e.ops.fused, ∀ context inputs, Asked context → Allowed context →
    Preserves I (fused.fusedAcceptCandidate context inputs)

variable {e : PredicateEngine σ C} {Asked Allowed : PredicateContext → Prop}

/-- Behind `authorizeAndConsume` the context is allowed. -/
theorem authorized_bind (h : PartiesPreserve e I Asked Allowed) {context : PredicateContext}
    {expectedType : PredicateType} {α : Type} {m : SecureM (EngineWorld σ) α}
    (hm : Allowed context → Preserves (Preserves.First I) m) :
    Preserves (Preserves.First I) (do
      e.authorizeAndConsume context expectedType
      m) := by
  refine Preserves.bind_of (R := fun _ => Allowed context) ?_ fun _ => hm
  refine Triple.bind (Q := fun _ => Preserves.First I)
    ((Preserves.require _ _).bind fun _ => Preserves.require _ _) fun _ =>
    Triple.bind (Q := fun _ => Preserves.First I) (Preserves.require _ _) fun _ => ?_
  refine Triple.bind (Q := fun answer w => (answer = true → Allowed context) ∧ I w.1)
    ((Triple.onFst (h.authorize context) fun _ => True).weaken (fun _ hw => ⟨hw, trivial⟩)
      (fun _ _ hw => hw.1) fun _ _ hw => hw.1) fun answer => Triple.assuming fun hanswer => ?_
  refine Triple.bind (Triple.require fun _ w hw => hw) fun _ => Triple.assuming fun hyes => ?_
  rintro ⟨s, keys⟩ hs
  by_cases hmem : replayKey context ∈ keys
  · simp only [consume, if_pos hmem]
    exact hs
  · simp only [consume, if_neg hmem]
    exact ⟨hanswer hyes, hs⟩

theorem fusedBackend_preserves (h : PartiesPreserve e I Asked Allowed) :
    Triple (Preserves.First I) e.fusedBackend
      (fun found w => (∀ fused ∈ found, fused ∈ e.ops.fused) ∧ I w.1)
      (fun _ => Preserves.First I) := by
  unfold fusedBackend
  cases hfused : e.ops.fused with
  | none => exact Triple.pure fun w hw => ⟨fun _ hnone => absurd hnone (by simp), hw⟩
  | some fused =>
      refine Triple.bind (h.enabled fused hfused).onFst fun enabled => Triple.pure fun w hw => ?_
      refine ⟨fun found hfound => ?_, hw⟩
      cases enabled with
      | false => cases hfound
      | true => exact hfound

variable [CiphertextLike C]

theorem pruneNode_preserves (h : PartiesPreserve e I Asked Allowed) {context : PredicateContext}
    (hasked : Asked context) (inputs : PruneInputs C) :
    Preserves (Preserves.First I) (e.pruneNode context inputs) := by
  refine Preserves.bind_of (fusedBackend_preserves h) fun found hfound => ?_
  cases found with
  | some fused =>
      refine (Preserves.require _ _).bind fun _ => authorized_bind h fun hallowed => ?_
      exact (h.fusedPrune fused (hfound fused rfl) context inputs hasked hallowed).onFst
  | none =>
      refine (pruneBit_preserves h.ops inputs).onFst.bind fun finalBit => ?_
      exact authorized_bind h fun hallowed => (h.resolve context finalBit hasked hallowed).onFst

theorem acceptCandidate_preserves (h : PartiesPreserve e I Asked Allowed)
    {context : PredicateContext} (hasked : Asked context) (inputs : AcceptInputs C) :
    Preserves (Preserves.First I) (e.acceptCandidate context inputs) := by
  refine Preserves.bind_of (fusedBackend_preserves h) fun found hfound => ?_
  cases found with
  | some fused =>
      refine (Preserves.require _ _).bind fun _ => authorized_bind h fun hallowed => ?_
      exact (h.fusedAccept fused (hfound fused rfl) context inputs hasked hallowed).onFst
  | none =>
      refine (acceptBit_preserves h.ops inputs).onFst.bind fun finalBit => ?_
      exact authorized_bind h fun hallowed => (h.resolve context finalBit hasked hallowed).onFst

end PredicateEngine
end Secure
end SociSgx

import SociSgx.Basic
import SociSgx.Lib.Exec

/-!
# Ops — the `SecureOps` interface

`SecureOps σ C` is the abstract class `secure::SecureOps`: a record of calls over ciphertexts of
type `C` that may read and update the state `σ` of the backend and may throw.  The non-virtual
members (`sub`, `bitOr`, `select`, ...) are built from them exactly as in `secure_ops.cpp`.

`ExactOps` is the contract of a backend: on operands that it admits, every operation returns a
ciphertext of the exact integer result.
-/

namespace SociSgx
namespace Secure

open Exec

abbrev SecureM (σ : Type) : Type → Type := EStateM Error σ

/-- What the optimizers do with a ciphertext besides handing it to `SecureOps`: copy it, default
construct it, and test `bytes.empty()`. -/
class CiphertextLike (C : Type) extends Inhabited C where
  empty : C → Bool
  empty_default : empty default = true

/-- `secure::Ciphertext` -/
structure Ciphertext where
  bytes : Bytes := []
  deriving DecidableEq, Repr

instance : CiphertextLike Ciphertext where
  default := {}
  empty := fun c => c.bytes.isEmpty
  empty_default := rfl

/-- `secure::EncryptedBit`: only `SecureOps` makes one. -/
structure EncryptedBit (C : Type) where
  ciphertext : C

structure NumericDomain where
  scale : Int := 1000000
  maxRows : Nat := 0
  maxCostBits : Nat := 0
  maxTotalBits : Nat := 0
  maxLinearBits : Nat := 0
  compareOperandBits : Nat := 0
  deriving DecidableEq, Repr

/-! ## Predicates -/

/-- `secure::PredicateType`; `other` is a value of the underlying byte that is no enumerator. -/
inductive PredicateType where
  | pruneNode
  | acceptCandidate
  | other (value : UInt8)
  deriving DecidableEq, Repr

structure PredicateContext where
  sessionId : Bytes
  operationId : Bytes
  predicateType : PredicateType
  depth : UInt32
  nodeId : Bytes
  deriving DecidableEq, Repr

/-- `secure::PruneInputs`; over `Int` these are the plaintexts behind the ciphertexts. -/
structure PruneInputs (C : Type) where
  linearUpper : C
  costLowers : List C
  hasIncumbent : Bool
  incumbentCost : C

structure AcceptInputs (C : Type) where
  linear : C
  c3 : C
  cost : C
  c12 : C
  hasIncumbent : Bool
  incumbentCost : C
  incumbentC12 : C

/-- The predicate `PRUNE_NODE` on plaintexts. -/
def PruneInputs.holds (v : PruneInputs Int) : Bool :=
  decide (v.linearUpper < 0) ||
    (v.hasIncumbent && v.costLowers.any fun lower => decide (v.incumbentCost < lower))

/-- The predicate `ACCEPT_CANDIDATE` on plaintexts. -/
def AcceptInputs.holds (v : AcceptInputs Int) : Bool :=
  (decide (0 ≤ v.linear) && decide (0 < v.c3)) &&
    (!v.hasIncumbent || decide (v.cost < v.incumbentCost) ||
      (decide (v.cost = v.incumbentCost) && decide (v.c12 < v.incumbentC12)))

theorem PruneInputs.holds_iff (v : PruneInputs Int) :
    v.holds = true ↔ v.linearUpper < 0 ∨
      (v.hasIncumbent = true ∧ ∃ lower ∈ v.costLowers, v.incumbentCost < lower) := by
  simp [PruneInputs.holds]

theorem AcceptInputs.holds_iff (v : AcceptInputs Int) :
    v.holds = true ↔ (0 ≤ v.linear ∧ 0 < v.c3) ∧
      (v.hasIncumbent = true → v.cost < v.incumbentCost ∨
        (v.cost = v.incumbentCost ∧ v.c12 < v.incumbentC12)) := by
  cases hinc : v.hasIncumbent <;> simp [AcceptInputs.holds, hinc]

/-- `secure::FusedPredicateBackend` -/
structure FusedPredicateBackend (σ C : Type) where
  predicateFusionEnabled : SecureM σ Bool
  fusedPruneNode : PredicateContext → PruneInputs C → SecureM σ Bool
  fusedAcceptCandidate : PredicateContext → AcceptInputs C → SecureM σ Bool

/-! ## The operations -/

/-- The virtual members of `secure::SecureOps`.  `fused` is what
`dynamic_cast<FusedPredicateBackend*>` yields. -/
structure SecureOps (σ C : Type) where
  encryptConstant : Int → SecureM σ C
  add : C → C → SecureM σ C
  scalarMul : C → Int → SecureM σ C
  secureMul : C → C → SecureM σ C
  secureMulBatch : List (C × C) → SecureM σ (List C)
  greaterThan : C → C → SecureM σ (EncryptedBit C)
  greaterThanBatch : List (C × C) → SecureM σ (List (EncryptedBit C))
  domain : NumericDomain
  fused : Option (FusedPredicateBackend σ C)

namespace SecureOps

variable {σ C : Type}

/-- The `secureMulBatch` a backend inherits when it does not override it. -/
def secureMulBatchDefault (secureMul : C → C → SecureM σ C) (items : List (C × C)) :
    SecureM σ (List C) :=
  items.mapM fun item => secureMul item.1 item.2

def greaterThanBatchDefault (greaterThan : C → C → SecureM σ (EncryptedBit C))
    (items : List (C × C)) : SecureM σ (List (EncryptedBit C)) :=
  items.mapM fun item => greaterThan item.1 item.2

variable (ops : SecureOps σ C)

def sub (a b : C) : SecureM σ C := do
  let negated ← ops.scalarMul b (-1)
  ops.add a negated

def lessThan (a b : C) : SecureM σ (EncryptedBit C) :=
  ops.greaterThan b a

def bitNot (bit : EncryptedBit C) : SecureM σ (EncryptedBit C) := do
  let one ← ops.encryptConstant 1
  return ⟨← ops.sub one bit.ciphertext⟩

def bitAnd (a b : EncryptedBit C) : SecureM σ (EncryptedBit C) := do
  return ⟨← ops.secureMul a.ciphertext b.ciphertext⟩

def bitOr (a b : EncryptedBit C) : SecureM σ (EncryptedBit C) := do
  let product ← ops.secureMul a.ciphertext b.ciphertext
  let sum ← ops.add a.ciphertext b.ciphertext
  return ⟨← ops.sub sum product⟩

def bitOrBatch (items : List (EncryptedBit C × EncryptedBit C)) :
    SecureM σ (List (EncryptedBit C)) := do
  let products ← ops.secureMulBatch (items.map fun item => (item.1.ciphertext, item.2.ciphertext))
  (items.zip products).mapM fun entry => do
    let sum ← ops.add entry.1.1.ciphertext entry.1.2.ciphertext
    return ⟨← ops.sub sum entry.2⟩

/-- Addition of bits that the caller knows to be exclusive. -/
def bitOrExclusive (a b : EncryptedBit C) : SecureM σ (EncryptedBit C) := do
  return ⟨← ops.add a.ciphertext b.ciphertext⟩

def select (condition : EncryptedBit C) (trueValue falseValue : C) : SecureM σ C := do
  let delta ← ops.sub trueValue falseValue
  let product ← ops.secureMul condition.ciphertext delta
  ops.add falseValue product

def min (a b : C) : SecureM σ C := do
  ops.select (← ops.lessThan a b) a b

def max (a b : C) : SecureM σ C := do
  ops.select (← ops.greaterThan a b) a b

/-- The same operations in a program that has more state than the backend's. -/
def onFst (κ : Type) : SecureOps (σ × κ) C :=
  { encryptConstant := fun v => Exec.onFst (ops.encryptConstant v)
    add := fun a b => Exec.onFst (ops.add a b)
    scalarMul := fun a k => Exec.onFst (ops.scalarMul a k)
    secureMul := fun a b => Exec.onFst (ops.secureMul a b)
    secureMulBatch := fun items => Exec.onFst (ops.secureMulBatch items)
    greaterThan := fun a b => Exec.onFst (ops.greaterThan a b)
    greaterThanBatch := fun items => Exec.onFst (ops.greaterThanBatch items)
    domain := ops.domain
    fused := ops.fused.map fun f =>
      { predicateFusionEnabled := Exec.onFst f.predicateFusionEnabled
        fusedPruneNode := fun context inputs => Exec.onFst (f.fusedPruneNode context inputs)
        fusedAcceptCandidate := fun context inputs =>
          Exec.onFst (f.fusedAcceptCandidate context inputs) } }

end SecureOps

/-! ## The contract of a backend -/

theorem fits_toInt {Fits : Int → Prop} (h0 : Fits 0) (h1 : Fits 1) (p : Bool) :
    Fits p.toInt := by
  cases p
  · exact h0
  · exact h1

section Contract

variable {σ C : Type} [CiphertextLike C]

/-- The backend decrypts to the exact integer results.  `Decrypts c x` says that `c` is a
ciphertext of `x`; `Fits` admits the plaintexts that may enter a secure multiplication or a secure
comparison, `Batch` the sizes a batch may have, and `I` is an invariant of the backend's state. -/
structure ExactOps (ops : SecureOps σ C) (Decrypts : C → Int → Prop) (Fits : Int → Prop)
    (Batch : Nat → Prop) (I : σ → Prop) : Prop where
  nonempty : ∀ {c x}, Decrypts c x → CiphertextLike.empty c = false
  encryptConstant : ∀ v, Yields I (ops.encryptConstant v) (fun c => Decrypts c v) Never
  add : ∀ {a b x y}, Decrypts a x → Decrypts b y →
    Yields I (ops.add a b) (fun c => Decrypts c (x + y)) Never
  scalarMul : ∀ {a x} k, Decrypts a x →
    Yields I (ops.scalarMul a k) (fun c => Decrypts c (k * x)) Never
  secureMul : ∀ {a b x y}, Decrypts a x → Decrypts b y → Fits x → Fits y →
    Yields I (ops.secureMul a b) (fun c => Decrypts c (x * y)) Never
  secureMulBatch : ∀ {items : List (C × C)} {xs : List (Int × Int)}, Batch items.length →
    List.Forall₂ (fun item x => Decrypts item.1 x.1 ∧ Decrypts item.2 x.2) items xs →
    (∀ x ∈ xs, Fits x.1 ∧ Fits x.2) →
    Yields I (ops.secureMulBatch items)
      (fun cs => List.Forall₂ (fun c x => Decrypts c (x.1 * x.2)) cs xs) Never
  greaterThan : ∀ {a b x y}, Decrypts a x → Decrypts b y → Fits x → Fits y →
    Yields I (ops.greaterThan a b)
      (fun bit => Decrypts bit.ciphertext (decide (y < x)).toInt) Never
  greaterThanBatch : ∀ {items : List (C × C)} {xs : List (Int × Int)}, Batch items.length →
    List.Forall₂ (fun item x => Decrypts item.1 x.1 ∧ Decrypts item.2 x.2) items xs →
    (∀ x ∈ xs, Fits x.1 ∧ Fits x.2) →
    Yields I (ops.greaterThanBatch items)
      (fun bits => List.Forall₂
        (fun bit x => Decrypts bit.ciphertext (decide (x.2 < x.1)).toInt) bits xs) Never

variable {ops : SecureOps σ C} {Decrypts : C → Int → Prop} {Fits : Int → Prop}
  {Batch : Nat → Prop} {I : σ → Prop}

namespace ExactOps

variable (h : ExactOps ops Decrypts Fits Batch I) {a b : C} {x y : Int}
include h

theorem sub (ha : Decrypts a x) (hb : Decrypts b y) :
    Yields I (ops.sub a b) (fun c => Decrypts c (x - y)) Never := by
  refine (h.scalarMul (-1) hb).bind fun c hc => ?_
  refine (h.add ha hc).post fun d hd => ?_
  have hxy : x + -1 * y = x - y := by ring
  rwa [hxy] at hd

theorem bitNot {bit : EncryptedBit C} {p : Bool} (hbit : Decrypts bit.ciphertext p.toInt) :
    Yields I (ops.bitNot bit) (fun c => Decrypts c.ciphertext (!p).toInt) Never := by
  refine (h.encryptConstant 1).bind fun one hone => ?_
  refine (h.sub hone hbit).map fun c hc => ?_
  cases p <;> simpa using hc

theorem bitAnd {s t : EncryptedBit C} {p q : Bool} (hs : Decrypts s.ciphertext p.toInt)
    (ht : Decrypts t.ciphertext q.toInt) (h0 : Fits 0) (h1 : Fits 1) :
    Yields I (ops.bitAnd s t) (fun c => Decrypts c.ciphertext (p && q).toInt) Never := by
  have hfit := fits_toInt h0 h1
  refine (h.secureMul hs ht (hfit p) (hfit q)).map fun c hc => ?_
  cases p <;> cases q <;> simpa using hc

theorem bitOr {s t : EncryptedBit C} {p q : Bool} (hs : Decrypts s.ciphertext p.toInt)
    (ht : Decrypts t.ciphertext q.toInt) (h0 : Fits 0) (h1 : Fits 1) :
    Yields I (ops.bitOr s t) (fun c => Decrypts c.ciphertext (p || q).toInt) Never := by
  have hfit := fits_toInt h0 h1
  refine (h.secureMul hs ht (hfit p) (hfit q)).bind fun product hproduct => ?_
  refine (h.add hs ht).bind fun sum hsum => ?_
  refine (h.sub hsum hproduct).map fun c hc => ?_
  cases p <;> cases q <;> simpa using hc

theorem bitOrBatch {items : List (EncryptedBit C × EncryptedBit C)} {ps : List (Bool × Bool)}
    (hbatch : Batch items.length)
    (hitems : List.Forall₂ (fun item p => Decrypts item.1.ciphertext p.1.toInt ∧
      Decrypts item.2.ciphertext p.2.toInt) items ps) (h0 : Fits 0) (h1 : Fits 1) :
    Yields I (ops.bitOrBatch items)
      (fun bits => List.Forall₂ (fun bit p => Decrypts bit.ciphertext p.toInt) bits
        (ps.map fun p => p.1 || p.2)) Never := by
  have hpairs : List.Forall₂ (fun item x => Decrypts item.1 x.1 ∧ Decrypts item.2 x.2)
      (items.map fun item => (item.1.ciphertext, item.2.ciphertext))
      (ps.map fun p => (p.1.toInt, p.2.toInt)) := by
    simpa [List.forall₂_map_left_iff, List.forall₂_map_right_iff] using hitems
  have hfit : ∀ x ∈ ps.map (fun p => (p.1.toInt, p.2.toInt)), Fits x.1 ∧ Fits x.2 := by
    intro x hx
    rcases List.mem_map.1 hx with ⟨p, _, rfl⟩
    exact ⟨fits_toInt h0 h1 p.1, fits_toInt h0 h1 p.2⟩
  refine (h.secureMulBatch (by simpa using hbatch) hpairs hfit).bind fun products hproducts => ?_
  rw [List.forall₂_map_right_iff] at hproducts
  have hzip : List.Forall₂ (fun item p => Decrypts item.1.1.ciphertext p.1.toInt ∧
      Decrypts item.1.2.ciphertext p.2.toInt ∧ Decrypts item.2 (p.1.toInt * p.2.toInt))
      (items.zip products) ps := by
    clear hpairs hfit hbatch
    induction hitems generalizing products with
    | nil => simp
    | cons hitem _ ih =>
        cases hproducts with
        | cons hproduct hrest => exact List.Forall₂.cons ⟨hitem.1, hitem.2, hproduct⟩ (ih _ hrest)
  refine (Yields.mapM (S := fun bit p => Decrypts bit.ciphertext (p.1 || p.2).toInt)
    hzip ?_).post fun bits hbits => ?_
  · intro item p _ _ hitem
    refine (h.add hitem.1 hitem.2.1).bind fun sum hsum => ?_
    refine (h.sub hsum hitem.2.2).map fun c hc => ?_
    rcases p with ⟨p, q⟩
    cases p <;> cases q <;> simpa using hc
  · simpa [List.forall₂_map_right_iff] using hbits

theorem bitOrExclusive {s t : EncryptedBit C} {p q : Bool} (hs : Decrypts s.ciphertext p.toInt)
    (ht : Decrypts t.ciphertext q.toInt) (hpq : (p && q) = false) :
    Yields I (ops.bitOrExclusive s t) (fun c => Decrypts c.ciphertext (p || q).toInt) Never := by
  refine (h.add hs ht).map fun c hc => ?_
  cases p <;> cases q <;> simp at hpq <;> simpa using hc

theorem select {bit : EncryptedBit C} {p : Bool} (hbit : Decrypts bit.ciphertext p.toInt)
    (ha : Decrypts a x) (hb : Decrypts b y) (hp : Fits p.toInt) (hxy : Fits (x - y)) :
    Yields I (ops.select bit a b) (fun c => Decrypts c (if p then x else y)) Never := by
  refine (h.sub ha hb).bind fun delta hdelta => ?_
  refine (h.secureMul hbit hdelta hp hxy).bind fun product hproduct => ?_
  refine (h.add hb hproduct).post fun c hc => ?_
  cases p <;> simpa using hc

theorem max (ha : Decrypts a x) (hb : Decrypts b y) (h0 : Fits 0) (h1 : Fits 1) (hx : Fits x)
    (hy : Fits y) (hxy : Fits (x - y)) :
    Yields I (ops.max a b) (fun c => Decrypts c (Max.max x y)) Never := by
  refine (h.greaterThan ha hb hx hy).bind fun bit hbit => ?_
  by_cases hlt : y < x
  · refine (h.select (p := true) (by simpa [hlt] using hbit) ha hb h1 hxy).post fun c hc => ?_
    simpa [max_eq_left hlt.le] using hc
  · refine (h.select (p := false) (by simpa [hlt] using hbit) ha hb h0 hxy).post fun c hc => ?_
    simpa [max_eq_right (not_lt.1 hlt)] using hc

theorem min (ha : Decrypts a x) (hb : Decrypts b y) (h0 : Fits 0) (h1 : Fits 1) (hx : Fits x)
    (hy : Fits y) (hxy : Fits (x - y)) :
    Yields I (ops.min a b) (fun c => Decrypts c (Min.min x y)) Never := by
  refine (h.greaterThan hb ha hy hx).bind fun bit hbit => ?_
  by_cases hlt : x < y
  · refine (h.select (p := true) (by simpa [hlt] using hbit) ha hb h1 hxy).post fun c hc => ?_
    simpa [min_eq_left hlt.le] using hc
  · refine (h.select (p := false) (by simpa [hlt] using hbit) ha hb h0 hxy).post fun c hc => ?_
    simpa [min_eq_right (not_lt.1 hlt)] using hc

theorem onFst {κ : Type} (K : κ → Prop) :
    ExactOps (ops.onFst κ) Decrypts Fits Batch (fun w => I w.1 ∧ K w.2) where
  nonempty := h.nonempty
  encryptConstant := fun v => (h.encryptConstant v).onFst K
  add := fun ha hb => (h.add ha hb).onFst K
  scalarMul := fun k ha => (h.scalarMul k ha).onFst K
  secureMul := fun ha hb hx hy => (h.secureMul ha hb hx hy).onFst K
  secureMulBatch := fun hlen hitems hfit => (h.secureMulBatch hlen hitems hfit).onFst K
  greaterThan := fun ha hb hx hy => (h.greaterThan ha hb hx hy).onFst K
  greaterThanBatch := fun hlen hitems hfit => (h.greaterThanBatch hlen hitems hfit).onFst K

end ExactOps
end Contract

/-! ## A backend in the clear -/

/-- Ciphertexts that hold their plaintext; `none` is the empty one. -/
instance : CiphertextLike (Option Int) where
  default := none
  empty := Option.isNone
  empty_default := rfl

def clearOps (domain : NumericDomain) : SecureOps Unit (Option Int) :=
  let secureMul := fun a b : Option Int => (pure (some (a.getD 0 * b.getD 0)) : SecureM Unit _)
  let greaterThan := fun a b : Option Int =>
    (pure ⟨some (decide (b.getD 0 < a.getD 0)).toInt⟩ : SecureM Unit (EncryptedBit (Option Int)))
  { encryptConstant := fun v => pure (some v)
    add := fun a b => pure (some (a.getD 0 + b.getD 0))
    scalarMul := fun a k => pure (some (k * a.getD 0))
    secureMul := secureMul
    secureMulBatch := SecureOps.secureMulBatchDefault secureMul
    greaterThan := greaterThan
    greaterThanBatch := SecureOps.greaterThanBatchDefault greaterThan
    domain := domain
    fused := none }

theorem clearOps_exact (domain : NumericDomain) (Fits : Int → Prop) (Batch : Nat → Prop) :
    ExactOps (clearOps domain) (fun c x => c = some x) Fits Batch (fun _ => True) where
  nonempty := by
    rintro c x rfl
    rfl
  encryptConstant := fun v => Yields.pure rfl
  add := by
    rintro _ _ x y rfl rfl
    exact Yields.pure rfl
  scalarMul := by
    rintro _ x k rfl
    exact Yields.pure rfl
  secureMul := by
    rintro _ _ x y rfl rfl _ _
    exact Yields.pure rfl
  secureMulBatch := by
    rintro items xs _ hitems _
    refine Yields.mapM hitems fun item x _ _ hitem => Yields.pure ?_
    rw [hitem.1, hitem.2]
    rfl
  greaterThan := by
    rintro _ _ x y rfl rfl _ _
    exact Yields.pure rfl
  greaterThanBatch := by
    rintro items xs _ hitems _
    refine Yields.mapM hitems fun item x _ _ hitem => Yields.pure ?_
    rw [hitem.1, hitem.2]
    rfl

end Secure
end SociSgx

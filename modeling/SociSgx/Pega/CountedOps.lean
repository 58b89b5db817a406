import SociSgx.Secure.Leakage

/-!
# CountedOps — the counted façade of PEGA

Every call of the optimizer goes through `CountedOps`, which adds the operations behind it to the
run's profile and hands it to the backend.  Batches are cut into chunks of at most 32 items, and
their results come back in the order of the items.

`Progress` is what a run keeps besides the backend's state: the profile, and the number of random
draws taken so far.
-/

namespace SociSgx
namespace Optimization

open Exec Secure

/-- `ConfidentialScalableOperationCounts` -/
structure OperationCounts where
  encryptConstant : UInt64 := 0
  add : UInt64 := 0
  scalarMul : UInt64 := 0
  secureMul : UInt64 := 0
  secureCompare : UInt64 := 0
  secureSelect : UInt64 := 0
  secureMulDispatches : UInt64 := 0
  secureCompareDispatches : UInt64 := 0
  deriving DecidableEq, Repr

structure Progress where
  run : OperationCounts := {}
  drawn : Nat := 0
  deriving DecidableEq, Repr

abbrev PegaM (σ : Type) : Type → Type := SecureM (σ × Progress)

/-- The loop over the offsets; `fuel` bounds the number of chunks. -/
def chunksFrom {α : Type} : Nat → List α → List (List α)
  | 0, _ => []
  | fuel + 1, items =>
      if items.isEmpty then [] else items.take 32 :: chunksFrom fuel (items.drop 32)

def chunks {α : Type} (items : List α) : List (List α) :=
  chunksFrom items.length items

namespace CountedOps

variable {σ C α : Type}

/-- Count, then call. -/
def counted (count : OperationCounts → OperationCounts) (m : SecureM σ α) : PegaM σ α := do
  update fun progress => { progress with run := count progress.run }
  onFst m

variable (ops : SecureOps σ C)

def constant (value : Int) : PegaM σ C :=
  counted (fun n => { n with encryptConstant := n.encryptConstant + 1 })
    (ops.encryptConstant value)

def add (a b : C) : PegaM σ C :=
  counted (fun n => { n with add := n.add + 1 }) (ops.add a b)

def scalar (a : C) (value : Int) : PegaM σ C :=
  counted (fun n => { n with scalarMul := n.scalarMul + 1 }) (ops.scalarMul a value)

def sub (a b : C) : PegaM σ C := do
  let negated ← scalar ops b (-1)
  add ops a negated

def mul (a b : C) : PegaM σ C :=
  counted (fun n => { n with
    secureMul := n.secureMul + 1
    secureMulDispatches := n.secureMulDispatches + 1 }) (ops.secureMul a b)

/-- Count the items, then dispatch them chunk by chunk. -/
def dispatch {β : Type} (countItems : UInt64 → OperationCounts → OperationCounts)
    (countDispatch : OperationCounts → OperationCounts) (call : List α → SecureM σ (List β))
    (items : List α) : PegaM σ (List β) := do
  update fun progress =>
    { progress with run := countItems (UInt64.ofNat items.length) progress.run }
  (chunks items).foldlM (fun output chunk => do
    let values ← counted countDispatch (call chunk)
    return output ++ values) []

def mulBatch (items : List (C × C)) : PegaM σ (List C) :=
  dispatch (fun size n => { n with secureMul := n.secureMul + size })
    (fun n => { n with secureMulDispatches := n.secureMulDispatches + 1 }) ops.secureMulBatch items

def greater (a b : C) : PegaM σ (EncryptedBit C) :=
  counted (fun n => { n with
    secureCompare := n.secureCompare + 1
    secureCompareDispatches := n.secureCompareDispatches + 1 }) (ops.greaterThan a b)

def greaterBatch (items : List (C × C)) : PegaM σ (List (EncryptedBit C)) :=
  dispatch (fun size n => { n with secureCompare := n.secureCompare + size })
    (fun n => { n with secureCompareDispatches := n.secureCompareDispatches + 1 })
    ops.greaterThanBatch items

def less (a b : C) : PegaM σ (EncryptedBit C) :=
  greater ops b a

def notBit (bit : EncryptedBit C) : PegaM σ (EncryptedBit C) :=
  counted (fun n => { n with
    encryptConstant := n.encryptConstant + 1
    scalarMul := n.scalarMul + 1
    add := n.add + 1 }) (ops.bitNot bit)

def andBit (a b : EncryptedBit C) : PegaM σ (EncryptedBit C) :=
  counted (fun n => { n with
    secureMul := n.secureMul + 1
    secureMulDispatches := n.secureMulDispatches + 1 }) (ops.bitAnd a b)

def orBit (a b : EncryptedBit C) : PegaM σ (EncryptedBit C) :=
  counted (fun n => { n with
    secureMul := n.secureMul + 1
    secureMulDispatches := n.secureMulDispatches + 1
    scalarMul := n.scalarMul + 1
    add := n.add + 2 }) (ops.bitOr a b)

def orBitExclusive (a b : EncryptedBit C) : PegaM σ (EncryptedBit C) :=
  counted (fun n => { n with add := n.add + 1 }) (ops.bitOrExclusive a b)

def select (condition : EncryptedBit C) (yes no : C) : PegaM σ C :=
  counted (fun n => { n with
    secureSelect := n.secureSelect + 1
    secureMul := n.secureMul + 1
    secureMulDispatches := n.secureMulDispatches + 1
    scalarMul := n.scalarMul + 1
    add := n.add + 2 }) (ops.select condition yes no)

def selectBatch (condition : EncryptedBit C) (values : List (C × C)) : PegaM σ (List C) := do
  update fun progress => { progress with
    run := { progress.run with
      secureSelect := progress.run.secureSelect + UInt64.ofNat values.length } }
  let products ← values.mapM fun value => do
    let delta ← sub ops value.1 value.2
    return (condition.ciphertext, delta)
  let productsOut ← mulBatch ops products
  (values.zip productsOut).mapM fun entry => add ops entry.1.2 entry.2

end CountedOps

/-! ## Chunks -/

section Chunks

variable {α β : Type}

theorem chunksFrom_flatten (fuel : Nat) :
    ∀ items : List α, items.length ≤ fuel → (chunksFrom fuel items).flatten = items := by
  induction fuel with
  | zero =>
      intro items hlength
      exact (List.length_eq_zero_iff.1 (Nat.le_zero.1 hlength)).symm
  | succ fuel ih =>
      intro items hlength
      rw [chunksFrom]
      split
      · exact (List.isEmpty_iff.1 ‹_›).symm
      · have hshort : (items.drop 32).length ≤ fuel := by
          rw [List.length_drop]
          omega
        rw [List.flatten_cons, ih _ hshort, List.take_append_drop]

theorem chunks_flatten (items : List α) : (chunks items).flatten = items :=
  chunksFrom_flatten _ items le_rfl

theorem mem_chunks_length {items chunk : List α} (h : chunk ∈ chunks items) :
    1 ≤ chunk.length ∧ chunk.length ≤ 32 := by
  suffices hgen : ∀ fuel (items : List α), chunk ∈ chunksFrom fuel items →
      1 ≤ chunk.length ∧ chunk.length ≤ 32 from hgen _ items h
  intro fuel
  induction fuel with
  | zero =>
      intro items hmem
      cases hmem
  | succ fuel ih =>
      intro items hmem
      rw [chunksFrom] at hmem
      split at hmem
      · cases hmem
      · rcases List.mem_cons.1 hmem with rfl | hmem
        · have hpos : 0 < items.length :=
            List.length_pos_iff.2 fun hnil => ‹¬ items.isEmpty = true› (by rw [hnil]; rfl)
          rw [List.length_take]
          omega
        · exact ih _ hmem

/-- Related lists are cut at the same places. -/
theorem chunks_rel {A : α → β → Prop} {items : List α} {xs : List β}
    (h : List.Forall₂ A items xs) :
    List.Forall₂ (List.Forall₂ A) (chunks items) (chunks xs) := by
  suffices hgen : ∀ fuel (items : List α) (xs : List β), List.Forall₂ A items xs →
      List.Forall₂ (List.Forall₂ A) (chunksFrom fuel items) (chunksFrom fuel xs) by
    rw [chunks, chunks, h.length_eq]
    exact hgen _ items xs h
  intro fuel
  induction fuel with
  | zero => exact fun _ _ _ => List.Forall₂.nil
  | succ fuel ih =>
      intro items xs h
      cases h with
      | nil => exact List.Forall₂.nil
      | cons hhead htail =>
          have hall := List.Forall₂.cons hhead htail
          exact List.Forall₂.cons (List.forall₂_take 32 hall) (ih _ _ (List.forall₂_drop 32 hall))

/-- Two lists that are related to a third one are paired up. -/
theorem zip_left_rel {γ : Type} {A : α → γ → Prop} {B : β → γ → Prop} {xs : List α} {ys : List β}
    {zs : List γ} (hxs : List.Forall₂ A xs zs) (hys : List.Forall₂ B ys zs) :
    List.Forall₂ (fun item z => A item.1 z ∧ B item.2 z) (xs.zip ys) zs := by
  induction hxs generalizing ys with
  | nil => exact List.Forall₂.nil
  | cons hx _ ih =>
      cases hys with
      | cons hy hrest => exact List.Forall₂.cons ⟨hx, hy⟩ (ih hrest)

end Chunks

/-! ## Exact backends -/

/-- The invariant of the backend and the number of draws, whatever has been counted. -/
def Kept {σ : Type} (I : σ → Prop) (drawn : Nat) (w : σ × Progress) : Prop :=
  I w.1 ∧ w.2.drawn = drawn

/-- An encryption of a bit. -/
abbrev BitHolds {C : Type} (D : C → Int → Prop) (bit : EncryptedBit C) (p : Bool) : Prop :=
  D bit.ciphertext p.toInt

namespace CountedOps

section Exact

variable {σ C α β : Type} {D : C → Int → Prop} {Fits : Int → Prop} {Batch : Nat → Prop}
  {I : σ → Prop} {drawn : Nat}

theorem count_yields (f : OperationCounts → OperationCounts) :
    Yields (Kept I drawn)
      (update fun progress => { progress with run := f progress.run } : PegaM σ PUnit)
      (fun _ => True) Never :=
  Triple.update fun _ hw => ⟨trivial, hw⟩

theorem counted_yields {m : SecureM σ α} {R : α → Prop} (f : OperationCounts → OperationCounts)
    (h : Yields I m R Never) : Yields (Kept I drawn) (counted f m) R Never :=
  (count_yields f).bind fun _ _ => h.onFst fun progress : Progress => progress.drawn = drawn

theorem dispatch_yields {ι : Type} {A : α → ι → Prop} {B : β → ι → Prop}
    {countItems : UInt64 → OperationCounts → OperationCounts}
    {countDispatch : OperationCounts → OperationCounts} {call : List α → SecureM σ (List β)}
    {items : List α} {xs : List ι} (hitems : List.Forall₂ A items xs)
    (hcall : ∀ (chunk : List α) (ys : List ι), 1 ≤ chunk.length ∧ chunk.length ≤ 32 →
      List.Forall₂ A chunk ys → (∀ y ∈ ys, y ∈ xs) →
      Yields I (call chunk) (fun values => List.Forall₂ B values ys) Never) :
    Yields (Kept I drawn) (dispatch countItems countDispatch call items)
      (fun values => List.Forall₂ B values xs) Never := by
  refine (count_yields (countItems _)).bind fun _ _ => ?_
  have hpieces : List.Forall₂
      (fun chunk ys => List.Forall₂ A chunk ys ∧ 1 ≤ chunk.length ∧ chunk.length ≤ 32)
      (chunks items) (chunks xs) := by
    have hrel := chunks_rel hitems
    rw [List.forall₂_iff_zip] at hrel ⊢
    exact ⟨hrel.1, fun hmem => ⟨hrel.2 hmem, mem_chunks_length (List.of_mem_zip hmem).1⟩⟩
  have hloop := Yields.foldlM (E := Never) (I := Kept I drawn)
    (f := fun (output : List β) chunk => do
      let values ← counted countDispatch (call chunk)
      return output ++ values)
    (fun done output => List.Forall₂ B output done.flatten) hpieces
    (fun done ys rest chunk output hsplit hchunk hdone => ?_) (b := []) List.Forall₂.nil
  · exact hloop.post fun output houtput => by rwa [chunks_flatten] at houtput
  · have hmem : ∀ y ∈ ys, y ∈ xs := by
      intro y hy
      rw [← chunks_flatten xs, hsplit]
      exact List.mem_flatten.2 ⟨ys, by simp, hy⟩
    refine (counted_yields countDispatch (hcall chunk ys hchunk.2 hchunk.1 hmem)).bind
      fun values hvalues => Yields.pure ?_
    rw [List.flatten_append, List.flatten_singleton]
    exact List.rel_append hdone hvalues

variable [CiphertextLike C] {ops : SecureOps σ C} (h : ExactOps ops D Fits Batch I)
include h

theorem constant_yields (v : Int) :
    Yields (Kept I drawn) (constant ops v) (fun c => D c v) Never :=
  counted_yields _ (h.encryptConstant v)

variable {a b : C} {x y : Int}

theorem add_yields (ha : D a x) (hb : D b y) :
    Yields (Kept I drawn) (add ops a b) (fun c => D c (x + y)) Never :=
  counted_yields _ (h.add ha hb)

theorem scalar_yields (k : Int) (ha : D a x) :
    Yields (Kept I drawn) (scalar ops a k) (fun c => D c (k * x)) Never :=
  counted_yields _ (h.scalarMul k ha)

theorem sub_yields (ha : D a x) (hb : D b y) :
    Yields (Kept I drawn) (sub ops a b) (fun c => D c (x - y)) Never := by
  refine (scalar_yields h (-1) hb).bind fun c hc => ?_
  refine (add_yields h ha hc).post fun d hd => ?_
  have hxy : x + -1 * y = x - y := by ring
  rwa [hxy] at hd

theorem mul_yields (ha : D a x) (hb : D b y) (hx : Fits x) (hy : Fits y) :
    Yields (Kept I drawn) (mul ops a b) (fun c => D c (x * y)) Never :=
  counted_yields _ (h.secureMul ha hb hx hy)

theorem greater_yields (ha : D a x) (hb : D b y) (hx : Fits x) (hy : Fits y) :
    Yields (Kept I drawn) (greater ops a b) (fun bit => BitHolds D bit (decide (y < x))) Never :=
  counted_yields _ (h.greaterThan ha hb hx hy)

theorem less_yields (ha : D a x) (hb : D b y) (hx : Fits x) (hy : Fits y) :
    Yields (Kept I drawn) (less ops a b) (fun bit => BitHolds D bit (decide (x < y))) Never :=
  greater_yields h hb ha hy hx

/-- The products come back in the order of the items. -/
theorem mulBatch_yields (hbatch : ∀ k, 1 ≤ k ∧ k ≤ 32 → Batch k) {items : List (C × C)}
    {xs : List (Int × Int)}
    (hitems : List.Forall₂ (fun item x => D item.1 x.1 ∧ D item.2 x.2) items xs)
    (hfit : ∀ x ∈ xs, Fits x.1 ∧ Fits x.2) :
    Yields (Kept I drawn) (mulBatch ops items)
      (fun cs => List.Forall₂ (fun c x => D c (x.1 * x.2)) cs xs) Never :=
  dispatch_yields hitems fun _ _ hsize hchunk hmem =>
    h.secureMulBatch (hbatch _ hsize) hchunk fun y hy => hfit y (hmem y hy)

/-- The comparisons come back in the order of the items. -/
theorem greaterBatch_yields (hbatch : ∀ k, 1 ≤ k ∧ k ≤ 32 → Batch k) {items : List (C × C)}
    {xs : List (Int × Int)}
    (hitems : List.Forall₂ (fun item x => D item.1 x.1 ∧ D item.2 x.2) items xs)
    (hfit : ∀ x ∈ xs, Fits x.1 ∧ Fits x.2) :
    Yields (Kept I drawn) (greaterBatch ops items)
      (fun bits => List.Forall₂ (fun bit x => BitHolds D bit (decide (x.2 < x.1))) bits xs)
      Never :=
  dispatch_yields hitems fun _ _ hsize hchunk hmem =>
    h.greaterThanBatch (hbatch _ hsize) hchunk fun y hy => hfit y (hmem y hy)

variable {s t : EncryptedBit C} {p q : Bool}

theorem notBit_yields (hs : BitHolds D s p) :
    Yields (Kept I drawn) (notBit ops s) (fun bit => BitHolds D bit (!p)) Never :=
  counted_yields _ (h.bitNot hs)

theorem orBitExclusive_yields (hs : BitHolds D s p) (ht : BitHolds D t q)
    (hpq : (p && q) = false) :
    Yields (Kept I drawn) (orBitExclusive ops s t) (fun bit => BitHolds D bit (p || q)) Never :=
  counted_yields _ (h.bitOrExclusive hs ht hpq)

variable (h0 : Fits 0) (h1 : Fits 1)
include h0 h1

theorem andBit_yields (hs : BitHolds D s p) (ht : BitHolds D t q) :
    Yields (Kept I drawn) (andBit ops s t) (fun bit => BitHolds D bit (p && q)) Never :=
  counted_yields _ (h.bitAnd hs ht h0 h1)

theorem orBit_yields (hs : BitHolds D s p) (ht : BitHolds D t q) :
    Yields (Kept I drawn) (orBit ops s t) (fun bit => BitHolds D bit (p || q)) Never :=
  counted_yields _ (h.bitOr hs ht h0 h1)

theorem select_yields (hs : BitHolds D s p) (ha : D a x) (hb : D b y) (hxy : Fits (x - y)) :
    Yields (Kept I drawn) (select ops s a b) (fun c => D c (if p then x else y)) Never :=
  counted_yields _ (h.select hs ha hb (fits_toInt h0 h1 p) hxy)

/-- A selection of every pair by one bit. -/
theorem selectBatch_yields (hbatch : ∀ k, 1 ≤ k ∧ k ≤ 32 → Batch k) (hs : BitHolds D s p)
    {values : List (C × C)} {xs : List (Int × Int)}
    (hvalues : List.Forall₂ (fun value x => D value.1 x.1 ∧ D value.2 x.2) values xs)
    (hfit : ∀ x ∈ xs, Fits (x.1 - x.2)) :
    Yields (Kept I drawn) (selectBatch ops s values)
      (fun cs => List.Forall₂ (fun c x => D c (if p then x.1 else x.2)) cs xs) Never := by
  refine (count_yields fun n => { n with
    secureSelect := n.secureSelect + UInt64.ofNat values.length }).bind fun _ _ => ?_
  refine Yields.bind (Yields.mapM
    (S := fun product (x : Int × Int) => D product.1 p.toInt ∧ D product.2 (x.1 - x.2)) hvalues
    fun value x _ _ hvalue => ?_) fun products hproducts => ?_
  · exact (sub_yields h hvalue.1 hvalue.2).bind fun delta hdelta => Yields.pure ⟨hs, hdelta⟩
  have hpairs : List.Forall₂ (fun product (x : Int × Int) => D product.1 x.1 ∧ D product.2 x.2)
      products (xs.map fun x => (p.toInt, x.1 - x.2)) := by
    rw [List.forall₂_map_right_iff]
    exact hproducts
  have hfits : ∀ x ∈ xs.map (fun x => (p.toInt, x.1 - x.2)), Fits x.1 ∧ Fits x.2 := by
    intro x hx
    rcases List.mem_map.1 hx with ⟨y, hy, rfl⟩
    exact ⟨fits_toInt h0 h1 p, hfit y hy⟩
  refine (mulBatch_yields h hbatch hpairs hfits).bind fun productsOut hproductsOut => ?_
  rw [List.forall₂_map_right_iff] at hproductsOut
  refine Yields.mapM (S := fun c (x : Int × Int) => D c (if p then x.1 else x.2))
    (zip_left_rel hvalues hproductsOut) fun entry x _ _ hentry => ?_
  refine (add_yields h hentry.1.2 hentry.2).post fun c hc => ?_
  cases p <;> simpa using hc

end Exact

/-! ## Alike backends -/

section Alike

variable {G : Error → Prop} {σ τ C D α β : Type} {A : C → D → Prop} {S : σ → τ → Prop}

/-- The progress is the same in both runs. -/
abbrev InPace (S : σ → τ → Prop) : σ × Progress → τ × Progress → Prop :=
  Both S Eq

theorem update_alike (f : Progress → Progress) :
    Lockstep G (InPace S) (update f : PegaM σ PUnit) (update f : PegaM τ PUnit)
      (fun _ _ => True) :=
  Lockstep.update fun _ _ hprogress => congrArg f hprogress

theorem counted_alike {m : SecureM σ α} {n : SecureM τ β} {R : α → β → Prop}
    (f : OperationCounts → OperationCounts) (h : Lockstep G S m n R) :
    Lockstep G (InPace S) (counted f m) (counted f n) R :=
  (update_alike _).bind fun _ _ _ => h.onFst Eq

theorem dispatch_alike {α' β' : Type} {R : α → α' → Prop} {T : β → β' → Prop}
    {countItems : UInt64 → OperationCounts → OperationCounts}
    {countDispatch : OperationCounts → OperationCounts} {call : List α → SecureM σ (List β)}
    {call' : List α' → SecureM τ (List β')} {items : List α} {items' : List α'}
    (hitems : List.Forall₂ R items items')
    (hcall : ∀ chunk chunk', List.Forall₂ R chunk chunk' →
      Lockstep G S (call chunk) (call' chunk') (List.Forall₂ T)) :
    Lockstep G (InPace S) (dispatch countItems countDispatch call items)
      (dispatch countItems countDispatch call' items') (List.Forall₂ T) := by
  unfold dispatch
  rw [hitems.length_eq]
  refine (update_alike _).bind fun _ _ _ => ?_
  refine Lockstep.foldlM (chunks_rel hitems) (fun chunk chunk' output output' hchunk houtput => ?_)
    List.Forall₂.nil
  exact (counted_alike countDispatch (hcall chunk chunk' hchunk)).bind
    fun values values' hvalues => Lockstep.pure (List.rel_append houtput hvalues)

variable [CiphertextLike C] [CiphertextLike D] {ops : SecureOps σ C} {ops' : SecureOps τ D}
  (h : AlikeOps G A S ops ops')
include h

theorem constant_alike (v : Int) :
    Lockstep G (InPace S) (constant ops v) (constant ops' v) A :=
  counted_alike _ (h.encryptConstant v)

variable {a b : C} {a' b' : D}

theorem add_alike (ha : A a a') (hb : A b b') :
    Lockstep G (InPace S) (add ops a b) (add ops' a' b') A :=
  counted_alike _ (h.add ha hb)

theorem scalar_alike (k : Int) (ha : A a a') :
    Lockstep G (InPace S) (scalar ops a k) (scalar ops' a' k) A :=
  counted_alike _ (h.scalarMul k ha)

theorem sub_alike (ha : A a a') (hb : A b b') :
    Lockstep G (InPace S) (sub ops a b) (sub ops' a' b') A :=
  (scalar_alike h (-1) hb).bind fun _ _ hc => add_alike h ha hc

theorem mul_alike (ha : A a a') (hb : A b b') :
    Lockstep G (InPace S) (mul ops a b) (mul ops' a' b') A :=
  counted_alike _ (h.secureMul ha hb)

theorem greater_alike (ha : A a a') (hb : A b b') :
    Lockstep G (InPace S) (greater ops a b) (greater ops' a' b') (BitAlike A) :=
  counted_alike _ (h.greaterThan ha hb)

theorem less_alike (ha : A a a') (hb : A b b') :
    Lockstep G (InPace S) (less ops a b) (less ops' a' b') (BitAlike A) :=
  greater_alike h hb ha

theorem mulBatch_alike {items : List (C × C)} {items' : List (D × D)}
    (hitems : PairsAlike A items items') :
    Lockstep G (InPace S) (mulBatch ops items) (mulBatch ops' items') (List.Forall₂ A) :=
  dispatch_alike hitems fun _ _ hchunk => h.secureMulBatch hchunk

theorem greaterBatch_alike {items : List (C × C)} {items' : List (D × D)}
    (hitems : PairsAlike A items items') :
    Lockstep G (InPace S) (greaterBatch ops items) (greaterBatch ops' items')
      (List.Forall₂ (BitAlike A)) :=
  dispatch_alike hitems fun _ _ hchunk => h.greaterThanBatch hchunk

variable {s t : EncryptedBit C} {s' t' : EncryptedBit D}

theorem notBit_alike (hs : BitAlike A s s') :
    Lockstep G (InPace S) (notBit ops s) (notBit ops' s') (BitAlike A) :=
  counted_alike _ (h.bitNot hs)

theorem andBit_alike (hs : BitAlike A s s') (ht : BitAlike A t t') :
    Lockstep G (InPace S) (andBit ops s t) (andBit ops' s' t') (BitAlike A) :=
  counted_alike _ (h.bitAnd hs ht)

theorem orBit_alike (hs : BitAlike A s s') (ht : BitAlike A t t') :
    Lockstep G (InPace S) (orBit ops s t) (orBit ops' s' t') (BitAlike A) :=
  counted_alike _ (h.bitOr hs ht)

theorem orBitExclusive_alike (hs : BitAlike A s s') (ht : BitAlike A t t') :
    Lockstep G (InPace S) (orBitExclusive ops s t) (orBitExclusive ops' s' t') (BitAlike A) :=
  counted_alike _ (h.bitOrExclusive hs ht)

theorem select_alike (hs : BitAlike A s s') (ha : A a a') (hb : A b b') :
    Lockstep G (InPace S) (select ops s a b) (select ops' s' a' b') A :=
  counted_alike _ (h.select hs ha hb)

theorem selectBatch_alike (hs : BitAlike A s s') {values : List (C × C)} {values' : List (D × D)}
    (hvalues : PairsAlike A values values') :
    Lockstep G (InPace S) (selectBatch ops s values) (selectBatch ops' s' values')
      (List.Forall₂ A) := by
  unfold selectBatch
  rw [hvalues.length_eq]
  refine (update_alike _).bind fun _ _ _ => ?_
  refine Lockstep.bind (Lockstep.mapM
    (B := fun product product' => A product.1 product'.1 ∧ A product.2 product'.2) hvalues
    fun value value' hvalue => ?_) fun products products' hproducts => ?_
  · exact (sub_alike h hvalue.1 hvalue.2).bind fun _ _ hdelta => Lockstep.pure ⟨hs, hdelta⟩
  refine (mulBatch_alike h hproducts).bind fun productsOut productsOut' hproductsOut => ?_
  exact Lockstep.mapM (zip_rel hvalues hproductsOut) fun entry entry' hentry =>
    add_alike h hentry.1.2 hentry.2

end Alike

end CountedOps

end Optimization
end SociSgx

import SociSgx.Benchmark.StructuredBounds
import SociSgx.Lib.Folds

/-!
# LagrangianBound — the Lagrangian bound that the tests call

`lagrangian_lower_bound_for_test` adds up the terms of the remaining items for every multiplier of
the grid.  The search looks the same sums up in its tables.  Both find the best bound of the grid,
and no cover of the residual is cheaper.
-/

namespace SociSgx
namespace StructuredExact

open Exec Optimization

def testTerm (lambda : Lambda) (extra gain : Int) : Checked Int := do
  let scaled ← checkedMul extra lambda.q "test B2 extra*q"
  let scaledExtra ← checkedMul scaled kScale "test B2 extra*q*scale"
  let weightedGain ← checkedMul lambda.p gain "test B2 p*gain"
  checkedSub scaledExtra weightedGain "test B2 term"

/-- The loop over the items, each its extra cost and its gain. -/
def testNumerator (lambda : Lambda) : List (Int × Int) → Int → Checked Int
  | [], numerator => .ok numerator
  | (extra, gain) :: rest, numerator => do
      let term ← testTerm lambda extra gain
      if term < 0 then
        let numerator ← checkedAdd numerator term "test B2 numerator"
        testNumerator lambda rest numerator
      else
        testNumerator lambda rest numerator

def lagrangianLowerBoundForTest (extras gains : List Int) (residual : Int) (depth : Nat) :
    Checked Int := do
  ensure (extras.length = gains.length ∧ depth ≤ extras.length ∧ 0 ≤ residual)
    "invalid B2 test bound input"
  let best ← kLagrangianGrid.foldlM (fun best lambda => do
    let product ← checkedMul lambda.p residual "test B2 p*residual"
    let numerator ← testNumerator lambda ((extras.zip gains).drop depth) product
    let denominator ← checkedMul lambda.q kScale "test B2 denominator"
    let quotient ← floorDiv numerator denominator
    return max best quotient) 0
  checkedI64 best "test B2 lower bound"

/-- A `std::vector<std::int64_t>`, which has at most `max_size()` elements. -/
structure Int64Vector where
  values : List Int
  size : values.length < 2 ^ 60
  range : ∀ x ∈ values, -2 ^ 63 ≤ x ∧ x ≤ int64Max

/-! ## The direct loop -/

theorem testTerm_spec {lambda : Lambda} (hlambda : lambda.Small) {extra gain : Int}
    (hextra : 0 ≤ extra ∧ extra ≤ int64Max) (hgain : 0 ≤ gain ∧ gain ≤ kScale * int64Max) :
    testTerm lambda extra gain = .ok (extra * (lambda.q * kScale) - lambda.p * gain) := by
  have hchecked := checked_difference hlambda hextra hgain
  refine bind_eq_ok.2 ⟨_, (hchecked _).1, bind_eq_ok.2 ⟨_, (hchecked _).2.1, ?_⟩⟩
  exact bind_eq_ok.2 ⟨_, (hchecked _).2.2.1, (hchecked _).2.2.2⟩

/-- Items of non-negative `std::int64_t` numbers. -/
def Itemized (items : List (Int × Int)) : Prop :=
  ∀ x ∈ items, (0 ≤ x.1 ∧ x.1 ≤ int64Max) ∧ 0 ≤ x.2 ∧ x.2 ≤ int64Max

theorem Itemized.range {items : List (Int × Int)} (h : Itemized items) {lambda : Lambda}
    (hlambda : lambda.Small) : -(5 * Covers.sumOf Prod.snd items) ≤ Covers.sumOf
      (fun x => min 0 (x.1 * (lambda.q * kScale) - lambda.p * x.2)) items ∧ Covers.sumOf
      (fun x => min 0 (x.1 * (lambda.q * kScale) - lambda.p * x.2)) items ≤ 0 :=
  sumOf_reducedTerm_range hlambda.1.2 (le_of_lt hlambda.denominator_pos) fun x hx =>
    ⟨(h x hx).1.1, (h x hx).2.1⟩

theorem Itemized.sum_le {items : List (Int × Int)} (h : Itemized items) :
    Covers.sumOf Prod.snd items ≤ items.length * int64Max := by
  have hle := List.sum_le_card_nsmul (items.map Prod.snd) int64Max (List.forall_mem_map.2
    fun x hx => (h x hx).2.2)
  rw [List.length_map, nsmul_eq_mul] at hle
  exact hle

/-- The loop over the items adds the negative terms. -/
theorem testNumerator_spec {lambda : Lambda} (hlambda : lambda.Small) :
    ∀ {items : List (Int × Int)} {numerator : Int}, Itemized items → numerator ≤ 2 ^ 126 →
      -2 ^ 126 ≤ numerator - 5 * Covers.sumOf Prod.snd items →
      testNumerator lambda items numerator = .ok (numerator + Covers.sumOf
        (fun x => min 0 (x.1 * (lambda.q * kScale) - lambda.p * x.2)) items) := by
  intro items
  induction items with
  | nil =>
      intro numerator _ _ _
      rw [Covers.sumOf_nil, add_zero]
      rfl
  | cons x rest ih =>
      intro numerator hitems hhigh hlow
      rcases x with ⟨extra, gain⟩
      rcases List.forall_mem_cons.1 hitems with ⟨⟨hextra, hgain⟩, hrest⟩
      have hlarge : int64Max ≤ kScale * int64Max := by decide
      have hterm := testTerm_spec hlambda hextra ⟨hgain.1, le_trans hgain.2 hlarge⟩
      have hrange :=
        reducedTerm_range hlambda.1.2 (le_of_lt hlambda.denominator_pos) hextra.1 hgain.1
      have hnonneg : 0 ≤ Covers.sumOf Prod.snd rest := Covers.sumOf_nonneg fun y hy =>
        (hrest y hy).2.1
      rw [Covers.sumOf_cons] at hlow
      rw [Covers.sumOf_cons]
      refine bind_eq_ok.2 ⟨_, hterm, ?_⟩
      generalize extra * (lambda.q * kScale) - lambda.p * gain = term at hrange ⊢
      dsimp only at hrange hlow ⊢
      by_cases hneg : term < 0
      · rw [min_eq_right (le_of_lt hneg)] at hrange ⊢
        have hadd : checkedAdd numerator term "test B2 numerator" = .ok (numerator + term) :=
          checkedI128_wide ⟨by omega, by omega⟩
        rw [if_pos hneg, ok_bind hadd, ih hrest (by omega) (by omega), add_assoc]
      · rw [if_neg hneg, ih hrest hhigh (by omega), min_eq_left (not_lt.1 hneg), zero_add]

/-- Both lists as one list of items. -/
theorem itemized_zip {extras gains : Int64Vector} (hextras : ∀ x ∈ extras.values, 0 ≤ x)
    (hgains : ∀ x ∈ gains.values, 0 < x) (depth : Nat) :
    Itemized ((extras.values.zip gains.values).drop depth) := by
  intro x hx
  have hzip := List.of_mem_zip (List.mem_of_mem_drop hx)
  exact ⟨⟨hextras _ hzip.1, (extras.range _ hzip.1).2⟩, le_of_lt (hgains _ hzip.2),
    (gains.range _ hzip.2).2⟩

/-- So many items of this size do not overflow. -/
theorem Itemized.sized {items : List (Int × Int)} (h : Itemized items)
    (hlength : items.length < 2 ^ 60) :
    5 * Covers.sumOf Prod.snd items + 5 * int64Max ≤ 2 ^ 126 := by
  have hsum := h.sum_le
  have hcount : (items.length : Int) * int64Max ≤ 2 ^ 60 * int64Max :=
    mul_le_mul_of_nonneg_right (by exact_mod_cast le_of_lt hlength) (by decide)
  have hsmall : 5 * (2 ^ 60 * int64Max) + 5 * int64Max ≤ 2 ^ 126 := by decide +kernel
  omega

/-- The direct loop finds the best bound of the grid. -/
theorem lagrangianLowerBoundForTest_eq {extras gains : List Int} {residual : Int} {depth : Nat}
    (hlength : extras.length = gains.length) (hdepth : depth ≤ extras.length)
    (hitems : Itemized ((extras.zip gains).drop depth)) (hsize : extras.length < 2 ^ 60)
    (hresidual : 0 ≤ residual ∧ residual ≤ int64Max) :
    lagrangianLowerBoundForTest extras gains residual depth =
      .ok (Covers.gridBound Prod.fst Prod.snd lagrangianGrid residual
        ((extras.zip gains).drop depth)) := by
  have hlarge : int64Max ≤ kScale * int64Max := by decide
  have hcount : ((extras.zip gains).drop depth).length < 2 ^ 60 := by
    rw [List.length_drop, List.length_zip]
    omega
  generalize hdrop : (extras.zip gains).drop depth = items at hitems hcount
  have hsized := hitems.sized hcount
  -- Each round returns the better of its own quotient and what was there; no check fails on the
  -- way.
  have hgrid : ∀ lambda ∈ kLagrangianGrid, ∀ best : Int, True → (do
      let product ← checkedMul lambda.p residual "test B2 p*residual"
      let numerator ← testNumerator lambda items product
      let denominator ← checkedMul lambda.q kScale "test B2 denominator"
      let quotient ← floorDiv numerator denominator
      return max best quotient) = (pure (max best (Covers.quotient Prod.fst Prod.snd lambda.p
        (lambda.q * kScale) residual items)) : Checked Int) ∧ True := by
    intro lambda hmem best _
    have hlambda := kLagrangianGrid_small lambda hmem
    rcases product_ok hlambda ⟨hresidual.1, le_trans hresidual.2 hlarge⟩ "test B2 p*residual" with
      ⟨hproduct, h1⟩
    have hsmall : lambda.p * residual ≤ 5 * int64Max :=
      mul_le_mul hlambda.1.2 hresidual.2 hresidual.1 (by decide)
    have hmax : 0 ≤ int64Max ∧ 5 * int64Max ≤ 2 ^ 126 := by decide +kernel
    have hlow : -2 ^ 126 ≤ lambda.p * residual - 5 * Covers.sumOf Prod.snd items := by omega
    have h2 := testNumerator_spec hlambda hitems (hsmall.trans hmax.2) hlow
    have h3 := denominator_ok hlambda "test B2 denominator"
    refine ⟨?_, trivial⟩
    rw [ok_bind h1, ok_bind h2, ok_bind h3, ok_bind (floorDiv_ok hlambda.denominator_pos)]
    rfl
  have hloop := (foldlM_pure hgrid (b := 0) trivial).1
  have hinput : ensure (extras.length = gains.length ∧ depth ≤ extras.length ∧ 0 ≤ residual)
      "invalid B2 test bound input" = Except.ok PUnit.unit :=
    ensure_eq_ok.2 ⟨hlength, hdepth, hresidual.1⟩
  have hbound : Covers.gridBound Prod.fst Prod.snd lagrangianGrid residual items =
      kLagrangianGrid.foldl (fun best lambda => max best (Covers.quotient Prod.fst Prod.snd
        lambda.p (lambda.q * kScale) residual items)) 0 := by
    rw [Covers.gridBound, lagrangianGrid, List.map_map, List.foldl_map]
    rfl
  -- A quotient is at most `p * residual` over a denominator of at least `kScale`, so it fits.
  have hfits : Covers.gridBound Prod.fst Prod.snd lagrangianGrid residual items ≤ int64Max := by
    refine Covers.gridBound_le_iff.2 ⟨by decide, List.forall_mem_map.2 fun lambda hmem => ?_⟩
    have hlambda := kLagrangianGrid_small lambda hmem
    have hpos := hlambda.denominator_pos
    have hterm := hitems.range hlambda
    have hproduct : lambda.p * residual ≤ 5 * int64Max :=
      mul_le_mul hlambda.1.2 hresidual.2 hresidual.1 (by decide)
    have hscale : 5 * int64Max ≤ int64Max * (lambda.q * kScale) := by
      rw [mul_comm]
      refine mul_le_mul_of_nonneg_left ?_ (by decide)
      exact le_trans (by decide) (le_mul_of_one_le_left (by decide) hlambda.2.1)
    exact Int.ediv_le_of_le_mul hpos (le_trans (add_le_of_le_of_nonpos hproduct hterm.2) hscale)
  have hnonneg := Covers.gridBound_nonneg Prod.fst Prod.snd lagrangianGrid residual items
  unfold lagrangianLowerBoundForTest
  rw [ok_bind hinput, hdrop]
  refine (ok_bind hloop).trans ?_
  rw [← hbound]
  exact checkedI64_ok ⟨by omega, hfits⟩

/-! ## Both bounds -/

/-- The bound that the tests call is the best one of the grid; the search that is built from the
same items finds it in its tables; and no set of remaining items that covers the residual costs
less. -/
theorem lagrangianLowerBound_sound (extras gains : Int64Vector) (residual : Int) (depth : Nat)
    (hlength : extras.values.length = gains.values.length)
    (hextras : ∀ x ∈ extras.values, 0 ≤ x) (hgains : ∀ x ∈ gains.values, 0 < x)
    (hdepth : depth ≤ extras.values.length) (hresidual : 0 ≤ residual ∧ residual ≤ int64Max) :
    let items := (extras.values.zip gains.values).drop depth
    let bound := Covers.gridBound Prod.fst Prod.snd lagrangianGrid residual items
    lagrangianLowerBoundForTest extras.values gains.values residual depth = .ok bound ∧
      (∀ U, U.Sublist items → residual ≤ Covers.sumOf Prod.snd U →
        bound ≤ Covers.sumOf Prod.fst U) ∧
      ∀ rows plan g0 required maxNodes, plan.decisions.map Decision.extra = extras.values →
        plan.decisions.map Decision.gain = gains.values →
        ∃ c, newSearch rows plan g0 required maxNodes true = .ok c ∧
          ∀ s, ∃ s', c.lagrangianLowerBound depth residual s = .ok bound s' := by
  intro items bound
  have hitems : Itemized items := itemized_zip hextras hgains depth
  have hlarge : int64Max ≤ kScale * int64Max := by decide
  refine ⟨lagrangianLowerBoundForTest_eq hlength hdepth hitems extras.size hresidual,
    fun U hU hreach => ?_, ?_⟩
  -- Weak duality: it holds for any multiplier, so for the best one.
  · exact Covers.gridBound_le (fun x hx => (hitems x hx).1.1)
      (fun x hx => ⟨(lagrangianGrid_small x hx).1.1, (lagrangianGrid_small x hx).2⟩) hU hreach
  intro rows plan g0 required maxNodes hplanExtras hplanGains
  -- The tables of the search are those of the same pairs.
  have hzip : extras.values.zip gains.values = plan.decisions.map fun d => (d.extra, d.gain) := by
    rw [← hplanExtras, ← hplanGains, List.zip_map']
  have hsized : Sized plan.decisions := by
    have hall := itemized_zip hextras hgains 0
    have hcount : (extras.values.zip gains.values).length < 2 ^ 60 := by
      rw [List.length_zip]
      exact lt_of_le_of_lt (min_le_left ..) extras.size
    have hsum := hall.sized hcount
    have hmax : 0 ≤ int64Max := by decide
    rw [List.drop_zero, hzip] at hall hsum
    refine ⟨fun d hd => ?_, ?_⟩
    · have hd := hall _ (List.mem_map_of_mem hd)
      exact ⟨hd.1, hd.2.1, le_trans hd.2.2 hlarge⟩
    · rw [Covers.sumOf, List.map_map] at hsum
      change 5 * Covers.sumOf Decision.gain plan.decisions + _ ≤ _ at hsum
      omega
  rcases newSearch_tables hsized rows g0 required maxNodes true with
    ⟨gainSums, tables, _, htables, hnew⟩
  refine ⟨_, hnew, fun s => ?_⟩
  have hmap : bound = Covers.gridBound Decision.extra Decision.gain lagrangianGrid residual
      (plan.decisions.drop depth) := by
    change Covers.gridBound _ _ _ _ (List.drop depth (extras.values.zip gains.values)) = _
    rw [hzip, ← List.map_drop, Covers.gridBound_map]
  unfold Search.lagrangianLowerBound
  by_cases hmet : residual ≤ 0
  · rw [if_pos hmet, hmap, Covers.gridBound_of_nonpos (fun x hx =>
      ⟨(lagrangianGrid_small x hx).1.1, (lagrangianGrid_small x hx).2⟩) hmet]
    exact ⟨s, rfl⟩
  · rw [if_neg hmet, hmap,
      Search.gridBound_eq hsized (htables rfl) depth ⟨hresidual.1, le_trans hresidual.2 hlarge⟩]
    exact ⟨_, rfl⟩

/-- Three items of the benchmarks' tests. -/
def sampleExtras : Int64Vector where
  values := [7, 5, 4]
  size := by decide
  range := by decide

def sampleGains : Int64Vector where
  values := [3 * kScale, 2 * kScale, kScale]
  size := by decide
  range := by decide

/-- The second item covers a residual of one at a cost of five. -/
theorem lagrangianLowerBound_sound_sample :
    ∃ bound, lagrangianLowerBoundForTest [7, 5, 4] [3 * kScale, 2 * kScale, kScale] kScale 1 =
      .ok bound ∧ bound ≤ 5 := by
  have hsound :=
    lagrangianLowerBound_sound sampleExtras sampleGains kScale 1 (by decide) (by decide)
    (by decide) (by decide) (by decide)
  exact ⟨_, hsound.1, hsound.2.1 [(5, 2 * kScale)] (by decide) (by decide)⟩

end StructuredExact
end SociSgx

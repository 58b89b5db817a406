import SociSgx.Benchmark.StructuredExact
import SociSgx.Lib.Covers

/-!
# StructuredPlan — what the reduction to decisions keeps

The base of a plan is the cheapest selection.  Taking a decision, or moving a dominated row to
method 3, changes one row; this module says what that does to the three sums.
-/

namespace SociSgx
namespace StructuredExact

open Exec Optimization

/-! ## Sums over rows -/

section Sums

variable {f g : Row → Method → Int} {rows : List Row} {solution : List Method}

@[simp]
theorem rowSum_cons (f : Row → Method → Int) (row : Row) (rows : List Row) (m : Method)
    (solution : List Method) :
    rowSum f (row :: rows) (m :: solution) = f row m + rowSum f rows solution := by
  simp [rowSum]

/-- A change in one row. -/
theorem rowSum_set (f : Row → Method → Int) {r : Nat} {row : Row} {m : Method} (m' : Method)
    (hrow : rows[r]? = some row) (hm : solution[r]? = some m) :
    rowSum f rows (solution.set r m') = rowSum f rows solution + (f row m' - f row m) := by
  induction rows generalizing solution r with
  | nil => cases hrow
  | cons row' rows ih =>
      cases solution with
      | nil => cases hm
      | cons m₀ solution =>
          cases r with
          | zero =>
              cases hrow
              cases hm
              rw [List.set_cons_zero, rowSum_cons, rowSum_cons]
              ring
          | succ r =>
              rw [List.set_cons_succ, rowSum_cons, rowSum_cons, ih hrow hm]
              ring

theorem oneHot_set (h : OneHot rows solution) {r : Nat} {row : Row} {m : Method}
    (hrow : rows[r]? = some row) (hm : (row m).isSome = true) : OneHot rows (solution.set r m) := by
  induction h generalizing r with
  | nil => cases hrow
  | cons hfirst hrest ih =>
      cases r with
      | zero =>
          cases hrow
          exact List.Forall₂.cons hm hrest
      | succ r => exact List.Forall₂.cons hfirst (ih hrow)

/-- Sums are compared row by row. -/
theorem rowSum_le (h : OneHot rows solution)
    (hle : ∀ row ∈ rows, ∀ m, (row m).isSome = true → f row m ≤ g row m) :
    rowSum f rows solution ≤ rowSum g rows solution := by
  induction h with
  | nil => exact le_refl _
  | cons hfirst _ ih =>
      rw [rowSum_cons, rowSum_cons]
      exact add_le_add (hle _ (by simp) _ hfirst)
        (ih fun row hrow m hm => hle row (by simp [hrow]) m hm)

theorem rowSum_mul (k : Int) (f : Row → Method → Int) (rows : List Row)
    (solution : List Method) :
    rowSum (fun row m => k * f row m) rows solution = k * rowSum f rows solution := by
  induction rows generalizing solution with
  | nil => simp [rowSum]
  | cons row rows ih =>
      cases solution with
      | nil => simp [rowSum]
      | cons m solution =>
          rw [rowSum_cons, rowSum_cons, ih]
          ring

theorem rowSum_nonneg (h : OneHot rows solution)
    (hf : ∀ row ∈ rows, ∀ m, (row m).isSome = true → 0 ≤ f row m) : 0 ≤ rowSum f rows solution := by
  have hzero := rowSum_mul 0 f rows solution
  rw [zero_mul] at hzero
  refine le_trans (le_of_eq hzero.symm) (rowSum_le h fun row hrow m hm => ?_)
  rw [zero_mul]
  exact hf row hrow m hm

end Sums

/-! ## The inputs -/

/-- The inputs that the solver is for: a threshold in range, at least one method per row,
non-negative costs, and totals that fit in 64 bits. -/
structure Admissible (rows : List Row) (threshold : Int) : Prop where
  threshold : 0 ≤ threshold ∧ threshold < kScale
  available : ∀ row ∈ rows, ∃ m, (row m).isSome = true
  nonneg : ∀ row ∈ rows, ∀ m x, row m = some x → 0 ≤ x
  fits : ∀ solution, OneHot rows solution → totalOf rows solution ≤ int64Max

section Inputs

variable {rows : List Row} {threshold : Int} {solution : List Method}

theorem costOf_eq {row : Row} {m : Method} {x : Int} (h : row m = some x) : costOf row m = x := by
  simp [costOf, h]

theorem costOf_nonneg (hrows : ∀ row ∈ rows, ∀ m x, row m = some x → 0 ≤ x) {row : Row}
    (hrow : row ∈ rows) (m : Method) : 0 ≤ costOf row m := by
  cases h : row m with
  | none => simp [costOf, h]
  | some x =>
      rw [costOf_eq h]
      exact hrows row hrow m x h

theorem totalOf_nonneg (hrows : ∀ row ∈ rows, ∀ m x, row m = some x → 0 ≤ x)
    (h : OneHot rows solution) : 0 ≤ totalOf rows solution :=
  rowSum_nonneg h fun _ hrow m _ => costOf_nonneg hrows hrow m

theorem c3Of_nonneg (hrows : ∀ row ∈ rows, ∀ m x, row m = some x → 0 ≤ x)
    (h : OneHot rows solution) : 0 ≤ c3Of rows solution := by
  refine rowSum_nonneg h fun row hrow m _ => ?_
  split
  · exact costOf_nonneg hrows hrow m
  · exact le_refl _

/-- Every available cost is a part of some total. -/
theorem exists_oneHot_ge (hrows : ∀ row ∈ rows, ∀ m x, row m = some x → 0 ≤ x)
    (havailable : ∀ row ∈ rows, ∃ m, (row m).isSome = true) :
    (∃ solution, OneHot rows solution) ∧ ∀ row ∈ rows, ∀ m x, row m = some x →
      ∃ solution, OneHot rows solution ∧ x ≤ totalOf rows solution := by
  induction rows with
  | nil => exact ⟨⟨[], List.Forall₂.nil⟩, by simp⟩
  | cons row rows ih =>
      rcases ih (fun r hr => hrows r (by simp [hr])) (fun r hr => havailable r (by simp [hr])) with
        ⟨⟨solution, hsolution⟩, hge⟩
      rcases havailable row (by simp) with ⟨m₀, hm₀⟩
      refine ⟨⟨m₀ :: solution, List.Forall₂.cons hm₀ hsolution⟩, fun r hr m x hx => ?_⟩
      rcases List.mem_cons.1 hr with rfl | hr
      · refine ⟨m :: solution, List.Forall₂.cons (by simp [hx]) hsolution, ?_⟩
        have hrest := totalOf_nonneg (fun r hr => hrows r (by simp [hr])) hsolution
        rw [totalOf, rowSum_cons, costOf_eq hx]
        exact le_add_of_nonneg_right hrest
      · rcases hge r hr m x hx with ⟨solution', hsolution', hle⟩
        refine ⟨m₀ :: solution', List.Forall₂.cons hm₀ hsolution', ?_⟩
        have hfirst := costOf_nonneg hrows (List.mem_cons_self (a := row)) m₀
        rw [totalOf, rowSum_cons]
        exact le_trans hle (le_add_of_nonneg_left hfirst)

theorem gTerm_range (ht : 0 ≤ threshold ∧ threshold < kScale) {m : Method} {x : Int}
    (hx : 0 ≤ x) : -kScale * x ≤ gTerm threshold m x ∧ gTerm threshold m x ≤ kScale * x := by
  unfold gTerm
  split <;> constructor <;> nlinarith

variable (h : Admissible rows threshold)

include h

theorem Admissible.cost_le {row : Row} (hrow : row ∈ rows) {m : Method} {x : Int}
    (hx : row m = some x) : 0 ≤ x ∧ x ≤ int64Max := by
  rcases (exists_oneHot_ge h.nonneg h.available).2 row hrow m x hx with ⟨solution, hsolution, hle⟩
  exact ⟨h.nonneg row hrow m x hx, le_trans hle (h.fits solution hsolution)⟩

theorem Admissible.total_range (hsolution : OneHot rows solution) :
    0 ≤ totalOf rows solution ∧ totalOf rows solution ≤ int64Max :=
  ⟨totalOf_nonneg h.nonneg hsolution, h.fits solution hsolution⟩

/-- The linear sum is at most the scaled total. -/
theorem Admissible.g_range (hsolution : OneHot rows solution) :
    -(kScale * int64Max) ≤ gOf threshold rows solution ∧
      gOf threshold rows solution ≤ kScale * int64Max := by
  have hscale : (0 : Int) ≤ kScale := by decide
  have htotal := h.total_range hsolution
  have hbound : kScale * totalOf rows solution ≤ kScale * int64Max :=
    mul_le_mul_of_nonneg_left htotal.2 hscale
  have hterm : ∀ {m : Method} {x : Int}, 0 ≤ x →
      -kScale * x ≤ gTerm threshold m x ∧ gTerm threshold m x ≤ kScale * x :=
    gTerm_range h.threshold
  constructor
  · have hle : rowSum (fun row m => -kScale * costOf row m) rows solution ≤
        gOf threshold rows solution :=
      rowSum_le hsolution fun row hrow m _ => (hterm (costOf_nonneg h.nonneg hrow m)).1
    have hmul := rowSum_mul (-kScale) costOf rows solution
    have htotal' : rowSum costOf rows solution = totalOf rows solution := rfl
    rw [hmul, htotal'] at hle
    linarith
  · have hle : gOf threshold rows solution ≤
        rowSum (fun row m => kScale * costOf row m) rows solution :=
      rowSum_le hsolution fun row hrow m _ => (hterm (costOf_nonneg h.nonneg hrow m)).2
    have hmul := rowSum_mul kScale costOf rows solution
    have htotal' : rowSum costOf rows solution = totalOf rows solution := rfl
    rw [hmul, htotal'] at hle
    linarith

end Inputs

/-- `C3` is positive exactly when some chosen method 3 is. -/
theorem c3_pos_iff {rows : List Row} {solution : List Method}
    (hrows : ∀ row ∈ rows, ∀ m x, row m = some x → 0 ≤ x) (h : OneHot rows solution) :
    0 < c3Of rows solution ↔ 0 < positiveM3Count rows solution := by
  suffices hall : 0 ≤ c3Of rows solution ∧ 0 ≤ positiveM3Count rows solution ∧
      (0 < c3Of rows solution ↔ 0 < positiveM3Count rows solution) from hall.2.2
  induction h with
  | nil => exact ⟨le_refl _, le_refl _, Iff.rfl⟩
  | @cons row m rows solution _ _ ih =>
      rcases ih fun r hr => hrows r (by simp [hr]) with ⟨hc3, hcount, hiff⟩
      have hcost := costOf_nonneg hrows (List.mem_cons_self (a := row)) m
      simp only [c3Of, positiveM3Count, rowSum_cons] at hc3 hcount hiff ⊢
      by_cases hm : m = 2
      · by_cases hpos : 0 < costOf row m
        · simp only [hm, if_true, true_and] at hpos ⊢
          rw [if_pos hpos]
          omega
        · simp only [hm, if_true, true_and] at hpos hcost ⊢
          rw [if_neg hpos]
          omega
      · simp only [hm, if_false, false_and]
        omega

/-! ## The reduction -/

/-- Why a row has a decision. -/
def DecisionAt (threshold : Int) (row : Row) (d : Decision) : Prop :=
  ∃ a b, row d.m12 = some a ∧ row 2 = some b ∧ d.m12 ≠ 2 ∧ b < a ∧ d.extra = a - b ∧
    d.gain = (kScale - threshold) * a + threshold * b

/-- Why a row that is fixed to `m` may provide method 3. -/
def DominatedAt (threshold : Int) (row : Row) (m : Method) (p : Dominated) : Prop :=
  ∃ a b, row m = some a ∧ row 2 = some b ∧ m ≠ 2 ∧ a ≤ b ∧ p.extra = b - a ∧
    p.loss = (kScale - threshold) * a + threshold * b

/-- The selection after some decisions are taken; the rows are counted from `i`. -/
def upgrade (i : Nat) (cur : List Method) (U : List Decision) : List Method :=
  U.foldl (fun cur d => cur.set (d.row - i) d.m12) cur

/-- What is left of the selections when the sum is short by `r`: a row keeps its cheapest method,
or moves from method 3 to the cheaper one of the methods 1 and 2, which it does only while the rows
before it have not met `r`. -/
def Covered (threshold : Int) : Int → List Row → List Method → Prop
  | r, [], [] => r ≤ 0
  | r, row :: rows, m :: solution =>
      (cheapestMethod row = some m ∧ Covered threshold r rows solution) ∨
        (0 < r ∧ cheapestMethod row = some 2 ∧ m = cheaper12 row ∧ (row m).isSome = true ∧
          Covered threshold
            (r - (gTerm threshold m (costOf row m) - gTerm threshold 2 (costOf row 2))) rows
            solution)
  | _, _, _ => False

/-- What the loop adds to the plan for row `i`. -/
structure RowPlanned (threshold : Int) (i : Nat) (row : Row) (m : Method) (ds : List Decision)
    (ps : List Dominated) : Prop where
  cheapest : cheapestMethod row = some m
  available : (row m).isSome = true
  least : ∀ m' x, row m' = some x → costOf row m ≤ x
  decisions : (ds = [] ∧ (m = 2 → row (cheaper12 row) = none)) ∨
    ∃ d, ds = [d] ∧ d.row = i ∧ m = 2 ∧ d.m12 = cheaper12 row ∧ DecisionAt threshold row d
  dominated : (ps = [] ∧ (m ≠ 2 → row 2 = none)) ∨
    ∃ p, ps = [p] ∧ p.row = i ∧ DominatedAt threshold row m p

/-- The base is the cheapest selection, the decisions and the dominated rows, each in row order,
are where they belong, and none is missing; the rows are counted from `i`. -/
structure Planned (threshold : Int) (i : Nat) (rows : List Row) (plan : Plan) : Prop where
  cheapest : List.Forall₂ (fun row m => cheapestMethod row = some m) rows plan.base
  oneHot : OneHot rows plan.base
  least : List.Forall₂ (fun row m => ∀ m' x, row m' = some x → costOf row m ≤ x) rows plan.base
  decisions : ∀ d ∈ plan.decisions, i ≤ d.row ∧ ∃ row, rows[d.row - i]? = some row ∧
    plan.base[d.row - i]? = some 2 ∧ DecisionAt threshold row d
  decisionOrder : plan.decisions.Pairwise fun d d' => d.row < d'.row
  covered : ∀ r solution, Covered threshold r rows solution ↔
    ∃ U ∈ Covers.covers Decision.gain r plan.decisions, solution = upgrade i plan.base U
  dominated : ∀ p ∈ plan.dominated, i ≤ p.row ∧ ∃ row m, rows[p.row - i]? = some row ∧
    plan.base[p.row - i]? = some m ∧ DominatedAt threshold row m p
  dominatedOrder : plan.dominated.Pairwise fun p p' => p.row < p'.row
  allDominated : ∀ k row m, rows[k]? = some row → plan.base[k]? = some m → m ≠ 2 →
    (row 2).isSome = true → ∃ p ∈ plan.dominated, p.row = i + k

theorem cheaper12_ne (row : Row) : cheaper12 row ≠ 2 := by
  unfold cheaper12
  split
  · split <;> decide
  · decide
  · decide

theorem cheapestMethod_eq (row : Row) : cheapestMethod row =
    match row (cheaper12 row), row 2 with
    | none, none => none
    | some _, none => some (cheaper12 row)
    | none, some _ => some 2
    | some a, some b => if a ≤ b then some (cheaper12 row) else some 2 := by
  have hloop : List.finRange 3 = [0, 1, 2] := by decide
  unfold cheapestMethod cheaper12
  rw [hloop]
  cases h0 : row 0 <;> cases h1 : row 1 <;> cases h2 : row 2 <;>
    simp only [List.foldl_cons, List.foldl_nil, h0, h1, h2, costOf] <;> grind

theorem method_cases (m : Method) : m = 0 ∨ m = 1 ∨ m = 2 := by
  revert m
  decide

/-- The cheaper one of the methods 1 and 2 is there when one of them is. -/
theorem cheaper12_le {row : Row} {m : Method} {x : Int} (hm : m ≠ 2) (hx : row m = some x) :
    ∃ a, row (cheaper12 row) = some a ∧ a ≤ x := by
  rcases method_cases m with rfl | rfl | rfl
  · unfold cheaper12
    cases h1 : row 1 with
    | none => simp [hx]
    | some y =>
        by_cases hle : x ≤ y
        · simp [hx, hle]
        · simp [hx, h1, hle]
          omega
  · unfold cheaper12
    cases h0 : row 0 with
    | none => simp [hx]
    | some y => by_cases hle : y ≤ x <;> simp [hx, h0, hle]
  · exact absurd rfl hm

/-- Decisions in later rows leave the first row alone. -/
theorem upgrade_cons {i : Nat} (m : Method) {U : List Decision} (hU : ∀ d ∈ U, i + 1 ≤ d.row) :
    ∀ base : List Method, upgrade i (m :: base) U = m :: upgrade (i + 1) base U := by
  induction U with
  | nil => exact fun base => rfl
  | cons d U ih =>
      intro base
      have hrow : d.row - i = d.row - (i + 1) + 1 := by
        have hle := hU d (by simp)
        omega
      change upgrade i ((m :: base).set (d.row - i) d.m12) U = _
      rw [hrow, List.set_cons_succ, ih fun d' hd' => hU d' (by simp [hd'])]
      rfl

section FirstRow

variable {threshold : Int} {i : Nat} {row : Row} {rows : List Row} {m : Method} {plan : Plan}
  {ds : List Decision} {ps : List Dominated}

theorem RowPlanned.covered (hrow : RowPlanned threshold i row m ds ps)
    (h : Planned threshold (i + 1) rows plan) (r : Int) (solution : List Method) :
    Covered threshold r (row :: rows) solution ↔
      ∃ U ∈ Covers.covers Decision.gain r (ds ++ plan.decisions),
        solution = upgrade i (m :: plan.base) U := by
  have hlater : ∀ {r U}, U ∈ Covers.covers Decision.gain r plan.decisions →
      ∀ base : List Method, ∀ m', upgrade i (m' :: base) U = m' :: upgrade (i + 1) base U :=
    fun hU base m' => upgrade_cons m'
      (fun d hd => (h.decisions d ((Covers.mem_covers hU).1.subset hd)).1) base
  -- A row that keeps its method.
  have hkeep : ∀ {r solution}, (∃ m' solution', solution = m' :: solution' ∧
      cheapestMethod row = some m' ∧ Covered threshold r rows solution') ↔
      ∃ U ∈ Covers.covers Decision.gain r plan.decisions,
        solution = upgrade i (m :: plan.base) U := by
    intro r solution
    constructor
    · rintro ⟨m', solution', rfl, hm', hsolution'⟩
      cases hrow.cheapest.symm.trans hm'
      rcases (h.covered r solution').1 hsolution' with ⟨U, hU, rfl⟩
      exact ⟨U, hU, (hlater hU _ _).symm⟩
    · rintro ⟨U, hU, rfl⟩
      exact ⟨m, _, hlater hU _ _, hrow.cheapest, (h.covered r _).2 ⟨U, hU, rfl⟩⟩
  rcases hrow.decisions with ⟨rfl, hno⟩ | ⟨d, rfl, hd, rfl, hm12, a, b, ha, hb, hne, _, _, hgain⟩
  · rw [List.nil_append, ← hkeep]
    constructor
    · intro hcovered
      rcases solution with _ | ⟨m', solution'⟩
      · exact hcovered.elim
      · rcases hcovered with ⟨hm', hrest⟩ | ⟨_, h2, rfl, hsome, _⟩
        · exact ⟨m', solution', rfl, hm', hrest⟩
        · cases hrow.cheapest.symm.trans h2
          rw [hno rfl] at hsome
          cases hsome
    · rintro ⟨m', solution', rfl, hm', hrest⟩
      exact Or.inl ⟨hm', hrest⟩
  · by_cases hr : r ≤ 0
    · have hnil := Covers.covers_of_nonpos Decision.gain hr
      rw [hnil, ← hnil plan.decisions, ← hkeep]
      constructor
      · intro hcovered
        rcases solution with _ | ⟨m', solution'⟩
        · exact hcovered.elim
        · rcases hcovered with ⟨hm', hrest⟩ | ⟨hpos, _⟩
          · exact ⟨m', solution', rfl, hm', hrest⟩
          · exact absurd hr (not_le.2 hpos)
      · rintro ⟨m', solution', rfl, hm', hrest⟩
        exact Or.inl ⟨hm', hrest⟩
    · have hdiff : gTerm threshold d.m12 (costOf row d.m12) - gTerm threshold 2 (costOf row 2) =
          d.gain := by
        rw [costOf_eq ha, costOf_eq hb, hgain, gTerm, gTerm, if_neg hne, if_pos rfl]
        ring
      have hset : ∀ U, upgrade i (2 :: plan.base) (d :: U) = upgrade i (d.m12 :: plan.base) U := by
        intro U
        change upgrade i ((2 :: plan.base).set (d.row - i) d.m12) U = _
        rw [hd, Nat.sub_self, List.set_cons_zero]
      constructor
      · intro hcovered
        rcases solution with _ | ⟨m', solution'⟩
        · exact hcovered.elim
        · rcases hcovered with ⟨hm', hrest⟩ | ⟨_, _, rfl, _, hrest⟩
          · rcases hkeep.1 ⟨m', solution', rfl, hm', hrest⟩ with ⟨U, hU, hsolution⟩
            exact ⟨U, (Covers.mem_covers_cons hr).2 (Or.inr hU), hsolution⟩
          · rw [← hm12, hdiff] at hrest
            rcases (h.covered _ _).1 hrest with ⟨U, hU, rfl⟩
            refine ⟨d :: U, (Covers.mem_covers_cons hr).2 (Or.inl ⟨U, hU, rfl⟩), ?_⟩
            rw [hset, hlater hU, hm12]
      · rintro ⟨U, hU, rfl⟩
        rcases (Covers.mem_covers_cons hr).1 hU with ⟨V, hV, rfl⟩ | hU
        · rw [hset, hlater hV]
          refine Or.inr ⟨not_le.1 hr, hrow.cheapest, hm12, by rw [ha]; rfl, ?_⟩
          rw [hdiff]
          exact (h.covered _ _).2 ⟨V, hV, rfl⟩
        · rcases hkeep.2 ⟨U, hU, rfl⟩ with ⟨m', solution', heq, hm', hrest⟩
          rw [heq]
          exact Or.inl ⟨hm', hrest⟩

theorem Planned.cons {noM3 fixed : Nat} (h : Planned threshold (i + 1) rows plan)
    (hrow : RowPlanned threshold i row m ds ps) :
    Planned threshold i (row :: rows) (Plan.append ⟨[m], ds, ps, noM3, fixed⟩ plan) := by
  -- Later rows keep their numbers, which stand one place further back in the longer list.
  have hshift : ∀ {α : Type} (x : α) (xs : List α) {k : Nat}, i + 1 ≤ k →
      (x :: xs)[k - i]? = xs[k - (i + 1)]? := by
    intro α x xs k hk
    have hk' : k - i = k - (i + 1) + 1 := by omega
    rw [hk', List.getElem?_cons_succ]
  refine ⟨List.Forall₂.cons hrow.cheapest h.cheapest, List.Forall₂.cons hrow.available h.oneHot,
    List.Forall₂.cons hrow.least h.least, ?_, ?_, hrow.covered h, ?_, ?_, ?_⟩
  · intro d hd
    rcases List.mem_append.1 hd with hd | hd
    · rcases hrow.decisions with ⟨rfl, _⟩ | ⟨d', rfl, hi, hm, _, hat⟩
      · cases hd
      · rw [List.mem_singleton.1 hd, hi, Nat.sub_self]
        exact ⟨le_refl _, row, rfl, by rw [hm]; rfl, hat⟩
    · rcases h.decisions d hd with ⟨hle, row', hrow', hbase, hat⟩
      exact ⟨by omega, row', (hshift _ _ hle).trans hrow', (hshift _ _ hle).trans hbase, hat⟩
  · refine List.pairwise_append.2 ⟨?_, h.decisionOrder, fun d hd d' hd' => ?_⟩
    · rcases hrow.decisions with ⟨rfl, _⟩ | ⟨d, rfl, _⟩
      · exact List.Pairwise.nil
      · exact List.pairwise_singleton _ _
    · rcases hrow.decisions with ⟨rfl, _⟩ | ⟨d₀, rfl, hi, _⟩
      · cases hd
      · rw [List.mem_singleton.1 hd, hi]
        exact (h.decisions d' hd').1
  · intro p hp
    rcases List.mem_append.1 hp with hp | hp
    · rcases hrow.dominated with ⟨rfl, _⟩ | ⟨p', rfl, hi, hat⟩
      · cases hp
      · rw [List.mem_singleton.1 hp, hi, Nat.sub_self]
        exact ⟨le_refl _, row, m, rfl, rfl, hat⟩
    · rcases h.dominated p hp with ⟨hle, row', m', hrow', hbase, hat⟩
      exact ⟨by omega, row', m', (hshift _ _ hle).trans hrow', (hshift _ _ hle).trans hbase, hat⟩
  · refine List.pairwise_append.2 ⟨?_, h.dominatedOrder, fun p hp p' hp' => ?_⟩
    · rcases hrow.dominated with ⟨rfl, _⟩ | ⟨p, rfl, _⟩
      · exact List.Pairwise.nil
      · exact List.pairwise_singleton _ _
    · rcases hrow.dominated with ⟨rfl, _⟩ | ⟨p₀, rfl, hi, _⟩
      · cases hp
      · rw [List.mem_singleton.1 hp, hi]
        exact (h.dominated p' hp').1
  · intro k row' m' hk hbase hm' hsome
    -- The first row is the one that was classified; the others are in the plan already.
    rcases k with _ | k
    · cases hk
      cases hbase
      rcases hrow.dominated with ⟨_, hno⟩ | ⟨p, rfl, hi, _⟩
      · rw [hno hm'] at hsome
        cases hsome
      · exact ⟨p, List.mem_append_left _ (List.mem_singleton_self p), hi⟩
    · rcases h.allDominated k row' m' hk hbase hm' hsome with ⟨p, hp, hi⟩
      exact ⟨p, List.mem_append_right _ hp, by omega⟩

end FirstRow

theorem classifyRow_spec {threshold : Int} {row : Row} (i : Nat)
    (havailable : ∃ m, (row m).isSome = true)
    (hcost : ∀ m x, row m = some x → 0 ≤ x ∧ x ≤ int64Max) :
    ∃ m ds ps noM3 fixed, classifyRow threshold i row = .ok ⟨[m], ds, ps, noM3, fixed⟩ ∧
      RowPlanned threshold i row m ds ps := by
  have hmin := cheapestMethod_eq row
  have hcheap : ∀ {m x}, m ≠ 2 → row m = some x → ∃ a, row (cheaper12 row) = some a ∧ a ≤ x :=
    fun hm hx => cheaper12_le hm hx
  -- The four cases of the source: which of the cheaper of 1 and 2, and of 3, there is.
  cases ha : row (cheaper12 row) with
  | none =>
      have hno : ∀ m x, row m = some x → m = 2 := by
        intro m x hx
        by_contra hm
        rcases hcheap hm hx with ⟨a, ha', _⟩
        cases ha.symm.trans ha'
      cases hb : row 2 with
      | none =>
          rcases havailable with ⟨m, hm⟩
          rcases Option.isSome_iff_exists.1 hm with ⟨x, hx⟩
          have hm2 := hno m x hx
          subst hm2
          cases hb.symm.trans hx
      | some b =>
          refine ⟨2, [], [], 0, 0, by simp only [classifyRow, ha, hb], by rw [hmin, ha, hb],
            by simp [hb], ?_, Or.inl ⟨rfl, fun _ => ha⟩, Or.inl ⟨rfl, fun hm => absurd rfl hm⟩⟩
          intro m x hx
          have hm := hno m x hx
          subst hm
          exact le_of_eq (costOf_eq hx)
  | some a =>
      cases hb : row 2 with
      | none =>
          refine ⟨cheaper12 row, [], [], 1, 0, by simp only [classifyRow, ha, hb],
            by rw [hmin, ha, hb], by simp [ha], ?_,
            Or.inl ⟨rfl, fun hm => absurd hm (cheaper12_ne row)⟩, Or.inl ⟨rfl, fun _ => hb⟩⟩
          intro m x hx
          have hm : m ≠ 2 := by
            rintro rfl
            cases hb.symm.trans hx
          rcases hcheap hm hx with ⟨a', ha', hle⟩
          rw [costOf_eq ha']
          exact hle
      | some b =>
          have hacost := hcost _ a ha
          have hbcost := hcost _ b hb
          -- With both methods the row is dominated or a decision, by the cheaper one.
          by_cases hle : a ≤ b
          · have hextra : checkedI64 (b - a) "dominance extra" = .ok (b - a) := by
              refine if_pos ⟨by omega, by omega⟩
            refine ⟨cheaper12 row, [], [⟨i, b - a, _⟩], 0, 1, by
              simp only [classifyRow, ha, hb, if_pos hle, hextra]; rfl, by
              rw [hmin, ha, hb]; simp [hle], by simp [ha], ?_,
              Or.inl ⟨rfl, fun hm => absurd hm (cheaper12_ne row)⟩,
              Or.inr ⟨_, rfl, rfl, a, b, ha, hb, cheaper12_ne row, hle, rfl, rfl⟩⟩
            intro m x hx
            rw [costOf_eq ha]
            rcases eq_or_ne m 2 with rfl | hm
            · cases hb.symm.trans hx
              exact hle
            · rcases hcheap hm hx with ⟨a', ha', hle'⟩
              cases ha.symm.trans ha'
              exact hle'
          · have hextra : checkedI64 (a - b) "decision extra" = .ok (a - b) := by
              refine if_pos ⟨by omega, by omega⟩
            refine ⟨2, [⟨i, cheaper12 row, a - b, _⟩], [], 0, 0, by
              simp only [classifyRow, ha, hb, if_neg hle, hextra]; rfl, by
              rw [hmin, ha, hb]; simp [hle], by simp [hb], ?_,
              Or.inr ⟨_, rfl, rfl, rfl, rfl, a, b, ha, hb, cheaper12_ne row, by omega, rfl, rfl⟩,
              Or.inl ⟨rfl, fun hm => absurd rfl hm⟩⟩
            intro m x hx
            rw [costOf_eq hb]
            rcases eq_or_ne m 2 with rfl | hm
            · cases hb.symm.trans hx
              exact le_refl _
            · rcases hcheap hm hx with ⟨a', ha', hle'⟩
              cases ha.symm.trans ha'
              omega

/-- The loop over the rows builds a plan. -/
theorem classify_spec (threshold : Int) (rows : List Row) : ∀ i : Nat,
    (∀ row ∈ rows, ∃ m, (row m).isSome = true) →
    (∀ row ∈ rows, ∀ m x, row m = some x → 0 ≤ x ∧ x ≤ int64Max) →
    ∃ plan, classify threshold i rows = .ok plan ∧ Planned threshold i rows plan := by
  induction rows with
  | nil =>
      intro i _ _
      refine ⟨{}, rfl, List.Forall₂.nil, List.Forall₂.nil, List.Forall₂.nil, by simp,
        List.Pairwise.nil, fun r solution => ?_, by simp, List.Pairwise.nil, by simp⟩
      rcases solution with _ | ⟨m, solution⟩
      · by_cases hr : r ≤ 0 <;> simp [Covered, Covers.covers, hr, upgrade]
      · by_cases hr : r ≤ 0 <;> simp [Covered, Covers.covers, hr, upgrade]
  | cons row rows ih =>
      intro i havailable hrange
      rcases ih (i + 1) (fun r hr => havailable r (by simp [hr]))
        (fun r hr => hrange r (by simp [hr])) with ⟨plan, hplan, hplanned⟩
      rcases classifyRow_spec i (havailable row (by simp)) (hrange row (by simp)) with
        ⟨m, ds, ps, noM3, fixed, hfirst, hrow⟩
      exact ⟨_, bind_eq_ok.2 ⟨_, hfirst, bind_eq_ok.2 ⟨plan, hplan, rfl⟩⟩, hplanned.cons hrow⟩

/-! ## Steps of the search -/

/-- A selection `cur` in which the decisions of `rest` are still open. -/
structure Node (threshold : Int) (rows : List Row) (dominated : List Dominated)
    (cur : List Method) (rest : List Decision) : Prop where
  oneHot : OneHot rows cur
  decisions : ∀ d ∈ rest, ∃ row, rows[d.row]? = some row ∧ cur[d.row]? = some 2 ∧
    DecisionAt threshold row d
  order : rest.Pairwise fun d d' => d.row < d'.row
  dominated : ∀ p ∈ dominated, ∃ row m, rows[p.row]? = some row ∧ cur[p.row]? = some m ∧
    DominatedAt threshold row m p

section Steps

variable {threshold : Int} {rows : List Row} {dominated : List Dominated} {cur : List Method}
  {d : Decision} {rest : List Decision}

theorem Planned.root {plan : Plan} (h : Planned threshold 0 rows plan) :
    Node threshold rows plan.dominated plan.base plan.decisions where
  oneHot := h.oneHot
  decisions := fun d hd => (h.decisions d hd).2
  order := h.decisionOrder
  dominated := fun p hp => (h.dominated p hp).2

theorem Node.sublist (h : Node threshold rows dominated cur rest) {U : List Decision}
    (hU : U.Sublist rest) : Node threshold rows dominated cur U where
  oneHot := h.oneHot
  decisions := fun d hd => h.decisions d (hU.subset hd)
  order := h.order.sublist hU
  dominated := h.dominated

theorem Node.skip (h : Node threshold rows dominated cur (d :: rest)) :
    Node threshold rows dominated cur rest :=
  h.sublist (List.sublist_cons_self d rest)

/-- Taking a decision. -/
theorem Node.take (h : Node threshold rows dominated cur (d :: rest)) :
    Node threshold rows dominated (cur.set d.row d.m12) rest := by
  rcases h.decisions d (by simp) with ⟨row, hrow, hcur, a, b, ha, hb, hm, _⟩
  refine ⟨oneHot_set h.oneHot hrow (by simp [ha]), fun d' hd' => ?_,
    (List.pairwise_cons.1 h.order).2, fun p hp => ?_⟩
  · rcases h.decisions d' (List.mem_cons_of_mem _ hd') with ⟨row', hrow', hcur', hat⟩
    have hlt := (List.pairwise_cons.1 h.order).1 d' hd'
    exact ⟨row', hrow', (List.getElem?_set_ne (by omega)).trans hcur', hat⟩
  · rcases h.dominated p hp with ⟨row', m', hrow', hcur', hat⟩
    refine ⟨row', m', hrow', (List.getElem?_set_ne fun heq => ?_).trans hcur', hat⟩
    -- A dominated row is not at method 3, an open decision is.
    rw [heq] at hcur
    cases hcur.symm.trans hcur'
    rcases hat with ⟨_, _, _, _, hne, _⟩
    exact hne rfl

theorem Node.total_take (h : Node threshold rows dominated cur (d :: rest)) :
    totalOf rows (cur.set d.row d.m12) = totalOf rows cur + d.extra := by
  rcases h.decisions d (by simp) with ⟨row, hrow, hcur, a, b, ha, hb, _, _, hextra, _⟩
  rw [totalOf, rowSum_set costOf d.m12 hrow hcur, costOf_eq ha, costOf_eq hb, hextra]

theorem Node.g_take (h : Node threshold rows dominated cur (d :: rest)) :
    gOf threshold rows (cur.set d.row d.m12) = gOf threshold rows cur + d.gain := by
  rcases h.decisions d (by simp) with ⟨row, hrow, hcur, a, b, ha, hb, hm, _, _, hgain⟩
  rw [gOf, rowSum_set _ d.m12 hrow hcur, costOf_eq ha, costOf_eq hb, hgain, gTerm, gTerm,
    if_neg hm, if_pos rfl]
  ring

theorem Node.count_take (h : Node threshold rows dominated cur (d :: rest)) {c : Search}
    (hrows : c.rows = rows) :
    positiveM3Count rows (cur.set d.row d.m12) =
      positiveM3Count rows cur - c.providesM3 d := by
  rcases h.decisions d (by simp) with ⟨row, hrow, hcur, a, b, ha, hb, hm, _⟩
  have hget : c.rows.getD d.row (fun _ => none) = row := by
    rw [hrows, List.getD_eq_getElem?_getD, hrow, Option.getD_some]
  rw [positiveM3Count, rowSum_set _ d.m12 hrow hcur, Search.providesM3, hget]
  simp only [hm, false_and, if_false, true_and]
  ring

theorem Node.decision_range (h : Node threshold rows dominated cur rest)
    (hrows : Admissible rows threshold) (hd : d ∈ rest) :
    (0 ≤ d.extra ∧ d.extra ≤ int64Max) ∧ 0 ≤ d.gain ∧ d.gain ≤ kScale * int64Max := by
  rcases h.decisions d hd with ⟨row, hrow, _, a, b, ha, hb, _, hlt, hextra, hgain⟩
  have hmem := List.mem_of_getElem? hrow
  have hacost := hrows.cost_le hmem ha
  have hbcost := hrows.cost_le hmem hb
  have ht := hrows.threshold
  refine ⟨⟨by omega, by omega⟩, ?_, ?_⟩
  · rw [hgain]
    have h1 : 0 ≤ (kScale - threshold) * a := mul_nonneg (by omega) hacost.1
    have h2 : 0 ≤ threshold * b := mul_nonneg ht.1 hbcost.1
    omega
  · have h1 : threshold * b ≤ threshold * a := mul_le_mul_of_nonneg_left (by omega) ht.1
    have h2 : kScale * a ≤ kScale * int64Max :=
      mul_le_mul_of_nonneg_left hacost.2 (by decide)
    rw [hgain, sub_mul]
    omega

/-- Moving a dominated row to method 3. -/
theorem Node.provide (h : Node threshold rows dominated cur rest)
    (hrows : Admissible rows threshold) {p : Dominated} (hp : p ∈ dominated) :
    ∃ row b, rows[p.row]? = some row ∧ row 2 = some b ∧ 0 ≤ b ∧ 0 ≤ p.extra ∧
      OneHot rows (cur.set p.row 2) ∧
      totalOf rows (cur.set p.row 2) = totalOf rows cur + p.extra ∧
      gOf threshold rows (cur.set p.row 2) = gOf threshold rows cur - p.loss ∧
      c3Of rows (cur.set p.row 2) = c3Of rows cur + b := by
  rcases h.dominated p hp with ⟨row, m, hrow, hcur, a, b, ha, hb, hm, hle, hextra, hloss⟩
  have hbcost := hrows.cost_le (List.mem_of_getElem? hrow) hb
  refine ⟨row, b, hrow, hb, hbcost.1, by omega, oneHot_set h.oneHot hrow (by simp [hb]), ?_, ?_, ?_⟩
  · rw [totalOf, rowSum_set costOf 2 hrow hcur, costOf_eq ha, costOf_eq hb, hextra]
  · rw [gOf, rowSum_set _ 2 hrow hcur, costOf_eq ha, costOf_eq hb, hloss, gTerm, gTerm,
      if_neg hm, if_pos rfl]
    ring
  · rw [c3Of, rowSum_set _ 2 hrow hcur, costOf_eq hb, if_neg hm, if_pos rfl]
    ring

theorem Node.upgrade {U : List Decision} (h : Node threshold rows dominated cur U) :
    Node threshold rows dominated (upgrade 0 cur U) [] ∧
      totalOf rows (StructuredExact.upgrade 0 cur U) =
        totalOf rows cur + Covers.sumOf Decision.extra U ∧
      gOf threshold rows (StructuredExact.upgrade 0 cur U) =
        gOf threshold rows cur + Covers.sumOf Decision.gain U := by
  induction U generalizing cur with
  | nil => exact ⟨h, (add_zero _).symm, (add_zero _).symm⟩
  | cons d U ih =>
      rcases ih h.take with ⟨hnode, htotal, hg⟩
      refine ⟨hnode, htotal.trans ?_, hg.trans ?_⟩
      · rw [h.total_take, Covers.sumOf_cons]
        ring
      · rw [h.g_take, Covers.sumOf_cons]
        ring

end Steps

end StructuredExact
end SociSgx

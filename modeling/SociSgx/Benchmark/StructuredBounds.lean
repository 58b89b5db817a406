import SociSgx.Benchmark.StructuredPlan

/-!
# StructuredBounds — the tables of the search and what they bound

The selections that a search may return, the sums of its tables, and the Lagrangian bound.  On
admissible rows no checked sum overflows.
-/

namespace SociSgx
namespace StructuredExact

open Exec Optimization

/-! ## What is to be found -/

/-- The constraints of `validate`. -/
structure Valid (rows : List Row) (threshold : Int) (solution : List Method) : Prop where
  oneHot : OneHot rows solution
  ratio : 0 ≤ gOf threshold rows solution
  c3 : 0 < c3Of rows solution

/-- A selection with a positive method 3 is left as it is; another one is repaired by a single row
whose cheapest method is not method 3. -/
def Repaired (rows : List Row) (cur solution : List Method) : Prop :=
  (0 < c3Of rows cur ∧ solution = cur) ∨
    (c3Of rows cur ≤ 0 ∧ ∃ k row m, rows[k]? = some row ∧ cheapestMethod row = some m ∧ m ≠ 2 ∧
      (row 2).isSome = true ∧ solution = cur.set k 2)

/-- The selections that the solver looks at. -/
def Reduced (rows : List Row) (threshold : Int) (solution : List Method) : Prop :=
  ∃ base cur, List.Forall₂ (fun row m => cheapestMethod row = some m) rows base ∧
    Covered threshold (-gOf threshold rows base) rows cur ∧ Repaired rows cur solution

/-! ## Checked sums -/

theorem checkedI64_ok {x : Int} {what : String} (h : -int64Max ≤ x ∧ x ≤ int64Max) :
    checkedI64 x what = .ok x := by
  have hmax : int64Max ≤ 2 ^ 63 := by decide
  exact if_pos ⟨by omega, h.2⟩

/-- The sums of the search stay below this. -/
def searchBound : Int :=
  1024 * kScale * int64Max

theorem checkedI128_ok {x : Int} {what : String} (h : -searchBound ≤ x ∧ x ≤ searchBound) :
    checkedI128 x what = .ok x := by
  have hbound : searchBound < 2 ^ 127 := by decide +kernel
  exact if_pos ⟨by omega, by omega⟩

theorem checkedI128_wide {x : Int} {what : String} (h : -2 ^ 126 ≤ x ∧ x ≤ 2 ^ 126) :
    checkedI128 x what = .ok x :=
  if_pos ⟨by omega, by omega⟩

theorem kScale_mul_int64Max_pos : 0 < kScale * int64Max := by
  decide

theorem floorDiv_ok {a b : Int} (hb : 0 < b) : floorDiv a b = .ok (a / b) := by
  have hensure : ensure (0 < b) "nonpositive floor divisor" = Except.ok PUnit.unit := if_pos hb
  have hsplit := Int.tmod_add_mul_tdiv a b
  have hlow := Int.lt_tmod_of_pos a hb
  have hhigh := Int.tmod_lt_of_pos a hb
  unfold floorDiv
  rw [hensure]
  change Except.ok (if a.tmod b < 0 then a.tdiv b - 1 else a.tdiv b) = Except.ok (a / b)
  congr 1
  split
  · refine ((Int.ediv_emod_unique (r := a.tmod b + b) hb).2 ⟨?_, by omega, by omega⟩).1.symm
    rw [mul_sub]
    omega
  · exact ((Int.ediv_emod_unique (r := a.tmod b) hb).2 ⟨by omega, by omega, by omega⟩).1.symm

/-! ## The tables -/

/-- The decisions of a plan for admissible rows. -/
structure Ranged (ds : List Decision) : Prop where
  decision : ∀ d ∈ ds, (0 ≤ d.extra ∧ d.extra ≤ int64Max) ∧ 0 ≤ d.gain ∧
    d.gain ≤ kScale * int64Max
  sum : Covers.sumOf Decision.gain ds ≤ 2 * (kScale * int64Max)

/-- Decisions whose tables do not overflow. -/
structure Sized (ds : List Decision) : Prop where
  decision : ∀ d ∈ ds, (0 ≤ d.extra ∧ d.extra ≤ int64Max) ∧ 0 ≤ d.gain ∧
    d.gain ≤ kScale * int64Max
  sum : 5 * Covers.sumOf Decision.gain ds ≤ 2 ^ 126

theorem Ranged.sized {ds : List Decision} (h : Ranged ds) : Sized ds := by
  have hsum := h.sum
  have hsmall : 10 * (kScale * int64Max) ≤ 2 ^ 126 := by decide +kernel
  exact ⟨h.decision, by omega⟩

theorem Sized.gain_nonneg {ds : List Decision} (h : Sized ds) :
    ∀ d ∈ ds, 0 ≤ d.gain :=
  fun d hd => (h.decision d hd).2.1

theorem Sized.sublist {ds ds' : List Decision} (h : Sized ds) (hsub : ds'.Sublist ds) :
    Sized ds' := by
  have hle : Covers.sumOf Decision.gain ds' ≤ Covers.sumOf Decision.gain ds :=
    (hsub.map _).sum_le_sum fun x hx => by
      rcases List.mem_map.1 hx with ⟨d, hd, rfl⟩
      exact h.gain_nonneg d hd
  have hsum := h.sum
  exact ⟨fun d hd => h.decision d (hsub.subset hd), by omega⟩

/-- The table of the sums over all suffixes. -/
def SuffixSums (f : Decision → Int) (ds : List Decision) (sums : List Int) : Prop :=
  ∀ depth, sums.getD depth 0 = Covers.sumOf f (ds.drop depth)

theorem SuffixSums.nil (f : Decision → Int) : SuffixSums f [] [0] := by
  intro depth
  cases depth <;> simp

theorem SuffixSums.head {f : Decision → Int} {ds : List Decision} {sums : List Int}
    (h : SuffixSums f ds sums) : sums.headD 0 = Covers.sumOf f ds := by
  rw [← List.drop_zero (l := ds), ← h 0]
  cases sums <;> rfl

theorem SuffixSums.cons {f : Decision → Int} {d : Decision} {ds : List Decision} {sums : List Int}
    (h : SuffixSums f ds sums) :
    SuffixSums f (d :: ds) (Covers.sumOf f (d :: ds) :: sums) := by
  intro depth
  cases depth with
  | zero => simp
  | succ depth => simpa using h depth

theorem suffixGains_spec {ds : List Decision} (h : Sized ds) :
    ∃ sums, suffixGains ds = .ok sums ∧ SuffixSums Decision.gain ds sums := by
  induction ds with
  | nil => exact ⟨[0], rfl, SuffixSums.nil _⟩
  | cons d rest ih =>
      rcases ih (h.sublist (List.sublist_cons_self ..)) with ⟨sums, hsums, htable⟩
      have hnonneg := Covers.sumOf_nonneg h.gain_nonneg
      have hsum := h.sum
      have hadd : checkedAdd (sums.headD 0) d.gain "B1 suffix gain" =
          .ok (Covers.sumOf Decision.gain (d :: rest)) := by
        rw [Covers.sumOf_cons] at hnonneg hsum ⊢
        rw [htable.head, add_comm d.gain]
        exact checkedI128_wide ⟨by omega, by omega⟩
      exact ⟨_, bind_eq_ok.2 ⟨sums, hsums, bind_eq_ok.2 ⟨_, hadd, rfl⟩⟩, htable.cons⟩

/-- The multipliers that are used. -/
def Lambda.Small (lambda : Lambda) : Prop :=
  (0 ≤ lambda.p ∧ lambda.p ≤ 5) ∧ 0 < lambda.q ∧ lambda.q ≤ 64

theorem kLagrangianGrid_small : ∀ lambda ∈ kLagrangianGrid, lambda.Small := by
  unfold Lambda.Small
  decide

/-- The term of a decision in the Lagrangian sum. -/
def reducedCost (lambda : Lambda) (d : Decision) : Int :=
  min 0 (d.extra * (lambda.q * kScale) - lambda.p * d.gain)

/-- The products of a term do not overflow, under any text. -/
theorem checked_difference {lambda : Lambda} (hlambda : lambda.Small) {extra gain : Int}
    (hextra : 0 ≤ extra ∧ extra ≤ int64Max) (hgain : 0 ≤ gain ∧ gain ≤ kScale * int64Max)
    (what : String) :
    checkedMul extra lambda.q what = .ok (extra * lambda.q) ∧
      checkedMul (extra * lambda.q) kScale what = .ok (extra * (lambda.q * kScale)) ∧
      checkedMul lambda.p gain what = .ok (lambda.p * gain) ∧
      checkedSub (extra * (lambda.q * kScale)) (lambda.p * gain) what =
        .ok (extra * (lambda.q * kScale) - lambda.p * gain) := by
  rcases hlambda with ⟨⟨hp, hp5⟩, hq, hq64⟩
  have hscale : (0 : Int) < kScale := by decide
  have hscaled : 0 ≤ extra * lambda.q ∧ extra * lambda.q ≤ 64 * int64Max := by
    constructor
    · exact mul_nonneg hextra.1 (le_of_lt hq)
    · nlinarith
  have hscaledExtra : 0 ≤ extra * lambda.q * kScale ∧
      extra * lambda.q * kScale ≤ 64 * (kScale * int64Max) := by
    constructor
    · exact mul_nonneg hscaled.1 (le_of_lt hscale)
    · have hle := mul_le_mul_of_nonneg_right hscaled.2 (le_of_lt hscale)
      linarith
  have hweighted : 0 ≤ lambda.p * gain ∧ lambda.p * gain ≤ 5 * gain :=
    ⟨mul_nonneg hp hgain.1, mul_le_mul_of_nonneg_right hp5 hgain.1⟩
  have hbound : searchBound = 1024 * (kScale * int64Max) := mul_assoc ..
  have hmax : (0 : Int) < int64Max := by decide
  have hsmall : int64Max ≤ kScale * int64Max := by decide
  rw [← mul_assoc]
  exact ⟨checkedI128_ok ⟨by omega, by omega⟩, checkedI128_ok ⟨by omega, by omega⟩,
    checkedI128_ok ⟨by omega, by omega⟩, checkedI128_ok ⟨by omega, by omega⟩⟩

theorem lagrangianTerm_spec {lambda : Lambda} (hlambda : lambda.Small) {d : Decision}
    (hextra : 0 ≤ d.extra ∧ d.extra ≤ int64Max)
    (hgain : 0 ≤ d.gain ∧ d.gain ≤ kScale * int64Max) :
    lagrangianTerm lambda d = .ok (reducedCost lambda d) := by
  have hchecked := checked_difference hlambda hextra hgain
  refine bind_eq_ok.2 ⟨_, (hchecked _).1, bind_eq_ok.2 ⟨_, (hchecked _).2.1, ?_⟩⟩
  exact bind_eq_ok.2 ⟨_, (hchecked _).2.2.1, bind_eq_ok.2 ⟨_, (hchecked _).2.2.2, rfl⟩⟩

/-- A term is at most zero, and at least what the gain takes off. -/
theorem reducedTerm_range {p a cost gain : Int} (hp : p ≤ 5) (ha : 0 ≤ a) (hcost : 0 ≤ cost)
    (hgain : 0 ≤ gain) :
    -(5 * gain) ≤ min 0 (cost * a - p * gain) ∧ min 0 (cost * a - p * gain) ≤ 0 := by
  have hscaled : 0 ≤ cost * a := mul_nonneg hcost ha
  have hweighted : p * gain ≤ 5 * gain := mul_le_mul_of_nonneg_right hp hgain
  exact ⟨le_min (by omega) (by omega), min_le_left ..⟩

theorem sumOf_reducedTerm_range {α : Type} {cost gain : α → Int} {p a : Int} (hp : p ≤ 5)
    (ha : 0 ≤ a) {l : List α} (h : ∀ d ∈ l, 0 ≤ cost d ∧ 0 ≤ gain d) :
    -(5 * Covers.sumOf gain l) ≤ Covers.sumOf (fun d => min 0 (cost d * a - p * gain d)) l ∧
      Covers.sumOf (fun d => min 0 (cost d * a - p * gain d)) l ≤ 0 := by
  induction l with
  | nil => simp
  | cons d rest ih =>
      rcases List.forall_mem_cons.1 h with ⟨hd, hrest⟩
      have hterm := reducedTerm_range hp ha hd.1 hd.2
      have htail := ih hrest
      rw [Covers.sumOf_cons, Covers.sumOf_cons]
      omega

theorem Lambda.Small.denominator_pos {lambda : Lambda} (h : lambda.Small) :
    0 < lambda.q * kScale :=
  mul_pos h.2.1 (by decide)

theorem sumOf_reducedCost_range {lambda : Lambda} (hlambda : lambda.Small) {ds : List Decision}
    (h : Sized ds) : -(5 * Covers.sumOf Decision.gain ds) ≤
        Covers.sumOf (reducedCost lambda) ds ∧ Covers.sumOf (reducedCost lambda) ds ≤ 0 :=
  sumOf_reducedTerm_range hlambda.1.2 (le_of_lt hlambda.denominator_pos) fun d hd =>
    ⟨(h.decision d hd).1.1, h.gain_nonneg d hd⟩

theorem suffixTerms_spec {lambda : Lambda} (hlambda : lambda.Small) {ds : List Decision}
    (h : Sized ds) :
    ∃ sums, suffixTerms lambda ds = .ok sums ∧ SuffixSums (reducedCost lambda) ds sums := by
  induction ds with
  | nil => exact ⟨[0], rfl, SuffixSums.nil _⟩
  | cons d rest ih =>
      rcases ih (h.sublist (List.sublist_cons_self ..)) with ⟨sums, hsums, htable⟩
      have hd := h.decision d (by simp)
      have hterm := lagrangianTerm_spec hlambda hd.1 hd.2
      have hrange := sumOf_reducedCost_range hlambda h
      have hsum := h.sum
      have hadd : checkedAdd (sums.headD 0) (reducedCost lambda d) "B2 suffix term" =
          .ok (Covers.sumOf (reducedCost lambda) (d :: rest)) := by
        rw [Covers.sumOf_cons (reducedCost lambda)] at hrange ⊢
        rw [htable.head, add_comm (reducedCost lambda d)]
        exact checkedI128_wide ⟨by omega, by omega⟩
      exact ⟨_, bind_eq_ok.2 ⟨sums, hsums, bind_eq_ok.2 ⟨_, hterm, bind_eq_ok.2 ⟨_, hadd, rfl⟩⟩⟩,
        htable.cons⟩

/-- The tables of the Lagrangian sums. -/
abbrev GridTables (ds : List Decision) (tables : List (List Int)) : Prop :=
  List.Forall₂ (fun lambda sums => lambda.Small ∧ SuffixSums (reducedCost lambda) ds sums)
    kLagrangianGrid tables

/-- The constructor fills its tables. -/
theorem newSearch_tables {plan : Plan} (h : Sized plan.decisions) (rows : List Row)
    (g0 required : Int) (maxNodes : Nat) (enableLagrangian : Bool) :
    ∃ gains tables, SuffixSums Decision.gain plan.decisions gains ∧
      (enableLagrangian = true → GridTables plan.decisions tables) ∧
      newSearch rows plan g0 required maxNodes enableLagrangian = .ok {
        rows := rows
        decisions := plan.decisions
        dominated := plan.dominated
        g0 := g0
        required := required
        maxNodes := maxNodes
        enableLagrangian := enableLagrangian
        suffixGain := gains
        suffixLagrangian := tables } := by
  rcases suffixGains_spec h with ⟨gains, hgains, hgainTable⟩
  -- One table for each multiplier, by induction on the grid.
  have hterms : ∀ grid : List Lambda, (∀ lambda ∈ grid, lambda.Small) →
      ∃ tables, grid.mapM (fun lambda => suffixTerms lambda plan.decisions) = .ok tables ∧
        List.Forall₂ (fun lambda sums => lambda.Small ∧
          SuffixSums (reducedCost lambda) plan.decisions sums) grid tables := by
    intro grid
    induction grid with
    | nil => exact fun _ => ⟨[], rfl, List.Forall₂.nil⟩
    | cons lambda grid ih =>
        intro hgrid
        rcases ih fun l hl => hgrid l (by simp [hl]) with ⟨tables, htables, hall⟩
        rcases suffixTerms_spec (hgrid lambda (by simp)) h with ⟨sums, hsums, htable⟩
        refine ⟨sums :: tables, ?_, List.Forall₂.cons ⟨hgrid lambda (by simp), htable⟩ hall⟩
        rw [List.mapM_cons]
        exact bind_eq_ok.2 ⟨sums, hsums, bind_eq_ok.2 ⟨tables, htables, rfl⟩⟩
  rcases hterms (if enableLagrangian then kLagrangianGrid else []) (by
    split
    · exact kLagrangianGrid_small
    · simp) with ⟨tables, htables, hall⟩
  refine ⟨gains, tables, hgainTable, fun hlag => ?_,
    bind_eq_ok.2 ⟨gains, hgains, bind_eq_ok.2 ⟨tables, htables, rfl⟩⟩⟩
  rw [if_pos hlag] at hall
  exact hall

/-! ## The bound of the grid -/

/-- The grid as multipliers of costs that are scaled to the unit of the gains. -/
def lagrangianGrid : List (Int × Int) :=
  kLagrangianGrid.map fun lambda => (lambda.p, lambda.q * kScale)

theorem lagrangianGrid_small : ∀ x ∈ lagrangianGrid, (0 ≤ x.1 ∧ x.1 ≤ 5) ∧ 0 < x.2 := by
  refine List.forall_mem_map.2 fun lambda hlambda => ?_
  have hsmall := kLagrangianGrid_small lambda hlambda
  exact ⟨hsmall.1, hsmall.denominator_pos⟩

theorem denominator_ok {lambda : Lambda} (h : lambda.Small) (what : String) :
    checkedMul lambda.q kScale what = .ok (lambda.q * kScale) := by
  have hpos := h.denominator_pos
  have hle : lambda.q * kScale ≤ 64 * kScale := mul_le_mul_of_nonneg_right h.2.2 (by decide)
  have hsmall : 64 * kScale ≤ searchBound := by decide +kernel
  exact checkedI128_ok ⟨by omega, by omega⟩

theorem product_ok {lambda : Lambda} (h : lambda.Small) {residual : Int}
    (hresidual : 0 ≤ residual ∧ residual ≤ kScale * int64Max) (what : String) :
    (0 ≤ lambda.p * residual ∧ lambda.p * residual ≤ 5 * (kScale * int64Max)) ∧
      checkedMul lambda.p residual what = .ok (lambda.p * residual) := by
  have hpos := kScale_mul_int64Max_pos
  have hproduct : 0 ≤ lambda.p * residual ∧ lambda.p * residual ≤ 5 * (kScale * int64Max) :=
    ⟨mul_nonneg h.1.1 hresidual.1, mul_le_mul h.1.2 hresidual.2 hresidual.1 (by omega)⟩
  have hbound : searchBound = 1024 * (kScale * int64Max) := mul_assoc ..
  exact ⟨hproduct, checkedI128_ok ⟨by omega, by omega⟩⟩

/-- What the loop over the grid computes from its tables. -/
theorem Search.gridBound_eq {c : Search} {ds : List Decision} (hds : Sized ds)
    (htables : GridTables ds c.suffixLagrangian) (depth : Nat) {residual : Int}
    (hresidual : 0 ≤ residual ∧ residual ≤ kScale * int64Max) :
    c.gridBound depth residual = .ok (Covers.gridBound Decision.extra Decision.gain lagrangianGrid
      residual (ds.drop depth)) := by
  have hdrop := hds.sublist (List.drop_sublist depth ds)
  unfold GridTables at htables
  unfold Search.gridBound Covers.gridBound lagrangianGrid
  rw [List.map_map]
  generalize kLagrangianGrid = grid at htables ⊢
  generalize c.suffixLagrangian = tables at htables ⊢
  -- The loop from any value.
  suffices hloop : ∀ bound : Int, (grid.zip tables).foldlM
      (fun (bound : Int) (x : Lambda × List Int) => do
        let product ← checkedMul x.1.p residual "B2 p*residual"
        let numerator ← checkedAdd product (x.2.getD depth 0) "B2 numerator"
        let denominator ← checkedMul x.1.q kScale "B2 denominator"
        let quotient ← floorDiv numerator denominator
        return max bound quotient) bound = Except.ok ((grid.map fun lambda =>
          Covers.quotient Decision.extra Decision.gain lambda.p (lambda.q * kScale) residual
            (ds.drop depth)).foldl max bound) from hloop 0
  induction htables with
  | nil => exact fun bound => rfl
  | @cons lambda sums grid tables hhead _ ih =>
      intro bound
      rcases hhead with ⟨hlambda, htable⟩
      have hterm := sumOf_reducedCost_range hlambda hdrop
      have hsum := hdrop.sum
      have hsmall : 5 * (kScale * int64Max) ≤ 2 ^ 126 := by decide +kernel
      rcases product_ok hlambda hresidual "B2 p*residual" with ⟨hproduct, h1⟩
      have h2 : checkedAdd (lambda.p * residual) (sums.getD depth 0) "B2 numerator" =
          .ok (lambda.p * residual + Covers.sumOf (reducedCost lambda) (ds.drop depth)) := by
        rw [htable depth]
        exact checkedI128_wide ⟨by omega, by omega⟩
      have h3 := denominator_ok hlambda "B2 denominator"
      have h4 := floorDiv_ok (a := lambda.p * residual +
        Covers.sumOf (reducedCost lambda) (ds.drop depth)) hlambda.denominator_pos
      rw [List.zip_cons_cons, List.foldlM_cons]
      refine bind_eq_ok.2 ⟨_, ?_, ih _⟩
      exact bind_eq_ok.2 ⟨_, h1, bind_eq_ok.2 ⟨_, h2, bind_eq_ok.2 ⟨_, h3, bind_eq_ok.2
        ⟨_, h4, rfl⟩⟩⟩⟩

/-! ## The setting of a search -/

theorem Planned.ranged {threshold : Int} {rows : List Row} {plan : Plan}
    (h : Planned threshold 0 rows plan) (hrows : Admissible rows threshold) :
    Ranged plan.decisions := by
  refine ⟨fun d hd => h.root.decision_range hrows hd, ?_⟩
  rcases h.root.upgrade with ⟨hnode, _, hg⟩
  have hbase := hrows.g_range h.oneHot
  have hall := hrows.g_range hnode.oneHot
  rw [hg] at hall
  omega

/-- What the members of `Search` are after the construction. -/
structure Setting (rows : List Row) (threshold : Int) (plan : Plan) (c : Search) : Prop where
  admissible : Admissible rows threshold
  planned : Planned threshold 0 rows plan
  rows_eq : c.rows = rows
  decisions : c.decisions = plan.decisions
  dominated : c.dominated = plan.dominated
  g0 : c.g0 = gOf threshold rows plan.base
  required : c.required = if c.g0 < 0 then -c.g0 else 0
  maxNodes : c.maxNodes = 0
  gains : SuffixSums Decision.gain plan.decisions c.suffixGain
  terms : c.enableLagrangian = true → GridTables plan.decisions c.suffixLagrangian

theorem newSearch_spec {rows : List Row} {threshold : Int} {plan : Plan}
    (hrows : Admissible rows threshold) (hplan : Planned threshold 0 rows plan)
    (enableLagrangian : Bool) : ∃ c, newSearch rows plan (gOf threshold rows plan.base)
        (if gOf threshold rows plan.base < 0 then -gOf threshold rows plan.base else 0) 0
        enableLagrangian = .ok c ∧ Setting rows threshold plan c := by
  rcases newSearch_tables (hplan.ranged hrows).sized rows (gOf threshold rows plan.base)
    (if gOf threshold rows plan.base < 0 then -gOf threshold rows plan.base else 0) 0
    enableLagrangian with ⟨gains, tables, hgains, htables, hnew⟩
  exact ⟨_, hnew, hrows, hplan, rfl, rfl, rfl, rfl, rfl, rfl, hgains, htables⟩

section Searching

variable {rows : List Row} {threshold : Int} {plan : Plan} {c : Search}

theorem Setting.required_range (hc : Setting rows threshold plan c) :
    0 ≤ c.required ∧ c.required ≤ kScale * int64Max := by
  have hbase := hc.admissible.g_range hc.planned.oneHot
  have hpos := kScale_mul_int64Max_pos
  rw [hc.required, hc.g0]
  split <;> omega

/-- The bound of the grid is small, and it bounds the cost of every cover. -/
theorem Setting.gridBound_spec (hc : Setting rows threshold plan c)
    (hlag : c.enableLagrangian = true) (depth : Nat) (residual : Int)
    (hresidual : 0 ≤ residual ∧ residual ≤ kScale * int64Max) :
    ∃ bound, c.gridBound depth residual = .ok bound ∧
      (0 ≤ bound ∧ bound ≤ 5 * (kScale * int64Max)) ∧
      ∀ U, U.Sublist (plan.decisions.drop depth) → residual ≤ Covers.sumOf Decision.gain U →
        bound ≤ Covers.sumOf Decision.extra U := by
  have hsized := (hc.planned.ranged hc.admissible).sized
  have hdrop := hsized.sublist (List.drop_sublist depth plan.decisions)
  have hpos := kScale_mul_int64Max_pos
  refine ⟨_, Search.gridBound_eq hsized (hc.terms hlag) depth hresidual,
    ⟨Covers.gridBound_nonneg .., ?_⟩, fun U hU hreach => ?_⟩
  · refine Covers.gridBound_le_iff.2 ⟨by omega, fun x hx => ?_⟩
    rcases lagrangianGrid_small x hx with ⟨⟨hp, hp5⟩, ha⟩
    have hterm := sumOf_reducedTerm_range hp5 (le_of_lt ha) fun d hd =>
      ⟨(hdrop.decision d hd).1.1, hdrop.gain_nonneg d hd⟩
    have hproduct : x.1 * residual ≤ 5 * (kScale * int64Max) :=
      mul_le_mul hp5 hresidual.2 hresidual.1 (by omega)
    have hle : 5 * (kScale * int64Max) ≤ 5 * (kScale * int64Max) * x.2 :=
      le_mul_of_one_le_right (by omega) ha
    exact Int.ediv_le_of_le_mul ha (by omega)
  · exact Covers.gridBound_le (fun d hd => (hdrop.decision d hd).1.1)
      (fun x hx => ⟨(lagrangianGrid_small x hx).1.1, (lagrangianGrid_small x hx).2⟩) hU hreach

end Searching

end StructuredExact
end SociSgx

import SociSgx.Optimizer.Bounds
import SociSgx.Optimizer.FixedPoint

/-!
# PlainSolver — the reference solver of `optimize_plain`

The plain solver searches the same tree as the encrypted one, on integers, with another tie-break:
among the assignments of least cost it wants the ratio `C12 / total` nearest to the threshold, and
then the lexicographically least methods.

The suffix tables, the sentinel in `best_cost` and the order of the cuts are those of the source;
`visit_spec` says that a visit is a run of `explore` under `nearestDecisions`.
-/

namespace SociSgx
namespace Optimization

open Exec BranchBound

/-- `current[i] = j + 1` -/
def methodNumber (m : Method) : Int :=
  m.val + 1

/-- The method vector of a path. -/
def solutionOf (path : List (Choice Int)) : List Int :=
  path.map fun c => methodNumber c.method

/-! ## The solver -/

/-- The arguments of `visit` that sum up the path. -/
structure Sums where
  cost : Int := 0
  c12 : Int := 0
  c3 : Int := 0
  linear : Int := 0

def Sums.child (sums : Sums) (threshold : Int) (c : Choice Int) : Sums :=
  if c.method < 2 then
    { cost := sums.cost + c.cost
      c12 := sums.c12 + c.cost
      c3 := sums.c3
      linear := sums.linear + (kScale - threshold) * c.cost }
  else
    { cost := sums.cost + c.cost
      c12 := sums.c12
      c3 := sums.c3 + c.cost
      linear := sums.linear - threshold * c.cost }

/-- The members of `Solver` that a visit changes; `current` is an argument of `visit`. -/
structure Solver where
  best : List Int := []
  bestCost : Int := int64Max
  bestC12 : Int := 0
  bestC3 : Int := 0
  visitedNodes : UInt64 := 0

/-- `mn` and `mx` of a row: the loop starts from an extreme value of `int64_t`. -/
def rowExtreme (op : Int → Int → Int) (start : Int) (f : Choice Int → Int)
    (row : CostRow Int) : Int :=
  ((options row).map f).foldl op start

/-- The loop from the last row to the first; entry `n` is 0. -/
def suffixTable (value : CostRow Int → Int) (costs : List (CostRow Int)) : List Int :=
  costs.foldr (fun row sums => (sums.headD 0 + value row) :: sums) [0]

def minSuffix (costs : List (CostRow Int)) : List Int :=
  suffixTable (rowExtreme min int64Max Choice.cost) costs

def ratioMaxSuffix (threshold : Int) (costs : List (CostRow Int)) : List Int :=
  suffixTable (rowExtreme max (-int64Max - 1) (contribution kScale threshold)) costs

namespace Solver

def enter (s : Solver) : Solver :=
  { s with visitedNodes := s.visitedNodes + 1 }

/-- The two early returns of `visit`. -/
def cuts (s : Solver) (sums : Sums) (minimum ratioMaximum : Int) : Bool :=
  decide (s.bestCost ≠ int64Max ∧ s.bestCost < sums.cost + minimum) ||
    decide (sums.linear + ratioMaximum < 0)

/-- Cross products compare the distances of the two ratios to the threshold. -/
def betterTie (s : Solver) (threshold c12 c3 : Int) (current : List Int) : Bool :=
  let total := c12 + c3
  let oldTotal := s.bestC12 + s.bestC3
  let gap := c12 * kScale - threshold * total
  let oldGap := s.bestC12 * kScale - threshold * oldTotal
  let lhs := gap * oldTotal
  let rhs := oldGap * total
  if lhs ≠ rhs then decide (lhs < rhs) else decide (current < s.best)

def leaf (s : Solver) (threshold : Int) (sums : Sums) (current : List Int) : Solver :=
  if sums.linear < 0 ∨ sums.c3 ≤ 0 ∨ sums.c12 + sums.c3 ≤ 0 then
    s
  else if sums.cost < s.bestCost ∨
      (sums.cost = s.bestCost ∧ s.betterTie threshold sums.c12 sums.c3 current = true) then
    { s with
      best := current
      bestCost := sums.cost
      bestC12 := sums.c12
      bestC3 := sums.c3 }
  else
    s

/-- `visit(i, ...)`; the rows from `i` on are the argument. -/
def visit (model : Encoded) : List (CostRow Int) → Nat → Sums → List Int → Solver → Solver
  | [], i, sums, current, s =>
      let s := s.enter
      if s.cuts sums ((minSuffix model.costs).getD i 0)
          ((ratioMaxSuffix model.threshold model.costs).getD i 0) then
        s
      else
        s.leaf model.threshold sums current
  | row :: rest, i, sums, current, s =>
      let s := s.enter
      if s.cuts sums ((minSuffix model.costs).getD i 0)
          ((ratioMaxSuffix model.threshold model.costs).getD i 0) then
        s
      else
        (options row).foldl (fun s c =>
          visit model rest (i + 1) (sums.child model.threshold c)
            (current ++ [methodNumber c.method]) s) s

/-- `Solver solver(model); solver.visit(0, 0, 0, 0, 0);` -/
def run (model : Encoded) : Solver :=
  visit model model.costs 0 {} [] {}

end Solver

/-- `solve`; the caller divides `best_cost` and the ratio as floating-point numbers. -/
def solve (model : Encoded) : Except Error Solver := do
  let solver := Solver.run model
  ensure (solver.best ≠ [])
    (.optimization .noFeasibleSolution "no assignment satisfies the ratio constraint")
  return solver

def optimizePlain (matrix : CostMatrix) (threshold : Bytes) : Except Error Solver := do
  let model ← encode matrix threshold
  solve model

/-! ## What the solver looks for -/

/-- `C12 / total` -/
def ratio (leaf : List (Choice Int)) : ℚ :=
  c12 leaf / total leaf

/-- The distance of the ratio to the threshold. -/
def gap (threshold : Int) (leaf : List (Choice Int)) : ℚ :=
  |ratio leaf - threshold / kScale|

/-- The documented order: cost, then distance of the ratio, then methods. -/
def nearestKey (threshold : Int) (leaf : List (Choice Int)) : ℤ ×ₗ (ℚ ×ₗ List Int) :=
  toLex (total leaf, toLex (gap threshold leaf, solutionOf leaf))

/-- The best assignment in the documented order. -/
structure IsNearest (threshold : Int) (rows : List (CostRow Int)) (leaf : List (Choice Int)) :
    Prop where
  assignment : IsAssignment rows leaf
  feasible : Feasible kScale threshold leaf
  best : ∀ other, IsAssignment rows other → Feasible kScale threshold other →
    nearestKey threshold leaf ≤ nearestKey threshold other

/-! ## The tables -/

theorem suffixTable_headD (value : CostRow Int → Int) (costs : List (CostRow Int)) :
    (suffixTable value costs).headD 0 = (costs.map value).sum := by
  induction costs with
  | nil => rfl
  | cons row costs ih =>
      change (suffixTable value costs).headD 0 + value row = _
      rw [ih, List.map_cons, List.sum_cons]
      ring

theorem suffixTable_getD (value : CostRow Int → Int) (done rest : List (CostRow Int)) :
    (suffixTable value (done ++ rest)).getD done.length 0 = (rest.map value).sum := by
  induction done with
  | nil =>
      rw [← suffixTable_headD]
      cases h : suffixTable value rest <;> simp [h]
  | cons row done ih => exact ih

/-- The start of the loop does not matter when a value of the row replaces it. -/
theorem rowExtreme_eq {op : Int → Int → Int} {start : Int} {f : Choice Int → Int}
    {row : CostRow Int} (hne : options row ≠ [])
    (hstart : ∀ c ∈ options row, op start (f c) = f c) :
    rowExtreme op start f row = rowBest op f row := by
  unfold rowExtreme rowBest
  cases h : options row with
  | nil => exact absurd h hne
  | cons c cs =>
      rw [List.map_cons, List.foldl_cons, hstart c (by simp [h])]
      rfl

theorem foldl_max_rowMax (row : CostRow Int) :
    rowMax row = ((options row).map Choice.cost).foldl max 0 := by
  rw [rowMax, List.foldl_map]

theorem cost_le_rowMax {row : CostRow Int} {c : Choice Int} (hc : c ∈ options row) :
    c.cost ≤ rowMax row := by
  rw [foldl_max_rowMax]
  exact (foldl_max_ge _ 0).2 _ (List.mem_map_of_mem hc)

theorem rowMax_nonneg (row : CostRow Int) : 0 ≤ rowMax row := by
  rw [foldl_max_rowMax]
  exact (foldl_max_ge _ 0).1

theorem total_le_rowMax {rows : List (CostRow Int)} {path : List (Choice Int)}
    (h : IsAssignment rows path) : total path ≤ (rows.map rowMax).sum := by
  induction h with
  | nil => exact le_rfl
  | cons hc _ ih =>
      have hle := cost_le_rowMax (mem_options.2 hc)
      simp only [total, sumOf_cons, List.map_cons, List.sum_cons] at ih ⊢
      linarith

/-! ## An accepted model -/

namespace Encoded.Accepted

variable {model : Encoded} (h : model.Accepted)
include h

theorem rowMax_le {row : CostRow Int} (hrow : row ∈ model.costs) :
    rowMax row * kScale ≤ kFixedSafe := by
  have hsingle : rowMax row ≤ (model.costs.map rowMax).sum := by
    refine List.single_le_sum ?_ _ (List.mem_map_of_mem hrow)
    intro x hx
    rcases List.mem_map.1 hx with ⟨r, _, rfl⟩
    exact rowMax_nonneg r
  exact (mul_le_mul_of_nonneg_right hsingle (by decide)).trans h.aggregate

/-- A cost times the scale stays below the safe bound. -/
theorem cost_le {row : CostRow Int} (hrow : row ∈ model.costs) {c : Choice Int}
    (hc : c ∈ options row) : c.cost * kScale ≤ kFixedSafe :=
  (mul_le_mul_of_nonneg_right (cost_le_rowMax hc) (by decide)).trans (h.rowMax_le hrow)

theorem contribution_ge {row : CostRow Int} (hrow : row ∈ model.costs) {c : Choice Int}
    (hc : c ∈ options row) : -kFixedSafe ≤ contribution kScale model.threshold c := by
  have hcost := h.costs row hrow c hc
  have hlarge := h.cost_le hrow hc
  have hthreshold := h.threshold
  unfold contribution coefficient
  split
  · have hpositive : 0 ≤ (kScale - model.threshold) * c.cost :=
      mul_nonneg (by linarith) hcost
    have hsafe : (0 : Int) ≤ kFixedSafe := by decide
    linarith
  · have hproduct : model.threshold * c.cost ≤ kScale * c.cost :=
      mul_le_mul_of_nonneg_right hthreshold.2.le hcost
    linarith

/-- The tables hold the suffix bounds. -/
theorem minSuffix_getD {done rest : List (CostRow Int)} (hsplit : model.costs = done ++ rest) :
    (minSuffix model.costs).getD done.length 0 = suffix min Choice.cost rest := by
  rw [hsplit, minSuffix, suffixTable_getD, suffix]
  refine congrArg List.sum (List.map_congr_left fun row hrow => ?_)
  have hmem : row ∈ model.costs := hsplit ▸ List.mem_append_right _ hrow
  refine rowExtreme_eq (h.available row hmem) fun c hc => min_eq_right ?_
  have hcost := h.costs row hmem c hc
  have hlarge := h.cost_le hmem hc
  simp only [kScale, kFixedSafe, int64Max] at hlarge ⊢
  omega

theorem ratioMaxSuffix_getD {done rest : List (CostRow Int)}
    (hsplit : model.costs = done ++ rest) :
    (ratioMaxSuffix model.threshold model.costs).getD done.length 0 =
      suffix max (contribution kScale model.threshold) rest := by
  rw [hsplit, ratioMaxSuffix, suffixTable_getD, suffix]
  refine congrArg List.sum (List.map_congr_left fun row hrow => ?_)
  have hmem : row ∈ model.costs := hsplit ▸ List.mem_append_right _ hrow
  refine rowExtreme_eq (h.available row hmem) fun c hc => max_eq_right ?_
  have hge := h.contribution_ge hmem hc
  simp only [kFixedSafe, int64Max] at hge ⊢
  omega

/-- No assignment costs as much as the sentinel. -/
theorem total_lt {leaf : List (Choice Int)} (hleaf : IsAssignment model.costs leaf) :
    total leaf < int64Max := by
  have hle := total_le_rowMax hleaf
  have haggregate := h.aggregate
  simp only [kScale, kFixedSafe, int64Max] at haggregate ⊢
  omega

theorem c12_nonneg {leaf : List (Choice Int)} (hleaf : IsAssignment model.costs leaf) :
    0 ≤ c12 leaf := by
  refine List.sum_nonneg fun x hx => ?_
  rcases List.mem_map.1 hx with ⟨c, hc, rfl⟩
  rcases mem_right_of_forall₂ hleaf hc with ⟨row, hrow, hcost⟩
  have hnonneg := h.costs row hrow c (mem_options.2 hcost)
  split
  · exact hnonneg
  · exact le_rfl

/-- A feasible assignment has a positive total, so its ratio exists. -/
theorem total_pos {leaf : List (Choice Int)} (hleaf : IsAssignment model.costs leaf)
    (hfeasible : Feasible kScale model.threshold leaf) : 0 < total leaf := by
  have hc12 := h.c12_nonneg hleaf
  have hc3 := hfeasible.2
  have htotal := total_eq leaf
  omega

end Encoded.Accepted

/-! ## The tie-break -/

theorem kScale_pos : (0 : ℚ) < kScale := by norm_num [kScale]

theorem gap_eq {threshold : Int} {leaf : List (Choice Int)}
    (hlinear : 0 ≤ linear kScale threshold leaf) (htotal : 0 < total leaf) :
    gap threshold leaf = (linear kScale threshold leaf : ℚ) / (kScale * total leaf) := by
  have htotal' : (0 : ℚ) < total leaf := by exact_mod_cast htotal
  have hscale := kScale_pos
  have hsum : (linear kScale threshold leaf : ℚ) =
      kScale * c12 leaf - threshold * total leaf := by
    rw [linear_eq, total_eq]
    push_cast
    ring
  have hdiff : ratio leaf - threshold / kScale =
      (linear kScale threshold leaf : ℚ) / (kScale * total leaf) := by
    rw [hsum, ratio]
    field_simp
  rw [gap, hdiff, abs_of_nonneg]
  have hnonneg : (0 : ℚ) ≤ linear kScale threshold leaf := by exact_mod_cast hlinear
  positivity

/-- The distances compare like the cross products. -/
theorem gap_lt_iff {threshold : Int} {a b : List (Choice Int)}
    (ha : 0 ≤ linear kScale threshold a ∧ 0 < total a)
    (hb : 0 ≤ linear kScale threshold b ∧ 0 < total b) :
    gap threshold a < gap threshold b ↔
      linear kScale threshold a * total b < linear kScale threshold b * total a := by
  have hscale := kScale_pos
  have hta : (0 : ℚ) < total a := by exact_mod_cast ha.2
  have htb : (0 : ℚ) < total b := by exact_mod_cast hb.2
  rw [gap_eq ha.1 ha.2, gap_eq hb.1 hb.2, div_lt_div_iff₀ (mul_pos hscale hta) (mul_pos hscale htb)]
  have hleft : (linear kScale threshold a : ℚ) * (kScale * total b) =
      kScale * ((linear kScale threshold a * total b : ℤ) : ℚ) := by
    push_cast
    ring
  have hright : (linear kScale threshold b : ℚ) * (kScale * total a) =
      kScale * ((linear kScale threshold b * total a : ℤ) : ℚ) := by
    push_cast
    ring
  rw [hleft, hright, mul_lt_mul_iff_right₀ hscale]
  exact_mod_cast Iff.rfl

/-- `gap` of the source is the linear value. -/
theorem crossGap_eq (threshold : Int) (leaf : List (Choice Int)) :
    c12 leaf * kScale - threshold * total leaf = linear kScale threshold leaf := by
  rw [linear_eq, total_eq]
  ring

/-- What `better_tie` compares when the solver holds the leaf `b`. -/
theorem betterTie_iff {s : Solver} {threshold : Int} {a b : List (Choice Int)}
    (hs : s.bestC12 = c12 b ∧ s.bestC3 = c3 b ∧ s.best = solutionOf b)
    (ha : 0 ≤ linear kScale threshold a ∧ 0 < total a)
    (hb : 0 ≤ linear kScale threshold b ∧ 0 < total b) :
    s.betterTie threshold (c12 a) (c3 a) (solutionOf a) = true ↔
      toLex (gap threshold a, solutionOf a) < toLex (gap threshold b, solutionOf b) := by
  have hlt := gap_lt_iff ha hb
  have hgt := gap_lt_iff hb ha
  rw [Prod.Lex.toLex_lt_toLex]
  simp only [Solver.betterTie, hs.1, hs.2.1, hs.2.2, ← total_eq, crossGap_eq]
  split
  · rename_i hne
    rw [decide_eq_true_iff, hlt]
    constructor
    · exact Or.inl
    · rintro (hless | ⟨heq, _⟩)
      · exact hless
      · have hnlt := not_lt.1 (mt hlt.2 heq.not_lt)
        have hngt := not_lt.1 (mt hgt.2 heq.not_gt)
        exact absurd (le_antisymm hngt hnlt) hne
  · rename_i heq
    have hcross := not_not.1 heq
    have hnlt : ¬ gap threshold a < gap threshold b := fun hless => (hlt.1 hless).ne hcross
    have hngt : ¬ gap threshold b < gap threshold a := fun hless => (hgt.1 hless).ne hcross.symm
    rw [decide_eq_true_iff]
    constructor
    · exact fun hless => Or.inr ⟨le_antisymm (not_lt.1 hngt) (not_lt.1 hnlt), hless⟩
    · rintro (hless | ⟨_, hless⟩)
      · exact absurd hless hnlt
      · exact hless

/-! ## The search on plain integers -/

/-- The search of the plain solver, as decisions on leaves. -/
def nearestDecisions (threshold : Int) : Decisions (CostRow Int) (Choice Int) :=
  { prune := fun inc path rest =>
      (inc.any fun b => decide (total b < total path + suffix min Choice.cost rest)) ||
        decide (linear kScale threshold path +
          suffix max (contribution kScale threshold) rest < 0)
    accept := fun inc path =>
      decide (Feasible kScale threshold path ∧ 0 < total path) &&
        inc.all fun b => decide (nearestKey threshold path < nearestKey threshold b) }

/-- A cut loses no leaf that would be accepted. -/
theorem nearestDecisions_sound (threshold : Int) :
    Sound options (nearestDecisions threshold) := by
  intro inc path rest hprune leaf hleaf
  rw [Bool.eq_false_iff]
  intro haccept
  simp only [nearestDecisions, Bool.and_eq_true, decide_eq_true_eq] at haccept
  rcases Bool.or_eq_true_iff.1 hprune with hcost | hlinear
  · rcases (Option.any_eq_true _ _).1 hcost with ⟨b, rfl, hcut⟩
    have hbetter := Prod.Lex.toLex_lt_toLex.1
      (of_decide_eq_true ((Option.all_eq_true _ _).1 haccept.2 b rfl))
    have hcut' := of_decide_eq_true hcut
    rcases mem_leaves.1 hleaf with ⟨cs, hcs, rfl⟩
    have hle := suffix_le_sumOf Choice.cost hcs
    have htotal : total (path ++ cs) = total path + sumOf Choice.cost cs := by simp [total]
    have hleast : total (path ++ cs) ≤ total b := by
      rcases hbetter with hless | heq
      · exact hless.le
      · exact heq.1.le
    omega
  · have hcut := of_decide_eq_true hlinear
    have hupper := CostBound.linear_le_upper kScale threshold hleaf
    have hfeasible := haccept.1.1.1
    omega

theorem nearestDecisions_improves (threshold : Int) :
    Improves (fun leaf => Feasible kScale threshold leaf ∧ 0 < total leaf)
      (nearestKey threshold) (nearestDecisions threshold).accept where
  infeasible := by
    intro inc leaf hno
    simp [nearestDecisions, hno]
  none := by
    intro leaf hfeasible
    simp [nearestDecisions, hfeasible]
  some := by
    intro inc leaf _ hfeasible
    simp [nearestDecisions, hfeasible]

end Optimization
end SociSgx

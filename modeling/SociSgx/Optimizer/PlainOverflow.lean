import SociSgx.Optimizer.MaximumMu
import SociSgx.Optimizer.PlainOptimality
import SociSgx.Lib.Folds

/-!
# PlainOverflow — the plain solver with checked arithmetic

`validate_aggregate` is the only guard on the magnitudes: a million times the sum of the row maxima
stays below `kFixedSafe`.  Here every operation on `int64_t` and `__int128` of the plain solver is
checked, and the guard turns out to be enough for all of them, on every branch of the search.
-/

namespace SociSgx
namespace Optimization

open Exec BranchBound

/-! ## The matrix -/

/-- The loop over the rows, with `max_total`. -/
def encodeRowsWide : List (CostRow Bytes) → Int → WideM (List (CostRow Int) × Int)
  | [], maxTotal => return ([], maxTotal)
  | row :: rows, maxTotal => do
      let encoded ← within (encodeRow row)
      let maxTotal ← wide (maxTotal + rowMax encoded)
      let rest ← encodeRowsWide rows maxTotal
      return (encoded :: rest.1, rest.2)

def validateAggregateWide (maxTotal : Int) : WideM Unit := do
  within (ensure (0 ≤ maxTotal) (Error.outOfRange "aggregate fixed-point range exceeded"))
  let scaled ← wide (maxTotal * kScale)
  within (ensure (scaled ≤ kFixedSafe) (Error.outOfRange "aggregate fixed-point range exceeded"))

def encodeWide (matrix : CostMatrix) (threshold : Bytes) : WideM Encoded := do
  within (ensure (matrix ≠ []) (Error.invalid "cost matrix must not be empty"))
  let thresholdValue ← within (parseFixedPoint threshold true)
  let rows ← encodeRowsWide matrix 0
  validateAggregateWide rows.2
  return ⟨rows.1, thresholdValue⟩

/-! ## The solver -/

/-- The contribution of a choice, in 64 bits. -/
def contributionWide (threshold : Int) (c : Choice Int) : WideM Int :=
  if c.method < 2 then do
    let factor ← narrow (kScale - threshold)
    narrow (factor * c.cost)
  else do
    let factor ← narrow (-threshold)
    narrow (factor * c.cost)

def rowExtremeWide (op : Int → Int → Int) (start : Int) (f : Choice Int → WideM Int)
    (row : CostRow Int) : WideM Int :=
  (options row).foldlM (fun best c => do
    let value ← f c
    return op best value) start

/-- The loop of the constructor, for one of its two tables. -/
def suffixTableWide (value : CostRow Int → WideM Int) : List (CostRow Int) → WideM (List Int)
  | [] => return [0]
  | row :: rest => do
      let sums ← suffixTableWide value rest
      let extreme ← value row
      let sum ← narrow (sums.headD 0 + extreme)
      return sum :: sums

def minSuffixWide (costs : List (CostRow Int)) : WideM (List Int) :=
  suffixTableWide (rowExtremeWide min int64Max fun c => pure c.cost) costs

def ratioMaxSuffixWide (threshold : Int) (costs : List (CostRow Int)) : WideM (List Int) :=
  suffixTableWide (rowExtremeWide max (-int64Max - 1) (contributionWide threshold)) costs

/-- The arguments of the recursive call. -/
def Sums.childWide (sums : Sums) (threshold : Int) (c : Choice Int) : WideM Sums :=
  if c.method < 2 then do
    let cost ← narrow (sums.cost + c.cost)
    let c12 ← narrow (sums.c12 + c.cost)
    let factor ← narrow (kScale - threshold)
    let product ← narrow (factor * c.cost)
    let linear ← narrow (sums.linear + product)
    return { cost := cost, c12 := c12, c3 := sums.c3, linear := linear }
  else do
    let cost ← narrow (sums.cost + c.cost)
    let c3 ← narrow (sums.c3 + c.cost)
    let product ← narrow (threshold * c.cost)
    let linear ← narrow (sums.linear - product)
    return { cost := cost, c12 := sums.c12, c3 := c3, linear := linear }

namespace Solver

/-- The sum is only formed when there is an incumbent. -/
def costCutWide (s : Solver) (sums : Sums) (minimum : Int) : WideM Bool :=
  if s.bestCost ≠ int64Max then do
    let bound ← narrow (sums.cost + minimum)
    return decide (s.bestCost < bound)
  else
    return false

def cutsWide (s : Solver) (sums : Sums) (minimum ratioMaximum : Int) : WideM Bool := do
  let costCut ← s.costCutWide sums minimum
  if costCut = true then
    return true
  else do
    let bound ← wide (sums.linear + ratioMaximum)
    return decide (bound < 0)

/-- `gap` or `old_gap` -/
def gapWide (threshold c12 total : Int) : WideM Int := do
  let scaled ← wide (c12 * kScale)
  let share ← wide (threshold * total)
  wide (scaled - share)

def betterTieWide (s : Solver) (threshold c12 c3 : Int) (current : List Int) : WideM Bool := do
  let total ← narrow (c12 + c3)
  let oldTotal ← narrow (s.bestC12 + s.bestC3)
  let gap ← gapWide threshold c12 total
  let oldGap ← gapWide threshold s.bestC12 oldTotal
  let lhs ← wide (gap * oldTotal)
  let rhs ← wide (oldGap * total)
  return if lhs ≠ rhs then decide (lhs < rhs) else decide (current < s.best)

/-- The condition of the update; the tie-break only runs on a tie. -/
def improvesWide (s : Solver) (threshold : Int) (sums : Sums) (current : List Int) :
    WideM Bool :=
  if sums.cost < s.bestCost then
    return true
  else if sums.cost = s.bestCost then
    s.betterTieWide threshold sums.c12 sums.c3 current
  else
    return false

def leafWide (s : Solver) (threshold : Int) (sums : Sums) (current : List Int) : WideM Solver :=
  if sums.linear < 0 ∨ sums.c3 ≤ 0 then
    return s
  else do
    let total ← narrow (sums.c12 + sums.c3)
    if total ≤ 0 then
      return s
    else do
      let improves ← s.improvesWide threshold sums current
      return if improves = true then
        { s with
          best := current
          bestCost := sums.cost
          bestC12 := sums.c12
          bestC3 := sums.c3 }
      else s

/-- `visit(i, ...)`, with the two tables of the constructor. -/
def visitWide (model : Encoded) (minimum ratioMaximum : List Int) :
    List (CostRow Int) → Nat → Sums → List Int → Solver → WideM Solver
  | [], i, sums, current, s => do
      let s := s.enter
      let cut ← s.cutsWide sums (minimum.getD i 0) (ratioMaximum.getD i 0)
      if cut = true then
        return s
      else
        s.leafWide model.threshold sums current
  | row :: rest, i, sums, current, s => do
      let s := s.enter
      let cut ← s.cutsWide sums (minimum.getD i 0) (ratioMaximum.getD i 0)
      if cut = true then
        return s
      else
        (options row).foldlM (fun s c => do
          let child ← sums.childWide model.threshold c
          visitWide model minimum ratioMaximum rest (i + 1) child
            (current ++ [methodNumber c.method]) s) s

/-- The constructor and the search. -/
def runWide (model : Encoded) : WideM Solver := do
  let minimum ← minSuffixWide model.costs
  let ratioMaximum ← ratioMaxSuffixWide model.threshold model.costs
  visitWide model minimum ratioMaximum model.costs 0 {} [] {}

end Solver

/-! ## Checked steps that succeed -/

section Checked

variable {α β : Type}

theorem narrow_of_abs {x : Int} (h : |x| ≤ kFixedSafe) : narrow x = pure x := by
  have hbounds := abs_le.1 h
  unfold kFixedSafe int64Max at hbounds
  exact narrow_of ⟨by omega, by omega⟩

theorem wide_of_abs {x : Int} (h : |x| ≤ 2 ^ 126) : wide x = pure x := by
  have hbounds := abs_le.1 h
  exact wide_of ⟨by omega, by omega⟩

theorem within_bind (x : Except Error α) (f : α → Except Error β) :
    within (x >>= f) = within x >>= fun a => within (f a) := by
  cases x with
  | error e => rfl
  | ok a => rfl

end Checked

/-! ## What the guard bounds -/

/-- The sums of a path that the guard allows. -/
structure PathRange (threshold : Int) (path : List (Choice Int)) : Prop where
  total : 0 ≤ total path ∧ total path * kScale ≤ kFixedSafe
  c12 : 0 ≤ c12 path ∧ c12 path ≤ Optimization.total path
  c3 : 0 ≤ c3 path ∧ c3 path ≤ Optimization.total path
  linear : |linear kScale threshold path| ≤ kFixedSafe

theorem sumOf_nonneg {f : Choice Int → Int} {path : List (Choice Int)}
    (h : ∀ c ∈ path, 0 ≤ f c) : 0 ≤ sumOf f path := by
  refine List.sum_nonneg fun x hx => ?_
  rcases List.mem_map.1 hx with ⟨c, hc, rfl⟩
  exact h c hc

theorem abs_le_of_scaled {x : Int} (h : 0 ≤ x ∧ x * kScale ≤ kFixedSafe) : |x| ≤ kFixedSafe := by
  rw [abs_of_nonneg h.1]
  have hx := h.2
  unfold kScale at hx
  omega

/-- A factor up to the scale times a scaled value stays below the safe bound. -/
theorem abs_mul_le {f x : Int} (hf : |f| ≤ kScale) (hx : 0 ≤ x ∧ x * kScale ≤ kFixedSafe) :
    |f * x| ≤ kFixedSafe := by
  calc
    |f * x| = |f| * x := by rw [abs_mul, abs_of_nonneg hx.1]
    _ ≤ kScale * x := mul_le_mul_of_nonneg_right hf hx.1
    _ = x * kScale := mul_comm _ _
    _ ≤ kFixedSafe := hx.2

namespace Encoded.Accepted

variable {model : Encoded} (h : model.Accepted) {done rest : List (CostRow Int)}
  {path : List (Choice Int)}
include h

theorem abs_threshold_le : |model.threshold| ≤ kScale ∧ |kScale - model.threshold| ≤ kScale := by
  have hthreshold := h.threshold
  rw [abs_of_nonneg hthreshold.1, abs_of_nonneg (by omega)]
  omega

theorem cost_range {row : CostRow Int} (hrow : row ∈ model.costs) {c : Choice Int}
    (hc : c ∈ options row) : 0 ≤ c.cost ∧ c.cost * kScale ≤ kFixedSafe :=
  ⟨h.costs row hrow c hc, h.cost_le hrow hc⟩

/-- Part of the rows stays below the guard. -/
theorem part_le {part : List (CostRow Int)} (hpart : part.Sublist model.costs) :
    (part.map rowMax).sum * kScale ≤ kFixedSafe := by
  have hsum : (part.map rowMax).sum ≤ (model.costs.map rowMax).sum := by
    refine (hpart.map rowMax).sum_le_sum fun x hx => ?_
    rcases List.mem_map.1 hx with ⟨row, _, rfl⟩
    exact rowMax_nonneg row
  calc
    (part.map rowMax).sum * kScale ≤ (model.costs.map rowMax).sum * kScale :=
      mul_le_mul_of_nonneg_right hsum (by decide)
    _ ≤ kFixedSafe := h.aggregate

theorem suffix_range {op : Int → Int → Int} (hop : Selective op)
    (hsplit : model.costs = done ++ rest) :
    |suffix op Choice.cost rest| * kScale ≤ kFixedSafe ∧
      |suffix op (contribution kScale model.threshold) rest| ≤ kFixedSafe := by
  have hpart : rest.Sublist model.costs := hsplit ▸ List.sublist_append_right done rest
  have hguard := h.part_le hpart
  have hcost := abs_suffix_le hop fun row hrow => h.within_cost row (hpart.subset hrow)
  have hcontribution := abs_suffix_le hop fun row hrow =>
    h.within_contribution row (hpart.subset hrow)
  rw [List.sum_map_mul_right] at hcontribution
  exact ⟨(mul_le_mul_of_nonneg_right hcost (by decide)).trans hguard,
    hcontribution.trans hguard⟩

/-- No path adds up more than the guard allows, wherever it ends. -/
theorem path_range (hsplit : model.costs = done ++ rest) (hpath : IsAssignment done path) :
    PathRange model.threshold path := by
  have hpart : done.Sublist model.costs := hsplit ▸ List.sublist_append_left done rest
  have hguard := h.part_le hpart
  have hcosts : ∀ c ∈ path, 0 ≤ c.cost := by
    intro c hc
    rcases mem_right_of_forall₂ hpath hc with ⟨row, hrow, hcost⟩
    exact h.costs row (hpart.subset hrow) c (mem_options.2 hcost)
  have htotal : 0 ≤ total path := sumOf_nonneg hcosts
  have hc12 : 0 ≤ c12 path := by
    refine sumOf_nonneg fun c hc => ?_
    split
    · exact hcosts c hc
    · exact le_rfl
  have hc3 : 0 ≤ c3 path := by
    refine sumOf_nonneg fun c hc => ?_
    split
    · exact le_rfl
    · exact hcosts c hc
  have hsum := total_eq path
  have hlinear := abs_sumOf_le
    (fun row hrow => h.within_contribution row (hpart.subset hrow)) hpath
  rw [List.sum_map_mul_right] at hlinear
  have hscaled : total path * kScale ≤ kFixedSafe :=
    (mul_le_mul_of_nonneg_right (total_le_rowMax hpath) (by decide)).trans hguard
  exact ⟨⟨htotal, hscaled⟩, ⟨hc12, by omega⟩, ⟨hc3, by omega⟩, hlinear.trans hguard⟩

theorem assignment_range (hpath : IsAssignment model.costs path) :
    PathRange model.threshold path :=
  h.path_range (List.append_nil _).symm hpath

end Encoded.Accepted

/-! ## The constructor -/

theorem rowExtremeWide_eq {op : Int → Int → Int} {start : Int} {f : Choice Int → WideM Int}
    {g : Choice Int → Int} {row : CostRow Int} (h : ∀ c ∈ options row, f c = pure (g c)) :
    rowExtremeWide op start f row = pure (rowExtreme op start g row) := by
  have hloop := foldlM_pure (I := fun _ : Int => True)
    (f := fun best c => do
      let value ← f c
      return op best value)
    (g := fun best c => op best (g c)) (l := options row) (fun c hc b _ => by
      refine ⟨?_, trivial⟩
      rw [h c hc, pure_bind]) (b := start) trivial
  rw [rowExtreme, List.foldl_map]
  exact hloop.1

theorem suffixTableWide_eq {valueWide : CostRow Int → WideM Int} {value : CostRow Int → Int}
    {rows : List (CostRow Int)} (hvalue : ∀ row ∈ rows, valueWide row = pure (value row))
    (hsum : ∀ done rest, rows = done ++ rest → |(rest.map value).sum| ≤ kFixedSafe) :
    suffixTableWide valueWide rows = pure (suffixTable value rows) := by
  induction rows with
  | nil => rfl
  | cons row rows ih =>
      have htail := ih (fun r hr => hvalue r (List.mem_cons_of_mem _ hr)) fun done rest hsplit =>
        hsum (row :: done) rest (by rw [hsplit, List.cons_append])
      have hhead := hsum [] (row :: rows) rfl
      rw [List.map_cons, List.sum_cons, add_comm, ← suffixTable_headD] at hhead
      rw [suffixTableWide, htail, pure_bind, hvalue row List.mem_cons_self, pure_bind,
        narrow_of_abs hhead, pure_bind]
      rfl

namespace Encoded.Accepted

variable {model : Encoded} (h : model.Accepted)
include h

theorem contributionWide_eq {row : CostRow Int} (hrow : row ∈ model.costs) {c : Choice Int}
    (hc : c ∈ options row) :
    contributionWide model.threshold c = pure (contribution kScale model.threshold c) := by
  have hcost := h.cost_range hrow hc
  rcases h.abs_threshold_le with ⟨hthreshold, hrest⟩
  have hscale : kScale ≤ kFixedSafe := by decide
  unfold contributionWide contribution coefficient
  split
  · rw [narrow_of_abs (hrest.trans hscale), pure_bind, narrow_of_abs (abs_mul_le hrest hcost)]
  · have hneg : |-model.threshold| ≤ kScale := by rwa [abs_neg]
    rw [narrow_of_abs (hneg.trans hscale), pure_bind, narrow_of_abs (abs_mul_le hneg hcost)]

/-- The extremes of a row are those of its options. -/
theorem rowExtreme_min {row : CostRow Int} (hrow : row ∈ model.costs) :
    rowExtreme min int64Max Choice.cost row = rowBest min Choice.cost row := by
  refine rowExtreme_eq (h.available row hrow) fun c hc => min_eq_right ?_
  have hcost := (abs_le.1 (abs_le_of_scaled (h.cost_range hrow hc))).2
  exact hcost.trans (by decide)

theorem rowExtreme_max {row : CostRow Int} (hrow : row ∈ model.costs) :
    rowExtreme max (-int64Max - 1) (contribution kScale model.threshold) row =
      rowBest max (contribution kScale model.threshold) row := by
  refine rowExtreme_eq (h.available row hrow) fun c hc => max_eq_right ?_
  have hcontribution := h.contribution_ge hrow hc
  exact le_trans (by decide) hcontribution

theorem minSuffixWide_eq : minSuffixWide model.costs = pure (minSuffix model.costs) := by
  refine suffixTableWide_eq (fun row _ => rowExtremeWide_eq fun c _ => rfl) ?_
  intro done rest hsplit
  have hpart : ∀ row ∈ rest, row ∈ model.costs := fun row hrow =>
    hsplit ▸ List.mem_append_right _ hrow
  have hvalues : rest.map (rowExtreme min int64Max Choice.cost) =
      rest.map (rowBest min Choice.cost) :=
    List.map_congr_left fun row hrow => h.rowExtreme_min (hpart row hrow)
  rw [hvalues]
  have hrange := (h.suffix_range selective_min hsplit).1
  exact (abs_abs _).symm.le.trans (abs_le_of_scaled ⟨abs_nonneg _, hrange⟩)

theorem ratioMaxSuffixWide_eq :
    ratioMaxSuffixWide model.threshold model.costs =
      pure (ratioMaxSuffix model.threshold model.costs) := by
  refine suffixTableWide_eq (fun row hrow => rowExtremeWide_eq fun c hc =>
    h.contributionWide_eq hrow hc) ?_
  intro done rest hsplit
  have hpart : ∀ row ∈ rest, row ∈ model.costs := fun row hrow =>
    hsplit ▸ List.mem_append_right _ hrow
  have hvalues :
      rest.map (rowExtreme max (-int64Max - 1) (contribution kScale model.threshold)) =
        rest.map (rowBest max (contribution kScale model.threshold)) :=
    List.map_congr_left fun row hrow => h.rowExtreme_max (hpart row hrow)
  rw [hvalues]
  exact (h.suffix_range selective_max hsplit).2

end Encoded.Accepted

/-! ## A visit -/

/-- What the solver knows of its incumbent: nothing yet, or the sums of an assignment. -/
def Solver.Held (model : Encoded) (s : Solver) : Prop :=
  (s.bestC12 = 0 ∧ s.bestC3 = 0) ∨
    ∃ leaf, IsAssignment model.costs leaf ∧ s.bestC12 = c12 leaf ∧ s.bestC3 = c3 leaf

theorem pathRange_nil {threshold : Int} : PathRange threshold [] :=
  ⟨by decide, by decide, by decide, show |(0 : Int)| ≤ kFixedSafe by decide⟩

/-- The sums of the incumbent are those of a path in range. -/
theorem Solver.Held.range {model : Encoded} (h : model.Accepted) {s : Solver}
    (hs : s.Held model) :
    ∃ held, PathRange model.threshold held ∧ s.bestC12 = c12 held ∧ s.bestC3 = c3 held := by
  rcases hs with ⟨hc12, hc3⟩ | ⟨leaf, hleaf, hsums⟩
  · exact ⟨[], pathRange_nil, hc12, hc3⟩
  · exact ⟨leaf, h.assignment_range hleaf, hsums⟩

namespace PathRange

variable {threshold : Int} {path held : List (Choice Int)}

theorem abs_total (h : PathRange threshold path) : |Optimization.total path| ≤ kFixedSafe :=
  abs_le_of_scaled h.total

theorem abs_c12 (h : PathRange threshold path) : |Optimization.c12 path| ≤ kFixedSafe := by
  rw [abs_of_nonneg h.c12.1]
  exact h.c12.2.trans ((le_abs_self _).trans h.abs_total)

theorem abs_c3 (h : PathRange threshold path) : |Optimization.c3 path| ≤ kFixedSafe := by
  rw [abs_of_nonneg h.c3.1]
  exact h.c3.2.trans ((le_abs_self _).trans h.abs_total)

theorem total_narrow (h : PathRange threshold path) :
    narrow (Optimization.c12 path + Optimization.c3 path) = pure (Optimization.total path) := by
  rw [← total_eq, narrow_of_abs h.abs_total]

/-- The gap of a path is its linear value. -/
theorem gapWide_eq (h : PathRange threshold path) (hthreshold : |threshold| ≤ kScale) :
    Solver.gapWide threshold (Optimization.c12 path) (Optimization.total path) =
      pure (Optimization.linear kScale threshold path) := by
  have hsafe : kFixedSafe ≤ 2 ^ 126 := by decide
  have hc12 : 0 ≤ Optimization.c12 path ∧ Optimization.c12 path * kScale ≤ kFixedSafe := by
    refine ⟨h.c12.1, ?_⟩
    exact (mul_le_mul_of_nonneg_right h.c12.2 (by decide)).trans h.total.2
  have hscaled := abs_mul_le (f := kScale) (by decide) hc12
  rw [mul_comm] at hscaled
  have hshare := abs_mul_le hthreshold h.total
  unfold Solver.gapWide
  rw [wide_of_abs (hscaled.trans hsafe), pure_bind, wide_of_abs (hshare.trans hsafe), pure_bind,
    crossGap_eq, wide_of_abs (h.linear.trans hsafe)]

/-- A gap times a total fits in 128 bits. -/
theorem cross_narrow (h : PathRange threshold path) (hheld : PathRange threshold held) :
    wide (Optimization.linear kScale threshold path * Optimization.total held) =
      pure (Optimization.linear kScale threshold path * Optimization.total held) := by
  refine wide_of_abs ?_
  calc
    |Optimization.linear kScale threshold path * Optimization.total held|
        = |Optimization.linear kScale threshold path| * |Optimization.total held| := abs_mul _ _
    _ ≤ kFixedSafe * kFixedSafe :=
      mul_le_mul h.linear hheld.abs_total (abs_nonneg _) (by decide)
    _ ≤ 2 ^ 126 := by decide

end PathRange

section Visit

variable {model : Encoded} (h : model.Accepted) {done rest : List (CostRow Int)}
  {path : List (Choice Int)} {s : Solver}
include h

/-- No product of the tie-break overflows, for any path and any incumbent. -/
theorem betterTieWide_eq (hpath : PathRange model.threshold path) (hs : s.Held model)
    (current : List Int) :
    s.betterTieWide model.threshold (c12 path) (c3 path) current =
      pure (s.betterTie model.threshold (c12 path) (c3 path) current) := by
  rcases hs.range h with ⟨held, hheld, hc12, hc3⟩
  have hthreshold := h.abs_threshold_le.1
  unfold Solver.betterTieWide Solver.betterTie
  rw [hc12, hc3, hpath.total_narrow, pure_bind, hheld.total_narrow, pure_bind,
    hpath.gapWide_eq hthreshold, pure_bind, hheld.gapWide_eq hthreshold, pure_bind,
    hpath.cross_narrow hheld, pure_bind, hheld.cross_narrow hpath, pure_bind]
  simp only [← total_eq, crossGap_eq]

theorem leafWide_eq (hpath : PathRange model.threshold path) (hs : s.Held model)
    (current : List Int) :
    s.leafWide model.threshold (sumsOf model.threshold path) current =
      pure (s.leaf model.threshold (sumsOf model.threshold path) current) := by
  have htie := betterTieWide_eq h hpath hs current
  have himproves : s.improvesWide model.threshold (sumsOf model.threshold path) current =
      pure (decide ((sumsOf model.threshold path).cost < s.bestCost ∨
        ((sumsOf model.threshold path).cost = s.bestCost ∧
          s.betterTie model.threshold (c12 path) (c3 path) current = true))) := by
    unfold Solver.improvesWide
    by_cases hless : (sumsOf model.threshold path).cost < s.bestCost
    · rw [if_pos hless, decide_eq_true (Or.inl hless)]
    · rw [if_neg hless]
      by_cases hequal : (sumsOf model.threshold path).cost = s.bestCost
      · rw [if_pos hequal]
        refine htie.trans (congrArg pure ?_)
        simp [hequal]
      · rw [if_neg hequal]
        simp [hless, hequal]
  unfold Solver.leafWide Solver.leaf
  by_cases hstop : (sumsOf model.threshold path).linear < 0 ∨
      (sumsOf model.threshold path).c3 ≤ 0
  · rw [if_pos hstop, if_pos (by tauto)]
  · have htotal : narrow ((sumsOf model.threshold path).c12 + (sumsOf model.threshold path).c3) =
        pure ((sumsOf model.threshold path).c12 + (sumsOf model.threshold path).c3) :=
      hpath.total_narrow.trans (congrArg pure (total_eq path))
    rw [if_neg hstop, htotal, pure_bind]
    by_cases hzero : (sumsOf model.threshold path).c12 + (sumsOf model.threshold path).c3 ≤ 0
    · rw [if_pos hzero, if_pos (by tauto)]
    · rw [if_neg hzero, if_neg (by tauto), himproves, pure_bind]
      refine congrArg pure ?_
      simp only [decide_eq_true_eq]
      rfl

omit h in
theorem leaf_held (hpath : IsAssignment model.costs path) (hs : s.Held model)
    (current : List Int) :
    (s.leaf model.threshold (sumsOf model.threshold path) current).Held model := by
  unfold Solver.leaf
  split
  · exact hs
  · split
    · exact Or.inr ⟨path, hpath, rfl, rfl⟩
    · exact hs

/-- The sums of a node pass to a child without overflow. -/
theorem childWide_eq {row : CostRow Int} (hsplit : model.costs = done ++ row :: rest)
    (hpath : IsAssignment done path) {c : Choice Int} (hc : c ∈ options row) :
    (sumsOf model.threshold path).childWide model.threshold c =
      pure (sumsOf model.threshold (path ++ [c])) := by
  have hrow : row ∈ model.costs := by
    rw [hsplit]
    simp
  have hchild : PathRange model.threshold (path ++ [c]) := by
    have hsplit' : model.costs = (done ++ [row]) ++ rest := by
      rw [hsplit]
      simp
    refine h.path_range hsplit' ?_
    exact List.rel_append hpath (List.Forall₂.cons (mem_options.1 hc) List.Forall₂.nil)
  have hcost := h.cost_range hrow hc
  rcases h.abs_threshold_le with ⟨hthreshold, hrest⟩
  have hscale : kScale ≤ kFixedSafe := by decide
  have hsums := child_sumsOf model.threshold path c
  have htotal := hchild.abs_total
  have hlinear := hchild.linear
  have habs12 := hchild.abs_c12
  have habs3 := hchild.abs_c3
  unfold Sums.childWide
  unfold Sums.child at hsums
  -- Either branch adds to three sums and multiplies once.
  by_cases hmethod : c.method < 2
  · rw [if_pos hmethod] at hsums
    rw [if_pos hmethod, ← hsums]
    have hfields := Sums.mk.inj hsums
    rw [← hfields.1] at htotal
    rw [← hfields.2.1] at habs12
    rw [← hfields.2.2.2] at hlinear
    rw [narrow_of_abs htotal, pure_bind, narrow_of_abs habs12, pure_bind,
      narrow_of_abs (hrest.trans hscale), pure_bind, narrow_of_abs (abs_mul_le hrest hcost),
      pure_bind, narrow_of_abs hlinear, pure_bind]
  · rw [if_neg hmethod] at hsums
    rw [if_neg hmethod, ← hsums]
    have hfields := Sums.mk.inj hsums
    rw [← hfields.1] at htotal
    rw [← hfields.2.2.1] at habs3
    rw [← hfields.2.2.2] at hlinear
    rw [narrow_of_abs htotal, pure_bind, narrow_of_abs habs3, pure_bind,
      narrow_of_abs (abs_mul_le hthreshold hcost), pure_bind, narrow_of_abs hlinear, pure_bind]

theorem cutsWide_eq (hsplit : model.costs = done ++ rest) (hpath : IsAssignment done path)
    (s : Solver) :
    s.cutsWide (sumsOf model.threshold path) ((minSuffix model.costs).getD done.length 0)
        ((ratioMaxSuffix model.threshold model.costs).getD done.length 0) =
      pure (s.cuts (sumsOf model.threshold path) ((minSuffix model.costs).getD done.length 0)
        ((ratioMaxSuffix model.threshold model.costs).getD done.length 0)) := by
  rcases visit_in_range h hsplit hpath with ⟨hcost, hlinear⟩
  rw [h.minSuffix_getD hsplit, h.ratioMaxSuffix_getD hsplit]
  have hminimum := abs_le_of_scaled ⟨abs_nonneg _, hcost⟩
  rw [abs_abs] at hminimum
  have hsafe : kFixedSafe ≤ 2 ^ 126 := by decide
  -- The first cut adds to the cost only when there is an incumbent.
  have hcostCut : s.costCutWide (sumsOf model.threshold path) (suffix min Choice.cost rest) =
      pure (decide (s.bestCost ≠ int64Max ∧
        s.bestCost < (sumsOf model.threshold path).cost + suffix min Choice.cost rest)) := by
    unfold Solver.costCutWide
    by_cases hne : s.bestCost ≠ int64Max
    · have hsum : narrow ((sumsOf model.threshold path).cost + suffix min Choice.cost rest) =
          pure ((sumsOf model.threshold path).cost + suffix min Choice.cost rest) :=
        narrow_of_abs hminimum
      rw [if_pos hne, hsum, pure_bind]
      simp [hne]
    · rw [if_neg hne]
      simp [hne]
  have hbound : wide ((sumsOf model.threshold path).linear +
        suffix max (contribution kScale model.threshold) rest) =
      pure ((sumsOf model.threshold path).linear +
        suffix max (contribution kScale model.threshold) rest) :=
    wide_of_abs (hlinear.trans hsafe)
  unfold Solver.cutsWide Solver.cuts
  rw [hcostCut, pure_bind]
  cases decide (s.bestCost ≠ int64Max ∧
      s.bestCost < (sumsOf model.threshold path).cost + suffix min Choice.cost rest) with
  | true => rfl
  | false =>
      rw [if_neg (by decide), hbound, pure_bind, Bool.false_or]

/-- A visit computes within its types, whatever path leads to it and whatever the solver holds. -/
theorem visitWide_eq (rest : List (CostRow Int)) : ∀ {done : List (CostRow Int)}
    {path : List (Choice Int)} {s : Solver}, model.costs = done ++ rest →
    IsAssignment done path → s.Held model →
    Solver.visitWide model (minSuffix model.costs) (ratioMaxSuffix model.threshold model.costs)
        rest done.length (sumsOf model.threshold path) (solutionOf path) s =
      pure (Solver.visit model rest done.length (sumsOf model.threshold path) (solutionOf path)
        s) ∧
    (Solver.visit model rest done.length (sumsOf model.threshold path) (solutionOf path) s).Held
      model := by
  induction rest with
  | nil =>
      intro done path s hsplit hpath hs
      have hassignment : IsAssignment model.costs path := by
        rw [hsplit, List.append_nil]
        exact hpath
      have hentered : s.enter.Held model := hs
      rw [Solver.visitWide, Solver.visit, cutsWide_eq h hsplit hpath, pure_bind]
      split
      · exact ⟨rfl, hentered⟩
      · exact ⟨leafWide_eq h (h.assignment_range hassignment) hentered _,
          leaf_held hassignment hentered _⟩
  | cons row rest ih =>
      intro done path s hsplit hpath hs
      have hentered : s.enter.Held model := hs
      rw [Solver.visitWide, Solver.visit, cutsWide_eq h hsplit hpath, pure_bind]
      split
      · exact ⟨rfl, hentered⟩
      · -- The incumbent stays in range from one option of the row to the next.
        refine foldlM_pure (I := Solver.Held model) ?_ hentered
        intro c hc t ht
        have hchild : IsAssignment (done ++ [row]) (path ++ [c]) :=
          List.rel_append hpath (List.Forall₂.cons (mem_options.1 hc) List.Forall₂.nil)
        have hstep := ih (by rw [hsplit]; simp) hchild ht
        rw [List.length_append, List.length_singleton] at hstep
        have hsolution : solutionOf (path ++ [c]) = solutionOf path ++ [methodNumber c.method] := by
          simp [solutionOf]
        rw [hsolution] at hstep
        rw [childWide_eq h hsplit hpath hc, pure_bind, child_sumsOf]
        exact hstep

theorem runWide_eq : Solver.runWide model = pure (Solver.run model) := by
  have hstart : Solver.Held model {} := Or.inl ⟨rfl, rfl⟩
  unfold Solver.runWide
  rw [h.minSuffixWide_eq, pure_bind, h.ratioMaxSuffixWide_eq, pure_bind]
  exact (visitWide_eq h model.costs rfl List.Forall₂.nil hstart).1

end Visit

/-! ## The guard itself -/

/-- The guard is computed in 128 bits, where two to the power of 40 rows fit. -/
def kMaxRows : Nat := 2 ^ 40

theorem parseFixedPoint_le {input : Bytes} {threshold : Bool} {value : Int}
    (h : parseFixedPoint input threshold = .ok value) : value ≤ kFixedSafe := by
  rcases bind_eq_ok.1 h with ⟨_, _, h⟩
  rcases bind_eq_ok.1 h with ⟨_, _, h⟩
  rcases bind_eq_ok.1 h with ⟨_, _, h⟩
  rcases bind_eq_ok.1 h with ⟨_, _, h⟩
  rcases bind_eq_ok.1 h with ⟨_, _, h⟩
  rcases bind_eq_ok.1 h with ⟨_, hwhole, h⟩
  rcases bind_eq_ok.1 h with ⟨_, _, h⟩
  cases h
  rw [ensure_eq_ok, Int.le_ediv_iff_mul_le (by decide)] at hwhole
  omega

theorem decimalCell_le {cell : Option Bytes} {value : Option Int}
    (h : decimalCell cell = .ok value) : ∀ x, value = some x → x ≤ kFixedSafe := by
  cases cell with
  | none =>
      cases h
      intro x hx
      cases hx
  | some text =>
      rcases bind_eq_ok.1 h with ⟨parsed, hparsed, hvalue⟩
      cases hvalue
      rintro x ⟨⟩
      exact parseFixedPoint_le hparsed

theorem rowMax_le_of {row : CostRow Int} {bound : Int} (hbound : 0 ≤ bound)
    (h : ∀ c ∈ options row, c.cost ≤ bound) : rowMax row ≤ bound := by
  refine List.foldlRecOn (motive := fun largest => largest ≤ bound) _ _ hbound ?_
  intro largest hlargest c hc
  exact max_le hlargest (h c hc)

theorem encodeRow_rowMax_le {row : CostRow Bytes} {encoded : CostRow Int}
    (h : encodeRow row = .ok encoded) : rowMax encoded ≤ kFixedSafe := by
  rcases bind_eq_ok.1 h with ⟨first, hfirst, h⟩
  rcases bind_eq_ok.1 h with ⟨second, hsecond, h⟩
  rcases bind_eq_ok.1 h with ⟨third, hthird, h⟩
  rcases bind_eq_ok.1 h with ⟨_, _, h⟩
  cases h
  refine rowMax_le_of (by decide) ?_
  rintro ⟨m, x⟩ hc
  have hx := mem_options.1 hc
  match m with
  | 0 => exact decimalCell_le hfirst x hx
  | 1 => exact decimalCell_le hsecond x hx
  | 2 => exact decimalCell_le hthird x hx

/-- The sum of the row maxima does not overflow while it grows. -/
theorem encodeRowsWide_eq (rows : List (CostRow Bytes)) : ∀ {maxTotal : Int}, 0 ≤ maxTotal →
    maxTotal + rows.length * kFixedSafe ≤ 2 ^ 126 →
    encodeRowsWide rows maxTotal = within (do
      let costs ← rows.mapM encodeRow
      return (costs, maxTotal + (costs.map rowMax).sum)) := by
  induction rows with
  | nil =>
      intro maxTotal _ _
      rw [List.mapM_nil, pure_bind, List.map_nil, List.sum_nil, add_zero]
      rfl
  | cons row rows ih =>
      intro maxTotal hnonneg hroom
      rw [encodeRowsWide, List.mapM_cons, bind_assoc]
      cases hrow : encodeRow row with
      | error e => rfl
      | ok encoded =>
          -- Each row adds at most the safe bound, for which `hroom` leaves room.
          have hmax := encodeRow_rowMax_le hrow
          have hpositive := rowMax_nonneg encoded
          have hsplit : ((row :: rows).length : Int) * kFixedSafe =
              rows.length * kFixedSafe + kFixedSafe := by
            rw [List.length_cons]
            push_cast
            ring
          have hcount : 0 ≤ (rows.length : Int) * kFixedSafe :=
            mul_nonneg (Int.natCast_nonneg _) (by decide)
          rw [hsplit] at hroom
          have hwide : |maxTotal + rowMax encoded| ≤ 2 ^ 126 := by
            rw [abs_of_nonneg (by omega)]
            linarith
          rw [within_ok, pure_bind, wide_of_abs hwide, pure_bind, ih (by omega) (by linarith)]
          cases rows.mapM encodeRow with
          | error e => rfl
          | ok costs =>
              refine congrArg (fun total : Int => within (Except.ok (encoded :: costs, total))) ?_
              rw [List.map_cons, List.sum_cons, add_assoc]

theorem validateAggregateWide_eq {maxTotal : Int} (h : 0 ≤ maxTotal ∧ maxTotal ≤ 2 ^ 100) :
    validateAggregateWide maxTotal = within (validateAggregate maxTotal) := by
  have hscaled : |maxTotal * kScale| ≤ 2 ^ 126 := by
    unfold kScale
    rw [abs_of_nonneg (by omega)]
    omega
  have hsign : ensure (0 ≤ maxTotal) (Error.outOfRange "aggregate fixed-point range exceeded") =
      .ok ⟨⟩ := ensure_eq_ok.2 h.1
  unfold validateAggregateWide validateAggregate
  rw [hsign, within_ok, pure_bind, wide_of_abs hscaled, pure_bind]
  refine congrArg within ?_
  unfold ensure
  simp only [h.1, true_and]

theorem sum_rowMax_le {rows : List (CostRow Bytes)} {costs : List (CostRow Int)}
    (h : List.Forall₂ (fun row encoded => encodeRow row = .ok encoded) rows costs) :
    0 ≤ (costs.map rowMax).sum ∧ (costs.map rowMax).sum ≤ rows.length * kFixedSafe := by
  induction h with
  | nil => exact ⟨le_rfl, by simp⟩
  | @cons row encoded rows costs hrow _ ih =>
      have hmax := encodeRow_rowMax_le hrow
      have hpositive := rowMax_nonneg encoded
      rw [List.map_cons, List.sum_cons, List.length_cons]
      push_cast
      rw [add_mul, one_mul]
      omega

/-- With at most `kMaxRows` rows the sum stays far below the limit of 128 bits. -/
theorem rows_room {matrix : CostMatrix} (hrows : matrix.length ≤ kMaxRows) :
    (matrix.length : Int) * kFixedSafe ≤ 2 ^ 100 := by
  calc
    (matrix.length : Int) * kFixedSafe ≤ 2 ^ 40 * kFixedSafe := by
      refine mul_le_mul_of_nonneg_right ?_ (by decide)
      exact_mod_cast hrows
    _ ≤ 2 ^ 100 := by decide

theorem aggregateWide_eq {matrix : CostMatrix} (hrows : matrix.length ≤ kMaxRows)
    {costs : List (CostRow Int)} (hcosts : matrix.mapM encodeRow = .ok costs) :
    validateAggregateWide (0 + (costs.map rowMax).sum) =
      within (validateAggregate (costs.map rowMax).sum) := by
  rcases sum_rowMax_le (mapM_eq_ok hcosts) with ⟨hnonneg, hsum⟩
  rw [zero_add]
  exact validateAggregateWide_eq ⟨hnonneg, hsum.trans (rows_room hrows)⟩

theorem matrixWide_eq {matrix : CostMatrix} (hrows : matrix.length ≤ kMaxRows) :
    encodeRowsWide matrix 0 = within (do
      let costs ← matrix.mapM encodeRow
      return (costs, 0 + (costs.map rowMax).sum)) := by
  refine encodeRowsWide_eq matrix le_rfl ?_
  rw [zero_add]
  exact (rows_room hrows).trans (by decide)

/-- `encode` computes its guard within 128 bits, so it accepts what it is meant to accept. -/
theorem encodeWide_eq {matrix : CostMatrix} (hrows : matrix.length ≤ kMaxRows)
    (threshold : Bytes) : encodeWide matrix threshold = within (encode matrix threshold) := by
  unfold encodeWide encode
  rw [matrixWide_eq hrows]
  cases ensure (matrix ≠ []) (Error.invalid "cost matrix must not be empty") with
  | error e => rfl
  | ok _ =>
      cases parseFixedPoint threshold true with
      | error e => rfl
      | ok thresholdValue =>
          cases hcosts : matrix.mapM encodeRow with
          | error e => rfl
          | ok costs =>
              change (validateAggregateWide (0 + (costs.map rowMax).sum) >>= fun _ =>
                  pure (Encoded.mk costs thresholdValue)) =
                within (validateAggregate (costs.map rowMax).sum >>= fun _ =>
                  pure (Encoded.mk costs thresholdValue))
              rw [aggregateWide_eq hrows hcosts, within_bind]
              rfl

/-! ## The solver on an accepted model -/

/-- The checked solver computes what the plain one computes: its tables, a visit on any branch with
any incumbent, the update at any assignment, and the whole run. -/
structure SolverExact (model : Encoded) : Prop where
  minSuffix : minSuffixWide model.costs = pure (minSuffix model.costs)
  ratioMaxSuffix : ratioMaxSuffixWide model.threshold model.costs =
    pure (ratioMaxSuffix model.threshold model.costs)
  visit : ∀ {done rest : List (CostRow Int)} {path : List (Choice Int)} {s : Solver},
    model.costs = done ++ rest → IsAssignment done path → s.Held model →
    Solver.visitWide model (Optimization.minSuffix model.costs)
        (Optimization.ratioMaxSuffix model.threshold model.costs) rest done.length
        (sumsOf model.threshold path) (solutionOf path) s =
      pure (Solver.visit model rest done.length (sumsOf model.threshold path) (solutionOf path) s)
  leaf : ∀ {path : List (Choice Int)} {s : Solver} (current : List Int),
    IsAssignment model.costs path → s.Held model →
    s.leafWide model.threshold (sumsOf model.threshold path) current =
      pure (s.leaf model.threshold (sumsOf model.threshold path) current)
  betterTie : ∀ {path : List (Choice Int)} {s : Solver} (current : List Int),
    IsAssignment model.costs path → s.Held model →
    s.betterTieWide model.threshold (c12 path) (c3 path) current =
      pure (s.betterTie model.threshold (c12 path) (c3 path) current)
  run : Solver.runWide model = pure (Solver.run model)

theorem solverExact_of_accepted {model : Encoded} (h : model.Accepted) : SolverExact model where
  minSuffix := h.minSuffixWide_eq
  ratioMaxSuffix := h.ratioMaxSuffixWide_eq
  visit := fun hsplit hpath hs => (visitWide_eq h _ hsplit hpath hs).1
  leaf := fun current hpath hs => leafWide_eq h (h.assignment_range hpath) hs current
  betterTie := fun current hpath hs => betterTieWide_eq h (h.assignment_range hpath) hs current
  run := runWide_eq h

end Optimization
end SociSgx

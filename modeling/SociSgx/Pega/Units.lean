import SociSgx.Pega.RepairRefines
import SociSgx.Pega.Elite

/-!
# Units — the same request in other units

The two optimizers may count costs in different units, and each has its own scale for the threshold.
Sums and changes are then multiplied by constants.  No comparison of the repair depends on them, and
no comparison of two individuals of which one is feasible.  The penalties are not multiples of each
other, so that two infeasible individuals may be ordered in another way.
-/

namespace SociSgx
namespace Optimization

open Exec Scalable Scalable.Evaluator

/-- The choice in a unit that is `unit` times smaller. -/
def Choice.inUnits (unit : Int) (c : Choice Int) : Choice Int :=
  ⟨c.method, unit * c.cost⟩

/-- A row in a unit that is `unit` times smaller. -/
def rowInUnits (unit : Int) (row : CostRow Int) : CostRow Int := fun m =>
  (row m).map fun cost => unit * cost

theorem options_inUnits (unit : Int) (row : CostRow Int) :
    options (rowInUnits unit row) = (options row).map (Choice.inUnits unit) := by
  unfold options
  rw [List.map_filterMap]
  refine congrArg (fun f => List.filterMap f _) (funext fun m => ?_)
  unfold rowInUnits
  cases row m <;> rfl

theorem chosen_inUnits (unit : Int) (row : CostRow Int) (m : Method) :
    chosen (rowInUnits unit row) m = (chosen row m).inUnits unit := by
  unfold chosen rowInUnits Choice.inUnits
  cases row m with
  | none => exact congrArg (Choice.mk m) (mul_zero unit).symm
  | some cost => rfl

/-! ## Methods -/

theorem methods_inUnits (unit : Int) (row : CostRow Int) :
    (options (rowInUnits unit row)).map Choice.method = (options row).map Choice.method := by
  rw [options_inUnits, List.map_map]
  rfl

theorem options_length_inUnits (unit : Int) (row : CostRow Int) :
    (options (rowInUnits unit row)).length = (options row).length := by
  rw [options_inUnits, List.length_map]

theorem randomGene_inUnits (unit : Int) (row : CostRow Int) (draws : Nat → UInt64) :
    randomGene draws (rowInUnits unit row) = randomGene draws row := by
  unfold randomGene
  rw [methods_inUnits, options_length_inUnits]

theorem mutateGene_inUnits (unit : Int) (row : CostRow Int) (draws : Nat → UInt64) (rate : Rate)
    (gene : Method) :
    mutateGene draws rate (rowInUnits unit row) gene = mutateGene draws rate row gene := by
  unfold mutateGene
  rw [methods_inUnits]

theorem cheapestGene_inUnits {unit : Int} (hunit : 0 < unit) (row : CostRow Int) :
    cheapestGene (rowInUnits unit row) = cheapestGene row := by
  unfold cheapestGene
  rw [options_inUnits]
  generalize options row = choices
  cases choices with
  | nil => rfl
  | cons first rest =>
      rw [List.map_cons, List.tail_cons, List.headD_cons, List.tail_cons, List.headD_cons,
        List.foldl_map]
      have hfold : rest.foldl (fun least c =>
          if (c.inUnits unit).cost < least.cost then c.inUnits unit else least)
          (first.inUnits unit) = (rest.foldl (fun least c =>
            if c.cost < least.cost then c else least) first).inUnits unit := by
        refine List.foldl_hom (Choice.inUnits unit) fun least c => ?_
        have hless : (c.inUnits unit).cost < (least.inUnits unit).cost ↔ c.cost < least.cost :=
          mul_lt_mul_iff_right₀ hunit
        simp only [hless]
        exact (apply_ite (Choice.inUnits unit) _ _ _).symm
      exact (congrArg Choice.method hfold).trans rfl

namespace Plain

/-- `p'` is `p` with costs in another unit, and with another scale for the same threshold. -/
structure Rescaled (p p' : Plain) (unit : Int) : Prop where
  costs : p'.costs = p.costs.map (rowInUnits unit)
  threshold : p'.threshold * p.scale = p.threshold * p'.scale
  config : p'.config = p.config
  unit_pos : 0 < unit
  scale_pos : 0 < p.scale
  scale_pos' : 0 < p'.scale

/-- A linear value in the other units: `linear' = linear * unit * scale' / scale`. -/
def LinearInUnits (p p' : Plain) (unit linear linear' : Int) : Prop :=
  linear' * p.scale = linear * (unit * p'.scale)

variable {p p' : Plain} {unit : Int} (h : Rescaled p p' unit)
include h

theorem Rescaled.factor_pos : 0 < unit * p'.scale :=
  mul_pos h.unit_pos h.scale_pos'

/-- The sign of a linear value is the same in all units. -/
theorem Rescaled.linear_nonneg {l l' : Int} (hl : LinearInUnits p p' unit l l') :
    0 ≤ l' ↔ 0 ≤ l := by
  rw [← mul_nonneg_iff_of_pos_right h.scale_pos, hl, mul_nonneg_iff_of_pos_right h.factor_pos]

theorem Rescaled.linear_pos {l l' : Int} (hl : LinearInUnits p p' unit l l') :
    0 < l' ↔ 0 < l := by
  rw [← mul_pos_iff_of_pos_right h.scale_pos, hl, mul_pos_iff_of_pos_right h.factor_pos]

omit h in
theorem product_inUnits (a : Int) {k k' : Int} (hk : LinearInUnits p p' unit k k') :
    unit * a * k' * p.scale = a * k * (unit * (unit * p'.scale)) := by
  rw [mul_assoc (unit * a), hk]
  ring

/-- Products of costs and linear values compare in all units alike. -/
theorem Rescaled.product_lt {a b k l k' l' : Int} (hk : LinearInUnits p p' unit k k')
    (hl : LinearInUnits p p' unit l l') : unit * a * k' < unit * b * l' ↔ a * k < b * l := by
  rw [← mul_lt_mul_iff_left₀ h.scale_pos, product_inUnits a hk, product_inUnits b hl,
    mul_lt_mul_iff_left₀ (mul_pos h.unit_pos h.factor_pos)]

theorem Rescaled.product_eq {a b k l k' l' : Int} (hk : LinearInUnits p p' unit k k')
    (hl : LinearInUnits p p' unit l l') : unit * a * k' = unit * b * l' ↔ a * k = b * l := by
  rw [← mul_left_inj' h.scale_pos.ne', product_inUnits a hk, product_inUnits b hl,
    mul_left_inj' (mul_pos h.unit_pos h.factor_pos).ne']

theorem Rescaled.cost_lt {a b : Int} : unit * a < unit * b ↔ a < b :=
  mul_lt_mul_iff_right₀ h.unit_pos

/-! ## Sums -/

theorem Rescaled.available {genes : List Method} :
    Available p'.model genes ↔ Available p.model genes := by
  change List.Forall₂ (fun row method => (row method).isSome = true) p'.costs genes ↔ _
  rw [h.costs, List.forall₂_map_left_iff]
  refine Iff.of_eq (congrArg (fun R => List.Forall₂ R p.costs genes) ?_)
  funext row method
  exact congrArg (· = true) Option.isSome_map

theorem Rescaled.positive (hpositive : p.Positive) : p'.Positive := by
  intro row hrow c hc
  rw [h.costs] at hrow
  rcases List.mem_map.1 hrow with ⟨source, hsource, rfl⟩
  rw [options_inUnits] at hc
  rcases List.mem_map.1 hc with ⟨d, hd, rfl⟩
  exact mul_pos h.unit_pos (hpositive source hsource d hd)

theorem Rescaled.choosable (hchoosable : ∀ row ∈ p.costs, options row ≠ []) :
    ∀ row ∈ p'.costs, options row ≠ [] := by
  intro row hrow hnil
  rw [h.costs] at hrow
  rcases List.mem_map.1 hrow with ⟨source, hsource, rfl⟩
  rw [options_inUnits, List.map_eq_nil_iff] at hnil
  exact hchoosable source hsource hnil

theorem Rescaled.contribution (c : Choice Int) :
    LinearInUnits p p' unit (contribution p.scale p.threshold c)
      (contribution p'.scale p'.threshold (c.inUnits unit)) := by
  have hthreshold := h.threshold
  unfold LinearInUnits Optimization.contribution coefficient Choice.inUnits
  dsimp only
  split
  · linear_combination (-unit * c.cost) * hthreshold
  · linear_combination (-unit * c.cost) * hthreshold

/-- Sums in the other units; `c12` is compared nowhere. -/
structure SumsInUnits (p p' : Plain) (unit : Int) (s s' : Scalable.Sums) : Prop where
  total : s'.total = unit * s.total
  c3 : s'.c3 = unit * s.c3
  linear : LinearInUnits p p' unit s.linear s'.linear

omit h in
theorem SumsInUnits.add {s s' t t' : Scalable.Sums} (hs : SumsInUnits p p' unit s s')
    (ht : SumsInUnits p p' unit t t') : SumsInUnits p p' unit (s + t) (s' + t') where
  total := by rw [Scalable.Sums.add_total, hs.total, ht.total, ← mul_add]; rfl
  c3 := by rw [Scalable.Sums.add_c3, hs.c3, ht.c3, ← mul_add]; rfl
  linear := by
    have hleft : s'.linear * p.scale = s.linear * (unit * p'.scale) := hs.linear
    have hright : t'.linear * p.scale = t.linear * (unit * p'.scale) := ht.linear
    change (s'.linear + t'.linear) * p.scale = (s.linear + t.linear) * (unit * p'.scale)
    rw [add_mul, add_mul, hleft, hright]

theorem Rescaled.part (c : Choice Int) :
    SumsInUnits p p' unit (p.part c) (p'.part (c.inUnits unit)) := by
  refine ⟨rfl, ?_, h.contribution c⟩
  unfold Plain.part Choice.inUnits
  dsimp only
  split
  · exact (mul_zero unit).symm
  · rfl

theorem Rescaled.sums (genes : List Method) :
    SumsInUnits p p' unit (p.sums genes) (p'.sums genes) := by
  rw [p.sums_eq, p'.sums_eq, h.costs]
  generalize p.costs = rows
  induction rows generalizing genes with
  | nil => exact ⟨(mul_zero unit).symm, (mul_zero unit).symm, (zero_mul _).trans (zero_mul _).symm⟩
  | cons row rows ih =>
      cases genes with
      | nil =>
          exact ⟨(mul_zero unit).symm, (mul_zero unit).symm, (zero_mul _).trans (zero_mul _).symm⟩
      | cons gene genes =>
          rw [List.map_cons, List.zipWith_cons_cons, List.zipWith_cons_cons, List.sum_cons,
            List.sum_cons]
          refine SumsInUnits.add ?_ (ih genes)
          unfold geneSums
          rw [chosen_inUnits]
          exact h.part _

theorem Rescaled.isFeasible (genes : List Method) :
    isFeasible (p'.sums genes) = isFeasible (p.sums genes) := by
  have hsums := h.sums genes
  unfold Plain.isFeasible
  rw [hsums.total, hsums.c3]
  simp only [h.linear_nonneg hsums.linear, mul_pos_iff_of_pos_left h.unit_pos]

theorem Rescaled.missing (genes : List Method) :
    missing (p'.sums genes) = missing (p.sums genes) := by
  unfold Plain.missing
  rw [(h.sums genes).c3]
  simp only [mul_pos_iff_of_pos_left h.unit_pos]

/-! ## The scan -/

/-- The same item of a scan with its row in the other units. -/
def RowGene.inUnits (unit : Int) (item : RowGene) : RowGene :=
  ((rowInUnits unit item.1.1, item.1.2), item.2)

theorem Rescaled.rowGenes (genes : List Method) :
    p'.rowGenes genes = (p.rowGenes genes).map (RowGene.inUnits unit) := by
  unfold Plain.rowGenes
  rw [h.costs, List.zip_map_left, List.zipIdx_map]
  rfl

omit h in
theorem deltaCost_inUnits (item : RowGene) (c : Choice Int) :
    deltaCost (item.inUnits unit) (c.inUnits unit) = unit * deltaCost item c := by
  unfold deltaCost RowGene.inUnits
  rw [chosen_inUnits]
  exact (mul_sub unit _ _).symm

theorem Rescaled.deltaLinear (item : RowGene) (c : Choice Int) :
    LinearInUnits p p' unit (p.deltaLinear item c)
      (p'.deltaLinear (item.inUnits unit) (c.inUnits unit)) := by
  have hnew := h.contribution c
  have hold := h.contribution (chosen item.1.1 item.1.2)
  unfold LinearInUnits at hnew hold ⊢
  unfold Plain.deltaLinear RowGene.inUnits
  rw [chosen_inUnits, sub_mul, sub_mul, hnew, hold]

theorem Rescaled.validTarget (needMethod3 : Bool) (count : Int) (item : RowGene)
    (c : Choice Int) :
    p'.validTarget needMethod3 count (item.inUnits unit) (c.inUnits unit) =
      p.validTarget needMethod3 count item c := by
  unfold Plain.validTarget
  simp only [h.linear_pos (h.deltaLinear item c)]
  rfl

/-- What two scans in different units keep; the linear change of the best method 3 decides
nothing. -/
structure ScanInUnits (p p' : Plain) (unit : Int) (s s' : Scan) : Prop where
  selectedCost : s'.selectedCost = unit * s.selectedCost
  selectedLinear : LinearInUnits p p' unit s.selectedLinear s'.selectedLinear
  selectedId : s'.selectedId = s.selectedId
  haveSelected : s'.haveSelected = s.haveSelected
  best3Cost : s'.best3Cost = unit * s.best3Cost
  best3Id : s'.best3Id = s.best3Id
  have3 : s'.have3 = s.have3

theorem Rescaled.keepMethod3 {s s' : Scan} (hs : ScanInUnits p p' unit s s') (item : RowGene)
    (c : Choice Int) :
    ScanInUnits p p' unit (p.keepMethod3 item c s)
      (p'.keepMethod3 (item.inUnits unit) (c.inUnits unit) s') := by
  have hreplace : (!s'.have3 ||
      decide (deltaCost (item.inUnits unit) (c.inUnits unit) < s'.best3Cost)) =
      (!s.have3 || decide (deltaCost item c < s.best3Cost)) := by
    rw [hs.have3, hs.best3Cost, deltaCost_inUnits]
    simp only [h.cost_lt]
  unfold Plain.keepMethod3
  dsimp only
  rw [hreplace]
  cases (!s.have3 || decide (deltaCost item c < s.best3Cost)) with
  | false => exact { hs with have3 := congrArg (· || false) hs.have3 }
  | true =>
      exact { hs with
        best3Cost := deltaCost_inUnits item c
        best3Id := rfl
        have3 := congrArg (· || true) hs.have3 }

theorem Rescaled.keepSelected {s s' : Scan} (hs : ScanInUnits p p' unit s s') (valid : Bool)
    (item : RowGene) (c : Choice Int) :
    ScanInUnits p p' unit (p.keepSelected valid item c s)
      (p'.keepSelected valid (item.inUnits unit) (c.inUnits unit) s') := by
  have hreplace : (valid && (!s'.haveSelected ||
      decide (deltaCost (item.inUnits unit) (c.inUnits unit) * s'.selectedLinear <
        s'.selectedCost * p'.deltaLinear (item.inUnits unit) (c.inUnits unit)))) =
      (valid && (!s.haveSelected || decide (deltaCost item c * s.selectedLinear <
        s.selectedCost * p.deltaLinear item c))) := by
    rw [hs.haveSelected, hs.selectedCost, deltaCost_inUnits]
    simp only [h.product_lt hs.selectedLinear (h.deltaLinear item c)]
  unfold Plain.keepSelected
  dsimp only
  rw [hreplace]
  cases (valid && (!s.haveSelected || decide (deltaCost item c * s.selectedLinear <
      s.selectedCost * p.deltaLinear item c))) with
  | false => exact { hs with haveSelected := congrArg (· || valid) hs.haveSelected }
  | true =>
      exact { hs with
        selectedCost := deltaCost_inUnits item c
        selectedLinear := h.deltaLinear item c
        selectedId := rfl
        haveSelected := congrArg (· || valid) hs.haveSelected }

/-- A scan of the rows keeps the same targets in all units. -/
theorem Rescaled.scanRows (needMethod3 : Bool) (genes : List Method) :
    ScanInUnits p p' unit (p.scanRows needMethod3 genes) (p'.scanRows needMethod3 genes) := by
  have hzero : LinearInUnits p p' unit 0 0 := (zero_mul _).trans (zero_mul _).symm
  have hcost : (0 : Int) = unit * 0 := (mul_zero unit).symm
  unfold Plain.scanRows
  rw [h.rowGenes, List.foldl_map]
  refine List.foldl_rel ⟨hcost, hzero, rfl, rfl, hcost, rfl, rfl⟩ fun item _ s s' hs => ?_
  change ScanInUnits p p' unit _ ((options (rowInUnits unit item.1.1)).foldl _ s')
  rw [options_inUnits, List.foldl_map]
  refine List.foldl_rel hs fun c _ s s' hs => ?_
  unfold scanTarget
  rw [h.validTarget]
  refine h.keepSelected ?_ _ item c
  change ScanInUnits p p' unit _ (if c.method ≠ 2 then s' else _)
  split
  · exact hs
  · exact h.keepMethod3 hs item c

/-! ## The repair -/

theorem Rescaled.findTarget (genes : List Method) :
    p'.findTarget (p'.individual genes) = p.findTarget (p.individual genes) := by
  have hmissing : Plain.missing (p'.individual genes).toSums =
      Plain.missing (p.individual genes).toSums :=
    h.missing genes
  have hfeasible : (p'.individual genes).feasible = (p.individual genes).feasible :=
    h.isFeasible genes
  unfold Plain.findTarget
  rw [hmissing, hfeasible]
  have hscan := h.scanRows (Plain.missing (p.individual genes).toSums) genes
  change (if _ then (p'.scanRows _ genes).best3Id else (p'.scanRows _ genes).selectedId,
    !_ && ((p'.scanRows _ genes).haveSelected || (_ && (p'.scanRows _ genes).have3))) = _
  rw [hscan.best3Id, hscan.selectedId, hscan.haveSelected, hscan.have3]
  rfl

theorem Rescaled.applyTargets (target : Int × Bool) (genes : List Method) :
    p'.applyTargets target genes = p.applyTargets target genes := by
  unfold Plain.applyTargets
  rw [h.rowGenes, List.map_map]
  refine List.map_congr_left fun item _ => ?_
  change (options (rowInUnits unit item.1.1)).foldl _ item.1.2 = _
  rw [options_inUnits, List.foldl_map]
  rfl

omit h in
variable (p) in
/-- A round on method vectors. -/
def roundGenes (genes : List Method) : List Method :=
  p.applyTargets (p.findTarget (p.individual genes)) genes

theorem Rescaled.roundGenes : p'.roundGenes = p.roundGenes := by
  funext genes
  unfold Plain.roundGenes
  rw [h.findTarget, h.applyTargets]

omit h in
variable (p) in
theorem repair_roundGenes (genes : List Method) :
    p.repair (p.individual genes) = p.individual (p.roundGenes^[p.rounds] genes) := by
  have hround : Function.Semiconj p.individual p.roundGenes p.repairRound := fun _ => rfl
  exact ((hround.iterate_right p.rounds) genes).symm

/-- The repair ends with the same method vector in all units. -/
theorem Rescaled.repair (genes : List Method) :
    (p'.repair (p'.individual genes)).genes = (p.repair (p.individual genes)).genes := by
  have hrounds : p'.rounds = p.rounds := by
    unfold Plain.rounds
    rw [h.config, h.costs, List.length_map]
  rw [repair_roundGenes, repair_roundGenes, h.roundGenes, hrounds]
  rfl

/-! ## The order -/

/-- The order is the same in all units, if an individual is feasible. -/
theorem Rescaled.order_feasible {xs ys : List Method}
    (hfeasible : (p.individual xs).feasible = true ∨ (p.individual ys).feasible = true) :
    order (p'.individual xs) (p'.individual ys) = order (p.individual xs) (p.individual ys) := by
  have hx := h.sums xs
  have hy := h.sums ys
  have hfx : (p'.individual xs).feasible = (p.individual xs).feasible := h.isFeasible xs
  have hfy : (p'.individual ys).feasible = (p.individual ys).feasible := h.isFeasible ys
  unfold order
  rw [hfx, hfy]
  -- Each comparison keeps its outcome: totals by the unit, products by both factors.
  by_cases hclass : (p.individual xs).feasible = (p.individual ys).feasible
  · have htrue : (p.individual xs).feasible = true := by
      rcases hfeasible with hfeasible | hfeasible
      · exact hfeasible
      · exact hclass.trans hfeasible
    have htotal : (p'.individual xs).total ≠ (p'.individual ys).total ↔
        (p.individual xs).total ≠ (p.individual ys).total := by
      change (p'.sums xs).total ≠ (p'.sums ys).total ↔ _
      rw [hx.total, hy.total, Ne, mul_right_inj' h.unit_pos.ne']
      rfl
    have hless : (p'.individual xs).total < (p'.individual ys).total ↔
        (p.individual xs).total < (p.individual ys).total := by
      change (p'.sums xs).total < (p'.sums ys).total ↔ _
      rw [hx.total, hy.total, h.cost_lt]
      rfl
    have hcross : (p'.individual xs).linear * (p'.individual ys).total =
        (p'.individual ys).linear * (p'.individual xs).total ↔
        (p.individual xs).linear * (p.individual ys).total =
          (p.individual ys).linear * (p.individual xs).total := by
      change (p'.sums xs).linear * (p'.sums ys).total = (p'.sums ys).linear * (p'.sums xs).total ↔
        (p.sums xs).linear * (p.sums ys).total = (p.sums ys).linear * (p.sums xs).total
      rw [hx.total, hy.total, mul_comm (p'.sums xs).linear, mul_comm (p'.sums ys).linear,
        h.product_eq hx.linear hy.linear, mul_comm (p.sums ys).total, mul_comm (p.sums xs).total]
    have hratio : (p'.individual xs).linear * (p'.individual ys).total <
        (p'.individual ys).linear * (p'.individual xs).total ↔
        (p.individual xs).linear * (p.individual ys).total <
          (p.individual ys).linear * (p.individual xs).total := by
      change (p'.sums xs).linear * (p'.sums ys).total < (p'.sums ys).linear * (p'.sums xs).total ↔
        (p.sums xs).linear * (p.sums ys).total < (p.sums ys).linear * (p.sums xs).total
      rw [hx.total, hy.total, mul_comm (p'.sums xs).linear, mul_comm (p'.sums ys).linear,
        h.product_lt hx.linear hy.linear, mul_comm (p.sums ys).total, mul_comm (p.sums xs).total]
    rw [if_neg (not_not.2 hclass), if_neg (not_not.2 hclass), if_pos htrue, if_pos htrue]
    simp only [htotal, hless, hcross, hratio, ne_eq]
    rfl
  · rw [if_pos hclass, if_pos hclass]

omit h in
/-- In one unit the fitness is multiplied by the quotient of the scales. -/
theorem Rescaled.fitness (h : Rescaled p p' 1) (genes : List Method) :
    (p'.individual genes).fitness * p.scale = (p.individual genes).fitness * p'.scale := by
  have hcosts : p'.costs = p.costs := by
    have hrow : rowInUnits 1 = id := by
      funext row m
      unfold rowInUnits
      simp
    rw [h.costs, hrow, List.map_id]
  have hmaximum : p'.maximumTotal = p.maximumTotal := by
    unfold maximumTotal
    rw [hcosts]
  have hpenalty : p'.penalty = p.penalty := by
    unfold penalty
    rw [hmaximum, h.config]
  have hsums := h.sums genes
  have htotal : (p'.sums genes).total = (p.sums genes).total := hsums.total.trans (one_mul _)
  -- The violation goes with the scale, and nothing else does.
  have hviolation : violation (p'.sums genes) * p.scale = violation (p.sums genes) * p'.scale := by
    have hlinear : (p'.sums genes).linear * p.scale = (p.sums genes).linear * (1 * p'.scale) :=
      hsums.linear
    have hsign := h.linear_nonneg hsums.linear
    unfold violation
    by_cases hviolated : 0 < -(p.sums genes).linear
    · have hviolated' : 0 < -(p'.sums genes).linear := by
        by_contra hnonneg
        exact absurd (hsign.1 (by omega)) (by omega)
      rw [if_pos hviolated, if_pos hviolated']
      linear_combination -hlinear
    · have hviolated' : ¬ 0 < -(p'.sums genes).linear := by
        have hnonneg := hsign.2 (by omega)
        omega
      rw [if_neg hviolated, if_neg hviolated', zero_mul, zero_mul]
  change p'.fitnessOf (p'.sums genes) * p.scale = p.fitnessOf (p.sums genes) * p'.scale
  unfold fitnessOf missingExtentScaled
  rw [hpenalty, hmaximum, htotal, h.missing genes]
  linear_combination p.penalty * hviolation

omit h in
/-- In one unit all individuals are ordered alike. -/
theorem Rescaled.order_sameUnit (h : Rescaled p p' 1) (xs ys : List Method) :
    order (p'.individual xs) (p'.individual ys) = order (p.individual xs) (p.individual ys) := by
  by_cases hfeasible : (p.individual xs).feasible = true ∨ (p.individual ys).feasible = true
  · exact h.order_feasible hfeasible
  rw [not_or, Bool.not_eq_true, Bool.not_eq_true] at hfeasible
  have hfx : (p'.individual xs).feasible = false := (h.isFeasible xs).trans hfeasible.1
  have hfy : (p'.individual ys).feasible = false := (h.isFeasible ys).trans hfeasible.2
  have hx := h.fitness xs
  have hy := h.fitness ys
  have hless : (p'.individual xs).fitness < (p'.individual ys).fitness ↔
      (p.individual xs).fitness < (p.individual ys).fitness := by
    rw [← mul_lt_mul_iff_left₀ h.scale_pos, hx, hy, mul_lt_mul_iff_left₀ h.scale_pos']
  have hequal : (p'.individual xs).fitness = (p'.individual ys).fitness ↔
      (p.individual xs).fitness = (p.individual ys).fitness := by
    rw [← mul_left_inj' h.scale_pos.ne', hx, hy, mul_left_inj' h.scale_pos'.ne']
  unfold order
  rw [hfx, hfy, hfeasible.1, hfeasible.2]
  simp only [ne_eq, not_true_eq_false, if_false, Bool.false_eq_true, hless, hequal]
  rfl

end Plain

end Optimization
end SociSgx

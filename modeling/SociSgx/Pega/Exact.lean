import SociSgx.Pega.Capacity
import SociSgx.Optimizer.Preprocess

/-!
# Exact — what the encrypted steps compute

Over an exact backend every step of PEGA computes what the plain step does on the values behind the
ciphertexts: the encrypted individuals hold the plain ones, whatever the steps have cached.
-/

namespace SociSgx
namespace Optimization

open Exec Secure CountedOps Scalable Scalable.Evaluator

/-! ## What ciphertexts hold -/

section Relations

variable {C : Type} (D : C → Int → Prop)

/-- The one-hot vector of a method. -/
def GeneHolds (gene : Gene C) (method : Method) : Prop :=
  ∀ m, D (gene m) (if m = method then 1 else 0)

structure TotalsHold (totals : Totals C) (s : Scalable.Sums) : Prop where
  total : D totals.total s.total
  c12 : D totals.c12 s.c12
  c3 : D totals.c3 s.c3
  linear : D totals.linear s.linear

abbrev GenesHold (genes : List (Gene C)) (methods : List Method) : Prop :=
  List.Forall₂ (GeneHolds D) genes methods

/-- An individual with its sums; a cache that is filled holds what it stands for. -/
structure Holds (value : Individual C) (x : Scalable.Individual Int) : Prop where
  genes : GenesHold D value.genes x.genes
  totals : TotalsHold D value.totals x.toSums
  feasibleCache : ∀ bit, value.feasibleCache = some bit → BitHolds D bit x.feasible
  fitnessCache : ∀ c, value.fitnessCache = some c → D c x.fitness

/-- The row sums that `evaluate` and `repair` leave. -/
abbrev RowsHold (p : Plain) (rows : List (Totals C)) (methods : List Method) : Prop :=
  List.Forall₂ (fun row item => TotalsHold D row (p.geneSums item.1 item.2)) rows
    (p.costs.zip methods)

end Relations

/-- What the constructor has computed. -/
structure PegaHolds {σ C : Type} (D : C → Int → Prop) (pega : Pega σ C) (p : Plain) : Prop where
  costs : List.Forall₂ (RowHolds D) pega.request.costs p.costs
  scale : pega.ops.domain.scale = p.scale
  threshold : pega.request.thresholdScaled = p.threshold
  config : pega.config = p.config
  zero : D pega.zero 0
  one : D pega.one 1
  maximumTotal : D pega.maximumTotal p.maximumTotal
  penalty : D pega.penalty p.penalty
  penaltyScaled : D pega.penaltyScaled (p.scale * p.penalty)
  missingExtentScaled : D pega.missingExtentScaled p.missingExtentScaled
  missingPenalty : D pega.missingPenalty (p.penalty * p.missingExtentScaled)

/-- PEGA over an exact backend that can hold the values of the request. -/
structure Runs {σ C : Type} [CiphertextLike C] (D : C → Int → Prop) (Fits : Int → Prop)
    (Batch : Nat → Prop) (I : σ → Prop) (pega : Pega σ C) (p : Plain) (bound : Int) : Prop
    extends PegaHolds D pega p where
  exact : ExactOps pega.ops D Fits Batch I
  batch : ∀ k, 1 ≤ k ∧ k ≤ 32 → Batch k
  capacity : p.Capacity Fits bound
  nonempty : p.costs ≠ []
  choosable : ∀ row ∈ p.costs, options row ≠ []

/-! ## Accepted requests -/

section Accepted

variable {C : Type} [CiphertextLike C] {domain : NumericDomain}
  {config : ConfidentialScalableOptimizerConfig} {request : EncryptedOptimizationRequest C}

/-- What `validate` has checked. -/
structure Accepted (domain : NumericDomain) (config : ConfidentialScalableOptimizerConfig)
    (request : EncryptedOptimizationRequest C) : Prop where
  nonempty : request.costs ≠ []
  rows : request.costs.length ≤ domain.maxRows
  threshold : 0 ≤ request.thresholdScaled ∧ request.thresholdScaled < domain.scale
  population : 2 ≤ config.population
  elitism : 0 < config.elitism ∧ config.elitism < config.population
  tournament : 0 < config.tournamentSize
  penalty : 0 < config.infeasiblePenalty
  choosable : ∀ row ∈ request.costs, options row ≠ []
  intermediates : boundsIntermediates domain = true
  fitness : boundsFitness domain config.infeasiblePenalty = true

theorem checkRows_ok {rows : List (CostRow C)} (h : rows.forM checkRow = .ok ⟨⟩) :
    ∀ row ∈ rows, options row ≠ [] := by
  induction rows with
  | nil =>
      intro row hrow
      cases hrow
  | cons first rows ih =>
      change (checkRow first >>= fun _ => rows.forM checkRow) = .ok ⟨⟩ at h
      rcases bind_eq_ok.1 h with ⟨_, hfirst, hrest⟩
      rcases bind_eq_ok.1 hfirst with ⟨_, _, hne⟩
      rintro row (_ | ⟨_, hrow⟩)
      · exact ensure_eq_ok.1 hne
      · exact ih hrest row hrow

theorem validate_ok (h : validate domain config request = .ok ⟨⟩) :
    Accepted domain config request := by
  rcases bind_eq_ok.1 h with ⟨_, hnonempty, h⟩
  rcases bind_eq_ok.1 h with ⟨_, _, h⟩
  rcases bind_eq_ok.1 h with ⟨_, hrows, h⟩
  rcases bind_eq_ok.1 h with ⟨_, hthreshold, h⟩
  rcases bind_eq_ok.1 h with ⟨_, _, h⟩
  rcases bind_eq_ok.1 h with ⟨_, hconfig, h⟩
  rcases bind_eq_ok.1 h with ⟨_, _, h⟩
  rcases bind_eq_ok.1 h with ⟨_, hcheck, h⟩
  rcases bind_eq_ok.1 h with ⟨_, hintermediates, hfitness⟩
  rw [ensure_eq_ok] at hnonempty hrows hthreshold hconfig hintermediates hfitness
  exact ⟨fun hnil => by simp [hnil] at hnonempty, hrows, hthreshold, hconfig.1,
    ⟨Nat.pos_of_ne_zero hconfig.2.2.1, hconfig.2.2.2.1⟩, Nat.pos_of_ne_zero hconfig.2.2.2.2.1,
    hconfig.2.2.2.2.2.2.2, checkRows_ok hcheck, hintermediates, hfitness⟩

/-- The plain request behind an encrypted one. -/
def plainOf (domain : NumericDomain) (config : ConfidentialScalableOptimizerConfig)
    (request : EncryptedOptimizationRequest C) (rows : List (CostRow Int)) : Plain :=
  ⟨rows, domain.scale, request.thresholdScaled, config⟩

variable {D : C → Int → Prop} {rows : List (CostRow Int)}

omit [CiphertextLike C] in
theorem Accepted.choosable_plain (h : Accepted domain config request)
    (hcosts : List.Forall₂ (RowHolds D) request.costs rows) : ∀ row ∈ rows, options row ≠ [] := by
  intro row hrow hnil
  rcases mem_right_of_forall₂ hcosts hrow with ⟨encrypted, hmem, hrel⟩
  refine h.choosable encrypted hmem (List.length_eq_zero_iff.1 ?_)
  rw [(options_rel hrel).length_eq, hnil]
  rfl

omit [CiphertextLike C] in
/-- An accepted request always fits when no size is asked for. -/
theorem Accepted.capacity (h : Accepted domain config request) (rows : List (CostRow Int)) :
    ∃ bound, (plainOf domain config request rows).Capacity (fun _ => True) bound :=
  Plain.capacity_exists _ h.threshold h.penalty

end Accepted

section Specs

variable {σ C : Type} [CiphertextLike C] {D : C → Int → Prop} {Fits : Int → Prop}
  {Batch : Nat → Prop} {I : σ → Prop} {drawn : Nat} {p : Plain} {bound : Int}

/-! ## Methods -/

omit [CiphertextLike C] in
theorem eachMethod_yields {f : Method → PegaM σ C} {v : Method → Int}
    (hf : ∀ m, Yields (Kept I drawn) (f m) (fun c => D c (v m)) Never) :
    Yields (Kept I drawn) (eachMethod f) (fun gene => ∀ m, D (gene m) (v m)) Never := by
  refine (hf 0).bind fun first hfirst => ?_
  refine (hf 1).bind fun second hsecond => ?_
  refine (hf 2).bind fun third hthird => Yields.pure fun m => ?_
  match m with
  | 0 => exact hfirst
  | 1 => exact hsecond
  | 2 => exact hthird

theorem oneHot_yields {ops : SecureOps σ C} (h : ExactOps ops D Fits Batch I) (method : Method) :
    Yields (Kept I drawn) (oneHot ops method) (fun gene => GeneHolds D gene method) Never :=
  eachMethod_yields fun _ => constant_yields h _

/-! ## Construction -/

section Construction

variable {ops : SecureOps σ C} (h : ExactOps ops D Fits Batch I)
  (hcapacity : p.Capacity Fits bound)
include h hcapacity

theorem rowMaximum_yields {row : CostRow C} {row' : CostRow Int} (hmem : row' ∈ p.costs)
    (hrow : RowHolds D row row') (hne : options row' ≠ []) :
    Yields (Kept I drawn) (rowMaximum ops (options row))
      (fun c => D c (rowBest max Choice.cost row')) Never := by
  have hrel := options_rel hrow
  have hsmall := hcapacity.costs row' hmem
  have hextent := hcapacity.bound_le_extent hmem
  have hnonneg := hcapacity.nonneg
  unfold rowBest
  revert hrel hne hsmall
  generalize options row = cs
  generalize options row' = xs
  intro hne hrel hsmall
  cases hrel with
  | nil => exact absurd rfl hne
  | @cons first x cs xs hfirst hrest =>
      refine (Yields.foldlM (fun done c => D c ((done.map Choice.cost).foldl max x.cost)) hrest
        (fun done y rest c maximum hsplit hc hmaximum => ?_) hfirst.2).post fun c hc => hc
      have hdone : ∀ z ∈ x :: done, |z.cost| ≤ bound := by
        intro z hz
        refine hsmall z ?_
        rw [hsplit]
        rcases List.mem_cons.1 hz with rfl | hz
        · simp
        · simp [hz]
      have hy : |y.cost| ≤ bound := hsmall y (by rw [hsplit]; simp)
      -- The maximum so far is the cost of an option, so it is as small as they are.
      have hmax : |(done.map Choice.cost).foldl max x.cost| ≤ bound := by
        have hbest := best_mem selective_max (List.cons_ne_nil x.cost (done.map Choice.cost))
        rcases List.mem_map.1 (show best max (x.cost :: done.map Choice.cost) ∈
          (x :: done).map Choice.cost from hbest) with ⟨z, hz, hcost⟩
        rw [show (done.map Choice.cost).foldl max x.cost = z.cost from hcost.symm]
        exact hdone z hz
      have hfit : ∀ v : Int, |v| ≤ bound → Fits v := fun v hv => hcapacity.fits_cost (by linarith)
      refine (greater_yields h hc.2 hmaximum (hfit _ hy) (hfit _ hmax)).bind fun above habove => ?_
      have hdifference : Fits (y.cost - (done.map Choice.cost).foldl max x.cost) := by
        refine hcapacity.fits_cost ((abs_sub _ _).trans ?_)
        linarith
      refine (select_yields h hcapacity.fits_zero hcapacity.fits_one habove hc.2 hmaximum
        hdifference).post fun c hc => ?_
      rw [List.map_append, List.foldl_append]
      change D c (max _ y.cost)
      rw [max_def_lt]
      simpa using hc

theorem maximumTotal_yields {zero : C} (hzero : D zero 0) {costs : List (CostRow C)}
    (hcosts : List.Forall₂ (RowHolds D) costs p.costs) (hne : ∀ row ∈ p.costs, options row ≠ []) :
    Yields (Kept I drawn) (maximumTotal ops zero costs) (fun c => D c p.maximumTotal) Never := by
  refine Yields.foldlM (fun done c => D c (suffix max Choice.cost done)) hcosts
    (fun done row rest row' total hsplit hrow htotal => ?_) hzero
  have hmem : row ∈ p.costs := by
    rw [hsplit]
    simp
  refine (rowMaximum_yields h hcapacity hmem hrow (hne row hmem)).bind fun maximum hmaximum => ?_
  refine (add_yields h htotal hmaximum).post fun c hc => ?_
  simpa [suffix] using hc

/-- The constructor keeps its promise. -/
theorem constructPega_yields {request : EncryptedOptimizationRequest C}
    (hscale : ops.domain.scale = p.scale) (hthreshold : request.thresholdScaled = p.threshold)
    (hcosts : List.Forall₂ (RowHolds D) request.costs p.costs)
    (hne : ∀ row ∈ p.costs, options row ≠ [])
    (draws : Nat → UInt64) :
    Yields (Kept I drawn) (constructPega ops p.config request draws)
      (fun pega => PegaHolds D pega p ∧ pega.ops = ops ∧ pega.draws = draws) Never := by
  refine (constant_yields h 0).bind fun zero hzero => ?_
  refine (constant_yields h 1).bind fun one hone => ?_
  refine (constant_yields h _).bind fun _ _ => ?_
  refine (constant_yields h _).bind fun _ _ => ?_
  refine (maximumTotal_yields h hcapacity hzero hcosts hne).bind fun maximum hmaximum => ?_
  refine (add_yields h hmaximum hone).bind fun aboveMaximum haboveMaximum => ?_
  refine (scalar_yields h _ haboveMaximum).bind fun penalty hpenalty => ?_
  refine (scalar_yields h _ hpenalty).bind fun penaltyScaled hpenaltyScaled => ?_
  refine (add_yields h hmaximum hone).bind fun extent hextent => ?_
  refine (scalar_yields h _ hextent).bind fun missingExtentScaled hmissingExtentScaled => ?_
  rw [hscale] at hpenaltyScaled hmissingExtentScaled
  refine (mul_yields h hpenalty hmissingExtentScaled hcapacity.fits_penalty
    hcapacity.fits_missingExtentScaled).bind fun missingPenalty hmissingPenalty => Yields.pure ?_
  exact ⟨⟨hcosts, hscale, hthreshold, rfl, hzero, hone, hmaximum, hpenalty, hpenaltyScaled,
    hmissingExtentScaled, hmissingPenalty⟩, rfl, rfl⟩

end Construction

/-- The constructor on an accepted request. -/
theorem constructPega_runs {ops : SecureOps σ C} (h : ExactOps ops D Fits Batch I)
    (hbatch : ∀ k, 1 ≤ k ∧ k ≤ 32 → Batch k) {config : ConfidentialScalableOptimizerConfig}
    {request : EncryptedOptimizationRequest C} {rows : List (CostRow Int)}
    (haccepted : Accepted ops.domain config request)
    (hcosts : List.Forall₂ (RowHolds D) request.costs rows)
    (hcapacity : (plainOf ops.domain config request rows).Capacity Fits bound)
    (draws : Nat → UInt64) :
    Yields (Kept I drawn) (constructPega ops config request draws)
      (fun pega => Runs D Fits Batch I pega (plainOf ops.domain config request rows) bound ∧
        pega.draws = draws) Never := by
  have hchoosable := haccepted.choosable_plain hcosts
  have hnonempty : rows ≠ [] := by
    rintro rfl
    exact haccepted.nonempty (List.length_eq_zero_iff.1 hcosts.length_eq)
  have hconstruct : Yields (Kept I drawn) (constructPega ops config request draws)
      (fun pega => PegaHolds D pega (plainOf ops.domain config request rows) ∧ pega.ops = ops ∧
        pega.draws = draws) Never :=
    constructPega_yields h hcapacity rfl rfl hcosts hchoosable draws
  refine hconstruct.post fun pega hpega => ?_
  rcases hpega with ⟨hholds, rfl, hdraws⟩
  exact ⟨⟨hholds, h, hbatch, hcapacity, hnonempty, hchoosable⟩, hdraws⟩

/-! ## Evaluation -/

omit [CiphertextLike C] in
theorem factor_eq {pega : Pega σ C} (h : PegaHolds D pega p) (method : Method) :
    pega.factor method = coefficient p.scale p.threshold method := by
  rw [Pega.factor, h.scale, h.threshold]

variable {pega : Pega σ C} (h : Runs D Fits Batch I pega p bound)
include h

/-- The selected cost of an option enters the sums of the individual and of the row. -/
theorem addChosen_yields (choice : Choice C) {chosen : C} {v : Int} (hchosen : D chosen v)
    {totals row : Totals C} {s r : Scalable.Sums} (htotals : TotalsHold D totals s)
    (hrow : TotalsHold D row r) :
    Yields (Kept I drawn)
      (pega.addCost choice chosen totals row >>= fun costs =>
        pega.addContribution choice chosen costs.1 costs.2)
      (fun sums => TotalsHold D sums.1 (s + p.part ⟨choice.method, v⟩) ∧
        TotalsHold D sums.2 (r + p.part ⟨choice.method, v⟩)) Never := by
  -- The linear sum and the cost sums are kept apart until the end.
  have hcontribution : ∀ (totals row : Totals C), D totals.linear s.linear →
      D row.linear r.linear →
      Yields (Kept I drawn) (pega.addContribution choice chosen totals row)
        (fun sums => (∃ linear, sums.1 = { totals with linear := linear } ∧
            D linear (s + p.part ⟨choice.method, v⟩).linear) ∧
          ∃ linear, sums.2 = { row with linear := linear } ∧
            D linear (r + p.part ⟨choice.method, v⟩).linear) Never := by
    intro totals row htotals hrow
    refine (scalar_yields h.exact _ hchosen).bind fun contribution hcontribution => ?_
    rw [factor_eq h.toPegaHolds] at hcontribution
    refine (add_yields h.exact htotals hcontribution).bind fun linear hlinear => ?_
    refine (add_yields h.exact hrow hcontribution).bind fun rowLinear hrowLinear => Yields.pure ?_
    exact ⟨⟨linear, rfl, hlinear⟩, rowLinear, rfl, hrowLinear⟩
  have hcost : Yields (Kept I drawn) (pega.addCost choice chosen totals row)
      (fun sums => (D sums.1.total (s + p.part ⟨choice.method, v⟩).total ∧
          D sums.1.c12 (s + p.part ⟨choice.method, v⟩).c12 ∧
          D sums.1.c3 (s + p.part ⟨choice.method, v⟩).c3 ∧ sums.1.linear = totals.linear) ∧
        D sums.2.total (r + p.part ⟨choice.method, v⟩).total ∧
          D sums.2.c12 (r + p.part ⟨choice.method, v⟩).c12 ∧
          D sums.2.c3 (r + p.part ⟨choice.method, v⟩).c3 ∧ sums.2.linear = row.linear) Never := by
    refine (add_yields h.exact htotals.total hchosen).bind fun total htotal => ?_
    refine (add_yields h.exact hrow.total hchosen).bind fun rowCost hrowCost => ?_
    by_cases hmethod : choice.method < 2
    · rw [if_pos hmethod]
      refine (add_yields h.exact htotals.c12 hchosen).bind fun c12 hc12 => ?_
      refine (add_yields h.exact hrow.c12 hchosen).bind fun rowC12 hrowC12 => Yields.pure ?_
      have hc3 := htotals.c3
      have hrowC3 := hrow.c3
      refine ⟨⟨htotal, ?_, ?_, rfl⟩, hrowCost, ?_, ?_, rfl⟩ <;> simpa [Plain.part, hmethod]
    · rw [if_neg hmethod]
      refine (add_yields h.exact htotals.c3 hchosen).bind fun c3 hc3 => ?_
      refine (add_yields h.exact hrow.c3 hchosen).bind fun rowC3 hrowC3 => Yields.pure ?_
      have hc12 := htotals.c12
      have hrowC12 := hrow.c12
      refine ⟨⟨htotal, ?_, ?_, rfl⟩, hrowCost, ?_, ?_, rfl⟩ <;> simpa [Plain.part, hmethod]
  refine hcost.bind fun costs hcosts => ?_
  rcases hcosts with ⟨⟨htotal, hc12, hc3, hlinear⟩, hrowTotal, hrowC12, hrowC3, hrowLinear⟩
  refine (hcontribution costs.1 costs.2 (by rw [hlinear]; exact htotals.linear)
    (by rw [hrowLinear]; exact hrow.linear)).post fun sums hsums => ?_
  rcases hsums with ⟨⟨linear, hsum, hD⟩, rowLinear, hrowSum, hrowD⟩
  rw [hsum, hrowSum]
  exact ⟨⟨htotal, hc12, hc3, hD⟩, hrowTotal, hrowC12, hrowC3, hrowD⟩

omit h in
/-- One option of a row is chosen. -/
theorem weighted_sum (p : Plain) {row : CostRow Int} {method : Method}
    (h : (row method).isSome = true) :
    ((options row).map fun c =>
        p.part ⟨c.method, (if c.method = method then 1 else 0) * c.cost⟩).sum =
      p.geneSums row method := by
  have hzero : ∀ m : Method, p.part ⟨m, 0⟩ = 0 := by
    intro m
    simp [Plain.part, Scalable.Sums.ext_iff, contribution]
  have hother : ∀ cs : List (Choice Int), (∀ c ∈ cs, c.method ≠ method) →
      (cs.map fun c => p.part ⟨c.method, (if c.method = method then 1 else 0) * c.cost⟩).sum =
        0 := by
    intro cs hcs
    refine List.sum_eq_zero fun s hs => ?_
    rcases List.mem_map.1 hs with ⟨c, hc, rfl⟩
    rw [if_neg (hcs c hc), zero_mul, hzero]
  have hmem : chosen row method ∈ options row := mem_options.2 (chosen_of_available h)
  rcases List.append_of_mem hmem with ⟨before, after, hsplit⟩
  have hsorted := options_sorted row
  rw [hsplit] at hsorted ⊢
  have hbefore : ∀ c ∈ before, c.method ≠ method := fun c hc =>
    ((List.pairwise_append.1 hsorted).2.2 c hc (chosen row method) (by simp)).ne
  have hafter : ∀ c ∈ after, c.method ≠ method := fun c hc =>
    ((List.pairwise_cons.1 (List.pairwise_append.1 hsorted).2.1).1 c hc).ne'
  rw [List.map_append, List.map_cons, List.sum_append, List.sum_cons, hother before hbefore,
    hother after hafter]
  simp [Plain.geneSums, chosen]

theorem evaluateRow_yields {row : CostRow C} {row' : CostRow Int} (hmem : row' ∈ p.costs)
    (hrow : RowHolds D row row') {gene : Gene C} {method : Method}
    (hgene : GeneHolds D gene method) (havailable : (row' method).isSome = true)
    {totals : Totals C} {s : Scalable.Sums} (htotals : TotalsHold D totals s) :
    Yields (Kept I drawn) (pega.evaluateRow totals row gene)
      (fun sums => TotalsHold D sums.1 (s + p.geneSums row' method) ∧
        TotalsHold D sums.2 (p.geneSums row' method)) Never := by
  have hrel := options_rel hrow
  have hitems : List.Forall₂ (fun (item : C × C) (x : Int × Int) => D item.1 x.1 ∧ D item.2 x.2)
      ((options row).map fun choice => (gene choice.method, choice.cost))
      ((options row').map fun c => ((if c.method = method then 1 else 0), c.cost)) := by
    rw [List.forall₂_map_left_iff, List.forall₂_map_right_iff]
    refine hrel.imp fun choice c hc => ⟨?_, hc.2⟩
    rw [← hc.1]
    exact hgene choice.method
  have hextent := h.capacity.extent_nonneg
  have hfit : ∀ x ∈ (options row').map
      fun c => ((if c.method = method then (1 : Int) else 0), c.cost),
      Fits x.1 ∧ Fits x.2 := by
    intro x hx
    rcases List.mem_map.1 hx with ⟨c, hc, rfl⟩
    have hcost := h.capacity.costs row' hmem c hc
    have hle := h.capacity.bound_le_extent hmem
    refine ⟨?_, h.capacity.fits_cost (by linarith)⟩
    dsimp only
    split
    · exact h.capacity.fits_one
    · exact h.capacity.fits_zero
  refine (mulBatch_yields h.exact h.batch hitems hfit).bind fun products hproducts => ?_
  rw [List.forall₂_map_right_iff] at hproducts
  -- All options contribute, each weighted by its bit; the sum is that of the selected one.
  rw [← weighted_sum p havailable]
  refine Yields.foldlM (fun (done : List (Choice Int)) (sums : Totals C × Totals C) =>
    TotalsHold D sums.1 (s + (done.map fun c : Choice Int =>
      p.part ⟨c.method, (if c.method = method then 1 else 0) * c.cost⟩).sum) ∧
    TotalsHold D sums.2 (done.map fun c : Choice Int =>
      p.part ⟨c.method, (if c.method = method then 1 else 0) * c.cost⟩).sum)
    (zip_left_rel hrel hproducts)
    (fun done c rest item sums hsplit hitem hsums => ?_) ?_
  · refine (addChosen_yields h item.1 hitem.2 hsums.1 hsums.2).post fun next hnext => ?_
    rw [hitem.1.1] at hnext
    rw [List.map_append, List.sum_append, List.map_singleton, List.sum_singleton, ← add_assoc]
    exact hnext
  · exact ⟨by simpa using htotals, ⟨h.zero, h.zero, h.zero, h.zero⟩⟩

omit h in
theorem sums_eq_zip (p : Plain) (genes : List Method) :
    p.sums genes = ((p.costs.zip genes).map fun item => p.geneSums item.1 item.2).sum := by
  rw [p.sums_eq, List.map_zip_eq_zipWith]
  rfl

omit h in
theorem zip_available {genes : List Method} (hgenes : Available p.model genes)
    {row : CostRow Int} {method : Method} (hmem : (row, method) ∈ p.costs.zip genes) :
    row ∈ p.costs ∧ (row method).isSome = true :=
  ⟨(List.of_mem_zip hmem).1, (List.forall₂_iff_zip.1 hgenes).2 hmem⟩

/-- `evaluate` finds the sums, and forgets what was cached. -/
theorem evaluate_yields {value : Individual C} {genes : List Method}
    (hgenes : GenesHold D value.genes genes) (havailable : Available p.model genes) :
    Yields (Kept I drawn) (pega.evaluate value)
      (fun value => Holds D value (p.individual genes) ∧ RowsHold D p value.rows genes) Never := by
  have hloop := Yields.foldlM (E := Never) (I := Kept I drawn)
    (fun (done : List (CostRow Int × Method)) (sums : Totals C × List (Totals C)) =>
      TotalsHold D sums.1 (done.map fun item => p.geneSums item.1 item.2).sum ∧
      List.Forall₂ (fun row item => TotalsHold D row (p.geneSums item.1 item.2)) sums.2 done)
    (zip_rel h.costs hgenes) (f := fun (sums : Totals C × List (Totals C)) item => do
      let next ← pega.evaluateRow sums.1 item.1 item.2
      return (next.1, sums.2 ++ [next.2]))
    (fun done item rest item' sums hsplit hitem hsums => ?_) (b := (pega.zeros, [])) ?_
  · refine hloop.bind fun sums hsums => Yields.pure ⟨⟨hgenes, ?_, ?_, ?_⟩, hsums.2⟩
    · change TotalsHold D sums.1 (p.sums genes)
      rw [sums_eq_zip]
      exact hsums.1
    · intro bit hbit
      cases hbit
    · intro c hc
      cases hc
  · have hmem : item ∈ p.costs.zip genes := by
      rw [hsplit]
      simp
    have havailable := zip_available havailable hmem
    refine (evaluateRow_yields h havailable.1 hitem.1 hitem.2 havailable.2 hsums.1).bind
      fun next hnext => Yields.pure ⟨?_, ?_⟩
    · rw [List.map_append, List.sum_append, List.map_singleton, List.sum_singleton]
      exact hnext.1
    · exact List.rel_append hsums.2 (.cons hnext.2 .nil)
  · exact ⟨⟨h.zero, h.zero, h.zero, h.zero⟩, .nil⟩

end Specs

end Optimization
end SociSgx

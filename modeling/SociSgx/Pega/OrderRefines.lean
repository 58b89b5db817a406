import SociSgx.Pega.Order
import SociSgx.Optimizer.EngineSession

/-!
# OrderRefines — `better` is the order of the plaintext optimizer

For costs that are not negative the order of PEGA is `order` of the plaintext optimizer, with the
fitness read as a rational number: PEGA's fitness is `scale` times the plaintext one.  It is a
strict total order of the method vectors.
-/

namespace SociSgx
namespace Optimization

open Exec Secure CountedOps Scalable Scalable.Evaluator
open Secure.PredicateEngine (Gate GateM GatesHold)

namespace Plain

variable (p : Plain)

/-- The plaintext optimizer on the same request, without rounding. -/
def reference : Evaluator ℚ where
  model :=
    { costs := p.costs
      threshold := p.threshold
      maxTotal := (p.costs.map rowMax).sum
      scale := p.scale }
  arithmetic := exact
  penalty := exact.mul (exact.add (exact.ofInt (p.costs.map rowMax).sum) (exact.ofInt 1))
    p.config.infeasiblePenalty

/-- The individual of the plaintext optimizer with these genes. -/
def plaintext (genes : List Method) : Scalable.Individual ℚ :=
  p.reference.evaluate (p.reference.fresh genes)

/-- The costs are not negative. -/
def NonNegative : Prop :=
  ∀ row ∈ p.costs, ∀ c ∈ options row, 0 ≤ c.cost

variable {p}

theorem rowMax_eq {row : CostRow Int} (hne : options row ≠ [])
    (hnonneg : ∀ c ∈ options row, 0 ≤ c.cost) : rowMax row = rowBest max Choice.cost row := by
  unfold rowMax rowBest
  cases hrow : options row with
  | nil => exact absurd hrow hne
  | cons first rest =>
      have hfirst : max 0 first.cost = first.cost := max_eq_right (hnonneg first (by simp [hrow]))
      rw [List.foldl_cons, hfirst, List.map_cons, best, List.foldl_map]

/-- Both optimizers mean the same by the maximal total. -/
theorem maximumTotal_eq (hchoosable : ∀ row ∈ p.costs, options row ≠ [])
    (hnonneg : p.NonNegative) : (p.costs.map rowMax).sum = p.maximumTotal := by
  rw [maximumTotal, suffix]
  exact congrArg List.sum (List.map_congr_left fun row hrow =>
    rowMax_eq (hchoosable row hrow) (hnonneg row hrow))

theorem plaintext_sums (genes : List Method) : (p.plaintext genes).toSums = p.sums genes :=
  p.reference.evaluate_sums (p.reference.fresh genes)

theorem plaintext_genes (genes : List Method) : (p.plaintext genes).genes = genes := rfl

theorem plaintext_feasible (genes : List Method) :
    (p.plaintext genes).feasible = (p.individual genes).feasible := by
  rw [Bool.eq_iff_iff]
  refine (p.reference.evaluate_feasible _).trans ?_
  change 0 ≤ (p.plaintext genes).toSums.linear ∧ 0 < (p.plaintext genes).toSums.c3 ∧
    0 < (p.plaintext genes).toSums.total ↔ _
  rw [plaintext_sums]
  exact decide_eq_true_iff.symm

theorem c3_nonneg (hnonneg : p.NonNegative) {genes : List Method}
    (hgenes : Available p.model genes) : 0 ≤ (p.sums genes).c3 := by
  have hleaf : IsAssignment p.costs (choices p.model genes) := choices_assignment hgenes
  refine List.sum_nonneg fun x hx => ?_
  rcases List.mem_map.1 hx with ⟨c, hc, rfl⟩
  rcases mem_right_of_forall₂ hleaf hc with ⟨row, hrow, hcost⟩
  have hc := hnonneg row hrow c (mem_options.2 hcost)
  split
  · exact le_rfl
  · exact hc

/-- The fitness of an infeasible individual, on the scale of PEGA. -/
theorem plaintext_fitness (hscale : 0 < p.scale)
    (hchoosable : ∀ row ∈ p.costs, options row ≠ []) (hnonneg : p.NonNegative)
    {genes : List Method} (hgenes : Available p.model genes)
    (hinfeasible : (p.individual genes).feasible = false) :
    p.scale * (p.plaintext genes).fitness = ((p.individual genes).fitness : ℚ) := by
  have hfeasible := plaintext_feasible (p := p) genes
  rw [hinfeasible] at hfeasible
  have hfitness : (p.plaintext genes).fitness =
      p.reference.fitness (p.sums genes) (p.plaintext genes).feasible := by
    rw [← plaintext_sums]
    rfl
  have hmaximum : p.reference.model.maxTotal = p.maximumTotal := maximumTotal_eq hchoosable hnonneg
  have hpenalty : p.reference.penalty = p.penalty := by
    change ((((p.costs.map rowMax).sum : ℤ) : ℚ) + ((1 : ℤ) : ℚ)) * _ = _
    rw [maximumTotal_eq hchoosable hnonneg, penalty]
    push_cast
    ring
  have hc3 := c3_nonneg hnonneg hgenes
  rw [hfitness, hfeasible]
  change _ = ((p.fitnessOf (p.sums genes) : ℤ) : ℚ)
  generalize p.sums genes = s at hc3
  -- The plaintext divides the violation by the scale; PEGA multiplies everything by it.
  have hviolation : (p.scale : ℚ) * (if s.linear < 0 then ((-s.linear : ℤ) : ℚ) / (p.scale : ℚ)
      else ((0 : ℤ) : ℚ)) = violation s := by
    have hne : (p.scale : ℚ) ≠ 0 := by exact_mod_cast hscale.ne'
    by_cases hlinear : s.linear < 0
    · have hviolated : 0 < -s.linear := by omega
      rw [if_pos hlinear, violation, if_pos hviolated]
      field_simp
    · have hviolated : ¬ 0 < -s.linear := by omega
      rw [if_neg hlinear, violation, if_neg hviolated]
      simp
  have hmissing : (if s.c3 = 0 then ((p.maximumTotal + 1 : ℤ) : ℚ) else ((0 : ℤ) : ℚ)) =
      (p.maximumTotal + 1) * ((missing s).toInt : ℚ) := by
    by_cases hzero : s.c3 = 0
    · simp [missing, hzero]
    · have hpositive : 0 < s.c3 := by omega
      simp [missing, hzero, hpositive]
  have hexact : p.reference.fitness s false = (s.total : ℚ) + p.reference.penalty *
      (((1 : ℤ) : ℚ) + (if s.linear < 0 then ((-s.linear : ℤ) : ℚ) / (p.scale : ℚ)
        else ((0 : ℤ) : ℚ)) +
        (if s.c3 = 0 then ((p.reference.model.maxTotal + 1 : ℤ) : ℚ) else ((0 : ℤ) : ℚ))) := rfl
  rw [hexact, hpenalty, hmaximum, hmissing, fitnessOf, missingExtentScaled]
  generalize (if s.linear < 0 then ((-s.linear : ℤ) : ℚ) / (p.scale : ℚ) else ((0 : ℤ) : ℚ)) = v
    at hviolation
  push_cast
  rw [← hviolation]
  ring

/-- The two optimizers order the assignments in the same way. -/
theorem order_plaintext (hscale : 0 < p.scale)
    (hchoosable : ∀ row ∈ p.costs, options row ≠ []) (hnonneg : p.NonNegative)
    {xs ys : List Method} (hxs : Available p.model xs) (hys : Available p.model ys) :
    order (p.plaintext xs) (p.plaintext ys) = order (p.individual xs) (p.individual ys) := by
  have hscaleQ : (0 : ℚ) < p.scale := by exact_mod_cast hscale
  have hfitness : (p.individual xs).feasible = false → (p.individual ys).feasible = false →
      ((p.plaintext xs).fitness < (p.plaintext ys).fitness ↔
        (p.individual xs).fitness < (p.individual ys).fitness) ∧
      ((p.plaintext xs).fitness = (p.plaintext ys).fitness ↔
        (p.individual xs).fitness = (p.individual ys).fitness) := by
    intro hfx hfy
    have hx := plaintext_fitness hscale hchoosable hnonneg hxs hfx
    have hy := plaintext_fitness hscale hchoosable hnonneg hys hfy
    constructor
    · rw [← mul_lt_mul_iff_right₀ hscaleQ, hx, hy, Int.cast_lt]
    · rw [← mul_right_inj' hscaleQ.ne', hx, hy, Int.cast_inj]
  have htotal : ∀ genes, (p.plaintext genes).total = (p.individual genes).total :=
    fun genes => congrArg Scalable.Sums.total (plaintext_sums genes)
  have hlinear : ∀ genes, (p.plaintext genes).linear = (p.individual genes).linear :=
    fun genes => congrArg Scalable.Sums.linear (plaintext_sums genes)
  have hgenes : ∀ genes, (p.plaintext genes).genes = (p.individual genes).genes := fun _ => rfl
  unfold order
  simp only [plaintext_feasible, htotal, hlinear, hgenes]
  by_cases hclass : (p.individual xs).feasible = (p.individual ys).feasible
  · cases hfx : (p.individual xs).feasible with
    | true => rw [hfx] at hclass; simp [← hclass]
    | false =>
        rw [hfx] at hclass
        rcases hfitness hfx hclass.symm with ⟨hless, hequal⟩
        simp only [← hclass, hless, hequal, ne_eq]
  · rw [if_pos hclass, if_pos hclass]

/-- A strict total order on the available method vectors. -/
structure StrictTotal (model : Model) (before : List Method → List Method → Bool) : Prop where
  irreflexive : ∀ x, Available model x → before x x = false
  transitive : ∀ x y z, Available model x → Available model y → Available model z →
    before x y = true → before y z = true → before x z = true
  total : ∀ x y, Available model x → Available model y → x ≠ y →
    (before x y = true ↔ before y x = false)

theorem order_strictTotal :
    StrictTotal p.model fun xs ys => order (p.individual xs) (p.individual ys) := by
  have hiff : ∀ {xs ys : List Method}, Available p.model ys →
      (order (p.individual xs) (p.individual ys) = true ↔
        (p.individual xs).rank < (p.individual ys).rank) :=
    fun hys => order_iff (Proper.ofGenes hys).total_pos
  refine ⟨fun xs hxs => ?_, fun xs ys zs _ hys hzs hxy hyz => ?_, fun xs ys hxs hys hne => ?_⟩
  · rw [← Bool.not_eq_true, hiff hxs]
    exact lt_irrefl _
  · rw [hiff hys] at hxy
    rw [hiff hzs] at hyz ⊢
    exact hxy.trans hyz
  · rw [← Bool.not_eq_true, hiff hys, hiff hxs, not_lt]
    refine ⟨le_of_lt, fun hle => lt_of_le_of_ne hle fun hrank => hne ?_⟩
    exact rank_injective hrank

end Plain

/-! ## The comparison -/

/-- For costs that are not negative `better` decrypts to the plaintext order of the assignments,
over bits that are all 0 or 1; the order is strict and total. -/
theorem better_refines_order {σ C : Type} [CiphertextLike C] {D : C → Int → Prop} {I : σ → Prop}
    {ops : SecureOps σ C} (h : ExactOps ops D (fun _ => True) (fun _ => True) I)
    {config : ConfidentialScalableOptimizerConfig} {request : EncryptedOptimizationRequest C}
    (haccepted : validate ops.domain config request = .ok ⟨⟩) {rows : List (CostRow Int)}
    (hcosts : List.Forall₂ (RowHolds D) request.costs rows)
    (hnonneg : (plainOf ops.domain config request rows).NonNegative) (draws : Nat → UInt64) :
    let p := plainOf ops.domain config request rows
    (∀ {a b : Individual C} {x y : List Method}, Available p.model x → Available p.model y →
      Holds D a (p.individual x) → Holds D b (p.individual y) → ∀ drawn,
      Yields (Kept I drawn)
        (constructPega ops config request draws >>= fun pega => pega.better a b)
        (fun r => BitHolds D r.1 (order (p.plaintext x) (p.plaintext y))) Never ∧
      Yields (GatesHold (Kept I drawn) D)
        (onFst (constructPega ops config request draws) >>= fun pega => pega.gatedBetter a b)
        (fun r => BitHolds D r.1 (order (p.plaintext x) (p.plaintext y))) Never) ∧
    (∀ (pega : Pega σ C) (a b : Individual C),
      Erases Prod.fst (pega.gatedBetter a b) (pega.better a b)) ∧
    Plain.StrictTotal p.model fun x y => order (p.plaintext x) (p.plaintext y) := by
  intro p
  have haccepted := validate_ok haccepted
  have hchoosable : ∀ row ∈ p.costs, options row ≠ [] := haccepted.choosable_plain hcosts
  have hscale : 0 < p.scale := lt_of_le_of_lt haccepted.threshold.1 haccepted.threshold.2
  have horder : ∀ {x y : List Method}, Available p.model x → Available p.model y →
      order (p.plaintext x) (p.plaintext y) = order (p.individual x) (p.individual y) :=
    Plain.order_plaintext hscale hchoosable hnonneg
  rcases haccepted.capacity rows with ⟨bound, hcapacity⟩
  have hconstruct : ∀ drawn, Yields (Kept I drawn) (constructPega ops config request draws)
      (fun pega => Runs D (fun _ => True) (fun _ => True) I pega p bound ∧ pega.draws = draws)
      Never :=
    fun drawn => constructPega_runs h (fun _ _ => trivial) haccepted hcosts hcapacity draws
  refine ⟨fun {a b x y} hx hy ha hb drawn => ⟨?_, ?_⟩, fun pega => pega.gatedBetter_erases, ?_⟩
  · refine (hconstruct drawn).bind fun pega hpega => ?_
    rw [horder hx hy]
    exact (better_yields hpega.1 (.ofGenes hx) (.ofGenes hy) ha hb).post fun r hr => hr.bit
  · refine (hconstruct drawn).silent.bind fun pega hpega => ?_
    rw [horder hx hy]
    exact (gatedBetter_yields hpega.1 (.ofGenes hx) (.ofGenes hy) ha hb).post fun r hr => hr.bit
  -- The order on individuals is strict and total, and the two orders agree.
  · have hstrict := Plain.order_strictTotal (p := p)
    refine ⟨fun x hx => ?_, fun x y z hx hy hz hxy hyz => ?_, fun x y hx hy hne => ?_⟩
    · rw [horder hx hx]
      exact hstrict.irreflexive x hx
    · rw [horder hx hy] at hxy
      rw [horder hy hz] at hyz
      rw [horder hx hz]
      exact hstrict.transitive x y z hx hy hz hxy hyz
    · rw [horder hx hy, horder hy hx]
      exact hstrict.total x y hx hy hne

/-! ### Two rows in the clear -/

def pairDomain : NumericDomain :=
  ⟨100, 4, 8, 10, 32, 64⟩

def pairRows : List (CostRow Int) :=
  [![some 3, none, some 2], ![some 1, some 4, some 9]]

theorem pairRows_accepted :
    validate pairDomain pairConfig (clearRequest pairRows 20 "two-rows") = .ok ⟨⟩ := by
  decide +kernel

/-- The unevaluated individual of a method vector, with sums in the clear. -/
def clearIndividual (p : Plain) (genes : List Method) : Individual (Option Int) where
  genes := genes.map fun method m => some (if m = method then 1 else 0)
  totals := ⟨some (p.sums genes).total, some (p.sums genes).c12, some (p.sums genes).c3,
    some (p.sums genes).linear⟩

theorem clearIndividual_holds (p : Plain) (genes : List Method) :
    Holds (fun c x => c = some x) (clearIndividual p genes) (p.individual genes) where
  genes := List.forall₂_map_left_iff.2 (List.forall₂_same.2 fun _ _ _ => rfl)
  totals := ⟨rfl, rfl, rfl, rfl⟩
  feasibleCache := fun _ hbit => (by cases hbit)
  fitnessCache := fun _ hscore => (by cases hscore)

/-- The cheapest assignment of the rows is feasible, and comes before the one without method 3. -/
theorem better_refines_order_pairRows :
    let p := plainOf pairDomain pairConfig (clearRequest pairRows 20 "two-rows") pairRows
    order (p.plaintext [2, 0]) (p.plaintext [0, 0]) = true ∧
    ∀ drawn, Yields (Kept (fun _ => True) drawn)
      (constructPega (clearOps pairDomain) pairConfig (clearRequest pairRows 20 "two-rows")
        (fun _ => 0) >>= fun pega =>
          pega.better (clearIndividual p [2, 0]) (clearIndividual p [0, 0]))
      (fun r => r.1.ciphertext = some 1) Never := by
  intro p
  have horder : order (p.plaintext [2, 0]) (p.plaintext [0, 0]) = true := by
    decide +kernel
  have hnonneg : p.NonNegative := by
    unfold Plain.NonNegative
    decide
  have hfirst : Available p.model [2, 0] := .cons rfl (.cons rfl .nil)
  have hsecond : Available p.model [0, 0] := .cons rfl (.cons rfl .nil)
  have hbetter := better_refines_order (clearOps_exact pairDomain _ _) pairRows_accepted
    (clearRequest_holds pairRows 20 "two-rows") hnonneg (fun _ => 0)
  generalize constructPega (clearOps pairDomain) pairConfig
    (clearRequest pairRows 20 "two-rows") (fun _ => 0) = construct at hbetter ⊢
  refine ⟨horder, fun drawn => ?_⟩
  refine ((hbetter.1 hfirst hsecond (clearIndividual_holds p [2, 0])
    (clearIndividual_holds p [0, 0]) drawn).1).post fun r hr => ?_
  have hbit : BitHolds (fun c x => c = some x) r.1
      (order (p.plaintext [2, 0]) (p.plaintext [0, 0])) := hr
  rwa [horder] at hbit

end Optimization
end SociSgx

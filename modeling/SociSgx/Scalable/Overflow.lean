import SociSgx.Optimizer.PlainOverflow
import SociSgx.Scalable.Order

/-!
# Overflow — the genetic search with checked arithmetic

The same guard covers the genetic search: `evaluate` and `repair` with every operation on integers
checked, and the cross products of `order`.
-/

namespace SociSgx
namespace Optimization
namespace Scalable

open Exec

def encodeWide (input : CostMatrix) (threshold : Bytes) : WideM Model := do
  within (ensure (input ≠ []) (Error.invalid "cost matrix must not be empty"))
  let thresholdValue ← within (parseFixedPoint threshold true)
  let rows ← encodeRowsWide input 0
  validateAggregateWide rows.2
  within (ensure (rows.1.any (fun row => (row 2).isSome) = true)
    (.optimization .noFeasibleSolution "ratio requires an available method3"))
  return { costs := rows.1, threshold := thresholdValue, maxTotal := rows.2 }

namespace Evaluator

variable {F : Type} (ev : Evaluator F)

/-! ## Evaluation -/

def addChoiceWide (sums : Sums) (c : Choice Int) : WideM Sums :=
  if c.method < 2 then do
    let total ← narrow (sums.total + c.cost)
    let c12 ← narrow (sums.c12 + c.cost)
    let factor ← narrow (ev.model.scale - ev.model.threshold)
    -- the products are `__int128`, the sums of costs `int64`
    let product ← wide (factor * c.cost)
    let linear ← wide (sums.linear + product)
    return { sums with total := total, c12 := c12, linear := linear }
  else do
    let total ← narrow (sums.total + c.cost)
    let c3 ← narrow (sums.c3 + c.cost)
    let product ← wide (ev.model.threshold * c.cost)
    let linear ← wide (sums.linear - product)
    return { sums with total := total, c3 := c3, linear := linear }

def violationWide (sums : Sums) : WideM F :=
  let a := ev.arithmetic
  if sums.linear < 0 then do
    let magnitude ← wide (-sums.linear)
    return a.div (a.ofInt magnitude) (a.ofInt ev.model.scale)
  else
    return a.ofInt 0

def missingC3Wide (sums : Sums) : WideM F :=
  let a := ev.arithmetic
  if sums.c3 = 0 then do
    let more ← wide (ev.model.maxTotal + 1)
    return a.ofInt more
  else
    return a.ofInt 0

def fitnessWide (sums : Sums) (feasible : Bool) : WideM F := do
  let a := ev.arithmetic
  let violation ← ev.violationWide sums
  let missingC3 ← ev.missingC3Wide sums
  return a.add (a.ofInt sums.total) (if feasible then a.ofInt 0 else
    a.mul ev.penalty (a.add (a.add (a.ofInt 1) violation) missingC3))

def evaluateWide (x : Individual F) : WideM (Individual F) := do
  let sums ← (choices ev.model x.genes).foldlM ev.addChoiceWide {}
  let feasible := decide (0 ≤ sums.linear ∧ 0 < sums.c3 ∧ 0 < sums.total)
  let fitness ← ev.fitnessWide sums feasible
  return {
    toSums := sums
    genes := x.genes
    fitness := fitness
    feasible := feasible }

/-! ## The order -/

def orderWide [LinearOrder F] (a b : Individual F) : WideM Bool :=
  if a.feasible ≠ b.feasible then
    return a.feasible
  else if a.feasible then
    if a.total ≠ b.total then
      return decide (a.total < b.total)
    else do
      let lhs ← wide (a.linear * b.total)
      let rhs ← wide (b.linear * a.total)
      return if lhs ≠ rhs then decide (lhs < rhs) else decide (a.genes < b.genes)
  else if a.fitness ≠ b.fitness then
    return decide (a.fitness < b.fitness)
  else
    return decide (a.genes < b.genes)

/-! ## Repair -/

def considerMethod3Wide (best : Option (Nat × Int)) (item : (CostRow Int × Method) × Nat) :
    WideM (Option (Nat × Int)) :=
  match item.1.1 2 with
  | none => return best
  | some cost => do
      let delta ← narrow (cost - (chosen item.1.1 item.1.2).cost)
      return match best with
        | none => some (item.2, delta)
        | some found => if delta < found.2 then some (item.2, delta) else best

def cheapestMethod3Wide (genes : List Method) : WideM (Option (Nat × Int)) :=
  (ev.rowGenes genes).foldlM considerMethod3Wide none

/-- `old_linear` or `next_linear` -/
def linearWide (c : Choice Int) : WideM Int :=
  if c.method < 2 then do
    let factor ← narrow (ev.model.scale - ev.model.threshold)
    wide (factor * c.cost)
  else do
    let factor ← wide (-ev.model.threshold)
    wide (factor * c.cost)

variable [LinearOrder F]

def considerMoveWide (count row : Nat) (old : Choice Int) (oldLinear : Int)
    (best : Option (Move F)) (next : Choice Int) : WideM (Option (Move F)) :=
  if next.method = old.method then
    return best
  else if old.method = 2 ∧ next.method ≠ 2 ∧ count = 1 then
    return best
  else do
    let nextLinear ← ev.linearWide next
    let linearDelta ← wide (nextLinear - oldLinear)
    if linearDelta ≤ 0 then
      return best
    else do
      let costDelta ← narrow (next.cost - old.cost)
      let move : Move F := ⟨ev.arithmetic.div (ev.arithmetic.ofInt costDelta)
        (ev.arithmetic.ofInt linearDelta), row, next.method, costDelta, linearDelta⟩
      return match best with
        | none => some move
        | some found => if move.precedes found then some move else best

/-- The inner loop over the methods of a row. -/
def rowMovesWide (count : Nat) (best : Option (Move F)) (item : (CostRow Int × Method) × Nat) :
    WideM (Option (Move F)) := do
  let old := chosen item.1.1 item.1.2
  let oldLinear ← ev.linearWide old
  (options item.1.1).foldlM (ev.considerMoveWide count item.2 old oldLinear) best

def bestMoveWide (genes : List Method) : WideM (Option (Move F)) :=
  (ev.rowGenes genes).foldlM (ev.rowMovesWide (method3Count genes)) none

def applyMoveWide (x : Individual F) (move : Move F) : WideM (Individual F) := do
  let total ← narrow (x.total + move.costDelta)
  let linear ← wide (x.linear + move.linearDelta)
  ev.evaluateWide { x with
    genes := x.genes.set move.row move.method
    total := total
    linear := linear }

def repairLoopWide : Nat → Individual F → WideM (Option (List (Individual F) × Bool))
  | fuel, x =>
      if x.linear < 0 then do
        let best ← ev.bestMoveWide x.genes
        match best with
        | none => return some ([], false)
        | some move =>
            match fuel with
            | 0 => return none
            | fuel + 1 => do
                let y ← ev.applyMoveWide x move
                let run ← repairLoopWide fuel y
                return run.map fun run => (y :: run.1, run.2)
      else
        return some ([], x.feasible)

def repairRunWide (fuel : Nat) (x : Individual F) :
    WideM (Option (List (Individual F) × Bool)) := do
  let x ← ev.evaluateWide x
  if x.c3 = 0 then do
    let best ← ev.cheapestMethod3Wide x.genes
    match best with
    | none => return some ([x], false)
    | some found => do
        let y ← ev.evaluateWide { x with genes := x.genes.set found.1 2 }
        let run ← ev.repairLoopWide fuel y
        return run.map fun run => (x :: y :: run.1, run.2)
  else do
    let run ← ev.repairLoopWide fuel x
    return run.map fun run => (x :: run.1, run.2)

def repairWide (x : Individual F) : WideM (Individual F × Bool) := do
  let run ← ev.repairRunWide (2 * ev.model.costs.length) x
  return match run with
    | none => (x, false)
    | some run => (run.1.getLastD x, run.2)

/-! ## What the guard says about the model -/

/-- The model is one that `encode` has made. -/
structure Guarded (ev : Evaluator F) : Prop where
  accepted : (Encoded.mk ev.model.costs ev.model.threshold).Accepted
  scale : ev.model.scale = kScale
  maxTotal : 0 ≤ ev.model.maxTotal ∧ ev.model.maxTotal * kScale ≤ kFixedSafe

/-- Sums within the safe bound. -/
structure Sums.Safe (sums : Sums) : Prop where
  total : |sums.total| ≤ kFixedSafe
  c12 : |sums.c12| ≤ kFixedSafe
  c3 : |sums.c3| ≤ kFixedSafe
  linear : |sums.linear| ≤ kFixedSafe

/-- The changes of the sums that a move carries. -/
def SafeMove (best : Option (Move F)) : Prop :=
  ∀ move, best = some move →
    |move.costDelta| ≤ 2 * kFixedSafe ∧ |move.linearDelta| ≤ 2 * kFixedSafe

end Evaluator

theorem kFixedSafe_le_wide : kFixedSafe ≤ 2 ^ 126 := by
  decide

theorem wide_of_safe {x : Int} (h : |x| ≤ kFixedSafe) : wide x = pure x :=
  wide_of_abs (h.trans kFixedSafe_le_wide)

/-- A difference of two safe values fits in 64 bits, and one in 128. -/
theorem narrow_add {x y : Int} (hx : |x| ≤ kFixedSafe) (hy : |y| ≤ kFixedSafe) :
    narrow (x + y) = pure (x + y) := by
  have hsum := abs_le.1 ((abs_add_le x y).trans (add_le_add hx hy))
  unfold kFixedSafe int64Max at hsum
  exact narrow_of ⟨by omega, by omega⟩

theorem narrow_sub {x y : Int} (hx : |x| ≤ kFixedSafe) (hy : |y| ≤ kFixedSafe) :
    narrow (x - y) = pure (x - y) := by
  rw [sub_eq_add_neg]
  exact narrow_add hx (by rwa [abs_neg])

theorem wide_sub {x y : Int} (hx : |x| ≤ kFixedSafe) (hy : |y| ≤ kFixedSafe) :
    wide (x - y) = pure (x - y) := by
  refine wide_of_abs ?_
  calc
    |x - y| ≤ |x| + |y| := abs_sub _ _
    _ ≤ kFixedSafe + kFixedSafe := add_le_add hx hy
    _ ≤ 2 ^ 126 := by decide

namespace Evaluator
namespace Guarded

variable {F : Type} {ev : Evaluator F} (h : ev.Guarded)
include h

theorem abs_threshold_le : |ev.model.threshold| ≤ kScale ∧
    |ev.model.scale - ev.model.threshold| ≤ kScale := by
  rw [h.scale]
  exact h.accepted.abs_threshold_le

theorem chosen_range {row : CostRow Int} (hrow : row ∈ ev.model.costs) {gene : Method}
    (hgene : (row gene).isSome = true) :
    0 ≤ (chosen row gene).cost ∧ (chosen row gene).cost * kScale ≤ kFixedSafe :=
  h.accepted.cost_range hrow (mem_options.2 (chosen_of_available hgene))

theorem factor_le (m : Method) : |ev.factor m| ≤ kScale := by
  rcases h.abs_threshold_le with ⟨hthreshold, hrest⟩
  unfold factor coefficient
  split
  · exact hrest
  · rwa [abs_neg]

/-- The product of a cost with its factor, as the source computes it. -/
theorem linearWide_eq {c : Choice Int} (hc : 0 ≤ c.cost ∧ c.cost * kScale ≤ kFixedSafe) :
    ev.linearWide c = pure (ev.factor c.method * c.cost) := by
  rcases h.abs_threshold_le with ⟨hthreshold, hrest⟩
  have hscale : kScale ≤ kFixedSafe := by decide
  unfold linearWide factor coefficient
  split
  · rw [narrow_of_abs (hrest.trans hscale), pure_bind, wide_of_safe (abs_mul_le hrest hc)]
  · have hneg : |-ev.model.threshold| ≤ kScale := by rwa [abs_neg]
    rw [wide_of_safe (hneg.trans hscale), pure_bind, wide_of_safe (abs_mul_le hneg hc)]

theorem addChoiceWide_eq {sums : Sums} {c : Choice Int}
    (hc : 0 ≤ c.cost ∧ c.cost * kScale ≤ kFixedSafe) (hnext : Sums.Safe (ev.addChoice sums c)) :
    ev.addChoiceWide sums c = pure (ev.addChoice sums c) := by
  rcases h.abs_threshold_le with ⟨hthreshold, hrest⟩
  have hscale : kScale ≤ kFixedSafe := by decide
  rcases hnext with ⟨htotal, hc12, hc3, hlinear⟩
  unfold addChoice at htotal hc12 hc3 hlinear ⊢
  unfold addChoiceWide
  by_cases hmethod : c.method < 2
  · have hfactor : ev.factor c.method = ev.model.scale - ev.model.threshold := if_pos hmethod
    simp only [if_pos hmethod, hfactor] at htotal hc12 hlinear ⊢
    rw [narrow_of_abs htotal, pure_bind, narrow_of_abs hc12, pure_bind,
      narrow_of_abs (hrest.trans hscale), pure_bind, wide_of_safe (abs_mul_le hrest hc), pure_bind,
      wide_of_safe hlinear, pure_bind]
  · have hfactor : ev.factor c.method = -ev.model.threshold := if_neg hmethod
    simp only [if_neg hmethod, hfactor, neg_mul, ← sub_eq_add_neg] at htotal hc3 hlinear ⊢
    rw [narrow_of_abs htotal, pure_bind, narrow_of_abs hc3, pure_bind,
      wide_of_safe (abs_mul_le hthreshold hc), pure_bind, wide_of_safe hlinear, pure_bind]

/-- The sums of a path in range. -/
theorem foldl_safe {done rest : List (CostRow Int)} {path : List (Choice Int)}
    (hsplit : ev.model.costs = done ++ rest) (hpath : IsAssignment done path) :
    Sums.Safe (path.foldl ev.addChoice {}) := by
  have hrange := h.accepted.path_range hsplit hpath
  rw [foldl_addChoice]
  simp only [zero_add, h.scale]
  exact ⟨hrange.abs_total, hrange.abs_c12, hrange.abs_c3, hrange.linear⟩

/-- The running sums stay in range from row to row. -/
theorem foldlM_addChoiceWide {rest : List (CostRow Int)} {tail : List (Choice Int)}
    (htail : IsAssignment rest tail) : ∀ {done : List (CostRow Int)} {path : List (Choice Int)},
    ev.model.costs = done ++ rest → IsAssignment done path →
    tail.foldlM ev.addChoiceWide (path.foldl ev.addChoice {}) =
      pure ((path ++ tail).foldl ev.addChoice {}) := by
  induction htail with
  | nil =>
      intro done path _ _
      rw [List.append_nil, List.foldlM_nil]
  | @cons row c rest tail hc _ ih =>
      intro done path hsplit hpath
      have hsplit' : ev.model.costs = (done ++ [row]) ++ rest := by
        rw [hsplit]
        simp
      have hchild : IsAssignment (done ++ [row]) (path ++ [c]) :=
        List.rel_append hpath (List.Forall₂.cons hc List.Forall₂.nil)
      have hrow : row ∈ ev.model.costs := by
        rw [hsplit]
        simp
      have hcost := h.accepted.cost_range hrow (mem_options.2 hc)
      have hsafe := h.foldl_safe hsplit' hchild
      have hnext := ih hsplit' hchild
      rw [List.foldl_append, List.foldl_cons, List.foldl_nil] at hsafe hnext
      rw [List.foldlM_cons, h.addChoiceWide_eq hcost hsafe, pure_bind, hnext]
      simp

theorem fitnessWide_eq {sums : Sums} (hsums : Sums.Safe sums) (feasible : Bool) :
    ev.fitnessWide sums feasible = pure (ev.fitness sums feasible) := by
  have hlinear : wide (-sums.linear) = pure (-sums.linear) :=
    wide_of_safe (by rw [abs_neg]; exact hsums.linear)
  have hmore : wide (ev.model.maxTotal + 1) = pure (ev.model.maxTotal + 1) := by
    have hmax := h.maxTotal
    unfold kScale kFixedSafe int64Max at hmax
    refine wide_of_abs ?_
    rw [abs_of_nonneg (by omega)]
    omega
  unfold fitnessWide violationWide missingC3Wide fitness
  rw [hlinear, hmore]
  by_cases hnegative : sums.linear < 0 <;> by_cases hzero : sums.c3 = 0 <;>
    simp only [if_pos, if_neg, hnegative, hzero, not_false_eq_true, pure_bind]

theorem evaluateWide_eq {x : Individual F} (hx : Available ev.model x.genes) :
    ev.evaluateWide x = pure (ev.evaluate x) := by
  have hassignment := choices_assignment hx
  have hloop : (choices ev.model x.genes).foldlM ev.addChoiceWide ([].foldl ev.addChoice {}) =
      pure (([] ++ choices ev.model x.genes).foldl ev.addChoice {}) :=
    h.foldlM_addChoiceWide hassignment rfl List.Forall₂.nil
  rw [List.foldl_nil, List.nil_append] at hloop
  have hsafe := h.foldl_safe (List.append_nil _).symm hassignment
  unfold evaluateWide evaluate
  rw [hloop, pure_bind]
  dsimp only
  rw [h.fitnessWide_eq hsafe, pure_bind]

/-- The sums of a consistent individual. -/
theorem consistent_range {x : Individual F} (hx : ev.Consistent x) :
    |x.total| ≤ kFixedSafe ∧ |x.linear| ≤ kFixedSafe := by
  have hsafe := h.foldl_safe (List.append_nil _).symm (choices_assignment hx.available)
  have hsums : x.toSums = (choices ev.model x.genes).foldl ev.addChoice {} :=
    congrArg Individual.toSums hx.evaluated.symm
  rw [← hsums] at hsafe
  exact ⟨hsafe.total, hsafe.linear⟩

/-! ## The order -/

/-- The cross products fit in 128 bits. -/
theorem orderWide_eq [LinearOrder F] {a b : Individual F} (ha : ev.Consistent a)
    (hb : ev.Consistent b) : orderWide a b = pure (order a b) := by
  rcases h.consistent_range ha with ⟨hta, hla⟩
  rcases h.consistent_range hb with ⟨htb, hlb⟩
  have hcross : ∀ {x y : Int}, |x| ≤ kFixedSafe → |y| ≤ kFixedSafe →
      wide (x * y) = pure (x * y) := by
    intro x y hx hy
    refine wide_of_abs ?_
    calc
      |x * y| = |x| * |y| := abs_mul x y
      _ ≤ kFixedSafe * kFixedSafe := mul_le_mul hx hy (abs_nonneg y) (by decide)
      _ ≤ 2 ^ 126 := by decide
  unfold orderWide order
  rw [hcross hla htb, hcross hlb hta]
  split
  · rfl
  · split
    · split
      · rfl
      · rfl
    · split
      · rfl
      · rfl

/-! ## Repair -/

section Scans

variable {genes : List Method} (hgenes : Available ev.model genes)
  {item : (CostRow Int × Method) × Nat} (hitem : item ∈ ev.rowGenes genes)

omit h in
include hgenes hitem in
theorem item_available : item.1.1 ∈ ev.model.costs ∧ (item.1.1 item.1.2).isSome = true := by
  have hentry : (ev.model.costs.zip genes)[item.2]? = some item.1 :=
    List.mem_zipIdx_iff_getElem?.1 hitem
  have hmem : item.1 ∈ ev.model.costs.zip genes := List.mem_of_getElem? hentry
  exact ⟨(List.of_mem_zip hmem).1, List.forall₂_zip hgenes hmem⟩

include hgenes hitem in
theorem item_range : 0 ≤ (chosen item.1.1 item.1.2).cost ∧
    (chosen item.1.1 item.1.2).cost * kScale ≤ kFixedSafe := by
  rcases item_available hgenes hitem with ⟨hrow, hgene⟩
  exact h.chosen_range hrow hgene

include hgenes in
theorem cheapestMethod3Wide_eq :
    ev.cheapestMethod3Wide genes = pure (ev.cheapestMethod3 genes) := by
  refine (foldlM_pure (I := fun _ => True) ?_ trivial).1
  intro item hitem best _
  refine ⟨?_, trivial⟩
  have hrow := (item_available hgenes hitem).1
  have hold := abs_le_of_scaled (h.item_range hgenes hitem)
  unfold considerMethod3Wide
  cases hcost : item.1.1 2 with
  | none => rfl
  | some cost =>
      have hnew := abs_le_of_scaled (h.accepted.cost_range hrow
        (mem_options.2 (show item.1.1 (⟨2, cost⟩ : Choice Int).method = some cost from hcost)))
      dsimp only
      rw [narrow_sub hnew hold]
      refine (pure_bind _ _).trans ?_
      cases best with
      | none => rfl
      | some found => rfl

end Scans

variable [LinearOrder F]

theorem considerMoveWide_eq {old next : Choice Int}
    (hold : 0 ≤ old.cost ∧ old.cost * kScale ≤ kFixedSafe)
    (hnext : 0 ≤ next.cost ∧ next.cost * kScale ≤ kFixedSafe) (count row : Nat)
    {best : Option (Move F)} (hbest : SafeMove best) :
    ev.considerMoveWide count row old (ev.factor old.method * old.cost) best next =
        pure (ev.considerMove count row old best next) ∧
      SafeMove (ev.considerMove count row old best next) := by
  have hlinear := h.linearWide_eq hnext
  have hgain := abs_mul_le (h.factor_le next.method) hnext
  have hloss := abs_mul_le (h.factor_le old.method) hold
  have habsNext := abs_le_of_scaled hnext
  have habsOld := abs_le_of_scaled hold
  -- A difference of two values within the bound is within twice the bound.
  have hcostDelta : |next.cost - old.cost| ≤ 2 * kFixedSafe := by
    rw [two_mul]
    exact (abs_sub _ _).trans (add_le_add habsNext habsOld)
  have hlinearDelta : |ev.factor next.method * next.cost - ev.factor old.method * old.cost| ≤
      2 * kFixedSafe := by
    rw [two_mul]
    exact (abs_sub _ _).trans (add_le_add hgain hloss)
  unfold considerMoveWide considerMove
  split
  · exact ⟨rfl, hbest⟩
  · split
    · exact ⟨rfl, hbest⟩
    · rw [hlinear, pure_bind, wide_sub hgain hloss, pure_bind]
      dsimp only
      split
      · exact ⟨rfl, hbest⟩
      · rw [narrow_sub habsNext habsOld, pure_bind]
        cases best with
        | none =>
            refine ⟨rfl, ?_⟩
            rintro move ⟨⟩
            exact ⟨hcostDelta, hlinearDelta⟩
        | some found =>
            refine ⟨rfl, ?_⟩
            dsimp only
            split
            · rintro move ⟨⟩
              exact ⟨hcostDelta, hlinearDelta⟩
            · exact hbest

theorem bestMoveWide_eq {genes : List Method} (hgenes : Available ev.model genes) :
    ev.bestMoveWide genes = pure (ev.bestMove genes) ∧ SafeMove (ev.bestMove genes) := by
  refine foldlM_pure (I := SafeMove) ?_ (by rintro move ⟨⟩)
  intro item hitem best hbest
  have hrow := (item_available hgenes hitem).1
  have hold := h.item_range hgenes hitem
  unfold rowMovesWide
  dsimp only
  rw [h.linearWide_eq hold, pure_bind]
  refine foldlM_pure (I := SafeMove) ?_ hbest
  intro next hnext best hbest
  exact h.considerMoveWide_eq hold (h.accepted.cost_range hrow hnext) _ _ hbest

theorem applyMoveWide_eq {x : Individual F} (hx : ev.Consistent x) {move : Move F}
    (hmove : ev.bestMove x.genes = some move) :
    ev.applyMoveWide x move = pure (ev.applyMove x move) := by
  rcases h.consistent_range hx with ⟨htotal, hlinear⟩
  rcases (h.bestMoveWide_eq hx.available).2 move hmove with ⟨hcost, hdelta⟩
  have hsum : narrow (x.total + move.costDelta) = pure (x.total + move.costDelta) := by
    have hbounds := abs_le.1 ((abs_add_le _ _).trans (add_le_add htotal hcost))
    unfold kFixedSafe int64Max at hbounds
    exact narrow_of ⟨by omega, by omega⟩
  have hwide : wide (x.linear + move.linearDelta) = pure (x.linear + move.linearDelta) := by
    refine wide_of_abs (((abs_add_le _ _).trans (add_le_add hlinear hdelta)).trans ?_)
    decide
  rcases ev.bestMove_candidate hmove with ⟨row, gene, hcandidate⟩
  unfold applyMoveWide applyMove
  rw [hsum, pure_bind, hwide, pure_bind]
  exact h.evaluateWide_eq (hcandidate.set_available hx.available)

/-- No pass of the loop overflows. -/
theorem repairLoopWide_eq (fuel : Nat) : ∀ {x : Individual F}, ev.Consistent x →
    ev.repairLoopWide fuel x = pure (ev.repairLoop fuel x) := by
  induction fuel with
  | zero =>
      intro x hx
      rw [repairLoopWide, repairLoop]
      split
      · rw [(h.bestMoveWide_eq hx.available).1, pure_bind]
        cases ev.bestMove x.genes with
        | none => rfl
        | some move => rfl
      · rfl
  | succ fuel ih =>
      intro x hx
      rw [repairLoopWide, repairLoop]
      split
      · rw [(h.bestMoveWide_eq hx.available).1, pure_bind]
        cases hmove : ev.bestMove x.genes with
        | none => rfl
        | some move =>
            have hy := (applyMove_spec hx hmove).1
            dsimp only
            rw [h.applyMoveWide_eq hx hmove, pure_bind, ih hy, pure_bind]
      · rfl

theorem repairRunWide_eq (fuel : Nat) {x : Individual F} (hx : Available ev.model x.genes) :
    ev.repairRunWide fuel x = pure (ev.repairRun fuel x) := by
  have hfirst : ev.Consistent (ev.evaluate x) := .ofGenes hx
  unfold repairRunWide repairRun
  rw [h.evaluateWide_eq hx, pure_bind]
  dsimp only
  split
  · rw [h.cheapestMethod3Wide_eq hfirst.available, pure_bind]
    cases hfound : ev.cheapestMethod3 (ev.evaluate x).genes with
    | none => rfl
    | some found =>
        rcases ev.cheapestMethod3_entry hfound with ⟨row, gene, hentry, hrow⟩
        have hgenes := forall₂_set hfirst.available hentry hrow
        have hy : ev.Consistent (ev.evaluate { ev.evaluate x with
            genes := (ev.evaluate x).genes.set found.1 2 }) := .ofGenes hgenes
        dsimp only
        rw [h.evaluateWide_eq hgenes, pure_bind, h.repairLoopWide_eq fuel hy, pure_bind]
  · rw [h.repairLoopWide_eq fuel hfirst, pure_bind]

theorem repairWide_eq {x : Individual F} (hx : Available ev.model x.genes) :
    ev.repairWide x = pure (ev.repair x) := by
  unfold repairWide repair
  rw [h.repairRunWide_eq _ hx]
  refine (pure_bind _ _).trans ?_
  cases ev.repairRun (2 * ev.model.costs.length) x with
  | none => rfl
  | some run => rfl

end Guarded
/-- The checked functions compute what the plain ones compute, for any available genes. -/
structure Exact [LinearOrder F] (ev : Evaluator F) : Prop where
  evaluate : ∀ {x : Individual F}, Available ev.model x.genes →
    ev.evaluateWide x = pure (ev.evaluate x)
  repair : ∀ {x : Individual F}, Available ev.model x.genes →
    ev.repairWide x = pure (ev.repair x)
  order : ∀ {a b : Individual F}, ev.Consistent a → ev.Consistent b →
    orderWide a b = pure (Evaluator.order a b)

theorem Guarded.exact [LinearOrder F] {ev : Evaluator F} (h : ev.Guarded) : ev.Exact where
  evaluate := fun hx => h.evaluateWide_eq hx
  repair := fun hx => h.repairWide_eq hx
  order := fun ha hb => h.orderWide_eq ha hb

end Evaluator

/-! ## Both searches -/

theorem encode_guarded {F : Type} {ev : Evaluator F} {input : CostMatrix} {threshold : Bytes}
    (h : encode input threshold = .ok ev.model) : ev.Guarded := by
  rcases bind_eq_ok.1 h with ⟨_, hnonempty, h⟩
  rcases bind_eq_ok.1 h with ⟨thresholdValue, hthreshold, h⟩
  rcases bind_eq_ok.1 h with ⟨costs, hcosts, h⟩
  rcases bind_eq_ok.1 h with ⟨_, haggregate, h⟩
  rcases bind_eq_ok.1 h with ⟨_, _, h⟩
  have hmodel := Except.ok.inj h
  have hencode : Optimization.encode input threshold = .ok ⟨costs, thresholdValue⟩ :=
    bind_eq_ok.2 ⟨_, hnonempty, bind_eq_ok.2 ⟨_, hthreshold, bind_eq_ok.2 ⟨_, hcosts,
      bind_eq_ok.2 ⟨_, haggregate, rfl⟩⟩⟩⟩
  rw [validateAggregate, ensure_eq_ok] at haggregate
  refine ⟨?_, ?_, ?_⟩
  · rw [← hmodel]
    exact encode_accepted hencode
  · rw [← hmodel]
  · rw [← hmodel]
    exact haggregate

theorem encodeWide_eq {input : CostMatrix} (hrows : input.length ≤ kMaxRows)
    (threshold : Bytes) : encodeWide input threshold = within (encode input threshold) := by
  unfold encodeWide encode
  rw [matrixWide_eq hrows]
  cases ensure (input ≠ []) (Error.invalid "cost matrix must not be empty") with
  | error e => rfl
  | ok _ =>
      cases parseFixedPoint threshold true with
      | error e => rfl
      | ok thresholdValue =>
          cases hcosts : input.mapM encodeRow with
          | error e => rfl
          | ok costs =>
              have hguard := aggregateWide_eq hrows hcosts
              generalize hmax : (costs.map rowMax).sum = maxTotal at hguard
              change (validateAggregateWide (0 + (costs.map rowMax).sum) >>= fun _ => _) =
                within (validateAggregate (costs.map rowMax).sum >>= fun _ => _)
              rw [hmax, hguard, within_bind]
              refine congrArg _ (funext fun _ => ?_)
              rw [within_bind]
              refine congrArg _ (funext fun _ => ?_)
              rw [zero_add]
              rfl

/-- The guard on the sum of the row maxima is enough: for every matrix of up to two to the power of
40 rows neither the guard itself nor any later computation on integers overflows. -/
theorem guard_prevents_overflow {matrix : CostMatrix} (hrows : matrix.length ≤ 2 ^ 40)
    (threshold : Bytes) :
    (Optimization.encodeWide matrix threshold = within (Optimization.encode matrix threshold) ∧
      ∀ model, Optimization.encode matrix threshold = .ok model → SolverExact model) ∧
    (encodeWide matrix threshold = within (encode matrix threshold) ∧
      ∀ model, encode matrix threshold = .ok model →
        ∀ (F : Type) [LinearOrder F] (ev : Evaluator F), ev.model = model → ev.Exact) := by
  refine ⟨⟨Optimization.encodeWide_eq hrows threshold, fun model hencode => ?_⟩,
    encodeWide_eq hrows threshold, fun model hencode F _ ev hmodel => ?_⟩
  · exact solverExact_of_accepted (encode_accepted hencode)
  · rw [← hmodel] at hencode
    exact (encode_guarded hencode).exact

theorem guard_prevents_overflow_evenRows :
    (Optimization.encodeWide
          [![some [49], some [49], some [49]], ![some [49], some [49], some [49]]] [48] =
        within (Optimization.encode
          [![some [49], some [49], some [49]], ![some [49], some [49], some [49]]] [48]) ∧
      ∀ model, Optimization.encode
          [![some [49], some [49], some [49]], ![some [49], some [49], some [49]]] [48] =
            .ok model → SolverExact model) ∧
    (encodeWide [![some [49], some [49], some [49]], ![some [49], some [49], some [49]]] [48] =
        within (encode
          [![some [49], some [49], some [49]], ![some [49], some [49], some [49]]] [48]) ∧
      ∀ model, encode
          [![some [49], some [49], some [49]], ![some [49], some [49], some [49]]] [48] =
            .ok model →
        ∀ (F : Type) [LinearOrder F] (ev : Evaluator F), ev.model = model → ev.Exact) :=
  guard_prevents_overflow (by decide) [48]

end Scalable
end Optimization
end SociSgx

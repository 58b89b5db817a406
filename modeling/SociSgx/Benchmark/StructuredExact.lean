import SociSgx.Optimizer.Assignment
import SociSgx.Optimizer.FixedPoint
import SociSgx.Lib.Exec

/-!
# StructuredExact — the exact solver of the benchmarks

`structured_exact::solve` takes the cheapest method of every row if that is feasible.  Otherwise it
reduces every row to at most one binary decision, and searches for the cheapest set of decisions
that lifts the linear constraint to zero; a set without any positive method 3 is repaired by one
further row.  Every sum that may overflow is checked.
-/

namespace SociSgx
namespace StructuredExact

open Exec Optimization

/-- `structured_exact::Row` -/
abbrev Row := CostRow Int

/-- `std::runtime_error`, by its text. -/
abbrev Checked : Type → Type :=
  Except String

def checkedI128 (x : Int) (what : String) : Checked Int :=
  if -2 ^ 127 ≤ x ∧ x < 2 ^ 127 then .ok x else .error ("int128 overflow in " ++ what)

def checkedAdd (left right : Int) (what : String) : Checked Int :=
  checkedI128 (left + right) what

def checkedSub (left right : Int) (what : String) : Checked Int :=
  checkedI128 (left - right) what

def checkedMul (left right : Int) (what : String) : Checked Int :=
  checkedI128 (left * right) what

def checkedI64 (x : Int) (what : String) : Checked Int :=
  if -2 ^ 63 ≤ x ∧ x ≤ int64Max then .ok x else .error ("int64 overflow in " ++ what)

def floorDiv (numerator denominator : Int) : Checked Int := do
  ensure (0 < denominator) "nonpositive floor divisor"
  let quotient := numerator.tdiv denominator
  let remainder := numerator.tmod denominator
  return if remainder < 0 then quotient - 1 else quotient

/-! ## Rows -/

/-- `*rows[i].cost[m]` -/
def costOf (row : Row) (m : Method) : Int :=
  (row m).getD 0

/-- `g_term` -/
def gTerm (threshold : Int) (m : Method) (cost : Int) : Int :=
  if m = 2 then -threshold * cost else (kScale - threshold) * cost

/-- A sum over the rows and the methods of a solution. -/
def rowSum (f : Row → Method → Int) (rows : List Row) (solution : List Method) : Int :=
  (List.zipWith f rows solution).sum

def totalOf : List Row → List Method → Int :=
  rowSum costOf

/-- `(kScale - T) * C12 - T * C3` -/
def gOf (threshold : Int) : List Row → List Method → Int :=
  rowSum fun row m => gTerm threshold m (costOf row m)

def c3Of : List Row → List Method → Int :=
  rowSum fun row m => if m = 2 then costOf row m else 0

/-- `positive_m3_count` -/
def positiveM3Count : List Row → List Method → Int :=
  rowSum fun row m => if m = 2 ∧ 0 < costOf row m then 1 else 0

def objectiveOf (rows : List Row) (solution : List Method) : Checked Int :=
  checkedI64 (totalOf rows solution) "objective"

/-! ## Results -/

/-- The counters of `structured_exact::Metrics`. -/
structure Metrics where
  totalRows : Nat := 0
  fixedNoM3Rows : Nat := 0
  fixedDominatedRows : Nat := 0
  decisionRows : Nat := 0
  nodesVisited : Nat := 0
  maxDepth : Nat := 0
  coverCompletionCount : Nat := 0
  feasibilityPruneCount : Nat := 0
  costPruneCount : Nat := 0
  incumbentUpdateCount : Nat := 0
  rhsPositivePruneCount : Nat := 0
  lagrangianGridSize : Nat := 0
  lagrangianBoundEvaluationCount : Nat := 0
  lagrangianPruneCount : Nat := 0
  cheapestFastPathHit : Bool := false
  deriving DecidableEq, Repr

inductive SolveStatus where
  | none
  | cheapestGlobalOptimum
  | optimalVerified
  | infeasible
  | nodeLimit
  deriving DecidableEq, Repr

structure Result where
  feasible : Bool := false
  status : SolveStatus := .none
  solution : List Method := []
  objective : Int := 0
  metrics : Metrics := {}
  deriving DecidableEq, Repr

/-- One available method per row. -/
def OneHot (rows : List Row) (solution : List Method) : Prop :=
  List.Forall₂ (fun row m => (row m).isSome = true) rows solution

instance (rows : List Row) (solution : List Method) : Decidable (OneHot rows solution) :=
  inferInstanceAs (Decidable (List.Forall₂ _ _ _))

/-- `validate`, with the text it leaves in `error`. -/
def validate (rows : List Row) (threshold : Int) (result : Result) : Checked Unit := do
  ensure (result.solution.length = rows.length) "solution size"
  ensure (OneHot rows result.solution) "one-hot/availability"
  ensure (0 < c3Of rows result.solution) "rhs_positive"
  ensure (0 ≤ gOf threshold rows result.solution) "ratio"
  ensure (totalOf rows result.solution = result.objective) "objective"

/-! ## The reduction -/

/-- A row whose method 3 is cheaper: `m12` may replace it for `extra`, and lifts `g` by `gain`. -/
structure Decision where
  row : Nat
  m12 : Method
  extra : Int
  gain : Int
  deriving DecidableEq, Repr

/-- A row whose method 3 is not cheaper. -/
structure Dominated where
  row : Nat
  extra : Int
  loss : Int
  deriving DecidableEq, Repr

/-- What the loop over the rows builds. -/
structure Plan where
  base : List Method := []
  decisions : List Decision := []
  dominated : List Dominated := []
  fixedNoM3Rows : Nat := 0
  fixedDominatedRows : Nat := 0
  deriving DecidableEq, Repr

/-- The first method of least cost. -/
def cheapestMethod (row : Row) : Option Method :=
  (List.finRange 3).foldl (fun best j =>
    match row j, best with
    | none, _ => best
    | some _, none => some j
    | some x, some b => if x < costOf row b then some j else some b) none

/-- The cheaper one of the methods 1 and 2. -/
def cheaper12 (row : Row) : Method :=
  match row 0, row 1 with
  | some a, some b => if a ≤ b then 0 else 1
  | some _, none => 0
  | none, _ => 1

/-- The body of the loop, for row `i`. -/
def classifyRow (threshold : Int) (i : Nat) (row : Row) : Checked Plan :=
  let am := cheaper12 row
  match row am, row 2 with
  | none, none => .error "row has no available method"
  | some _, none => .ok { base := [am], fixedNoM3Rows := 1 }
  | none, some _ => .ok { base := [2] }
  | some a, some b => do
      let weight := (kScale - threshold) * a + threshold * b
      -- the cheaper of 1 and 2 costs no more than 3, so this row costs extra only for having a 3
      if a ≤ b then
        let extra ← checkedI64 (b - a) "dominance extra"
        return { base := [am], dominated := [⟨i, extra, weight⟩], fixedDominatedRows := 1 }
      else
        let extra ← checkedI64 (a - b) "decision extra"
        return { base := [2], decisions := [⟨i, am, extra, weight⟩] }

def Plan.append (plan plan' : Plan) : Plan :=
  { base := plan.base ++ plan'.base
    decisions := plan.decisions ++ plan'.decisions
    dominated := plan.dominated ++ plan'.dominated
    fixedNoM3Rows := plan.fixedNoM3Rows + plan'.fixedNoM3Rows
    fixedDominatedRows := plan.fixedDominatedRows + plan'.fixedDominatedRows }

/-- The loop over the rows from `i` on. -/
def classify (threshold : Int) : Nat → List Row → Checked Plan
  | _, [] => .ok {}
  | i, row :: rows => do
      let first ← classifyRow threshold i row
      let plan ← classify threshold (i + 1) rows
      return first.append plan

/-! ## The search -/

/-- `mu = p / q` -/
structure Lambda where
  p : Int
  q : Int
  deriving DecidableEq, Repr

def kLagrangianGrid : List Lambda :=
  [⟨0, 1⟩, ⟨1, 64⟩, ⟨1, 32⟩, ⟨1, 16⟩, ⟨1, 8⟩, ⟨3, 16⟩, ⟨1, 4⟩, ⟨3, 8⟩, ⟨1, 2⟩, ⟨3, 4⟩, ⟨1, 1⟩,
    ⟨5, 4⟩, ⟨3, 2⟩, ⟨2, 1⟩, ⟨3, 1⟩]

/-- The members of `Search` that do not change. -/
structure Search where
  rows : List Row
  decisions : List Decision
  dominated : List Dominated
  g0 : Int
  required : Int
  maxNodes : Nat
  enableLagrangian : Bool
  suffixGain : List Int
  suffixLagrangian : List (List Int)

/-- The members that change, except for `current_`, which the functions below take as an argument:
a visit leaves it as it was. -/
structure SearchState where
  metrics : Metrics := {}
  found : Bool := false
  bestExtra : Int := 0
  best : List Method := []
  limitReached : Bool := false
  deriving DecidableEq, Repr

abbrev SearchM : Type → Type :=
  EStateM String SearchState

/-- `suffix_gain_`, filled from the end. -/
def suffixGains : List Decision → Checked (List Int)
  | [] => .ok [0]
  | d :: rest => do
      let sums ← suffixGains rest
      let sum ← checkedAdd (sums.headD 0) d.gain "B1 suffix gain"
      return sum :: sums

def lagrangianTerm (lambda : Lambda) (d : Decision) : Checked Int := do
  let scaled ← checkedMul d.extra lambda.q "B2 extra*q"
  let scaledExtra ← checkedMul scaled kScale "B2 extra*q*scale"
  let weightedGain ← checkedMul lambda.p d.gain "B2 p*gain"
  let difference ← checkedSub scaledExtra weightedGain "B2 Lagrangian term"
  return min 0 difference

/-- A row of `suffix_lagrangian_`. -/
def suffixTerms (lambda : Lambda) : List Decision → Checked (List Int)
  | [] => .ok [0]
  | d :: rest => do
      let sums ← suffixTerms lambda rest
      let term ← lagrangianTerm lambda d
      let sum ← checkedAdd (sums.headD 0) term "B2 suffix term"
      return sum :: sums

/-- The constructor of `Search`. -/
def newSearch (rows : List Row) (plan : Plan) (g0 required : Int) (maxNodes : Nat)
    (enableLagrangian : Bool) : Checked Search := do
  let gains ← suffixGains plan.decisions
  let terms ← (if enableLagrangian then kLagrangianGrid else []).mapM fun lambda =>
    suffixTerms lambda plan.decisions
  return {
    rows := rows
    decisions := plan.decisions
    dominated := plan.dominated
    g0 := g0
    required := required
    maxNodes := maxNodes
    enableLagrangian := enableLagrangian
    suffixGain := gains
    suffixLagrangian := terms }

def count (f : Metrics → Metrics) : SearchM Unit :=
  modify fun s => { s with metrics := f s.metrics }

namespace Search

variable (c : Search)

/-- The loop over `dominated_` in `submit`: the first one of least extra cost that has a positive
method 3 and keeps the ratio. -/
def provider (gain : Int) : Option Dominated :=
  c.dominated.foldl (fun best d =>
    if costOf (c.rows.getD d.row fun _ => none) 2 ≤ 0 then best
    else if c.g0 + gain - d.loss < 0 then best
    else match best with
      | none => some d
      | some b => if d.extra < b.extra then some d else some b) none

def rejectCandidate : SearchM Unit :=
  count fun m => { m with rhsPositivePruneCount := m.rhsPositivePruneCount + 1 }

/-- The end of `submit`. -/
def offer (candidate : List Method) (extra gain : Int) : SearchM Unit := do
  let s ← get
  if c.g0 + gain < 0 then
    rejectCandidate
  else if s.found = false ∨ extra < s.bestExtra then
    set { s with
      found := true
      bestExtra := extra
      best := candidate
      metrics := { s.metrics with incumbentUpdateCount := s.metrics.incumbentUpdateCount + 1 } }

def dominatedLoss (row : Nat) : Int :=
  ((c.dominated.find? fun d => d.row = row).map Dominated.loss).getD 0

def submit (current : List Method) (gain extra : Int) (rhs : Bool) : SearchM Unit :=
  if rhs then
    c.offer current extra gain
  else
    match c.provider gain with
    | none => rejectCandidate
    | some d => do
        let extra' ← lift (checkedI64 (extra + d.extra) "provider extra cost")
        let gain' ← lift (checkedSub gain (c.dominatedLoss d.row) "provider gain loss")
        c.offer (current.set d.row 2) extra' gain'

/-- The loop over the grid; `0` is the start value. -/
def gridBound (depth : Nat) (residual : Int) : Checked Int :=
  (kLagrangianGrid.zip c.suffixLagrangian).foldlM (fun bound x => do
    let product ← checkedMul x.1.p residual "B2 p*residual"
    let numerator ← checkedAdd product (x.2.getD depth 0) "B2 numerator"
    let denominator ← checkedMul x.1.q kScale "B2 denominator"
    let quotient ← floorDiv numerator denominator
    return max bound quotient) 0

def lagrangianLowerBound (depth : Nat) (residual : Int) : SearchM Int :=
  if residual ≤ 0 then
    pure 0
  else do
    count fun m => { m with
      lagrangianBoundEvaluationCount := m.lagrangianBoundEvaluationCount + 1 }
    lift (c.gridBound depth residual)

/-- The Lagrangian cut, when there is an incumbent. -/
def lagrangianCuts (depth : Nat) (gain cost : Int) : SearchM Bool := do
  let lowerBound ← c.lagrangianLowerBound depth (c.required - gain)
  let total ← lift (checkedAdd cost lowerBound "B2 current+bound")
  let s ← get
  if s.bestExtra ≤ total then
    count fun m => { m with lagrangianPruneCount := m.lagrangianPruneCount + 1 }
    return true
  else
    return false

/-- The tests of `visit` before it branches, in their order; `true` when it returns. -/
def settles (depth : Nat) (gain cost m3Count : Int) (current : List Method) : SearchM Bool := do
  let s ← get
  if s.limitReached = true then
    return true
  -- the node that reaches the limit is not counted
  else if c.maxNodes ≠ 0 ∧ c.maxNodes ≤ s.metrics.nodesVisited then
    set { s with limitReached := true }
    return true
  else
    count fun m => { m with
      nodesVisited := m.nodesVisited + 1, maxDepth := max m.maxDepth depth }
    if c.required ≤ gain then
      count fun m => { m with coverCompletionCount := m.coverCompletionCount + 1 }
      c.submit current gain cost (decide (0 < m3Count))
      return true
    else if gain + c.suffixGain.getD depth 0 < c.required then
      count fun m => { m with feasibilityPruneCount := m.feasibilityPruneCount + 1 }
      return true
    else if s.found = true ∧ s.bestExtra ≤ cost then
      count fun m => { m with costPruneCount := m.costPruneCount + 1 }
      return true
    -- the Lagrangian bound needs an incumbent, as the plain cost bound does
    else if s.found = true ∧ c.enableLagrangian = true then
      c.lagrangianCuts depth gain cost
    else
      return false

/-- `*rows_[d.row].cost[2] > 0 ? 1 : 0` -/
def providesM3 (d : Decision) : Int :=
  if 0 < costOf (c.rows.getD d.row fun _ => none) 2 then 1 else 0

/-- `visit`; the decisions from `depth` on are the argument. -/
def visit : List Decision → Nat → Int → Int → Int → List Method → SearchM Unit
  | [], depth, gain, cost, m3Count, current => do
      let settled ← c.settles depth gain cost m3Count current
      if settled then
        pure ()
      else
        count fun m => { m with feasibilityPruneCount := m.feasibilityPruneCount + 1 }
  | d :: rest, depth, gain, cost, m3Count, current => do
      let settled ← c.settles depth gain cost m3Count current
      if settled then
        pure ()
      else
        let gain' ← lift (checkedAdd gain d.gain "branch gain")
        let cost' ← lift (checkedI64 (cost + d.extra) "cover cost")
        visit rest (depth + 1) gain' cost' (m3Count - c.providesM3 d) (current.set d.row d.m12)
        -- the first branch may have reached the limit
        let s ← get
        if s.limitReached = true then
          pure ()
        else
          visit rest (depth + 1) gain cost m3Count current

/-- The sums after the loop that takes decisions in row order until the cover is met. -/
structure Seed where
  gain : Int
  cost : Int
  m3 : Int
  current : List Method

def seed : List Decision → Seed → Checked Seed
  | [], x => .ok x
  | d :: rest, x =>
      if x.gain < c.required then do
        let gain ← checkedAdd x.gain d.gain "seed gain"
        let cost ← checkedI64 (x.cost + d.extra) "seed cover cost"
        seed rest ⟨gain, cost, x.m3 - c.providesM3 d, x.current.set d.row d.m12⟩
      else
        .ok x

def run (base : List Method) : SearchM Unit := do
  let m3 := positiveM3Count c.rows base
  if 0 < c.required then
    -- the seed gives the search an incumbent; an empty cover needs none
    let x ← lift (c.seed c.decisions ⟨0, 0, m3, base⟩)
    if c.required ≤ x.gain then
      c.submit x.current x.gain x.cost (decide (0 < x.m3))
  c.visit c.decisions 0 0 0 m3 base

end Search

/-! ## The solver -/

/-- The loop that sums `g_term` over the base methods. -/
def baselineG (threshold : Int) : List Row → List Method → Int → Checked Int
  | row :: rows, m :: base, g0 => do
      let g0 ← checkedAdd g0 (gTerm threshold m (costOf row m)) "baseline G"
      baselineG threshold rows base g0
  | _, _, g0 => .ok g0

def reduceAndSearch (rows : List Row) (threshold : Int) (maxNodes : Nat)
    (enableLagrangian : Bool) : Checked Result := do
  let plan ← classify threshold 0 rows
  let g0 ← baselineG threshold rows plan.base 0
  let required := if g0 < 0 then -g0 else 0
  let baseObjective ← objectiveOf rows plan.base
  let search ← newSearch rows plan g0 required maxNodes enableLagrangian
  let metrics : Metrics := {
    totalRows := rows.length
    fixedNoM3Rows := plan.fixedNoM3Rows
    fixedDominatedRows := plan.fixedDominatedRows
    decisionRows := plan.decisions.length
    lagrangianGridSize := if enableLagrangian then kLagrangianGrid.length else 0 }
  match search.run plan.base { metrics := metrics } with
  | .error what _ => .error what
  | .ok _ s =>
      if s.found = false then
        return {
          status := if s.limitReached then .nodeLimit else .infeasible
          metrics := s.metrics }
      else do
        let objective ← checkedI64 (baseObjective + s.bestExtra) "final objective"
        let result : Result := {
          feasible := true
          status := if s.limitReached then .nodeLimit else .optimalVerified
          solution := s.best
          objective := objective
          metrics := s.metrics }
        -- what was found is summed up again from the matrix
        match validate rows threshold result with
        | .error what => .error ("internal validation failed: " ++ what)
        | .ok _ => return result

def solve (rows : List Row) (threshold : Int) (maxNodes : Nat) (enableLagrangian : Bool) :
    Checked Result := do
  ensure (0 ≤ threshold ∧ threshold < kScale) "threshold must satisfy 0 <= T < 1"
  let cheapest ← rows.mapM fun row =>
    match cheapestMethod row with
    | none => Except.error "row has no available method"
    | some m => .ok m
  let objective ← objectiveOf rows cheapest
  let cheap : Result := { solution := cheapest, objective := objective }
  match validate rows threshold cheap with
  | .ok _ =>
      return { cheap with
        feasible := true
        status := .cheapestGlobalOptimum
        metrics := {
          totalRows := rows.length
          cheapestFastPathHit := true
          lagrangianGridSize := if enableLagrangian then kLagrangianGrid.length else 0 } }
  | .error _ => reduceAndSearch rows threshold maxNodes enableLagrangian

end StructuredExact
end SociSgx

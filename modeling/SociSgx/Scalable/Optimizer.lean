import SociSgx.Optimizer.PlainSolver

/-!
# Optimizer — the plaintext genetic search of `ScalableOptimizer`

The search keeps a population of method vectors, repairs the infeasible ones greedily, and returns
the best feasible individual it has met.  The generator's output is a stream of draws.

`long double` is a parameter: the operations may round as they like, only the comparisons have to
be those of a linear order.  `exact` does not round.
-/

namespace SociSgx
namespace Optimization

/-- A `double` of the configuration as far as the code looks at it: whether it lies between 0 and 1,
and for which draws `unit` is below it. -/
structure Rate where
  inUnitInterval : Bool
  exceeds : UInt64 → Bool

namespace Scalable

open Exec

/-- The operations on `long double` that the code uses. -/
structure LongDouble (F : Type) where
  ofInt : Int → F
  add : F → F → F
  mul : F → F → F
  div : F → F → F

def exact : LongDouble ℚ where
  ofInt := fun n => n
  add := (· + ·)
  mul := (· * ·)
  div := (· / ·)

/-! ## The model -/

/-- `scale` is `kScale` for every model that `encode` makes. -/
structure Model where
  costs : List (CostRow Int)
  threshold : Int
  maxTotal : Int
  scale : Int := kScale

def encode (input : CostMatrix) (threshold : Bytes) : Except Error Model := do
  ensure (input ≠ []) (Error.invalid "cost matrix must not be empty")
  let thresholdValue ← parseFixedPoint threshold true
  let costs ← input.mapM encodeRow
  let maxTotal := (costs.map rowMax).sum
  validateAggregate maxTotal
  ensure (costs.any (fun row => (row 2).isSome) = true)
    (.optimization .noFeasibleSolution "ratio requires an available method3")
  return { costs := costs, threshold := thresholdValue, maxTotal := maxTotal }

/-- The sums over the rows. -/
structure Sums where
  total : Int := 0
  c12 : Int := 0
  c3 : Int := 0
  linear : Int := 0
  deriving DecidableEq, Repr

structure Individual (F : Type) extends Sums where
  genes : List Method
  fitness : F
  feasible : Bool := false
  deriving DecidableEq

/-- `*model.costs[i][method]` with its method; the code only asks for available ones. -/
def chosen (row : CostRow Int) (method : Method) : Choice Int :=
  ⟨method, (row method).getD 0⟩

/-- The choices behind a method vector. -/
def choices (model : Model) (genes : List Method) : List (Choice Int) :=
  List.zipWith chosen model.costs genes

/-- What `evaluate` and `repair` are given besides the individual. -/
structure Evaluator (F : Type) where
  model : Model
  arithmetic : LongDouble F
  penalty : F

namespace Evaluator

variable {F : Type} [LinearOrder F] (ev : Evaluator F)

/-! ## Evaluation -/

/-- The factor of a cost in the linear constraint. -/
def factor (method : Method) : Int :=
  coefficient ev.model.scale ev.model.threshold method

def addChoice (sums : Sums) (c : Choice Int) : Sums :=
  if c.method < 2 then
    { sums with
      total := sums.total + c.cost
      c12 := sums.c12 + c.cost
      linear := sums.linear + ev.factor c.method * c.cost }
  else
    { sums with
      total := sums.total + c.cost
      c3 := sums.c3 + c.cost
      linear := sums.linear + ev.factor c.method * c.cost }

def fitness (sums : Sums) (feasible : Bool) : F :=
  let a := ev.arithmetic
  let violation := if sums.linear < 0 then
    a.div (a.ofInt (-sums.linear)) (a.ofInt ev.model.scale) else a.ofInt 0
  let missingC3 := if sums.c3 = 0 then a.ofInt (ev.model.maxTotal + 1) else a.ofInt 0
  a.add (a.ofInt sums.total) (if feasible then a.ofInt 0 else
    a.mul ev.penalty (a.add (a.add (a.ofInt 1) violation) missingC3))

def evaluate (x : Individual F) : Individual F :=
  let sums := (choices ev.model x.genes).foldl ev.addChoice {}
  let feasible := decide (0 ≤ sums.linear ∧ 0 < sums.c3 ∧ 0 < sums.total)
  { toSums := sums
    genes := x.genes
    fitness := ev.fitness sums feasible
    feasible := feasible }

/-- A vector of genes before its evaluation. -/
def fresh (genes : List Method) : Individual F :=
  { genes := genes, fitness := ev.arithmetic.ofInt 0 }

/-- `order(a, b)`: whether `a` comes before `b`. -/
def order (a b : Individual F) : Bool :=
  if a.feasible ≠ b.feasible then
    a.feasible
  else if a.feasible then
    if a.total ≠ b.total then
      decide (a.total < b.total)
    else
      -- Both linear values are nonnegative: the cross products compare the ratios.
      let lhs := a.linear * b.total
      let rhs := b.linear * a.total
      if lhs ≠ rhs then decide (lhs < rhs) else decide (a.genes < b.genes)
  else if a.fitness ≠ b.fitness then
    decide (a.fitness < b.fitness)
  else
    decide (a.genes < b.genes)

/-! ## Repair -/

/-- A change of one gene that the scan of `repair` has found. -/
structure Move (F : Type) where
  ratio : F
  row : Nat
  method : Method
  costDelta : Int
  linearDelta : Int

/-- The rows with the genes of an individual and their numbers. -/
def rowGenes (genes : List Method) : List ((CostRow Int × Method) × Nat) :=
  (ev.model.costs.zip genes).zipIdx

/-- The row with an available method 3 whose change to it costs least. -/
def cheapestMethod3 (genes : List Method) : Option (Nat × Int) :=
  (ev.rowGenes genes).foldl (fun best item =>
    match item.1.1 2 with
    | none => best
    | some cost =>
        let delta := cost - (chosen item.1.1 item.1.2).cost
        match best with
        | none => some (item.2, delta)
        | some found => if delta < found.2 then some (item.2, delta) else best) none

def method3Count (genes : List Method) : Nat :=
  genes.count 2

/-- `ratio<best_ratio||(ratio==best_ratio&&...)` -/
def Move.precedes (move best : Move F) : Bool :=
  decide (move.ratio < best.ratio) ||
    (decide (move.ratio = best.ratio) &&
      (decide (move.row < best.row) || (decide (move.row = best.row) &&
        decide (move.method < best.method))))

def considerMove (count row : Nat) (old : Choice Int) (best : Option (Move F))
    (next : Choice Int) : Option (Move F) :=
  if next.method = old.method then
    best
  -- the last row with method 3 keeps it
  else if old.method = 2 ∧ next.method ≠ 2 ∧ count = 1 then
    best
  else
    let linearDelta := ev.factor next.method * next.cost - ev.factor old.method * old.cost
    -- only a move that raises the linear sum repairs anything
    if linearDelta ≤ 0 then
      best
    else
      let costDelta := next.cost - old.cost
      let move := ⟨ev.arithmetic.div (ev.arithmetic.ofInt costDelta)
        (ev.arithmetic.ofInt linearDelta), row, next.method, costDelta, linearDelta⟩
      match best with
      | none => some move
      | some found => if move.precedes found then some move else best

def bestMove (genes : List Method) : Option (Move F) :=
  (ev.rowGenes genes).foldl (fun best item =>
    (options item.1.1).foldl
      (ev.considerMove (method3Count genes) item.2 (chosen item.1.1 item.1.2)) best) none

def applyMove (x : Individual F) (move : Move F) : Individual F :=
  ev.evaluate { x with
    genes := x.genes.set move.row move.method
    total := x.total + move.costDelta
    linear := x.linear + move.linearDelta }

/-- `while(x.linear<0)`: the individuals after the passes, and what `repair` returns.  Without fuel
for another pass there is no result. -/
def repairLoop : Nat → Individual F → Option (List (Individual F) × Bool)
  | fuel, x =>
      if x.linear < 0 then
        match ev.bestMove x.genes with
        | none => some ([], false)
        | some move =>
            match fuel with
            | 0 => none
            | fuel + 1 =>
                let y := ev.applyMove x move
                (repairLoop fuel y).map fun run => (y :: run.1, run.2)
      else
        some ([], x.feasible)

/-- The individuals after the first evaluation and after every change, and what `repair` returns. -/
def repairRun (fuel : Nat) (x : Individual F) : Option (List (Individual F) × Bool) :=
  let x := ev.evaluate x
  if x.c3 = 0 then
    match ev.cheapestMethod3 x.genes with
    | none => some ([x], false)
    | some found =>
        let y := ev.evaluate { x with genes := x.genes.set found.1 2 }
        (ev.repairLoop fuel y).map fun run => (x :: y :: run.1, run.2)
  else
    (ev.repairLoop fuel x).map fun run => (x :: run.1, run.2)

/-- `repair`: two passes for a row are fuel enough, which `repairRun_terminates` shows. -/
def repair (x : Individual F) : Individual F × Bool :=
  match ev.repairRun (2 * ev.model.costs.length) x with
  | none => (x, false)
  | some run => (run.1.getLastD x, run.2)

end Evaluator

/-! ## The run -/

structure GeneticSolverConfig (F : Type) where
  population : Nat := 256
  generations : Nat := 1000
  elitism : Nat := 8
  tournamentSize : Nat := 4
  crossoverRate : Rate
  mutationRate : Rate
  infeasiblePenaltyMultiplier : F
  seed : UInt64 := 0x534f43494741

/-- The local counters of `optimize`, and the number of draws taken so far. -/
structure Tally where
  drawn : Nat := 0
  candidates : Nat := 0
  preRepairFeasible : Nat := 0
  repairAttempts : Nat := 0
  repairSuccesses : Nat := 0
  deriving DecidableEq, Repr

abbrev RunM : Type → Type := EStateM Error Tally

/-- `rng()` -/
def rng (draws : Nat → UInt64) : RunM UInt64 := do
  let tally ← get
  set { tally with drawn := tally.drawn + 1 }
  return draws tally.drawn

/-- `rng() % size` -/
def index (draws : Nat → UInt64) (size : Nat) : RunM Nat := do
  let draw ← rng draws
  return draw.toNat % size

/-- The best individual, when there is one, with its generation. -/
abbrev Best (F : Type) := Option (Individual F × Nat)

/-- The result before the divisions: `total_cost` is `total / kScale`, `ratio` is `c12 / total`, and
a rate is the quotient of two counters.  `convergence_costs` holds `none` for NaN. -/
structure ScalableOptimizationResult where
  solution : List Int
  total : Int
  c12 : Int
  generation : Nat
  feasible : Nat
  tally : Tally
  convergence : List (Option Int)

namespace Evaluator

variable {F : Type} [LinearOrder F] (ev : Evaluator F)

def prepare (x : Individual F) : RunM (Individual F) := do
  let x := ev.evaluate x
  modify fun tally => { tally with candidates := tally.candidates + 1 }
  if x.feasible then
    modify fun tally => { tally with preRepairFeasible := tally.preRepairFeasible + 1 }
    return x
  else
    modify fun tally => { tally with repairAttempts := tally.repairAttempts + 1 }
    let repaired := ev.repair x
    if repaired.2 then
      modify fun tally => { tally with repairSuccesses := tally.repairSuccesses + 1 }
    return ev.evaluate repaired.1

def randomGene (draws : Nat → UInt64) (row : CostRow Int) : RunM Method := do
  let i ← index draws (options row).length
  return ((options row).map Choice.method).getD i 0

def randomIndividual (draws : Nat → UInt64) : RunM (Individual F) := do
  let genes ← ev.model.costs.mapM (randomGene draws)
  ev.prepare (ev.fresh genes)

/-- `std::min_element`: the first of the least. -/
def cheapestGene (row : CostRow Int) : Method :=
  ((options row).tail.foldl (fun (least : Choice Int) c =>
    if c.cost < least.cost then c else least) ((options row).headD ⟨0, 0⟩)).method

def cheapest : RunM (Individual F) :=
  ev.prepare (ev.fresh (ev.model.costs.map cheapestGene))

def randomIndividuals (draws : Nat → UInt64) : Nat → RunM (List (Individual F))
  | 0 => return []
  | count + 1 => do
      let x ← ev.randomIndividual draws
      let rest ← randomIndividuals draws count
      return x :: rest

/-- The loop of `retain_best`. -/
def retainBest (generation : Nat) (population : List (Individual F)) (best : Best F) : Best F :=
  population.foldl (fun best x =>
    match best with
    | none => if x.feasible then some (x, generation) else none
    | some (old, _) => if x.feasible && order x old then some (x, generation) else best) best

/-- `std::sort` with `order`. -/
def sorted (population : List (Individual F)) : List (Individual F) :=
  population.insertionSort fun a b => order b a = false

/-- The rounds of a tournament after the first draw. -/
def selectRounds (draws : Nat → UInt64) (population : List (Individual F)) :
    Nat → Individual F → RunM (Individual F)
  | 0, winner => return winner
  | rounds + 1, winner => do
      let i ← index draws population.length
      let challenger := population.getD i winner
      selectRounds draws population rounds (if order challenger winner then challenger else winner)

def select (draws : Nat → UInt64) (tournamentSize : Nat) (population : List (Individual F)) :
    RunM (Individual F) := do
  let i ← index draws population.length
  selectRounds draws population (tournamentSize - 1) (population.getD i (ev.fresh []))

def crossover (draws : Nat → UInt64) (rate : Rate) (genes other : List Method) :
    RunM (List Method) := do
  let draw ← rng draws
  if rate.exceeds draw then
    (genes.zip other).mapM fun pair => do
      let draw ← rng draws
      return if draw &&& 1 = 1 then pair.2 else pair.1
  else
    return genes

def mutateGene (draws : Nat → UInt64) (rate : Rate) (row : CostRow Int) (gene : Method) :
    RunM Method := do
  let draw ← rng draws
  let available := (options row).map Choice.method
  if rate.exceeds draw ∧ 1 < available.length then do
    let i ← index draws available.length
    let method := available.getD i 0
    if method = gene then
      return available.getD ((available.idxOf method + 1) % available.length) 0
    else
      return method
  else
    return gene

def mutate (draws : Nat → UInt64) (rate : Rate) (genes : List Method) : RunM (List Method) :=
  (ev.model.costs.zip genes).mapM fun item => mutateGene draws rate item.1 item.2

/-- The body of `while(next.size()<config_.population)`. -/
def child (config : GeneticSolverConfig F) (draws : Nat → UInt64)
    (population : List (Individual F)) : RunM (Individual F) := do
  let child ← ev.select draws config.tournamentSize population
  let other ← ev.select draws config.tournamentSize population
  let genes ← crossover draws config.crossoverRate child.genes other.genes
  let genes ← ev.mutate draws config.mutationRate genes
  ev.prepare { child with genes := genes }

def childrenOf (config : GeneticSolverConfig F) (draws : Nat → UInt64)
    (population : List (Individual F)) : Nat → RunM (List (Individual F))
  | 0 => return []
  | count + 1 => do
      let x ← ev.child config draws population
      let rest ← childrenOf config draws population count
      return x :: rest

/-- The population after a generation. -/
def nextPopulation (config : GeneticSolverConfig F) (draws : Nat → UInt64)
    (population : List (Individual F)) : RunM (List (Individual F)) := do
  let ordered := sorted population
  let elite := ordered.take config.elitism
  let next ← ev.childrenOf config draws ordered (config.population - elite.length)
  return elite ++ next

/-- The populations of a run, from the first to the last; the source keeps the current one only. -/
abbrev History (F : Type) := List (List (Individual F))

def generationsFrom (config : GeneticSolverConfig F) (draws : Nat → UInt64) :
    Nat → List (Individual F) → RunM (History F)
  | 0, _ => return []
  | count + 1, population => do
      let next ← ev.nextPopulation config draws population
      let rest ← generationsFrom config draws count next
      return next :: rest

/-- `best` and `convergence` after the generations, which `retain_best` updates one by one. -/
def retained : Nat → History F → Best F → List (Option Int) × Best F
  | _, [], best => ([], best)
  | generation, population :: history, best =>
      let best := retainBest generation population best
      let rest := retained (generation + 1) history best
      (best.map (fun found => found.1.total) :: rest.1, rest.2)

def history (config : GeneticSolverConfig F) (draws : Nat → UInt64) : RunM (History F) := do
  let first ← ev.cheapest
  let rest ← ev.randomIndividuals draws (config.population - 1)
  let population := first :: rest
  let later ← ev.generationsFrom config draws config.generations population
  return population :: later

end Evaluator

/-- The checks of the constructor. -/
def checkConfig {F : Type} [LinearOrder F] (arithmetic : LongDouble F)
    (config : GeneticSolverConfig F) : Except Error Unit :=
  ensure (2 ≤ config.population ∧ config.generations ≠ 0 ∧ config.elitism ≠ 0 ∧
      config.elitism < config.population ∧ config.tournamentSize ≠ 0 ∧
      config.crossoverRate.inUnitInterval = true ∧ config.mutationRate.inUnitInterval = true ∧
      arithmetic.ofInt 0 < config.infeasiblePenaltyMultiplier)
    (Error.invalid "invalid genetic solver configuration")

def evaluatorOf {F : Type} (arithmetic : LongDouble F) (config : GeneticSolverConfig F)
    (model : Model) : Evaluator F where
  model := model
  arithmetic := arithmetic
  penalty := arithmetic.mul (arithmetic.add (arithmetic.ofInt model.maxTotal) (arithmetic.ofInt 1))
    config.infeasiblePenaltyMultiplier

/-- The end of `optimize`. -/
def report {F : Type} (best : Best F) (last : List (Individual F)) (tally : Tally)
    (convergence : List (Option Int)) : Except Error ScalableOptimizationResult :=
  match best with
  | none => .error (.optimization .noFeasibleSolution "GA found no feasible assignment")
  | some (best, generation) => .ok
      { solution := best.genes.map methodNumber
        total := best.total
        c12 := best.c12
        generation := generation
        feasible := last.countP fun x => x.feasible
        tally := tally
        convergence := convergence }

/-- The run of `optimize` on an encoded model, with its populations. -/
def search {F : Type} [LinearOrder F] (arithmetic : LongDouble F) (config : GeneticSolverConfig F)
    (draws : Nat → UInt64) (model : Model) :
    RunM (ScalableOptimizationResult × Evaluator.History F) := do
  let ev := evaluatorOf arithmetic config model
  let history ← ev.history config draws
  let kept := Evaluator.retained 0 history none
  let tally ← get
  let result ← lift (report kept.2 (history.getLastD []) tally kept.1)
  return (result, history)

/-- The constructor and `optimize`. -/
def optimize {F : Type} [LinearOrder F] (arithmetic : LongDouble F)
    (config : GeneticSolverConfig F) (draws : Nat → UInt64) (costs : CostMatrix)
    (threshold : Bytes) : Except Error ScalableOptimizationResult := do
  checkConfig arithmetic config
  let model ← encode costs threshold
  match search arithmetic config draws model {} with
  | .ok result _ => .ok result.1
  | .error error _ => .error error

end Scalable
end Optimization
end SociSgx

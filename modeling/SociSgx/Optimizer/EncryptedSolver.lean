import SociSgx.Optimizer.Assignment
import SociSgx.Optimizer.Lagrangian
import SociSgx.Secure.PredicateEngine

/-!
# EncryptedSolver — `EncryptedBranchAndBoundSolver::solve`

The solver sees ciphertexts only.  It computes the linear contributions and the scores of every
available method, suffix bounds over the rows, and then searches depth first; a predicate
evaluation decides at every node.  The operations and the predicates act on a world `W`: with the
predicate engine of `PredicateEngine.lean` it is the backend's state and the consumed pairs.

Timings and the counters that only `ThresholdSecureOps` fills are left out.
-/

namespace SociSgx
namespace Optimization

open Exec Secure

variable {W C : Type} [CiphertextLike C]

/-! ## Requests and results -/

structure EncryptedOptimizationRequest (C : Type) where
  costs : List (CostRow C)
  thresholdScaled : Int
  sessionId : Bytes

/-- `other` is a value of the underlying byte that is no enumerator. -/
inductive EncryptedCostBound where
  | currentSuffix
  | lagrangian
  | other (value : UInt8)
  deriving DecidableEq, Repr

structure EncryptedBranchAndBoundConfig where
  costBound : EncryptedCostBound := .currentSuffix
  lagrangianGrid : LagrangianGridConfig := {}

structure EncryptedOptimizationStats where
  visitedNodes : UInt64 := 0
  prunedNodes : UInt64 := 0
  candidateCount : UInt64 := 0
  prunePredicates : UInt64 := 0
  acceptPredicates : UInt64 := 0
  multiBoundPruneNodes : UInt64 := 0
  objectiveBoundComparisons : UInt64 := 0
  deriving DecidableEq, Repr

structure EncryptedBranchAndBoundResult (C : Type) where
  feasible : Bool
  solution : List UInt8
  totalCost : C
  c12 : C
  c3 : C
  linear : C
  stats : EncryptedOptimizationStats

/-- The members of `PredicateEngine` that the solver calls. -/
structure Predicates (W C : Type) where
  pruneNode : PredicateContext → PruneInputs C → SecureM W Bool
  acceptCandidate : PredicateContext → AcceptInputs C → SecureM W Bool

structure EncryptedBranchAndBoundSolver (W C : Type) where
  ops : SecureOps W C
  predicates : Predicates W C
  config : EncryptedBranchAndBoundConfig

/-! ## Public checks -/

def checkRow (row : CostRow C) : Except Error Unit := do
  ensure (∀ c ∈ options row, CiphertextLike.empty c.cost = false)
    (Error.invalid "available ciphertext is empty")
  ensure (options row ≠ []) (Error.invalid "every row must have an available method")

/-- Everything that `solve` checks before it calls the backend; with the Lagrangian bound it
returns the grid. -/
def checkRequest (domain : NumericDomain) (config : EncryptedBranchAndBoundConfig)
    (request : EncryptedOptimizationRequest C) : Except Error (Option LagrangianGrid) := do
  ensure (request.costs.isEmpty = false) (Error.invalid "encrypted costs must not be empty")
  ensure (0 < domain.scale ∧ domain.maxRows ≠ 0)
    (Error.invalid "SecureOps has an incomplete numeric domain")
  ensure (request.costs.length ≤ domain.maxRows)
    (Error.invalid "encrypted cost row count exceeds NumericDomain.max_rows")
  ensure (0 ≤ request.thresholdScaled ∧ request.thresholdScaled < domain.scale)
    (Error.invalid "threshold_scaled must satisfy 0 <= threshold_scaled < scale")
  ensure (validIdentifier request.sessionId) (Error.invalid "invalid session_id")
  request.costs.forM checkRow
  match config.costBound with
  | .other _ => .error (Error.invalid "invalid encrypted cost-bound mode")
  | .currentSuffix => return none
  | .lagrangian => do
      let grid ← buildLagrangianGrid domain request.thresholdScaled config.lagrangianGrid
      return some grid

/-! ## Preprocessing -/

/-- `method_linear[i][method]` and `method_scores[i][method]`, next to the cost itself. -/
structure MethodEntry (C : Type) where
  method : Method
  cost : C
  linear : C
  scores : List C

/-- `minimum` and `maximum` while a row is scanned. -/
structure RowScan (C : Type) where
  entries : List (MethodEntry C) := []
  maximum : Option C := none
  minimum : Option C := none

/-- The entries of a row with its `row_max_linear`; `lower` holds `row_min_cost` or the members
of `row_lagrangian_lb`. -/
structure RowTables (C : Type) where
  entries : List (MethodEntry C)
  maxLinear : C
  lower : List C

/-- What the search needs at one depth. -/
structure Level (C : Type) where
  entries : List (MethodEntry C)
  maxLinearSuffix : C
  lowerSuffix : List C

/-- `best = best ? op(*best, value) : value` -/
def keepBest (op : C → C → SecureM W C) (current : Option C) (value : C) : SecureM W C :=
  match current with
  | none => pure value
  | some best => op best value

def scanMethod (ops : SecureOps W C) (grid : Option LagrangianGrid) (positive negative : Int)
    (scan : RowScan C) (c : Choice C) : SecureM W (RowScan C) := do
  let contribution ← ops.scalarMul c.cost (if c.method < 2 then positive else negative)
  let maximum ← keepBest ops.max scan.maximum contribution
  match grid with
  | none => do
      let minimum ← keepBest ops.min scan.minimum c.cost
      return ⟨scan.entries ++ [⟨c.method, c.cost, contribution, []⟩], some maximum, some minimum⟩
  | some grid => do
      let scaledCost ← ops.scalarMul c.cost grid.q
      -- the entry for `mu = 0` is the scaled cost itself, without a product
      let scores ← grid.mu.mapM fun mu =>
        if mu = 0 then
          pure scaledCost
        else do
          let product ← ops.scalarMul contribution mu
          ops.sub scaledCost product
      return ⟨scan.entries ++ [⟨c.method, c.cost, contribution, scores⟩], some maximum, none⟩

/-- `row_lagrangian_lb[i][k]`.  A row without methods does not get here. -/
def lagrangianLower (ops : SecureOps W C) (entries : List (MethodEntry C)) (k : Nat) :
    SecureM W C := do
  let lower ← entries.foldlM (fun lower entry => do
    let next ← keepBest ops.min lower (entry.scores.getD k default)
    return some next) none
  return lower.getD default

def preprocessRow (ops : SecureOps W C) (grid : Option LagrangianGrid) (positive negative : Int)
    (row : CostRow C) : SecureM W (RowTables C) := do
  let scan ← (options row).foldlM (scanMethod ops grid positive negative) {}
  let lower ← match grid with
    | none => pure [scan.minimum.getD default]
    | some grid => (List.range grid.mu.length).mapM (lagrangianLower ops scan.entries)
  return ⟨scan.entries, scan.maximum.getD default, lower⟩

/-- `suffix[i] = values[i] + suffix[i + 1]`, from the last row to the first, each entry being a
vector; `zeros` is the entry after the last row. -/
def suffixSums (ops : SecureOps W C) (zeros : List C) :
    List (List C) → SecureM W (List (List C))
  | [] => pure []
  | values :: rest => do
      let suffix ← suffixSums ops zeros rest
      let sums ← (values.zip (suffix.headD zeros)).mapM fun item => ops.add item.1 item.2
      return sums :: suffix

def gridSize : Option LagrangianGrid → Nat
  | none => 1
  | some grid => grid.mu.length

def preprocess (ops : SecureOps W C) (grid : Option LagrangianGrid) (positive negative : Int)
    (zero : C) (costs : List (CostRow C)) : SecureM W (List (Level C)) := do
  let tables ← costs.mapM (preprocessRow ops grid positive negative)
  let lowerSuffix ←
    suffixSums ops (List.replicate (gridSize grid) zero) (tables.map RowTables.lower)
  let linearSuffix ← suffixSums ops [zero] (tables.map fun table => [table.maxLinear])
  return (tables.zip (linearSuffix.zip lowerSuffix)).map fun entry =>
    ⟨entry.1.entries, entry.2.1.headD default, entry.2.2⟩

/-! ## The search -/

structure Prefix (C : Type) where
  total : C
  c12 : C
  c3 : C
  linear : C

/-- The local variables of `solve` that the search updates.  `trace` is no variable of the source:
it records the nodes of the run and nothing reads it. -/
structure Search (C : Type) where
  hasIncumbent : Bool := false
  incumbent : Prefix C
  scaledIncumbent : C
  solution : List UInt8 := []
  nodeSequence : UInt64 := 0
  pruneSequence : UInt64 := 0
  acceptSequence : UInt64 := 0
  stats : EncryptedOptimizationStats := {}
  trace : BranchBound.Log UInt8 := {}

def Search.start : Search C :=
  { incumbent := ⟨default, default, default, default⟩
    scaledIncumbent := default }

/-- `static_cast<std::uint8_t>(method + 1)` -/
def report (m : Method) : UInt8 :=
  UInt8.ofNat (m.val + 1)

def predicateContext (sessionId : Bytes) (type : PredicateType) (depth : Nat) (node : UInt64)
    (operation : Bytes) : PredicateContext :=
  { sessionId := sessionId
    operationId := operation
    predicateType := type
    depth := UInt32.ofNat depth
    nodeId := ascii "node-" ++ decimal node.toNat }

/-- `"prune-" + std::to_string(sequence)`, and the same for `accept`. -/
def operationId (name : String) (sequence : UInt64) : Bytes :=
  ascii name ++ decimal sequence.toNat

namespace Search

/-- `++node_sequence; ++visited_nodes` -/
def enter (chosen : List UInt8) (s : Search C) : Search C :=
  { s with
    nodeSequence := s.nodeSequence + 1
    stats := { s.stats with visitedNodes := s.stats.visitedNodes + 1 }
    trace := s.trace.visit chosen }

def atLeaf (s : Search C) : Search C :=
  { s with
    acceptSequence := s.acceptSequence + 1
    stats :=
      { s.stats with
        candidateCount := s.stats.candidateCount + 1
        acceptPredicates := s.stats.acceptPredicates + 1 } }

/-- The counters of the lower bounds, which only the Lagrangian bound updates. -/
def countBounds (grid : Option LagrangianGrid) (s : Search C) : Search C :=
  { s with
    stats :=
      match grid, s.hasIncumbent with
      | some grid, true =>
          { s.stats with
            multiBoundPruneNodes := s.stats.multiBoundPruneNodes + 1
            objectiveBoundComparisons :=
              s.stats.objectiveBoundComparisons + UInt64.ofNat grid.mu.length }
      | _, _ => s.stats }

def atNode (s : Search C) : Search C :=
  { s with
    pruneSequence := s.pruneSequence + 1
    stats := { s.stats with prunePredicates := s.stats.prunePredicates + 1 } }

def cut (chosen : List UInt8) (s : Search C) : Search C :=
  { s with
    stats := { s.stats with prunedNodes := s.stats.prunedNodes + 1 }
    trace := s.trace.cut chosen }

def accept (pre : Prefix C) (scaled : C) (chosen : List UInt8) (s : Search C) : Search C :=
  { s with
    hasIncumbent := true
    incumbent := pre
    scaledIncumbent := scaled
    solution := chosen
    trace := s.trace.candidate chosen true }

def reject (chosen : List UInt8) (s : Search C) : Search C :=
  { s with trace := s.trace.candidate chosen false }

end Search

namespace EncryptedBranchAndBoundSolver

variable (solver : EncryptedBranchAndBoundSolver W C)

/-- `depth == n`: the whole `current_solution` is `chosen`. -/
def leaf (sessionId : Bytes) (grid : Option LagrangianGrid) (depth : Nat) (pre : Prefix C)
    (chosen : List UInt8) : SecureM (W × Search C) Unit := do
  update Search.atLeaf
  let s ← locals
  let accepted ← onFst (solver.predicates.acceptCandidate
    (predicateContext sessionId .acceptCandidate depth s.nodeSequence
      (operationId "accept-" s.acceptSequence))
    { linear := pre.linear
      c3 := pre.c3
      cost := pre.total
      c12 := pre.c12
      hasIncumbent := s.hasIncumbent
      incumbentCost := s.incumbent.total
      incumbentC12 := s.incumbent.c12 })
  if accepted then
    match grid with
    | none => update (Search.accept pre s.scaledIncumbent chosen)
    | some grid => do
        -- scaled once, for the cuts of all nodes to come
        let scaled ← onFst (solver.ops.scalarMul pre.total grid.q)
        update (Search.accept pre scaled chosen)
  else
    update (Search.reject chosen)

/-- `cost_lowers`, which stays empty as long as there is no incumbent. -/
def costLowers (grid : Option LagrangianGrid) (level : Level C) (pre : Prefix C)
    (lagPrefix : List C) (hasIncumbent : Bool) : SecureM W (List C) :=
  match hasIncumbent, grid with
  | false, _ => pure []
  | true, none => level.lowerSuffix.mapM fun suffix => solver.ops.add pre.total suffix
  | true, some _ => (lagPrefix.zip level.lowerSuffix).mapM fun item => solver.ops.add item.1 item.2

/-- The bounds of a node and the question whether to cut it. -/
def askPrune (sessionId : Bytes) (grid : Option LagrangianGrid) (level : Level C) (depth : Nat)
    (pre : Prefix C) (lagPrefix : List C) : SecureM (W × Search C) Bool := do
  let s ← locals
  let linearUpper ← onFst (solver.ops.add pre.linear level.maxLinearSuffix)
  update (Search.countBounds grid)
  let lowers ← onFst (solver.costLowers grid level pre lagPrefix s.hasIncumbent)
  -- the Lagrangian bounds are scaled by `q`, and the incumbent has to be as well
  let pruneIncumbent := if s.hasIncumbent then
      (if grid.isSome then s.scaledIncumbent else s.incumbent.total)
    else
      default
  update Search.atNode
  onFst (solver.predicates.pruneNode
    (predicateContext sessionId .pruneNode depth s.nodeSequence
      (operationId "prune-" (s.pruneSequence + 1)))
    { linearUpper := linearUpper
      costLowers := lowers
      hasIncumbent := s.hasIncumbent
      incumbentCost := pruneIncumbent })

def childPrefix (pre : Prefix C) (entry : MethodEntry C) : SecureM W (Prefix C) := do
  let total ← solver.ops.add pre.total entry.cost
  if entry.method < 2 then
    let c12 ← solver.ops.add pre.c12 entry.cost
    let linear ← solver.ops.add pre.linear entry.linear
    return ⟨total, c12, pre.c3, linear⟩
  else
    let c3 ← solver.ops.add pre.c3 entry.cost
    let linear ← solver.ops.add pre.linear entry.linear
    return ⟨total, pre.c12, c3, linear⟩

def childLagPrefix (grid : Option LagrangianGrid) (lagPrefix : List C) (entry : MethodEntry C) :
    SecureM W (List C) :=
  match grid with
  | none => pure []
  | some _ => (lagPrefix.zip entry.scores).mapM fun item => solver.ops.add item.1 item.2

/-- `dfs`.  The levels are those from `depth` on; `chosen` is the part of `current_solution` that
is already set. -/
def dfs (sessionId : Bytes) (grid : Option LagrangianGrid) :
    List (Level C) → Nat → Prefix C → List C → List UInt8 → SecureM (W × Search C) Unit
  | [], depth, pre, _, chosen => do
      update (Search.enter chosen)
      solver.leaf sessionId grid depth pre chosen
  | level :: levels, depth, pre, lagPrefix, chosen => do
      update (Search.enter chosen)
      let pruned ← solver.askPrune sessionId grid level depth pre lagPrefix
      if pruned then
        update (Search.cut chosen)
      else
        level.entries.forM fun entry => do
          let child ← onFst (solver.childPrefix pre entry)
          let childLag ← onFst (solver.childLagPrefix grid lagPrefix entry)
          dfs sessionId grid levels (depth + 1) child childLag (chosen ++ [report entry.method])

/-- `solve` up to the end of the search: the local variables then. -/
def search (request : EncryptedOptimizationRequest C) : SecureM W (Search C) := do
  let grid ← lift (checkRequest solver.ops.domain solver.config request)
  let positive := solver.ops.domain.scale - request.thresholdScaled
  let negative := -request.thresholdScaled
  -- encrypted behind the checks: a refused request never calls the backend
  let zero ← solver.ops.encryptConstant 0
  let levels ← preprocess solver.ops grid positive negative zero request.costs
  let lagPrefix := if grid.isSome then List.replicate (gridSize grid) zero else []
  let finished ← withLocals Search.start
    (solver.dfs request.sessionId grid levels 0 ⟨zero, zero, zero, zero⟩ lagPrefix [])
  return finished.2

/-- The result that `solve` builds from its local variables. -/
def finish (s : Search C) : EncryptedBranchAndBoundResult C :=
  if s.hasIncumbent then
    { feasible := true
      solution := s.solution
      totalCost := s.incumbent.total
      c12 := s.incumbent.c12
      c3 := s.incumbent.c3
      linear := s.incumbent.linear
      stats := s.stats }
  else
    { feasible := false
      solution := []
      totalCost := default
      c12 := default
      c3 := default
      linear := default
      stats := s.stats }

def solve (request : EncryptedOptimizationRequest C) :
    SecureM W (EncryptedBranchAndBoundResult C) :=
  finish <$> solver.search request

end EncryptedBranchAndBoundSolver

/-! ## Over a predicate engine -/

/-- The calls that the solver makes on an engine. -/
def enginePredicates {σ : Type} (engine : PredicateEngine σ C) : Predicates (EngineWorld σ) C :=
  ⟨engine.pruneNode, engine.acceptCandidate⟩

/-- `EncryptedBranchAndBoundSolver(ops, predicates, config)`; the engine has the same backend. -/
def engineSolver {σ : Type} (engine : PredicateEngine σ C)
    (config : EncryptedBranchAndBoundConfig) : EncryptedBranchAndBoundSolver (EngineWorld σ) C :=
  { ops := engine.ops.onFst (List Bytes)
    predicates := enginePredicates engine
    config := config }

/-- `ConfidentialOptimizer::optimize`: a fresh engine for every solve. -/
def optimize {σ : Type} (engine : PredicateEngine σ C) (config : EncryptedBranchAndBoundConfig)
    (request : EncryptedOptimizationRequest C) : SecureM σ (EncryptedBranchAndBoundResult C) := do
  let result ← withLocals [] ((engineSolver engine config).solve request)
  return result.1

end Optimization
end SociSgx

import SociSgx.Pega.CountedOps
import SociSgx.Optimizer.EncryptedSolver
import SociSgx.Scalable.Optimizer

/-!
# Optimizer — the confidential scalable optimizer (PEGA)

A genetic search over encrypted chromosomes with public control flow: the sizes, the available
methods and the random draws are public, every decision about costs stays encrypted.  A chromosome
holds a one-hot vector of ciphertexts per row, and an individual carries the sums of its choices,
which `repair` updates under encrypted masks.
-/

namespace SociSgx
namespace Optimization

open Exec Secure CountedOps

/-! ## Configuration -/

structure ConfidentialScalableOptimizerConfig where
  population : Nat := 256
  generations : Nat := 1000
  elitism : Nat := 8
  tournamentSize : Nat := 4
  repairRounds : Nat := 0
  crossoverRate : Rate
  mutationRate : Rate
  infeasiblePenalty : Int := 1
  seed : UInt64 := 0x50454741534f4349

/-- Two individuals for two generations; every other draw leads to a crossover or a mutation. -/
def pairConfig : ConfidentialScalableOptimizerConfig where
  population := 2
  generations := 2
  elitism := 1
  tournamentSize := 2
  crossoverRate := ⟨true, fun draw => draw % 2 = 0⟩
  mutationRate := ⟨true, fun draw => draw % 2 = 0⟩

/-- `false` of the source is `none`. -/
def addBits (a b : Nat) : Option Nat :=
  if a > 127 ∨ b > 127 ∨ a + b > 127 then none else some (a + b)

/-- The budget of the repair products and of the scaled totals. -/
def boundsIntermediates (domain : NumericDomain) : Bool :=
  match addBits domain.maxLinearBits domain.maxTotalBits,
    addBits domain.maxCostBits domain.maxLinearBits,
    addBits domain.maxTotalBits domain.scale.toNat.size with
  | some crossBits, some repairProductBits, some scaledTotalBits =>
      decide (crossBits ≤ domain.compareOperandBits) &&
        decide (repairProductBits ≤ domain.compareOperandBits) &&
        decide (scaledTotalBits ≤ domain.compareOperandBits) &&
        decide (domain.maxCostBits < 127) && decide (domain.maxTotalBits < 127) &&
        decide (domain.maxLinearBits < 127) && decide (domain.compareOperandBits < 127)
  | _, _, _ => false

/-- The budget of the fitness. -/
def boundsFitness (domain : NumericDomain) (penalty : Int) : Bool :=
  let budget : Option (Nat × Nat) := do
    let maxTotalPlusOneBits ← addBits domain.maxTotalBits 1
    let penaltyBits ← addBits maxTotalPlusOneBits penalty.toNat.size
    let weightedViolationBits ← addBits penaltyBits domain.maxLinearBits
    let missingExtentBits ← addBits maxTotalPlusOneBits domain.scale.toNat.size
    let missingCostBits ← addBits penaltyBits missingExtentBits
    return (weightedViolationBits, missingCostBits)
  match budget with
  | some (weightedViolationBits, missingCostBits) =>
      decide (weightedViolationBits ≤ domain.compareOperandBits) &&
        decide (missingCostBits ≤ domain.compareOperandBits)
  | none => false

def validate {C : Type} [CiphertextLike C] (domain : NumericDomain)
    (config : ConfidentialScalableOptimizerConfig) (request : EncryptedOptimizationRequest C) :
    Except Error Unit := do
  ensure (request.costs.isEmpty = false) (Error.invalid "encrypted costs must not be empty")
  ensure (0 < domain.scale ∧ domain.maxRows ≠ 0 ∧ domain.maxCostBits ≠ 0 ∧
      domain.maxTotalBits ≠ 0 ∧ domain.maxLinearBits ≠ 0 ∧ domain.compareOperandBits ≠ 0)
    (Error.invalid "SecureOps has an incomplete numeric domain")
  ensure (request.costs.length ≤ domain.maxRows)
    (Error.invalid "encrypted cost row count exceeds NumericDomain.max_rows")
  ensure (0 ≤ request.thresholdScaled ∧ request.thresholdScaled < domain.scale)
    (Error.invalid "threshold_scaled must satisfy 0 <= threshold_scaled < scale")
  ensure (validIdentifier request.sessionId) (Error.invalid "invalid session_id")
  ensure (2 ≤ config.population ∧ config.generations ≠ 0 ∧ config.elitism ≠ 0 ∧
      config.elitism < config.population ∧ config.tournamentSize ≠ 0 ∧
      config.crossoverRate.inUnitInterval = true ∧ config.mutationRate.inUnitInterval = true ∧
      0 < config.infeasiblePenalty)
    (Error.invalid "invalid confidential scalable optimizer configuration")
  -- zero asks for three rounds per row, and that number has to fit `size_t`
  ensure (config.repairRounds ≠ 0 ∨ request.costs.length ≤ (2 ^ 64 - 1) / 3)
    (Error.invalid "repair round count overflow")
  request.costs.forM checkRow
  ensure (boundsIntermediates domain = true)
    (Error.invalid "NumericDomain cannot bound PEGA intermediates below 2^127")
  ensure (boundsFitness domain config.infeasiblePenalty = true)
    (Error.invalid "NumericDomain cannot bound PEGA fitness below 2^127")

/-! ## Individuals -/

/-- `genes[row]` -/
abbrev Gene (C : Type) := Method → C

/-- `total`, `c12`, `c3` and `linear` of an individual; of one row these are `row_cost`, `row_c12`,
`row_c3` and `row_linear`. -/
structure Totals (C : Type) where
  total : C
  c12 : C
  c3 : C
  linear : C

/-- `rows` is empty after a selection, which keeps the sums only. -/
structure Individual (C : Type) where
  genes : List (Gene C)
  rows : List (Totals C) := []
  totals : Totals C
  feasibleCache : Option (EncryptedBit C) := none
  fitnessCache : Option C := none

structure Pega (σ C : Type) where
  ops : SecureOps σ C
  config : ConfidentialScalableOptimizerConfig
  request : EncryptedOptimizationRequest C
  /-- What `std::mt19937_64` yields from the seed. -/
  draws : Nat → UInt64
  zero : C
  one : C
  maximumTotal : C
  penalty : C
  penaltyScaled : C
  missingExtentScaled : C
  missingPenalty : C

variable {σ C : Type}

/-- `front()` of an empty vector and an index out of range have no meaning; `validate` has rejected
rows without a method. -/
def noMethod : Error := .backend "row without a method"

/-- `random()` -/
def random (draws : Nat → UInt64) : PegaM σ UInt64 := do
  let progress ← locals
  update fun progress => { progress with drawn := progress.drawn + 1 }
  return draws progress.drawn

/-- `items[draw % items.size()]` -/
def pick {α : Type} (items : List α) (draw : Nat) : PegaM σ α :=
  match items[draw % items.length]? with
  | some item => pure item
  | none => throw noMethod

/-- The loop over the three methods of a row. -/
def eachMethod (f : Method → PegaM σ C) : PegaM σ (Gene C) := do
  let first ← f 0
  let second ← f 1
  let third ← f 2
  return ![first, second, third]

def oneHot (ops : SecureOps σ C) (method : Method) : PegaM σ (Gene C) :=
  eachMethod fun m => constant ops (if m = method then 1 else 0)

/-! ## Construction -/

def rowMaximum (ops : SecureOps σ C) : List (Choice C) → PegaM σ C
  | [] => throw noMethod
  | first :: rest => rest.foldlM (fun maximum candidate => do
      let above ← greater ops candidate.cost maximum
      select ops above candidate.cost maximum) first.cost

def maximumTotal (ops : SecureOps σ C) (zero : C) (costs : List (CostRow C)) : PegaM σ C :=
  costs.foldlM (fun total row => do
    let maximum ← rowMaximum ops (options row)
    add ops total maximum) zero

def constructPega (ops : SecureOps σ C) (config : ConfidentialScalableOptimizerConfig)
    (request : EncryptedOptimizationRequest C) (draws : Nat → UInt64) : PegaM σ (Pega σ C) := do
  let zero ← constant ops 0
  let one ← constant ops 1
  -- these two are encrypted and never read: the factors of the rows are plain
  let _positive ← constant ops (ops.domain.scale - request.thresholdScaled)
  let _negative ← constant ops (-request.thresholdScaled)
  let maximum ← maximumTotal ops zero request.costs
  let aboveMaximum ← add ops maximum one
  let penalty ← scalar ops aboveMaximum config.infeasiblePenalty
  let penaltyScaled ← scalar ops penalty ops.domain.scale
  let extent ← add ops maximum one
  let missingExtentScaled ← scalar ops extent ops.domain.scale
  let missingPenalty ← mul ops penalty missingExtentScaled
  return ⟨ops, config, request, draws, zero, one, maximum, penalty, penaltyScaled,
    missingExtentScaled, missingPenalty⟩

namespace Pega

variable (pega : Pega σ C)

/-- The factor of a cost in the linear constraint. -/
def factor (method : Method) : Int :=
  coefficient pega.ops.domain.scale pega.request.thresholdScaled method

/-! ## Evaluation -/

def addCost (choice : Choice C) (chosen : C) (totals row : Totals C) :
    PegaM σ (Totals C × Totals C) := do
  let total ← add pega.ops totals.total chosen
  let rowCost ← add pega.ops row.total chosen
  if choice.method < 2 then do
    let c12 ← add pega.ops totals.c12 chosen
    let rowC12 ← add pega.ops row.c12 chosen
    return ({ totals with total := total, c12 := c12 },
      { row with total := rowCost, c12 := rowC12 })
  else do
    let c3 ← add pega.ops totals.c3 chosen
    let rowC3 ← add pega.ops row.c3 chosen
    return ({ totals with total := total, c3 := c3 },
      { row with total := rowCost, c3 := rowC3 })

def addContribution (choice : Choice C) (chosen : C) (totals row : Totals C) :
    PegaM σ (Totals C × Totals C) := do
  let contribution ← scalar pega.ops chosen (pega.factor choice.method)
  let linear ← add pega.ops totals.linear contribution
  let rowLinear ← add pega.ops row.linear contribution
  return ({ totals with linear := linear }, { row with linear := rowLinear })

def zeros : Totals C :=
  ⟨pega.zero, pega.zero, pega.zero, pega.zero⟩

def evaluateRow (totals : Totals C) (row : CostRow C) (gene : Gene C) :
    PegaM σ (Totals C × Totals C) := do
  let products ← mulBatch pega.ops
    ((options row).map fun choice => (gene choice.method, choice.cost))
  ((options row).zip products).foldlM (fun sums item => do
    let costs ← pega.addCost item.1 item.2 sums.1 sums.2
    pega.addContribution item.1 item.2 costs.1 costs.2) (totals, pega.zeros)

def evaluate (value : Individual C) : PegaM σ (Individual C) := do
  let sums ← (pega.request.costs.zip value.genes).foldlM
    (fun (sums : Totals C × List (Totals C)) item => do
      let next ← pega.evaluateRow sums.1 item.1 item.2
      return (next.1, sums.2 ++ [next.2])) (pega.zeros, [])
  return { genes := value.genes, rows := sums.2, totals := sums.1 }

/-- An individual before its evaluation. -/
def unevaluated [CiphertextLike C] (genes : List (Gene C)) : Individual C :=
  { genes := genes, totals := ⟨default, default, default, default⟩ }

def randomIndividual [CiphertextLike C] : PegaM σ (Individual C) := do
  let genes ← pega.request.costs.mapM fun row => do
    let draw ← random pega.draws
    let choice ← pick (options row) draw.toNat
    oneHot pega.ops choice.method
  pega.evaluate (unevaluated genes)

def cheapestRow : List (Choice C) → PegaM σ (Gene C)
  | [] => throw noMethod
  | first :: rest => do
      let genes ← oneHot pega.ops first.method
      let cheapest ← rest.foldlM (fun (state : Gene C × C) choice => do
        let isCheaper ← less pega.ops choice.cost state.2
        let chosen ← select pega.ops isCheaper choice.cost state.2
        let replacement ← oneHot pega.ops choice.method
        let genes ← eachMethod fun bit =>
          select pega.ops isCheaper (replacement bit) (state.1 bit)
        return (genes, chosen)) (genes, first.cost)
      return cheapest.1

def cheapest [CiphertextLike C] : PegaM σ (Individual C) := do
  let genes ← pega.request.costs.mapM fun row => pega.cheapestRow (options row)
  pega.evaluate (unevaluated genes)

/-! ## The order -/

/-- The bit, and the individual with the bit in its cache. -/
def feasible (value : Individual C) : PegaM σ (EncryptedBit C × Individual C) :=
  match value.feasibleCache with
  | some bit => pure (bit, value)
  | none => do
      let negative ← less pega.ops value.totals.linear pega.zero
      let linearNonnegative ← notBit pega.ops negative
      let hasMethod3 ← greater pega.ops value.totals.c3 pega.zero
      let nonzeroTotal ← greater pega.ops value.totals.total pega.zero
      let both ← andBit pega.ops linearNonnegative hasMethod3
      let bit ← andBit pega.ops both nonzeroTotal
      return (bit, { value with feasibleCache := some bit })

def fitness (value : Individual C) : PegaM σ (C × Individual C) :=
  match value.fitnessCache with
  | some score => pure (score, value)
  | none => do
      -- the score is `(total + penalty) * scale`, and more for a violated constraint and for `c3 =
      -- 0`
      let negativeLinear ← scalar pega.ops value.totals.linear (-1)
      let violated ← greater pega.ops negativeLinear pega.zero
      let violation ← select pega.ops violated negativeLinear pega.zero
      let present ← greater pega.ops value.totals.c3 pega.zero
      let missing ← notBit pega.ops present
      let base ← scalar pega.ops value.totals.total pega.ops.domain.scale
      let weightedViolation ← mul pega.ops pega.penalty violation
      let missingCost ← mul pega.ops pega.missingPenalty missing.ciphertext
      let left ← add pega.ops base pega.penaltyScaled
      let right ← add pega.ops weightedViolation missingCost
      let score ← add pega.ops left right
      return (score, { value with fitnessCache := some score })

/-- The number of the method that a one-hot gene selects. -/
def geneIndex (gene : Gene C) : PegaM σ C := do
  let twice ← scalar pega.ops (gene 2) 2
  add pega.ops (gene 1) twice

/-- The loop over `compared`, which holds two bits for each row. -/
def lexFold (lexLess prefixEqual : EncryptedBit C) :
    List (EncryptedBit C) → PegaM σ (EncryptedBit C)
  | smaller :: larger :: compared => do
      let different ← orBitExclusive pega.ops larger smaller
      let equal ← notBit pega.ops different
      let here ← andBit pega.ops prefixEqual smaller
      let lexLess ← orBit pega.ops lexLess here
      let prefixEqual ← andBit pega.ops prefixEqual equal
      lexFold lexLess prefixEqual compared
  | _ => pure lexLess

def lexLess (a b : Individual C) : PegaM σ (EncryptedBit C) := do
  let never ← greater pega.ops pega.zero pega.zero
  let prefixEqual ← notBit pega.ops never
  let lexLess ← greater pega.ops pega.zero pega.zero
  let relations ← (a.genes.zip b.genes).mapM fun genes => do
    let aIndex ← pega.geneIndex genes.1
    let bIndex ← pega.geneIndex genes.2
    return [(bIndex, aIndex), (aIndex, bIndex)]
  let compared ← greaterBatch pega.ops relations.flatten
  pega.lexFold lexLess prefixEqual compared

/-- Whether `a` is better than `b`, and both with their caches. -/
def better (a b : Individual C) :
    PegaM σ (EncryptedBit C × Individual C × Individual C) := do
  let (feasibleA, a) ← pega.feasible a
  let (feasibleB, b) ← pega.feasible b
  let infeasibleB ← notBit pega.ops feasibleB
  let aOnlyFeasible ← andBit pega.ops feasibleA infeasibleB
  -- two feasible ones: the total decides, then the ratio, then the chromosome
  let totalAbove ← greater pega.ops a.totals.total b.totals.total
  let totalBelow ← greater pega.ops b.totals.total a.totals.total
  let totalDifferent ← orBitExclusive pega.ops totalAbove totalBelow
  let totalEqual ← notBit pega.ops totalDifferent
  let ratioLess ← less pega.ops a.totals.linear b.totals.linear
  let ratioAbove ← greater pega.ops a.totals.linear b.totals.linear
  let ratioBelow ← greater pega.ops b.totals.linear a.totals.linear
  let ratioDifferent ← orBitExclusive pega.ops ratioAbove ratioBelow
  let ratioEqual ← notBit pega.ops ratioDifferent
  let lex ← pega.lexLess a b
  let tieLex ← andBit pega.ops ratioEqual lex
  let ratioBetter ← orBit pega.ops ratioLess tieLex
  let tie ← andBit pega.ops totalEqual ratioBetter
  let feasibleBetter ← orBit pega.ops totalBelow tie
  -- two infeasible ones: the fitness decides, then the chromosome, which is compared again
  let (fitnessA, a) ← pega.fitness a
  let (fitnessB, b) ← pega.fitness b
  let infeasibleLess ← less pega.ops fitnessA fitnessB
  let fitnessAbove ← greater pega.ops fitnessA fitnessB
  let fitnessBelow ← greater pega.ops fitnessB fitnessA
  let fitnessDifferent ← orBitExclusive pega.ops fitnessAbove fitnessBelow
  let infeasibleEqual ← notBit pega.ops fitnessDifferent
  let lex ← pega.lexLess a b
  let infeasibleTie ← andBit pega.ops infeasibleEqual lex
  let infeasibleBetter ← orBit pega.ops infeasibleLess infeasibleTie
  -- all three cases were computed; these masks keep the one that applies
  let sameClass ← andBit pega.ops feasibleA feasibleB
  let notA ← notBit pega.ops feasibleA
  let notB ← notBit pega.ops feasibleB
  let bothInfeasible ← andBit pega.ops notA notB
  let first ← andBit pega.ops sameClass feasibleBetter
  let second ← andBit pega.ops bothInfeasible infeasibleBetter
  let either ← orBit pega.ops first second
  let bit ← orBit pega.ops aOnlyFeasible either
  return (bit, a, b)

/-! ## Selection -/

def genePairs (yes no : List (Gene C)) : List (C × C) :=
  (yes.zip no).flatMap fun genes =>
    [(genes.1 0, genes.2 0), (genes.1 1, genes.2 1), (genes.1 2, genes.2 2)]

/-- Three selected values make a gene. -/
def regroup : List C → List (Gene C)
  | first :: second :: third :: rest => ![first, second, third] :: regroup rest
  | _ => []

def choose [CiphertextLike C] (condition : EncryptedBit C) (yes no : Individual C) :
    PegaM σ (Individual C) := do
  let selectedGenes ← selectBatch pega.ops condition (genePairs yes.genes no.genes)
  let selectedSummary ← selectBatch pega.ops condition
    [(yes.totals.total, no.totals.total), (yes.totals.c12, no.totals.c12),
      (yes.totals.c3, no.totals.c3), (yes.totals.linear, no.totals.linear)]
  return { genes := regroup selectedGenes
           totals := ⟨selectedSummary.getD 0 default, selectedSummary.getD 1 default,
             selectedSummary.getD 2 default, selectedSummary.getD 3 default⟩ }

/-- One pass of the insertion network. -/
def insertElite [CiphertextLike C] :
    List (Individual C) → Individual C → PegaM σ (List (Individual C) × Individual C)
  | [], carry => pure ([], carry)
  | old :: elite, carry => do
      let (wins, carry, old) ← pega.better carry old
      let kept ← pega.choose wins carry old
      let carry ← pega.choose wins old carry
      let (rest, carry) ← insertElite elite carry
      return (kept :: rest, carry)

def eliteSet [CiphertextLike C] : List (Individual C) → PegaM σ (List (Individual C))
  | [] => throw noMethod
  | front :: population => population.foldlM (fun elite value => do
      let (elite, carry) ← pega.insertElite elite value
      return if elite.length < pega.config.elitism then elite ++ [carry] else elite) [front]

/-- The turns after the first; the caches of the challengers stay in the population. -/
def tournamentTurns [CiphertextLike C] :
    Nat → List (Individual C) → Individual C → PegaM σ (Individual C × List (Individual C))
  | 0, population, winner => pure (winner, population)
  | turns + 1, population, winner => do
      let draw ← random pega.draws
      let challenger ← pick population draw.toNat
      let (wins, challenger, winner) ← pega.better challenger winner
      let winner ← pega.choose wins challenger winner
      tournamentTurns turns (population.set (draw.toNat % population.length) challenger) winner

def tournament [CiphertextLike C] (population : List (Individual C)) :
    PegaM σ (Individual C × List (Individual C)) := do
  let draw ← random pega.draws
  let winner ← pick population draw.toNat
  pega.tournamentTurns (pega.config.tournamentSize - 1) population winner

def crossover (child other : Individual C) : PegaM σ (Individual C) := do
  let draw ← random pega.draws
  if pega.config.crossoverRate.exceeds draw then do
    let genes ← (child.genes.zip other.genes).mapM fun genes => do
      let draw ← random pega.draws
      return if draw &&& 1 = 1 then genes.2 else genes.1
    return { child with genes := genes }
  else
    return child

def mutateRow (row : CostRow C) (gene : Gene C) : PegaM σ (Gene C) := do
  let draw ← random pega.draws
  if pega.config.mutationRate.exceeds draw ∧ 1 < (options row).length then do
    let selected ← random pega.draws
    let choice ← pick (options row) selected.toNat
    let fallback ← pick (options row) (selected.toNat % (options row).length + 1)
    let target ← oneHot pega.ops choice.method
    let replacement ← oneHot pega.ops fallback.method
    -- a gene that has the drawn method already takes the fallback, so that it does change
    let above ← greater pega.ops (gene choice.method) pega.one
    let below ← greater pega.ops pega.one (gene choice.method)
    let different ← orBit pega.ops above below
    let same ← notBit pega.ops different
    eachMethod fun method => select pega.ops same (replacement method) (target method)
  else
    return gene

def mutate (child : Individual C) : PegaM σ (Individual C) := do
  let genes ← (pega.request.costs.zip child.genes).mapM fun item => pega.mutateRow item.1 item.2
  return { child with genes := genes }

/-! ## Repair -/

/-- The best candidates of the first scan. -/
structure Scan (C : Type) where
  selectedCost : C
  selectedLinear : C
  selectedId : C
  haveSelected : EncryptedBit C
  best3Cost : C
  best3Linear : C
  best3Id : C
  have3 : EncryptedBit C

/-- `row * 3 + method` -/
def targetId (row : Nat) (method : Method) : Int :=
  row * 3 + method.val

/-- Whether the target may be selected; a target with method 3 is kept apart as well. -/
def validTarget (needMethod3 : EncryptedBit C) (method3Count : C) (gene : Gene C) (row : Nat)
    (choice : Choice C) (deltaCost deltaLinear : C) (scan : Scan C) :
    PegaM σ (EncryptedBit C × Scan C) := do
  let positiveDelta ← greater pega.ops deltaLinear pega.zero
  if choice.method ≠ 2 then do
    -- A target with another method may not remove the sole selected method 3.
    let remaining ← sub pega.ops method3Count (gene 2)
    let another ← greater pega.ops remaining pega.zero
    let valid ← andBit pega.ops positiveDelta another
    return (valid, scan)
  else do
    let better3 ← less pega.ops deltaCost scan.best3Cost
    let first3 ← notBit pega.ops scan.have3
    let replace3 ← orBit pega.ops first3 better3
    let best3Cost ← select pega.ops replace3 deltaCost scan.best3Cost
    let best3Linear ← select pega.ops replace3 deltaLinear scan.best3Linear
    let id ← constant pega.ops (targetId row choice.method)
    let best3Id ← select pega.ops replace3 id scan.best3Id
    let have3 ← orBit pega.ops scan.have3 replace3
    let enough3 ← notBit pega.ops needMethod3
    let valid ← andBit pega.ops positiveDelta enough3
    return (valid, { scan with
      best3Cost := best3Cost, best3Linear := best3Linear, best3Id := best3Id, have3 := have3 })

def scanTarget (needMethod3 : EncryptedBit C) (method3Count : C) (gene : Gene C)
    (current : Totals C) (row : Nat) (scan : Scan C) (choice : Choice C) : PegaM σ (Scan C) := do
  let deltaCost ← sub pega.ops choice.cost current.total
  let targetLinear ← scalar pega.ops choice.cost (pega.factor choice.method)
  let deltaLinear ← sub pega.ops targetLinear current.linear
  let (valid, scan) ←
    pega.validTarget needMethod3 method3Count gene row choice deltaCost deltaLinear scan
  -- the ratios are compared crosswise, for nothing can be divided here
  let lhs ← mul pega.ops deltaCost scan.selectedLinear
  let rhs ← mul pega.ops scan.selectedCost deltaLinear
  let smaller ← less pega.ops lhs rhs
  let first ← notBit pega.ops scan.haveSelected
  let preferred ← orBit pega.ops first smaller
  let replace ← andBit pega.ops valid preferred
  let selectedCost ← select pega.ops replace deltaCost scan.selectedCost
  let selectedLinear ← select pega.ops replace deltaLinear scan.selectedLinear
  let id ← constant pega.ops (targetId row choice.method)
  let selectedId ← select pega.ops replace id scan.selectedId
  let haveSelected ← orBit pega.ops scan.haveSelected valid
  return { scan with
    selectedCost := selectedCost, selectedLinear := selectedLinear, selectedId := selectedId
    haveSelected := haveSelected }

/-- A row of the matrix with the row of an individual. -/
abbrev RowView (C : Type) := CostRow C × Gene C × Totals C

/-- The rows with their numbers. -/
def rowViews (value : Individual C) : List (RowView C × Nat) :=
  (pega.request.costs.zip (value.genes.zip value.rows)).zipIdx

/-- The first scan: the target that is applied in this round, and whether one is. -/
def findTarget (value : Individual C) (wasFeasible : EncryptedBit C) :
    PegaM σ (C × EncryptedBit C) := do
  -- `0 > 0` is the encrypted `false`: nothing is selected yet
  let none₁ ← greater pega.ops pega.zero pega.zero
  let present ← greater pega.ops value.totals.c3 pega.zero
  let needMethod3 ← notBit pega.ops present
  let none₂ ← greater pega.ops pega.zero pega.zero
  let method3Count ← value.genes.foldlM (fun count gene => add pega.ops count (gene 2)) pega.zero
  let scan ← (pega.rowViews value).foldlM (fun scan view =>
      (options view.1.1).foldlM
        (pega.scanTarget needMethod3 method3Count view.1.2.1 view.1.2.2 view.2) scan)
    ⟨pega.zero, pega.zero, pega.zero, none₁, pega.zero, pega.zero, pega.zero, none₂⟩
  let selectedId ← select pega.ops needMethod3 scan.best3Id scan.selectedId
  -- the source selects these as well and does not use them
  let _selectedCost ← select pega.ops needMethod3 scan.best3Cost scan.selectedCost
  let _selectedLinear ← select pega.ops needMethod3 scan.best3Linear scan.selectedLinear
  let needed3 ← andBit pega.ops needMethod3 scan.have3
  let haveSelected ← orBit pega.ops scan.haveSelected needed3
  let infeasible ← notBit pega.ops wasFeasible
  let apply ← andBit pega.ops infeasible haveSelected
  return (selectedId, apply)

/-- The sums and one row of the individual that is repaired. -/
structure Patch (C : Type) where
  totals : Totals C
  gene : Gene C
  row : Totals C

/-- `sum + mask * delta` -/
def addMasked (mask sum delta : C) : PegaM σ C := do
  let product ← mul pega.ops mask delta
  add pega.ops sum product

/-- Whether this is the target that is applied. -/
def targetMask (selectedId : C) (apply : EncryptedBit C) (row : Nat) (method : Method) :
    PegaM σ C := do
  let id ← constant pega.ops (targetId row method)
  let above ← greater pega.ops selectedId id
  let below ← greater pega.ops id selectedId
  let different ← orBitExclusive pega.ops above below
  let eq ← notBit pega.ops different
  mul pega.ops apply.ciphertext eq.ciphertext

def applyTarget (selectedId : C) (apply : EncryptedBit C) (row : Nat) (patch : Patch C)
    (choice : Choice C) : PegaM σ (Patch C) := do
  let mask ← pega.targetMask selectedId apply row choice.method
  let targetLinear ← scalar pega.ops choice.cost (pega.factor choice.method)
  let deltaLinear ← sub pega.ops targetLinear patch.row.linear
  let deltaCost ← sub pega.ops choice.cost patch.row.total
  let deltaC12 ← sub pega.ops (if choice.method < 2 then choice.cost else pega.zero) patch.row.c12
  let deltaC3 ← sub pega.ops (if choice.method = 2 then choice.cost else pega.zero) patch.row.c3
  -- a mask of 0 leaves every sum as it is
  let total ← pega.addMasked mask patch.totals.total deltaCost
  let linear ← pega.addMasked mask patch.totals.linear deltaLinear
  let rowCost ← pega.addMasked mask patch.row.total deltaCost
  let rowLinear ← pega.addMasked mask patch.row.linear deltaLinear
  let rowC12 ← pega.addMasked mask patch.row.c12 deltaC12
  let rowC3 ← pega.addMasked mask patch.row.c3 deltaC3
  let c12 ← pega.addMasked mask patch.totals.c12 deltaC12
  let c3 ← pega.addMasked mask patch.totals.c3 deltaC3
  let gene ← eachMethod fun method => do
    let target ← constant pega.ops (if method = choice.method then 1 else 0)
    let delta ← sub pega.ops target (patch.gene method)
    pega.addMasked mask (patch.gene method) delta
  return { totals := ⟨total, c12, c3, linear⟩, gene := gene
           row := ⟨rowCost, rowC12, rowC3, rowLinear⟩ }

/-- The second scan: every target is masked, and none is revealed. -/
def applyTargets (value : Individual C) (selectedId : C) (apply : EncryptedBit C) :
    PegaM σ (Individual C) := do
  let repaired ← (pega.rowViews value).foldlM
    (fun (state : Totals C × List (Gene C × Totals C)) view => do
      let patch ← (options view.1.1).foldlM (pega.applyTarget selectedId apply view.2)
        ⟨state.1, view.1.2.1, view.1.2.2⟩
      return (patch.totals, state.2 ++ [(patch.gene, patch.row)])) (value.totals, [])
  return { genes := repaired.2.map Prod.fst, rows := repaired.2.map Prod.snd
           totals := repaired.1 }

def repairRound (value : Individual C) : PegaM σ (Individual C) := do
  let (wasFeasible, value) ← pega.feasible value
  let (selectedId, apply) ← pega.findTarget value wasFeasible
  pega.applyTargets value selectedId apply

def rounds : Nat :=
  if pega.config.repairRounds = 0 then pega.request.costs.length * 3 else pega.config.repairRounds

def repairRounds : Nat → Individual C → PegaM σ (Individual C)
  | 0, value => pure value
  | rounds + 1, value => do
      let value ← pega.repairRound value
      repairRounds rounds value

def repair (value : Individual C) : PegaM σ (Individual C) :=
  pega.repairRounds pega.rounds value

/-! ## The run -/

/-- `best = choose(better(value, best), value, best)` over a population, whose caches it fills. -/
def trackBest [CiphertextLike C] :
    List (Individual C) → Individual C → PegaM σ (Individual C × List (Individual C))
  | [], best => pure (best, [])
  | value :: population, best => do
      let (wins, value, best) ← pega.better value best
      let best ← pega.choose wins value best
      let (best, population) ← trackBest population best
      return (best, value :: population)

/-- The children of a generation, and the population with the caches that the tournaments filled. -/
def children [CiphertextLike C] :
    Nat → List (Individual C) → PegaM σ (List (Individual C) × List (Individual C))
  | 0, population => pure ([], population)
  | count + 1, population => do
      let (child, population) ← pega.tournament population
      let (other, population) ← pega.tournament population
      let child ← pega.crossover child other
      let child ← pega.mutate child
      let child ← pega.evaluate child
      let child ← pega.repair child
      let (rest, population) ← children count population
      return (child :: rest, population)

def generation [CiphertextLike C] (population : List (Individual C)) (best : Individual C) :
    PegaM σ (Individual C × List (Individual C)) := do
  let elite ← pega.eliteSet population
  let (next, _) ← pega.children (pega.config.population - elite.length) population
  pega.trackBest (elite ++ next) best

/-- The populations of a run, from the first to the last.  The source keeps the current one only. -/
abbrev History (C : Type) := List (List (Individual C))

def generations [CiphertextLike C] :
    Nat → List (Individual C) → Individual C → PegaM σ (Individual C × History C)
  | 0, _, best => pure (best, [])
  | count + 1, population, best => do
      let (best, population) ← pega.generation population best
      let (best, history) ← generations count population best
      return (best, population :: history)

def randomPopulation [CiphertextLike C] : Nat → PegaM σ (List (Individual C))
  | 0 => pure []
  | count + 1 => do
      let value ← pega.randomIndividual
      let value ← pega.repair value
      let rest ← randomPopulation count
      return value :: rest

end Pega

/-! ## The profile -/

def ceilDivide (value divisor : UInt64) : UInt64 :=
  value / divisor + (if value % divisor = 0 then 0 else 1)

/-- `std::numeric_limits<std::uint64_t>::max()` -/
def uint64Max : UInt64 := 0xffffffffffffffff

def saturatedMultiply (value factor : UInt64) : UInt64 :=
  if factor ≠ 0 ∧ value > uint64Max / factor then uint64Max else value * factor

def saturatedAdd (a b : UInt64) : UInt64 :=
  if a > uint64Max - b then uint64Max else a + b

namespace OperationCounts

def map (f : UInt64 → UInt64) (n : OperationCounts) : OperationCounts :=
  { encryptConstant := f n.encryptConstant
    add := f n.add
    scalarMul := f n.scalarMul
    secureMul := f n.secureMul
    secureCompare := f n.secureCompare
    secureSelect := f n.secureSelect
    secureMulDispatches := f n.secureMulDispatches
    secureCompareDispatches := f n.secureCompareDispatches }

def zipWith (f : UInt64 → UInt64 → UInt64) (a b : OperationCounts) : OperationCounts :=
  { encryptConstant := f a.encryptConstant b.encryptConstant
    add := f a.add b.add
    scalarMul := f a.scalarMul b.scalarMul
    secureMul := f a.secureMul b.secureMul
    secureCompare := f a.secureCompare b.secureCompare
    secureSelect := f a.secureSelect b.secureSelect
    secureMulDispatches := f a.secureMulDispatches b.secureMulDispatches
    secureCompareDispatches := f a.secureCompareDispatches b.secureCompareDispatches }

end OperationCounts

def divideCounts (value : OperationCounts) (divisor : UInt64) : OperationCounts :=
  value.map (ceilDivide · divisor)

def multiplyCounts (value : OperationCounts) (factor : UInt64) : OperationCounts :=
  value.map (saturatedMultiply · factor)

def addCounts (a b : OperationCounts) : OperationCounts :=
  a.zipWith saturatedAdd b

def subtractCounts (a b : OperationCounts) : OperationCounts :=
  a.zipWith (· - ·) b

/-- What `modelEstimate` is told about a run. -/
structure Dimensions where
  rows : Nat
  availability : Nat
  population : Nat
  generations : Nat
  elitism : Nat
  tournament : Nat
  repairRounds : Nat
  deriving DecidableEq, Repr

/-- The two ceilings of `long double` products in `modelEstimate`, as functions of the run and the
target. -/
structure Factors where
  candidate : Dimensions → Dimensions → UInt64
  generation : Dimensions → Dimensions → UInt64

def modelEstimate (factors : Factors) (perCandidate perGeneration : OperationCounts)
    (run target : Dimensions) : OperationCounts :=
  let candidate := multiplyCounts perCandidate (factors.candidate run target)
  let generation := multiplyCounts perGeneration (factors.generation run target)
  addCounts (multiplyCounts candidate (UInt64.ofNat target.population))
    (multiplyCounts generation (UInt64.ofNat target.generations))

structure ConfidentialScalableOptimizationStats where
  perCandidate : OperationCounts := {}
  perGeneration : OperationCounts := {}
  run : OperationCounts := {}
  extrapolated256x1000 : OperationCounts := {}
  extrapolated410x1000 : OperationCounts := {}
  rows : Nat := 0
  availableMethods : Nat := 0
  population : Nat := 0
  generations : Nat := 0
  elitism : Nat := 0
  tournamentSize : Nat := 0
  repairRounds : Nat := 0
  deriving DecidableEq, Repr

structure ConfidentialScalableOptimizationResult (C : Type) where
  chromosome : List (Gene C)
  totalCost : C
  c12 : C
  c3 : C
  linear : C
  stats : ConfidentialScalableOptimizationStats

namespace Pega

variable (pega : Pega σ C)

def availableMethods : Nat :=
  (pega.request.costs.map fun row => (options row).length).sum

def dimensions : Dimensions :=
  { rows := pega.request.costs.length
    availability := pega.availableMethods
    population := pega.config.population
    generations := pega.config.generations
    elitism := pega.config.elitism
    tournament := pega.config.tournamentSize
    repairRounds := pega.rounds }

/-- `stats_` at the end of a run, from the counts after the initialization and after the run. -/
def finalStats (factors : Factors) (initialization run : OperationCounts) :
    ConfidentialScalableOptimizationStats :=
  let perCandidate := divideCounts initialization (UInt64.ofNat pega.config.population)
  let perGeneration := divideCounts (subtractCounts run initialization)
    (UInt64.ofNat pega.config.generations)
  let estimate := modelEstimate factors perCandidate perGeneration pega.dimensions
  { perCandidate := perCandidate
    perGeneration := perGeneration
    run := run
    extrapolated256x1000 :=
      estimate ⟨256, 256 * 3, 256, 1000, 8, 4, max 1 (pega.request.costs.length * 3)⟩
    extrapolated410x1000 := estimate ⟨410, 410 * 3, 256, 1000, 8, 4, max 1 (410 * 3)⟩
    rows := pega.request.costs.length
    availableMethods := pega.availableMethods
    population := pega.config.population
    generations := pega.config.generations
    elitism := pega.config.elitism
    tournamentSize := pega.config.tournamentSize
    repairRounds := pega.rounds }

def run [CiphertextLike C] (factors : Factors) :
    PegaM σ (ConfidentialScalableOptimizationResult C × History C) := do
  let first ← pega.cheapest
  let front ← pega.repair first
  let rest ← pega.randomPopulation (pega.config.population - 1)
  let (best, rest) ← pega.trackBest rest front
  let initialization ← locals
  let (best, history) ← pega.generations pega.config.generations (front :: rest) best
  let progress ← locals
  return ({ chromosome := best.genes
            totalCost := best.totals.total
            c12 := best.totals.c12
            c3 := best.totals.c3
            linear := best.totals.linear
            stats := pega.finalStats factors initialization.run progress.run },
    (front :: rest) :: history)

end Pega

namespace ConfidentialScalableOptimizer

/-- `optimize`, in a state that shows what has been counted and drawn, and with the populations. -/
def program [CiphertextLike C] (ops : SecureOps σ C)
    (config : ConfidentialScalableOptimizerConfig) (factors : Factors) (draws : Nat → UInt64)
    (request : EncryptedOptimizationRequest C) :
    PegaM σ (ConfidentialScalableOptimizationResult C × Pega.History C) := do
  lift (validate ops.domain config request)
  let pega ← constructPega ops config request draws
  pega.run factors

def optimizeLogged [CiphertextLike C] (ops : SecureOps σ C)
    (config : ConfidentialScalableOptimizerConfig) (factors : Factors) (draws : Nat → UInt64)
    (request : EncryptedOptimizationRequest C) :
    SecureM σ ((ConfidentialScalableOptimizationResult C × Pega.History C) × Progress) :=
  withLocals {} (program ops config factors draws request)

def optimize [CiphertextLike C] (ops : SecureOps σ C)
    (config : ConfidentialScalableOptimizerConfig) (factors : Factors) (draws : Nat → UInt64)
    (request : EncryptedOptimizationRequest C) :
    SecureM σ (ConfidentialScalableOptimizationResult C) :=
  (fun logged => logged.1.1) <$> optimizeLogged ops config factors draws request

end ConfidentialScalableOptimizer

end Optimization
end SociSgx

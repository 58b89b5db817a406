import SociSgx.Pega.Optimizer
import SociSgx.Lib.InsertionNetwork
import SociSgx.Scalable.Order
import SociSgx.Optimizer.Bounds

/-!
# Plain — the confidential search on plain integers

This is the meaning that a run of PEGA has behind the encryption.  An individual is known by its
method vector; its sums, its feasibility and its fitness are functions of it.  The draws are taken
as the plaintext optimizer takes them, and the same stream feeds both.

The tournaments index the population as it is stored; the plaintext optimizer sorts it first.
-/

namespace SociSgx
namespace Optimization

open Exec Scalable Scalable.Evaluator

/-! ## Sums -/

attribute [ext] Scalable.Sums

namespace Scalable.Sums

instance : Zero Scalable.Sums := ⟨{}⟩

instance : Add Scalable.Sums :=
  ⟨fun s t => ⟨s.total + t.total, s.c12 + t.c12, s.c3 + t.c3, s.linear + t.linear⟩⟩

instance : Neg Scalable.Sums :=
  ⟨fun s => ⟨-s.total, -s.c12, -s.c3, -s.linear⟩⟩

@[simp] theorem zero_total : (0 : Scalable.Sums).total = 0 := rfl
@[simp] theorem zero_c12 : (0 : Scalable.Sums).c12 = 0 := rfl
@[simp] theorem zero_c3 : (0 : Scalable.Sums).c3 = 0 := rfl
@[simp] theorem zero_linear : (0 : Scalable.Sums).linear = 0 := rfl

variable (s t : Scalable.Sums)

@[simp] theorem add_total : (s + t).total = s.total + t.total := rfl
@[simp] theorem add_c12 : (s + t).c12 = s.c12 + t.c12 := rfl
@[simp] theorem add_c3 : (s + t).c3 = s.c3 + t.c3 := rfl
@[simp] theorem add_linear : (s + t).linear = s.linear + t.linear := rfl

/-- Sums are added and subtracted member by member. -/
instance : AddCommGroup Scalable.Sums where
  __ := AddGroup.ofLeftAxioms
    (fun _ _ _ => Scalable.Sums.ext (add_assoc _ _ _) (add_assoc _ _ _) (add_assoc _ _ _)
      (add_assoc _ _ _))
    (fun _ => Scalable.Sums.ext (zero_add _) (zero_add _) (zero_add _) (zero_add _))
    (fun _ => Scalable.Sums.ext (neg_add_cancel _) (neg_add_cancel _) (neg_add_cancel _)
      (neg_add_cancel _))
  add_comm _ _ := Scalable.Sums.ext (add_comm _ _) (add_comm _ _) (add_comm _ _) (add_comm _ _)

@[simp] theorem sub_total : (s - t).total = s.total - t.total := (sub_eq_add_neg _ _).symm
@[simp] theorem sub_c12 : (s - t).c12 = s.c12 - t.c12 := (sub_eq_add_neg _ _).symm
@[simp] theorem sub_c3 : (s - t).c3 = s.c3 - t.c3 := (sub_eq_add_neg _ _).symm
@[simp] theorem sub_linear : (s - t).linear = s.linear - t.linear := (sub_eq_add_neg _ _).symm

end Scalable.Sums

/-- What a request stands for. -/
structure Plain where
  costs : List (CostRow Int)
  scale : Int
  threshold : Int
  config : ConfidentialScalableOptimizerConfig

namespace Plain

variable (p : Plain)

def maximumTotal : Int :=
  suffix max Choice.cost p.costs

def model : Model where
  costs := p.costs
  threshold := p.threshold
  maxTotal := p.maximumTotal
  scale := p.scale

def penalty : Int :=
  p.config.infeasiblePenalty * (p.maximumTotal + 1)

def missingExtentScaled : Int :=
  p.scale * (p.maximumTotal + 1)

/-! ## Individuals -/

/-- The sums that a choice adds. -/
def part (c : Choice Int) : Scalable.Sums where
  total := c.cost
  c12 := if c.method < 2 then c.cost else 0
  c3 := if c.method < 2 then 0 else c.cost
  linear := contribution p.scale p.threshold c

def sums (genes : List Method) : Scalable.Sums :=
  let leaf := choices p.model genes
  ⟨total leaf, Optimization.c12 leaf, Optimization.c3 leaf,
    Optimization.linear p.scale p.threshold leaf⟩

def isFeasible (s : Scalable.Sums) : Bool :=
  decide (0 ≤ s.linear ∧ 0 < s.c3 ∧ 0 < s.total)

def violation (s : Scalable.Sums) : Int :=
  if 0 < -s.linear then -s.linear else 0

def missing (s : Scalable.Sums) : Bool :=
  !decide (0 < s.c3)

def fitnessOf (s : Scalable.Sums) : Int :=
  p.scale * s.total + p.scale * p.penalty +
    (p.penalty * violation s + p.penalty * p.missingExtentScaled * (missing s).toInt)

/-- The individual with these genes. -/
def individual (genes : List Method) : Scalable.Individual Int where
  toSums := p.sums genes
  genes := genes
  fitness := p.fitnessOf (p.sums genes)
  feasible := isFeasible (p.sums genes)

/-- Available genes, and the members that they give. -/
structure Proper (x : Scalable.Individual Int) : Prop where
  available : Available p.model x.genes
  individual : p.individual x.genes = x

/-- The sums of a gene. -/
def geneSums (row : CostRow Int) (method : Method) : Scalable.Sums :=
  p.part (chosen row method)

theorem sums_eq (genes : List Method) :
    p.sums genes = (List.zipWith p.geneSums p.costs genes).sum := by
  have hleaf : ∀ leaf : List (Choice Int), (leaf.map p.part).sum =
      ⟨total leaf, Optimization.c12 leaf, Optimization.c3 leaf,
        Optimization.linear p.scale p.threshold leaf⟩ := by
    intro leaf
    induction leaf with
    | nil => rfl
    | cons c leaf ih =>
        rw [List.map_cons, List.sum_cons, ih]
        simp [Scalable.Sums.ext_iff, part, total, Optimization.c12, Optimization.c3,
          Optimization.linear]
  rw [sums, ← hleaf, choices, List.map_zipWith]
  rfl

/-! ## Selection -/

def eliteSet (elitism : Nat) (population : List (Scalable.Individual Int)) :
    List (Scalable.Individual Int) :=
  InsertionNetwork.top order elitism population

def trackBest (population : List (Scalable.Individual Int)) (best : Scalable.Individual Int) :
    Scalable.Individual Int :=
  population.foldl (fun best x => if order x best then x else best) best

def tournament (draws : Nat → UInt64) (population : List (Scalable.Individual Int)) :
    RunM (Scalable.Individual Int) := do
  let i ← index draws population.length
  selectRounds draws population (p.config.tournamentSize - 1)
    (population.getD i (p.individual []))

/-! ## Repair -/

/-- `Scan` behind the encryption. -/
structure Scan where
  selectedCost : Int := 0
  selectedLinear : Int := 0
  selectedId : Int := 0
  haveSelected : Bool := false
  best3Cost : Int := 0
  best3Linear : Int := 0
  best3Id : Int := 0
  have3 : Bool := false
  deriving DecidableEq, Repr

/-- A row with its gene and its number. -/
abbrev RowGene := (CostRow Int × Method) × Nat

def rowGenes (genes : List Method) : List RowGene :=
  (p.costs.zip genes).zipIdx

def deltaCost (item : RowGene) (choice : Choice Int) : Int :=
  choice.cost - (chosen item.1.1 item.1.2).cost

def deltaLinear (item : RowGene) (choice : Choice Int) : Int :=
  contribution p.scale p.threshold choice -
    contribution p.scale p.threshold (chosen item.1.1 item.1.2)

/-- Keep the cheapest change to method 3. -/
def keepMethod3 (item : RowGene) (choice : Choice Int) (scan : Scan) : Scan :=
  let replace3 := !scan.have3 || decide (deltaCost item choice < scan.best3Cost)
  { scan with
    best3Cost := if replace3 then deltaCost item choice else scan.best3Cost
    best3Linear := if replace3 then p.deltaLinear item choice else scan.best3Linear
    best3Id := if replace3 then Pega.targetId item.2 choice.method else scan.best3Id
    have3 := scan.have3 || replace3 }

def validTarget (needMethod3 : Bool) (method3Count : Int) (item : RowGene) (choice : Choice Int) :
    Bool :=
  decide (0 < p.deltaLinear item choice) &&
    if choice.method ≠ 2 then decide (0 < method3Count - if 2 = item.1.2 then 1 else 0)
    else !needMethod3

/-- Keep the best change of the linear value. -/
def keepSelected (valid : Bool) (item : RowGene) (choice : Choice Int) (scan : Scan) : Scan :=
  let smaller := decide (deltaCost item choice * scan.selectedLinear <
    scan.selectedCost * p.deltaLinear item choice)
  let replace := valid && (!scan.haveSelected || smaller)
  { scan with
    selectedCost := if replace then deltaCost item choice else scan.selectedCost
    selectedLinear := if replace then p.deltaLinear item choice else scan.selectedLinear
    selectedId := if replace then Pega.targetId item.2 choice.method else scan.selectedId
    haveSelected := scan.haveSelected || valid }

def scanTarget (needMethod3 : Bool) (method3Count : Int) (item : RowGene) (scan : Scan)
    (choice : Choice Int) : Scan :=
  p.keepSelected (p.validTarget needMethod3 method3Count item choice) item choice
    (if choice.method ≠ 2 then scan else p.keepMethod3 item choice scan)

def scanRows (needMethod3 : Bool) (genes : List Method) : Scan :=
  (p.rowGenes genes).foldl (fun scan item =>
    (options item.1.1).foldl (p.scanTarget needMethod3 (genes.count 2) item) scan) {}

/-- The target of a round, and whether it is applied. -/
def findTarget (x : Scalable.Individual Int) : Int × Bool :=
  let needMethod3 := missing x.toSums
  let scan := p.scanRows needMethod3 x.genes
  (if needMethod3 then scan.best3Id else scan.selectedId,
    !x.feasible && (scan.haveSelected || (needMethod3 && scan.have3)))

def applyTarget (selectedId : Int) (apply : Bool) (row : Nat) (gene : Method)
    (choice : Choice Int) : Method :=
  if apply && decide (selectedId = Pega.targetId row choice.method) then choice.method else gene

def applyTargets (target : Int × Bool) (genes : List Method) : List Method :=
  (p.rowGenes genes).map fun item =>
    (options item.1.1).foldl (applyTarget target.1 target.2 item.2) item.1.2

def repairRound (x : Scalable.Individual Int) : Scalable.Individual Int :=
  p.individual (p.applyTargets (p.findTarget x) x.genes)

def rounds : Nat :=
  if p.config.repairRounds = 0 then p.costs.length * 3 else p.config.repairRounds

def repair (x : Scalable.Individual Int) : Scalable.Individual Int :=
  (p.repairRound)^[p.rounds] x

/-! ## The run -/

variable (draws : Nat → UInt64)

def cheapest : Scalable.Individual Int :=
  p.individual (p.costs.map cheapestGene)

def randomIndividual : RunM (Scalable.Individual Int) := do
  let genes ← p.costs.mapM (randomGene draws)
  return p.individual genes

def randomPopulation : Nat → RunM (List (Scalable.Individual Int))
  | 0 => return []
  | count + 1 => do
      let x ← p.randomIndividual draws
      let rest ← randomPopulation count
      return p.repair x :: rest

def mutate (genes : List Method) : RunM (List Method) :=
  (p.costs.zip genes).mapM fun item => mutateGene draws p.config.mutationRate item.1 item.2

def child (population : List (Scalable.Individual Int)) : RunM (Scalable.Individual Int) := do
  let child ← p.tournament draws population
  let other ← p.tournament draws population
  let genes ← crossover draws p.config.crossoverRate child.genes other.genes
  let genes ← p.mutate draws genes
  return p.repair (p.individual genes)

def children (population : List (Scalable.Individual Int)) :
    Nat → RunM (List (Scalable.Individual Int))
  | 0 => return []
  | count + 1 => do
      let x ← p.child draws population
      let rest ← children population count
      return x :: rest

def nextPopulation (population : List (Scalable.Individual Int)) :
    RunM (List (Scalable.Individual Int)) := do
  let elite := eliteSet p.config.elitism population
  let next ← p.children draws population (p.config.population - elite.length)
  return elite ++ next

/-- The populations after the first one. -/
def generations : Nat → List (Scalable.Individual Int) → RunM (History Int)
  | 0, _ => return []
  | count + 1, population => do
      let next ← p.nextPopulation draws population
      let rest ← generations count next
      return next :: rest

def history : RunM (History Int) := do
  let front := p.repair p.cheapest
  let rest ← p.randomPopulation draws (p.config.population - 1)
  let later ← p.generations draws p.config.generations (front :: rest)
  return (front :: rest) :: later

/-- The best individual of a run, over the populations that it has gone through. -/
def bestOf (history : History Int) : Scalable.Individual Int :=
  trackBest history.flatten.tail (history.flatten.headD (p.individual []))

end Plain

end Optimization
end SociSgx

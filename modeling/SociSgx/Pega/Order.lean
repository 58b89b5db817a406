import SociSgx.Pega.Exact
import SociSgx.Secure.PredicateEngine

/-!
# Order — the bit that `better` computes

The gated versions of `feasible`, `fitness`, `lexLess` and `better` note every bit that they make;
they do the same as the plain ones.  Every noted bit is 0 or 1, the bits of an exclusive gate
exclude each other, and the last bit is `order` of the individuals that are compared.
-/

namespace SociSgx
namespace Optimization

open Exec Secure CountedOps Scalable Scalable.Evaluator
open Secure.PredicateEngine (Gate GateM GatesHold gate_not gate_and gate_or gate_orExclusive)

/-! ## The gated versions -/

namespace Pega

variable {σ C : Type} (pega : Pega σ C)

/-- A run of PEGA whose gates are noted. -/
abbrev GatedM (σ C : Type) : Type → Type := GateM (σ × Progress) C

def gatedGreater (a b : C) : GatedM σ C (EncryptedBit C) :=
  noted (fun out => [Gate.compare out]) (greater pega.ops a b)

def gatedLess (a b : C) : GatedM σ C (EncryptedBit C) :=
  pega.gatedGreater b a

def gatedNot (a : EncryptedBit C) : GatedM σ C (EncryptedBit C) :=
  noted (fun out => [Gate.bitNot a out]) (notBit pega.ops a)

def gatedAnd (a b : EncryptedBit C) : GatedM σ C (EncryptedBit C) :=
  noted (fun out => [Gate.bitAnd a b out]) (andBit pega.ops a b)

def gatedOr (a b : EncryptedBit C) : GatedM σ C (EncryptedBit C) :=
  noted (fun out => [Gate.bitOr a b out]) (orBit pega.ops a b)

def gatedOrExclusive (a b : EncryptedBit C) : GatedM σ C (EncryptedBit C) :=
  noted (fun out => [Gate.bitOrExclusive a b out]) (orBitExclusive pega.ops a b)

/-- `feasible` with notes. -/
def gatedFeasible (value : Individual C) : GatedM σ C (EncryptedBit C × Individual C) :=
  match value.feasibleCache with
  | some bit => pure (bit, value)
  | none => do
      let negative ← pega.gatedLess value.totals.linear pega.zero
      let linearNonnegative ← pega.gatedNot negative
      let hasMethod3 ← pega.gatedGreater value.totals.c3 pega.zero
      let nonzeroTotal ← pega.gatedGreater value.totals.total pega.zero
      let both ← pega.gatedAnd linearNonnegative hasMethod3
      let bit ← pega.gatedAnd both nonzeroTotal
      return (bit, { value with feasibleCache := some bit })

/-- `fitness` with notes. -/
def gatedFitness (value : Individual C) : GatedM σ C (C × Individual C) :=
  match value.fitnessCache with
  | some score => pure (score, value)
  | none => do
      let negativeLinear ← onFst (scalar pega.ops value.totals.linear (-1))
      let violated ← pega.gatedGreater negativeLinear pega.zero
      let violation ← onFst (select pega.ops violated negativeLinear pega.zero)
      let present ← pega.gatedGreater value.totals.c3 pega.zero
      let missing ← pega.gatedNot present
      let base ← onFst (scalar pega.ops value.totals.total pega.ops.domain.scale)
      let weightedViolation ← onFst (mul pega.ops pega.penalty violation)
      let missingCost ← onFst (mul pega.ops pega.missingPenalty missing.ciphertext)
      let left ← onFst (add pega.ops base pega.penaltyScaled)
      let right ← onFst (add pega.ops weightedViolation missingCost)
      let score ← onFst (add pega.ops left right)
      return (score, { value with fitnessCache := some score })

/-- `lexFold` with notes. -/
def gatedLexFold (lexLess equalSoFar : EncryptedBit C) :
    List (EncryptedBit C) → GatedM σ C (EncryptedBit C)
  | smaller :: larger :: compared => do
      let different ← pega.gatedOrExclusive larger smaller
      let equal ← pega.gatedNot different
      let here ← pega.gatedAnd equalSoFar smaller
      let lexLess ← pega.gatedOr lexLess here
      let equalSoFar ← pega.gatedAnd equalSoFar equal
      gatedLexFold lexLess equalSoFar compared
  | _ => pure lexLess

/-- `lexLess` with notes. -/
def gatedLexLess (a b : Individual C) : GatedM σ C (EncryptedBit C) := do
  let never ← pega.gatedGreater pega.zero pega.zero
  let equalSoFar ← pega.gatedNot never
  let lexLess ← pega.gatedGreater pega.zero pega.zero
  let relations ← onFst ((a.genes.zip b.genes).mapM fun genes => do
    let aIndex ← pega.geneIndex genes.1
    let bIndex ← pega.geneIndex genes.2
    return [(bIndex, aIndex), (aIndex, bIndex)])
  let compared ← noted (fun outs => outs.map Gate.compare)
    (greaterBatch pega.ops relations.flatten)
  pega.gatedLexFold lexLess equalSoFar compared

/-- `better` with notes. -/
def gatedBetter (a b : Individual C) :
    GatedM σ C (EncryptedBit C × Individual C × Individual C) := do
  let (feasibleA, a) ← pega.gatedFeasible a
  let (feasibleB, b) ← pega.gatedFeasible b
  let infeasibleB ← pega.gatedNot feasibleB
  let aOnlyFeasible ← pega.gatedAnd feasibleA infeasibleB
  let totalAbove ← pega.gatedGreater a.totals.total b.totals.total
  let totalBelow ← pega.gatedGreater b.totals.total a.totals.total
  let totalDifferent ← pega.gatedOrExclusive totalAbove totalBelow
  let totalEqual ← pega.gatedNot totalDifferent
  let ratioLess ← pega.gatedLess a.totals.linear b.totals.linear
  let ratioAbove ← pega.gatedGreater a.totals.linear b.totals.linear
  let ratioBelow ← pega.gatedGreater b.totals.linear a.totals.linear
  let ratioDifferent ← pega.gatedOrExclusive ratioAbove ratioBelow
  let ratioEqual ← pega.gatedNot ratioDifferent
  let lex ← pega.gatedLexLess a b
  let tieLex ← pega.gatedAnd ratioEqual lex
  let ratioBetter ← pega.gatedOr ratioLess tieLex
  let tie ← pega.gatedAnd totalEqual ratioBetter
  let feasibleBetter ← pega.gatedOr totalBelow tie
  let (fitnessA, a) ← pega.gatedFitness a
  let (fitnessB, b) ← pega.gatedFitness b
  let infeasibleLess ← pega.gatedLess fitnessA fitnessB
  let fitnessAbove ← pega.gatedGreater fitnessA fitnessB
  let fitnessBelow ← pega.gatedGreater fitnessB fitnessA
  let fitnessDifferent ← pega.gatedOrExclusive fitnessAbove fitnessBelow
  let infeasibleEqual ← pega.gatedNot fitnessDifferent
  let lex ← pega.gatedLexLess a b
  let infeasibleTie ← pega.gatedAnd infeasibleEqual lex
  let infeasibleBetter ← pega.gatedOr infeasibleLess infeasibleTie
  let sameClass ← pega.gatedAnd feasibleA feasibleB
  let notA ← pega.gatedNot feasibleA
  let notB ← pega.gatedNot feasibleB
  let bothInfeasible ← pega.gatedAnd notA notB
  let first ← pega.gatedAnd sameClass feasibleBetter
  let second ← pega.gatedAnd bothInfeasible infeasibleBetter
  let either ← pega.gatedOr first second
  let bit ← pega.gatedOr aOnlyFeasible either
  return (bit, a, b)

/-! ### The notes change nothing -/

theorem gatedFeasible_erases (value : Individual C) :
    Erases Prod.fst (pega.gatedFeasible value) (pega.feasible value) := by
  unfold gatedFeasible feasible
  cases value.feasibleCache with
  | some bit => exact Erases.pure _
  | none =>
      refine Erases.noted.bind fun _ => ?_
      refine Erases.noted.bind fun _ => ?_
      refine Erases.noted.bind fun _ => ?_
      refine Erases.noted.bind fun _ => ?_
      refine Erases.noted.bind fun _ => ?_
      exact Erases.noted.bind fun _ => Erases.pure _

theorem gatedFitness_erases (value : Individual C) :
    Erases Prod.fst (pega.gatedFitness value) (pega.fitness value) := by
  unfold gatedFitness fitness
  cases value.fitnessCache with
  | some score => exact Erases.pure _
  | none =>
      refine Erases.onFst.bind fun _ => ?_
      refine Erases.noted.bind fun _ => ?_
      refine Erases.onFst.bind fun _ => ?_
      refine Erases.noted.bind fun _ => ?_
      refine Erases.noted.bind fun _ => ?_
      refine Erases.onFst.bind fun _ => ?_
      refine Erases.onFst.bind fun _ => ?_
      refine Erases.onFst.bind fun _ => ?_
      refine Erases.onFst.bind fun _ => ?_
      refine Erases.onFst.bind fun _ => ?_
      exact Erases.onFst.bind fun _ => Erases.pure _

theorem gatedLexFold_erases (lexLess equalSoFar : EncryptedBit C)
    (compared : List (EncryptedBit C)) :
    Erases Prod.fst (pega.gatedLexFold lexLess equalSoFar compared)
      (pega.lexFold lexLess equalSoFar compared) := by
  fun_induction pega.gatedLexFold lexLess equalSoFar compared with
  | case1 lexLess equalSoFar smaller larger compared ih =>
      refine Erases.noted.bind fun _ => ?_
      refine Erases.noted.bind fun _ => ?_
      refine Erases.noted.bind fun _ => ?_
      refine Erases.noted.bind fun _ => ?_
      exact Erases.noted.bind fun _ => ih _ _
  | case2 lexLess equalSoFar compared hshort =>
      rw [lexFold]
      · exact Erases.pure _
      · exact hshort

theorem gatedLexLess_erases (a b : Individual C) :
    Erases Prod.fst (pega.gatedLexLess a b) (pega.lexLess a b) := by
  refine Erases.noted.bind fun _ => ?_
  refine Erases.noted.bind fun _ => ?_
  refine Erases.noted.bind fun _ => ?_
  refine Erases.onFst.bind fun _ => ?_
  exact Erases.noted.bind fun _ => pega.gatedLexFold_erases _ _ _

theorem gatedBetter_erases (a b : Individual C) :
    Erases Prod.fst (pega.gatedBetter a b) (pega.better a b) := by
  refine (pega.gatedFeasible_erases a).bind fun _ => ?_
  refine (pega.gatedFeasible_erases b).bind fun _ => ?_
  refine Erases.noted.bind fun _ => ?_
  refine Erases.noted.bind fun _ => ?_
  refine Erases.noted.bind fun _ => ?_
  refine Erases.noted.bind fun _ => ?_
  refine Erases.noted.bind fun _ => ?_
  refine Erases.noted.bind fun _ => ?_
  refine Erases.noted.bind fun _ => ?_
  refine Erases.noted.bind fun _ => ?_
  refine Erases.noted.bind fun _ => ?_
  refine Erases.noted.bind fun _ => ?_
  refine Erases.noted.bind fun _ => ?_
  refine (pega.gatedLexLess_erases _ _).bind fun _ => ?_
  refine Erases.noted.bind fun _ => ?_
  refine Erases.noted.bind fun _ => ?_
  refine Erases.noted.bind fun _ => ?_
  refine Erases.noted.bind fun _ => ?_
  refine (pega.gatedFitness_erases _).bind fun _ => ?_
  refine (pega.gatedFitness_erases _).bind fun _ => ?_
  refine Erases.noted.bind fun _ => ?_
  refine Erases.noted.bind fun _ => ?_
  refine Erases.noted.bind fun _ => ?_
  refine Erases.noted.bind fun _ => ?_
  refine Erases.noted.bind fun _ => ?_
  refine (pega.gatedLexLess_erases _ _).bind fun _ => ?_
  refine Erases.noted.bind fun _ => ?_
  refine Erases.noted.bind fun _ => ?_
  refine Erases.noted.bind fun _ => ?_
  refine Erases.noted.bind fun _ => ?_
  refine Erases.noted.bind fun _ => ?_
  refine Erases.noted.bind fun _ => ?_
  refine Erases.noted.bind fun _ => ?_
  refine Erases.noted.bind fun _ => ?_
  refine Erases.noted.bind fun _ => ?_
  exact Erases.noted.bind fun _ => Erases.pure _

end Pega

/-! ## Proper individuals -/

namespace Plain

variable {p : Plain}

/-- The individual of available genes is proper. -/
theorem Proper.ofGenes {genes : List Method} (h : Available p.model genes) :
    p.Proper (p.individual genes) :=
  ⟨h, rfl⟩

variable {x y : Scalable.Individual Int} (hx : p.Proper x)
include hx

theorem Proper.feasible_eq : x.feasible = isFeasible x.toSums := by
  rw [← hx.individual]
  rfl

theorem Proper.fitness_eq : x.fitness = p.fitnessOf x.toSums := by
  rw [← hx.individual]
  rfl

theorem Proper.sums_eq : p.sums x.genes = x.toSums :=
  congrArg Scalable.Individual.toSums hx.individual

theorem Proper.small {Fits : Int → Prop} {bound : Int} (h : p.Capacity Fits bound) :
    Capacity.Small p (p.extent bound) x.toSums := by
  rw [← hx.sums_eq]
  exact h.small_sums hx.available

theorem Proper.total_pos (hfeasible : x.feasible = true) : 0 < x.total := by
  rw [hx.feasible_eq, isFeasible, decide_eq_true_iff] at hfeasible
  exact hfeasible.2.2

theorem Proper.ext (hy : p.Proper y) (h : x.genes = y.genes) : x = y := by
  rw [← hx.individual, ← hy.individual, h]

theorem Proper.length_eq : x.genes.length = p.costs.length :=
  hx.available.length_eq.symm

end Plain

/-! ## The bits -/

section Bits

variable {σ C : Type} [CiphertextLike C] {D : C → Int → Prop} {Fits : Int → Prop}
  {Batch : Nat → Prop} {I : σ → Prop} {drawn : Nat} {p : Plain} {bound : Int} {pega : Pega σ C}
  (h : Runs D Fits Batch I pega p bound) {E : Error → (σ × Progress) × List (Gate C) → Prop}
include h

section Gates

variable {a b : C} {x y : Int} {s t : EncryptedBit C} {u v : Bool}

theorem gatedGreater_yields (ha : D a x) (hb : D b y) (hx : Fits x) (hy : Fits y) :
    Yields (GatesHold (Kept I drawn) D) (pega.gatedGreater a b)
      (fun bit => BitHolds D bit (decide (y < x))) E :=
  Yields.notedOne (greater_yields h.exact ha hb hx hy) fun _ hbit => ⟨_, hbit⟩

theorem gatedNot_yields (hs : BitHolds D s u) :
    Yields (GatesHold (Kept I drawn) D) (pega.gatedNot s) (fun bit => BitHolds D bit (!u)) E :=
  gate_not hs (notBit_yields h.exact hs)

theorem gatedAnd_yields (hs : BitHolds D s u) (ht : BitHolds D t v) :
    Yields (GatesHold (Kept I drawn) D) (pega.gatedAnd s t)
      (fun bit => BitHolds D bit (u && v)) E :=
  gate_and hs ht (andBit_yields h.exact h.capacity.fits_zero h.capacity.fits_one hs ht)

theorem gatedOr_yields (hs : BitHolds D s u) (ht : BitHolds D t v) :
    Yields (GatesHold (Kept I drawn) D) (pega.gatedOr s t)
      (fun bit => BitHolds D bit (u || v)) E :=
  gate_or hs ht (orBit_yields h.exact h.capacity.fits_zero h.capacity.fits_one hs ht)

theorem gatedOrExclusive_yields (hs : BitHolds D s u) (ht : BitHolds D t v)
    (huv : (u && v) = false) :
    Yields (GatesHold (Kept I drawn) D) (pega.gatedOrExclusive s t)
      (fun bit => BitHolds D bit (u || v)) E :=
  gate_orExclusive hs ht huv (orBitExclusive_yields h.exact hs ht huv)

omit h [CiphertextLike C] in
/-- Nothing is both below and above. -/
theorem below_above {α : Type} [LinearOrder α] (x y : α) :
    (decide (x < y) && decide (y < x)) = false := by
  rw [Bool.and_eq_false_iff, decide_eq_false_iff_not, decide_eq_false_iff_not]
  exact not_and_or.1 fun hboth => lt_asymm hboth.1 hboth.2

omit h [CiphertextLike C] in
/-- Neither above nor below. -/
theorem neither_eq {α : Type} [LinearOrder α] (x y : α) :
    (!(decide (y < x) || decide (x < y))) = decide (x = y) := by
  rw [Bool.eq_iff_iff, Bool.not_eq_true', Bool.or_eq_false_iff, decide_eq_false_iff_not,
    decide_eq_false_iff_not, decide_eq_true_iff, not_lt, not_lt]
  exact le_antisymm_iff.symm

end Gates

/-! ### Feasibility and fitness -/

theorem gatedFeasible_yields {value : Individual C} {x : Scalable.Individual Int}
    (hx : p.Proper x) (hvalue : Holds D value x) :
    Yields (GatesHold (Kept I drawn) D) (pega.gatedFeasible value)
      (fun r => BitHolds D r.1 x.feasible ∧ Holds D r.2 x ∧ r.2.rows = value.rows) E := by
  unfold Pega.gatedFeasible
  split
  -- The cached bit was computed for the same sums.
  · rename_i bit hbit
    exact Yields.pure ⟨hvalue.feasibleCache bit hbit, hvalue, rfl⟩
  · have hsmall := hx.small h.capacity
    have hextent := h.capacity.extent_nonneg
    have hscale := h.capacity.scale_pos
    have htotal := hsmall.total
    have hc3 := hsmall.c3
    have hlinear : Fits x.linear := by
      refine h.capacity.fits_linear (hsmall.linear.trans ?_)
      have hproduct := mul_nonneg hscale.le hextent
      linarith
    refine (gatedGreater_yields h h.zero hvalue.totals.linear h.capacity.fits_zero hlinear).bind
      fun negative hnegative => ?_
    refine (gatedNot_yields h hnegative).bind fun linearNonnegative hlinearNonnegative => ?_
    refine (gatedGreater_yields h hvalue.totals.c3 h.zero (h.capacity.fits_cost (by linarith))
      h.capacity.fits_zero).bind fun hasMethod3 hhasMethod3 => ?_
    refine (gatedGreater_yields h hvalue.totals.total h.zero (h.capacity.fits_cost (by linarith))
      h.capacity.fits_zero).bind fun nonzeroTotal hnonzeroTotal => ?_
    refine (gatedAnd_yields h hlinearNonnegative hhasMethod3).bind fun both hboth => ?_
    refine (gatedAnd_yields h hboth hnonzeroTotal).bind fun bit hbit => Yields.pure ?_
    -- The three comparisons together are the plain test.
    have hfeasible : (!decide (x.linear < 0) && decide (0 < x.c3) && decide (0 < x.total)) =
        x.feasible := by
      rw [hx.feasible_eq, Plain.isFeasible, Bool.eq_iff_iff]
      simp [and_assoc]
    rw [hfeasible] at hbit
    refine ⟨hbit, ⟨hvalue.genes, hvalue.totals, ?_, hvalue.fitnessCache⟩, rfl⟩
    intro cached hcached
    cases hcached
    exact hbit

theorem gatedFitness_yields {value : Individual C} {x : Scalable.Individual Int}
    (hx : p.Proper x) (hvalue : Holds D value x) :
    Yields (GatesHold (Kept I drawn) D) (pega.gatedFitness value)
      (fun r => D r.1 x.fitness ∧ Holds D r.2 x) E := by
  unfold Pega.gatedFitness
  split
  · rename_i score hscore
    exact Yields.pure ⟨hvalue.fitnessCache score hscore, hvalue⟩
  · have hsmall := hx.small h.capacity
    have hextent := h.capacity.extent_nonneg
    have hscale := h.capacity.scale_pos
    have hproduct := mul_nonneg hscale.le hextent
    have h0 := h.capacity.fits_zero
    have h1 := h.capacity.fits_one
    have hc3 := hsmall.c3
    have hlinear : Fits (-1 * x.linear) := by
      refine h.capacity.fits_linear ?_
      rw [neg_one_mul, abs_neg]
      exact hsmall.linear.trans (by linarith)
    have hviolationFits : Fits (Plain.violation x.toSums) := by
      refine h.capacity.fits_linear ((h.capacity.abs_violation_le hsmall).trans ?_)
      linarith
    refine (scalar_yields h.exact (-1) hvalue.totals.linear).silent.bind
      fun negativeLinear hnegativeLinear => ?_
    refine (gatedGreater_yields h hnegativeLinear h.zero hlinear h0).bind
      fun violated hviolated => ?_
    refine (select_yields h.exact h0 h1 hviolated hnegativeLinear h.zero
      (by rwa [sub_zero])).silent.bind fun violation hviolation => ?_
    refine (gatedGreater_yields h hvalue.totals.c3 h.zero (h.capacity.fits_cost (by linarith))
      h0).bind fun present hpresent => ?_
    refine (gatedNot_yields h hpresent).bind fun missing hmissing => ?_
    refine (scalar_yields h.exact _ hvalue.totals.total).silent.bind fun base hbase => ?_
    -- The selection leaves the violation where there is one and zero elsewhere.
    have hviolationEq : (if decide (0 < -1 * x.linear) = true then -1 * x.linear else 0) =
        Plain.violation x.toSums := by
      simp [Plain.violation]
    rw [hviolationEq] at hviolation
    refine (mul_yields h.exact h.penalty hviolation h.capacity.fits_penalty
      hviolationFits).silent.bind fun weightedViolation hweightedViolation => ?_
    refine (mul_yields h.exact h.missingPenalty hmissing
      (h.capacity.fits_quarter h.capacity.abs_missingPenalty_le)
      (fits_toInt h0 h1 _)).silent.bind fun missingCost hmissingCost => ?_
    refine (add_yields h.exact hbase h.penaltyScaled).silent.bind fun left hleft => ?_
    refine (add_yields h.exact hweightedViolation hmissingCost).silent.bind fun right hright => ?_
    refine (add_yields h.exact hleft hright).silent.bind fun score hscore => Yields.pure ?_
    rw [h.scale] at hscore
    have hfitness : D score x.fitness := by
      rw [hx.fitness_eq]
      exact hscore
    refine ⟨hfitness, ⟨hvalue.genes, hvalue.totals, hvalue.feasibleCache, ?_⟩⟩
    intro cached hcached
    cases hcached
    exact hfitness

/-! ### The lexicographic order of the genes -/

omit h [CiphertextLike C] in
theorem lex_cons (x y : Method) (xs ys : List Method) :
    decide (x :: xs < y :: ys) = (decide (x < y) || (decide (x = y) && decide (xs < ys))) := by
  rw [Bool.eq_iff_iff]
  simp [List.cons_lt_cons_iff]

/-- The two comparisons of a row. -/
abbrev rowBits (item : Method × Method) : List Bool :=
  [decide (item.1 < item.2), decide (item.2 < item.1)]

theorem gatedLexFold_yields {xs ys : List Method} (hlength : xs.length = ys.length) :
    ∀ {lexLess equalSoFar : EncryptedBit C} {less equal : Bool} {compared : List (EncryptedBit C)},
      BitHolds D lexLess less → BitHolds D equalSoFar equal →
      List.Forall₂ (BitHolds D) compared ((xs.zip ys).flatMap rowBits) →
      Yields (GatesHold (Kept I drawn) D) (pega.gatedLexFold lexLess equalSoFar compared)
        (fun bit => BitHolds D bit (less || (equal && decide (xs < ys)))) E := by
  induction xs generalizing ys with
  | nil =>
      intro lexLess equalSoFar less equal compared hless hequal hcompared
      cases hcompared
      cases ys with
      | nil => exact Yields.pure (by simpa using hless)
      | cons y ys => cases hlength
  | cons x xs ih =>
      intro lexLess equalSoFar less equal compared hless hequal hcompared
      cases ys with
      | nil => cases hlength
      | cons y ys =>
          rw [List.zip_cons_cons, List.flatMap_cons] at hcompared
          cases hcompared with
          | @cons smaller _ compared _ hsmaller hcompared =>
              cases hcompared with
              | @cons larger _ compared _ hlarger hcompared =>
                  refine (gatedOrExclusive_yields h hlarger hsmaller (below_above y x)).bind
                    fun different hdifferent => ?_
                  refine (gatedNot_yields h hdifferent).bind fun same hsame => ?_
                  refine (gatedAnd_yields h hequal hsmaller).bind fun here hhere => ?_
                  refine (gatedOr_yields h hless hhere).bind fun lexLess hless => ?_
                  refine (gatedAnd_yields h hequal hsame).bind fun equalSoFar hequal => ?_
                  refine (ih (Nat.succ.inj hlength) hless hequal hcompared).post fun bit hbit => ?_
                  rw [neither_eq] at hbit
                  rw [lex_cons]
                  cases less <;> cases equal <;> simpa using hbit

/-- The number that a one-hot vector stands for. -/
theorem geneIndex_yields {gene : Gene C} {method : Method} (hgene : GeneHolds D gene method) :
    Yields (Kept I drawn) (pega.geneIndex gene) (fun c => D c method.val) Never := by
  refine (scalar_yields h.exact 2 (hgene 2)).bind fun twice htwice => ?_
  refine (add_yields h.exact (hgene 1) htwice).post fun c hc => ?_
  have hvalue : ∀ method : Method, (if 1 = method then (1 : Int) else 0) +
      2 * (if 2 = method then 1 else 0) = method.val := by
    decide
  rwa [hvalue] at hc

omit h [CiphertextLike C] in
theorem flatten_rel {α β γ : Type} {A : α → β → Prop} {f : γ → List β} {groups : List (List α)}
    {xs : List γ} (hgroups : List.Forall₂ (fun group x => List.Forall₂ A group (f x)) groups xs) :
    List.Forall₂ A groups.flatten (xs.flatMap f) := by
  induction hgroups with
  | nil => exact .nil
  | cons hgroup _ ih => exact List.rel_append hgroup ih

theorem gatedLexLess_yields {a b : Individual C} {xs ys : List Method}
    (ha : GenesHold D a.genes xs) (hb : GenesHold D b.genes ys)
    (hlength : xs.length = ys.length) :
    Yields (GatesHold (Kept I drawn) D) (pega.gatedLexLess a b)
      (fun bit => BitHolds D bit (decide (xs < ys))) E := by
  have h0 := h.capacity.fits_zero
  refine (gatedGreater_yields h h.zero h.zero h0 h0).bind fun never hnever => ?_
  refine (gatedNot_yields h hnever).bind fun equalSoFar hequalSoFar => ?_
  refine (gatedGreater_yields h h.zero h.zero h0 h0).bind fun lexLess hlexLess => ?_
  -- Each gene is compared in both directions, and all comparisons go in one batch.
  have hrelations := Yields.mapM (E := Never) (I := Kept I drawn)
    (f := fun (genes : Gene C × Gene C) => do
      let aIndex ← pega.geneIndex genes.1
      let bIndex ← pega.geneIndex genes.2
      return [(bIndex, aIndex), (aIndex, bIndex)])
    (S := fun (pairs : List (C × C)) (item : Method × Method) =>
      List.Forall₂ (fun pair (x : Int × Int) => D pair.1 x.1 ∧ D pair.2 x.2) pairs
        [((item.2.val : Int), (item.1.val : Int)), ((item.1.val : Int), (item.2.val : Int))])
    (zip_rel ha hb) fun genes item _ _ hgenes => by
      refine (geneIndex_yields h hgenes.1).bind fun aIndex haIndex => ?_
      refine (geneIndex_yields h hgenes.2).bind fun bIndex hbIndex => Yields.pure ?_
      exact .cons ⟨hbIndex, haIndex⟩ (.cons ⟨haIndex, hbIndex⟩ .nil)
  refine hrelations.silent.bind fun relations hrelations => ?_
  have hitems : List.Forall₂ (fun pair (x : Int × Int) => D pair.1 x.1 ∧ D pair.2 x.2)
      relations.flatten ((xs.zip ys).flatMap fun item =>
        [((item.2.val : Int), (item.1.val : Int)), ((item.1.val : Int), (item.2.val : Int))]) :=
    flatten_rel hrelations
  have hsmall : ∀ method : Method, Fits (method.val : Int) := by
    intro method
    refine h.capacity.numbers _ ?_
    rw [abs_of_nonneg (Int.natCast_nonneg _)]
    have hlt := method.isLt
    omega
  have hfit : ∀ x ∈ (xs.zip ys).flatMap fun item : Method × Method =>
      [((item.2.val : Int), (item.1.val : Int)), ((item.1.val : Int), (item.2.val : Int))],
      Fits x.1 ∧ Fits x.2 := by
    intro x hx
    rcases List.mem_flatMap.1 hx with ⟨item, _, hx⟩
    rcases List.mem_cons.1 hx with rfl | hx
    · exact ⟨hsmall _, hsmall _⟩
    · rw [List.mem_singleton.1 hx]
      exact ⟨hsmall _, hsmall _⟩
  refine Yields.bind (Yields.noted (greaterBatch_yields h.exact h.batch hitems hfit)
    fun bits hbits gate hgate => ?_) fun compared hcompared => ?_
  · rcases List.mem_map.1 hgate with ⟨bit, hbit, rfl⟩
    rcases mem_right_of_forall₂ hbits.flip hbit with ⟨x, _, hx⟩
    exact ⟨_, hx⟩
  · have hbits : List.Forall₂ (BitHolds D) compared ((xs.zip ys).flatMap rowBits) := by
      -- The answers are the bits of the rows, in the order of the requests.
      have hmapped : ((xs.zip ys).flatMap fun item : Method × Method =>
          [((item.2.val : Int), (item.1.val : Int)), ((item.1.val : Int), (item.2.val : Int))]).map
          (fun x => decide (x.2 < x.1)) = (xs.zip ys).flatMap rowBits := by
        rw [List.map_flatMap]
        refine List.flatMap_congr fun item _ => ?_
        simp [rowBits]
      rw [← hmapped, List.forall₂_map_right_iff]
      exact hcompared
    refine (gatedLexFold_yields h hlength hlexLess hequalSoFar hbits).post fun bit hbit => ?_
    simpa using hbit

/-! ### The order -/

omit h [CiphertextLike C] in
/-- `order` as a circuit, for individuals whose feasible costs are positive. -/
theorem order_eq {a b : Scalable.Individual Int} (hb : b.feasible = true → 0 < b.total) :
    order a b = (a.feasible && !b.feasible ||
      (a.feasible && b.feasible && (decide (a.total < b.total) ||
          (!(decide (b.total < a.total) || decide (a.total < b.total)) &&
            (decide (a.linear < b.linear) ||
              (!(decide (b.linear < a.linear) || decide (a.linear < b.linear)) &&
                decide (a.genes < b.genes))))) ||
        !a.feasible && !b.feasible && (decide (a.fitness < b.fitness) ||
          (!(decide (b.fitness < a.fitness) || decide (a.fitness < b.fitness)) &&
            decide (a.genes < b.genes))))) := by
  rw [neither_eq, neither_eq, neither_eq, Bool.eq_iff_iff, order_iff hb]
  cases hfa : a.feasible <;> cases hfb : b.feasible
  · simp [Individual.rank, hfa, hfb, Prod.Lex.toLex_lt_toLex]
  · simp [Individual.rank, hfa, hfb, Prod.Lex.toLex_lt_toLex]
  · simp [Individual.rank, hfa, hfb, Prod.Lex.toLex_lt_toLex]
  · simp [Individual.rank, hfa, hfb, Prod.Lex.toLex_lt_toLex]
    tauto

/-- What one comparison hands back: the bit, and both individuals with their caches. -/
structure Compared (D : C → Int → Prop) (x y : Scalable.Individual Int)
    (r : EncryptedBit C × Individual C × Individual C) : Prop where
  bit : BitHolds D r.1 (order x y)
  first : Holds D r.2.1 x
  second : Holds D r.2.2 y

theorem gatedBetter_yields {a b : Individual C} {x y : Scalable.Individual Int}
    (hx : p.Proper x) (hy : p.Proper y) (ha : Holds D a x) (hb : Holds D b y) :
    Yields (GatesHold (Kept I drawn) D) (pega.gatedBetter a b) (Compared D x y) E := by
  have hsmallX := hx.small h.capacity
  have hsmallY := hy.small h.capacity
  have hextent := h.capacity.extent_nonneg
  have hproduct := mul_nonneg h.capacity.scale_pos.le hextent
  have hcostFits : ∀ {v : Int}, |v| ≤ p.extent bound → Fits v := fun hv =>
    h.capacity.fits_cost (by linarith)
  have hlinearFits : ∀ {v : Int}, |v| ≤ p.scale * p.extent bound → Fits v := fun hv =>
    h.capacity.fits_linear (hv.trans (by linarith [h.capacity.scale_pos]))
  have hfitnessFits : ∀ {z : Scalable.Individual Int}, p.Proper z → Fits z.fitness := by
    intro z hz
    rw [hz.fitness_eq]
    exact h.capacity.values _ (h.capacity.abs_fitnessOf_le (hz.small h.capacity))
  have hlength : x.genes.length = y.genes.length := hx.length_eq.trans hy.length_eq.symm
  refine (gatedFeasible_yields h hx ha).bind fun resultA hresultA => ?_
  rcases resultA with ⟨feasibleA, a⟩
  rcases hresultA with ⟨hfeasibleA, ha, _⟩
  refine (gatedFeasible_yields h hy hb).bind fun resultB hresultB => ?_
  rcases resultB with ⟨feasibleB, b⟩
  rcases hresultB with ⟨hfeasibleB, hb, _⟩
  have htotalX := hcostFits hsmallX.total
  have htotalY := hcostFits hsmallY.total
  have hlinearX := hlinearFits hsmallX.linear
  have hlinearY := hlinearFits hsmallY.linear
  -- Between two feasible ones the total decides, then the ratio, then the genes.
  refine (gatedNot_yields h hfeasibleB).bind fun infeasibleB hinfeasibleB => ?_
  refine (gatedAnd_yields h hfeasibleA hinfeasibleB).bind fun aOnlyFeasible haOnlyFeasible => ?_
  refine (gatedGreater_yields h ha.totals.total hb.totals.total htotalX htotalY).bind
    fun totalAbove htotalAbove => ?_
  refine (gatedGreater_yields h hb.totals.total ha.totals.total htotalY htotalX).bind
    fun totalBelow htotalBelow => ?_
  refine (gatedOrExclusive_yields h htotalAbove htotalBelow (below_above _ _)).bind
    fun totalDifferent htotalDifferent => ?_
  refine (gatedNot_yields h htotalDifferent).bind fun totalEqual htotalEqual => ?_
  refine (gatedGreater_yields h hb.totals.linear ha.totals.linear hlinearY hlinearX).bind
    fun ratioLess hratioLess => ?_
  refine (gatedGreater_yields h ha.totals.linear hb.totals.linear hlinearX hlinearY).bind
    fun ratioAbove hratioAbove => ?_
  refine (gatedGreater_yields h hb.totals.linear ha.totals.linear hlinearY hlinearX).bind
    fun ratioBelow hratioBelow => ?_
  refine (gatedOrExclusive_yields h hratioAbove hratioBelow (below_above _ _)).bind
    fun ratioDifferent hratioDifferent => ?_
  refine (gatedNot_yields h hratioDifferent).bind fun ratioEqual hratioEqual => ?_
  refine (gatedLexLess_yields h ha.genes hb.genes hlength).bind fun lex hlex => ?_
  refine (gatedAnd_yields h hratioEqual hlex).bind fun tieLex htieLex => ?_
  refine (gatedOr_yields h hratioLess htieLex).bind fun ratioBetter hratioBetter => ?_
  refine (gatedAnd_yields h htotalEqual hratioBetter).bind fun tie htie => ?_
  refine (gatedOr_yields h htotalBelow htie).bind fun feasibleBetter hfeasibleBetter => ?_
  -- Between two infeasible ones the fitness decides, then the genes.
  refine (gatedFitness_yields h hx ha).bind fun scoreA hscoreA => ?_
  rcases scoreA with ⟨fitnessA, a⟩
  rcases hscoreA with ⟨hfitnessA, ha⟩
  refine (gatedFitness_yields h hy hb).bind fun scoreB hscoreB => ?_
  rcases scoreB with ⟨fitnessB, b⟩
  rcases hscoreB with ⟨hfitnessB, hb⟩
  have hfitnessX := hfitnessFits hx
  have hfitnessY := hfitnessFits hy
  refine (gatedGreater_yields h hfitnessB hfitnessA hfitnessY hfitnessX).bind
    fun infeasibleLess hinfeasibleLess => ?_
  refine (gatedGreater_yields h hfitnessA hfitnessB hfitnessX hfitnessY).bind
    fun fitnessAbove hfitnessAbove => ?_
  refine (gatedGreater_yields h hfitnessB hfitnessA hfitnessY hfitnessX).bind
    fun fitnessBelow hfitnessBelow => ?_
  refine (gatedOrExclusive_yields h hfitnessAbove hfitnessBelow (below_above _ _)).bind
    fun fitnessDifferent hfitnessDifferent => ?_
  refine (gatedNot_yields h hfitnessDifferent).bind fun infeasibleEqual hinfeasibleEqual => ?_
  refine (gatedLexLess_yields h ha.genes hb.genes hlength).bind fun lex hlex => ?_
  refine (gatedAnd_yields h hinfeasibleEqual hlex).bind fun infeasibleTie hinfeasibleTie => ?_
  refine (gatedOr_yields h hinfeasibleLess hinfeasibleTie).bind
    fun infeasibleBetter hinfeasibleBetter => ?_
  -- A feasible one is better than an infeasible one.
  refine (gatedAnd_yields h hfeasibleA hfeasibleB).bind fun sameClass hsameClass => ?_
  refine (gatedNot_yields h hfeasibleA).bind fun notA hnotA => ?_
  refine (gatedNot_yields h hfeasibleB).bind fun notB hnotB => ?_
  refine (gatedAnd_yields h hnotA hnotB).bind fun bothInfeasible hbothInfeasible => ?_
  refine (gatedAnd_yields h hsameClass hfeasibleBetter).bind fun first hfirst => ?_
  refine (gatedAnd_yields h hbothInfeasible hinfeasibleBetter).bind fun second hsecond => ?_
  refine (gatedOr_yields h hfirst hsecond).bind fun either heither => ?_
  refine (gatedOr_yields h haOnlyFeasible heither).bind fun bit hbit => Yields.pure ?_
  refine ⟨?_, ha, hb⟩
  rw [order_eq hy.total_pos]
  exact hbit

theorem feasible_yields {value : Individual C} {x : Scalable.Individual Int}
    (hx : p.Proper x) (hvalue : Holds D value x) :
    Yields (Kept I drawn) (pega.feasible value)
      (fun r => BitHolds D r.1 x.feasible ∧ Holds D r.2 x ∧ r.2.rows = value.rows) Never :=
  (pega.gatedFeasible_erases value).yields (gatedFeasible_yields h hx hvalue)

theorem better_yields {a b : Individual C} {x y : Scalable.Individual Int}
    (hx : p.Proper x) (hy : p.Proper y) (ha : Holds D a x) (hb : Holds D b y) :
    Yields (Kept I drawn) (pega.better a b) (Compared D x y) Never :=
  (pega.gatedBetter_erases a b).yields (gatedBetter_yields h hx hy ha hb)

end Bits

end Optimization
end SociSgx

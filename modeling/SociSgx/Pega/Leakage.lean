import SociSgx.Pega.Optimizer
import SociSgx.Optimizer.SolverLeakage

/-!
# Leakage — what a run of PEGA shows of the costs

Two runs over alike backends, of requests with the same public part and with the same random draws,
make the same calls, take the same draws and report the same profile.  The caches are no exception:
whether one is filled depends on the schedule, never on what it holds.
-/

namespace SociSgx
namespace Optimization

open Exec Secure CountedOps

section Public

variable {σ τ C D : Type} {A : C → D → Prop}

def GeneAlike (A : C → D → Prop) (gene : Gene C) (gene' : Gene D) : Prop :=
  ∀ m, A (gene m) (gene' m)

structure TotalsAlike (A : C → D → Prop) (totals : Totals C) (totals' : Totals D) : Prop where
  total : A totals.total totals'.total
  c12 : A totals.c12 totals'.c12
  c3 : A totals.c3 totals'.c3
  linear : A totals.linear totals'.linear

/-- The caches are filled in both or in none. -/
structure IndividualAlike (A : C → D → Prop) (value : Individual C) (value' : Individual D) :
    Prop where
  genes : List.Forall₂ (GeneAlike A) value.genes value'.genes
  rows : List.Forall₂ (TotalsAlike A) value.rows value'.rows
  totals : TotalsAlike A value.totals value'.totals
  feasibleCache : Option.Rel (BitAlike A) value.feasibleCache value'.feasibleCache
  fitnessCache : Option.Rel A value.fitnessCache value'.fitnessCache

abbrev PopulationAlike (A : C → D → Prop) : List (Individual C) → List (Individual D) → Prop :=
  List.Forall₂ (IndividualAlike A)

/-- Results with the same profile; the ciphertexts are of one origin. -/
structure OutcomeAlike (A : C → D → Prop) (r : ConfidentialScalableOptimizationResult C)
    (r' : ConfidentialScalableOptimizationResult D) : Prop where
  chromosome : List.Forall₂ (GeneAlike A) r.chromosome r'.chromosome
  totalCost : A r.totalCost r'.totalCost
  c12 : A r.c12 r'.c12
  c3 : A r.c3 r'.c3
  linear : A r.linear r'.linear
  stats : r.stats = r'.stats

end Public

section Lockstep

variable {G : Error → Prop} {σ τ C D α β : Type} {A : C → D → Prop} {S : σ → τ → Prop}

/-! ## Draws and genes -/

theorem locals_alike {K : Progress → Progress → Prop} :
    Lockstep G (Both S K) (locals : PegaM σ Progress) (locals : PegaM τ Progress) K := by
  rintro ⟨s, progress⟩ ⟨t, progress'⟩ hst
  exact Or.inr (Or.inr ⟨hst.2, hst⟩)

theorem random_alike (draws : Nat → UInt64) :
    Lockstep G (InPace S) (random draws) (random draws) Eq := by
  refine Twin.locals_bind fun progress progress' hprogress => ?_
  subst hprogress
  refine Twin.bind (Q := fun _ _ => InPace S) (Twin.update fun s t hst => ?_) fun _ _ =>
    Lockstep.pure rfl
  exact ⟨hst.1, by rw [hst.2.1, hst.2.2]⟩

theorem pick_alike {R : α → β → Prop} {items : List α} {items' : List β}
    (h : List.Forall₂ R items items') (draw : Nat) :
    Lockstep G (InPace S) (pick items draw : PegaM σ α) (pick items' draw : PegaM τ β) R := by
  have hlength := h.length_eq
  unfold pick
  rw [hlength]
  by_cases hindex : draw % items'.length < items'.length
  · rw [List.getElem?_eq_getElem (hlength ▸ hindex), List.getElem?_eq_getElem hindex]
    exact Lockstep.pure (h.get (hlength ▸ hindex) hindex)
  · rw [List.getElem?_eq_none (by omega), List.getElem?_eq_none (by omega)]
    exact Lockstep.throw

theorem geneAlike_of {f g h : C} {f' g' h' : D} (hf : A f f') (hg : A g g') (hh : A h h') :
    GeneAlike A ![f, g, h] ![f', g', h'] := by
  intro m
  match m with
  | 0 => exact hf
  | 1 => exact hg
  | 2 => exact hh

theorem eachMethod_alike {f : Method → PegaM σ C} {f' : Method → PegaM τ D}
    (h : ∀ m, Lockstep G (InPace S) (f m) (f' m) A) :
    Lockstep G (InPace S) (eachMethod f) (eachMethod f') (GeneAlike A) := by
  refine (h 0).bind fun _ _ h0 => ?_
  refine (h 1).bind fun _ _ h1 => ?_
  exact (h 2).bind fun _ _ h2 => Lockstep.pure (geneAlike_of h0 h1 h2)

variable [CiphertextLike C] [CiphertextLike D]

section Construction

variable {ops : SecureOps σ C} {ops' : SecureOps τ D} (h : AlikeOps G A S ops ops')
include h

theorem oneHot_alike {method method' : Method} (hmethod : method = method') :
    Lockstep G (InPace S) (oneHot ops method) (oneHot ops' method') (GeneAlike A) := by
  subst hmethod
  exact eachMethod_alike fun _ => constant_alike h _

theorem rowMaximum_alike {choices : List (Choice C)} {choices' : List (Choice D)}
    (hchoices : List.Forall₂ (Choice.Rel A) choices choices') :
    Lockstep G (InPace S) (rowMaximum ops choices) (rowMaximum ops' choices') A := by
  cases hchoices with
  | nil => exact Lockstep.throw
  | cons hfirst hrest =>
      refine Lockstep.foldlM hrest (fun choice choice' maximum maximum' hchoice hmaximum => ?_)
        hfirst.2
      refine (greater_alike h hchoice.2 hmaximum).bind fun _ _ habove => ?_
      exact select_alike h habove hchoice.2 hmaximum

theorem maximumTotal_alike {zero : C} {zero' : D} (hzero : A zero zero')
    {costs : List (CostRow C)} {costs' : List (CostRow D)}
    (hcosts : List.Forall₂ (RowAlike A) costs costs') :
    Lockstep G (InPace S) (maximumTotal ops zero costs) (maximumTotal ops' zero' costs') A := by
  refine Lockstep.foldlM hcosts (fun row row' total total' hrow htotal => ?_) hzero
  refine (rowMaximum_alike h (options_rel hrow)).bind fun _ _ hmaximum => ?_
  exact add_alike h htotal hmaximum

end Construction

/-! ## One optimizer and another -/

structure AlikePega (G : Error → Prop) (A : C → D → Prop) (S : σ → τ → Prop) (pega : Pega σ C)
    (pega' : Pega τ D) : Prop where
  ops : AlikeOps G A S pega.ops pega'.ops
  config : pega.config = pega'.config
  request : RequestAlike A pega.request pega'.request
  draws : pega.draws = pega'.draws
  zero : A pega.zero pega'.zero
  one : A pega.one pega'.one
  penalty : A pega.penalty pega'.penalty
  penaltyScaled : A pega.penaltyScaled pega'.penaltyScaled
  missingPenalty : A pega.missingPenalty pega'.missingPenalty

theorem constructPega_alike {ops : SecureOps σ C} {ops' : SecureOps τ D}
    (h : AlikeOps G A S ops ops') (config : ConfidentialScalableOptimizerConfig)
    (draws : Nat → UInt64) {request : EncryptedOptimizationRequest C}
    {request' : EncryptedOptimizationRequest D} (hrequest : RequestAlike A request request') :
    Lockstep G (InPace S) (constructPega ops config request draws)
      (constructPega ops' config request' draws) (AlikePega G A S) := by
  unfold constructPega
  rw [h.domain, hrequest.threshold]
  refine (constant_alike h 0).bind fun zero zero' hzero => ?_
  refine (constant_alike h 1).bind fun one one' hone => ?_
  refine (constant_alike h _).bind fun _ _ _ => ?_
  refine (constant_alike h _).bind fun _ _ _ => ?_
  refine (maximumTotal_alike h hzero hrequest.costs).bind fun maximum maximum' hmaximum => ?_
  refine (add_alike h hmaximum hone).bind fun _ _ habove => ?_
  refine (scalar_alike h _ habove).bind fun penalty penalty' hpenalty => ?_
  refine (scalar_alike h _ hpenalty).bind fun _ _ hscaled => ?_
  refine (add_alike h hmaximum hone).bind fun _ _ hextent => ?_
  refine (scalar_alike h _ hextent).bind fun _ _ hmissingExtent => ?_
  refine (mul_alike h hpenalty hmissingExtent).bind fun _ _ hmissing => ?_
  exact Lockstep.pure ⟨h, rfl, hrequest, rfl, hzero, hone, hpenalty, hscaled, hmissing⟩

namespace Pega

variable {pega : Pega σ C} {pega' : Pega τ D} (h : AlikePega G A S pega pega')
include h

theorem factor_alike (method : Method) : pega.factor method = pega'.factor method := by
  unfold factor
  rw [h.ops.domain, h.request.threshold]

/-! ## Evaluation -/

/-- The sums of an individual and of one of its rows. -/
abbrev SumsAlike (A : C → D → Prop) (sums : Totals C × Totals C) (sums' : Totals D × Totals D) :
    Prop :=
  TotalsAlike A sums.1 sums'.1 ∧ TotalsAlike A sums.2 sums'.2

theorem addCost_alike {choice : Choice C} {choice' : Choice D}
    (hchoice : Choice.Rel A choice choice')
    {chosen : C} {chosen' : D} (hchosen : A chosen chosen') {totals row : Totals C}
    {totals' row' : Totals D} (htotals : TotalsAlike A totals totals')
    (hrow : TotalsAlike A row row') :
    Lockstep G (InPace S) (pega.addCost choice chosen totals row)
      (pega'.addCost choice' chosen' totals' row') (SumsAlike A) := by
  refine (add_alike h.ops htotals.total hchosen).bind fun _ _ htotal => ?_
  refine (add_alike h.ops hrow.total hchosen).bind fun _ _ hrowCost => ?_
  rw [← hchoice.1]
  split
  · refine (add_alike h.ops htotals.c12 hchosen).bind fun _ _ hc12 => ?_
    refine (add_alike h.ops hrow.c12 hchosen).bind fun _ _ hrowC12 => ?_
    exact Lockstep.pure ⟨⟨htotal, hc12, htotals.c3, htotals.linear⟩,
      ⟨hrowCost, hrowC12, hrow.c3, hrow.linear⟩⟩
  · refine (add_alike h.ops htotals.c3 hchosen).bind fun _ _ hc3 => ?_
    refine (add_alike h.ops hrow.c3 hchosen).bind fun _ _ hrowC3 => ?_
    exact Lockstep.pure ⟨⟨htotal, htotals.c12, hc3, htotals.linear⟩,
      ⟨hrowCost, hrow.c12, hrowC3, hrow.linear⟩⟩

theorem addContribution_alike {choice : Choice C} {choice' : Choice D}
    (hchoice : Choice.Rel A choice choice') {chosen : C} {chosen' : D} (hchosen : A chosen chosen')
    {totals row : Totals C} {totals' row' : Totals D} (htotals : TotalsAlike A totals totals')
    (hrow : TotalsAlike A row row') :
    Lockstep G (InPace S) (pega.addContribution choice chosen totals row)
      (pega'.addContribution choice' chosen' totals' row') (SumsAlike A) := by
  unfold addContribution
  rw [factor_alike h, hchoice.1]
  refine (scalar_alike h.ops _ hchosen).bind fun _ _ hcontribution => ?_
  refine (add_alike h.ops htotals.linear hcontribution).bind fun _ _ hlinear => ?_
  refine (add_alike h.ops hrow.linear hcontribution).bind fun _ _ hrowLinear => ?_
  exact Lockstep.pure ⟨⟨htotals.total, htotals.c12, htotals.c3, hlinear⟩,
    ⟨hrow.total, hrow.c12, hrow.c3, hrowLinear⟩⟩

theorem zeros_alike : TotalsAlike A pega.zeros pega'.zeros :=
  ⟨h.zero, h.zero, h.zero, h.zero⟩

theorem evaluateRow_alike {totals : Totals C} {totals' : Totals D}
    (htotals : TotalsAlike A totals totals') {row : CostRow C} {row' : CostRow D}
    (hrow : RowAlike A row row') {gene : Gene C} {gene' : Gene D} (hgene : GeneAlike A gene gene') :
    Lockstep G (InPace S) (pega.evaluateRow totals row gene) (pega'.evaluateRow totals' row' gene')
      (SumsAlike A) := by
  have hoptions := options_rel hrow
  have hproducts : PairsAlike A
      ((options row).map fun choice => (gene choice.method, choice.cost))
      ((options row').map fun choice => (gene' choice.method, choice.cost)) := by
    unfold PairsAlike
    rw [List.forall₂_map_left_iff, List.forall₂_map_right_iff]
    exact hoptions.imp fun choice choice' hchoice => ⟨hchoice.1 ▸ hgene _, hchoice.2⟩
  refine (mulBatch_alike h.ops hproducts).bind fun products products' hproducts => ?_
  have hitems : List.Forall₂ (fun item item' => Choice.Rel A item.1 item'.1 ∧ A item.2 item'.2)
      ((options row).zip products) ((options row').zip products') :=
    zip_rel hoptions hproducts
  refine Lockstep.foldlM hitems (fun item item' sums sums' hitem hsums => ?_)
    ⟨htotals, zeros_alike h⟩
  refine (addCost_alike h hitem.1 hitem.2 hsums.1 hsums.2).bind fun _ _ hcosts => ?_
  exact addContribution_alike h hitem.1 hitem.2 hcosts.1 hcosts.2

theorem evaluate_alike {value : Individual C} {value' : Individual D}
    (hgenes : List.Forall₂ (GeneAlike A) value.genes value'.genes) :
    Lockstep G (InPace S) (pega.evaluate value) (pega'.evaluate value') (IndividualAlike A) := by
  refine Lockstep.bind (Lockstep.foldlM
    (B := fun sums sums' => TotalsAlike A sums.1 sums'.1 ∧
      List.Forall₂ (TotalsAlike A) sums.2 sums'.2) (zip_rel h.request.costs hgenes)
    (fun item item' sums sums' hitem hsums => ?_) ⟨zeros_alike h, List.Forall₂.nil⟩)
    fun sums sums' hsums => ?_
  · refine (evaluateRow_alike h hsums.1 hitem.1 hitem.2).bind fun next next' hnext => ?_
    exact Lockstep.pure ⟨hnext.1, List.rel_append hsums.2
      (List.Forall₂.cons hnext.2 List.Forall₂.nil)⟩
  · exact Lockstep.pure ⟨hgenes, hsums.2, hsums.1, Option.Rel.none, Option.Rel.none⟩

theorem randomIndividual_alike :
    Lockstep G (InPace S) pega.randomIndividual pega'.randomIndividual (IndividualAlike A) := by
  refine Lockstep.bind (Lockstep.mapM (B := GeneAlike A) h.request.costs fun row row' hrow => ?_)
    fun genes genes' hgenes => evaluate_alike h hgenes
  rw [h.draws]
  refine (random_alike _).bind fun draw draw' hdraw => ?_
  subst hdraw
  refine (pick_alike (options_rel hrow) _).bind fun choice choice' hchoice => ?_
  exact oneHot_alike h.ops hchoice.1

theorem cheapestRow_alike {choices : List (Choice C)} {choices' : List (Choice D)}
    (hchoices : List.Forall₂ (Choice.Rel A) choices choices') :
    Lockstep G (InPace S) (pega.cheapestRow choices) (pega'.cheapestRow choices')
      (GeneAlike A) := by
  cases hchoices with
  | nil => exact Lockstep.throw
  | @cons first first' rest rest' hfirst hrest =>
      refine (oneHot_alike h.ops hfirst.1).bind fun genes genes' hgenes => ?_
      refine Lockstep.bind (Lockstep.foldlM
        (B := fun state state' => GeneAlike A state.1 state'.1 ∧ A state.2 state'.2) hrest
        (fun choice choice' state state' hchoice hstate => ?_) ⟨hgenes, hfirst.2⟩)
        fun state state' hstate => Lockstep.pure hstate.1
      refine (less_alike h.ops hchoice.2 hstate.2).bind fun cheaper cheaper' hcheaper => ?_
      refine (select_alike h.ops hcheaper hchoice.2 hstate.2).bind fun _ _ hchosen => ?_
      refine (oneHot_alike h.ops hchoice.1).bind fun replacement replacement' hreplacement => ?_
      refine Lockstep.bind (eachMethod_alike fun bit =>
        select_alike h.ops hcheaper (hreplacement bit) (hstate.1 bit)) fun genes genes' hnext => ?_
      exact Lockstep.pure ⟨hnext, hchosen⟩

theorem cheapest_alike :
    Lockstep G (InPace S) pega.cheapest pega'.cheapest (IndividualAlike A) :=
  Lockstep.bind (Lockstep.mapM (B := GeneAlike A) h.request.costs fun _ _ hrow =>
    cheapestRow_alike h (options_rel hrow)) fun _ _ hgenes => evaluate_alike h hgenes

/-! ## The order -/

theorem feasible_alike {value : Individual C} {value' : Individual D}
    (hvalue : IndividualAlike A value value') :
    Lockstep G (InPace S) (pega.feasible value) (pega'.feasible value')
      (fun r r' => BitAlike A r.1 r'.1 ∧ IndividualAlike A r.2 r'.2) := by
  rcases value with ⟨genes, rows, totals, cache, fitness⟩
  rcases value' with ⟨genes', rows', totals', cache', fitness'⟩
  rcases hvalue with ⟨hgenes, hrows, htotals, hcache, hfitness⟩
  cases hcache with
  | some hbit => exact Lockstep.pure ⟨hbit, hgenes, hrows, htotals, Option.Rel.some hbit, hfitness⟩
  | none =>
      refine (less_alike h.ops htotals.linear h.zero).bind fun _ _ hnegative => ?_
      refine (notBit_alike h.ops hnegative).bind fun _ _ hlinear => ?_
      refine (greater_alike h.ops htotals.c3 h.zero).bind fun _ _ hmethod3 => ?_
      refine (greater_alike h.ops htotals.total h.zero).bind fun _ _ htotal => ?_
      refine (andBit_alike h.ops hlinear hmethod3).bind fun _ _ hboth => ?_
      refine (andBit_alike h.ops hboth htotal).bind fun _ _ hbit => ?_
      exact Lockstep.pure ⟨hbit, hgenes, hrows, htotals, Option.Rel.some hbit, hfitness⟩

theorem fitness_alike {value : Individual C} {value' : Individual D}
    (hvalue : IndividualAlike A value value') :
    Lockstep G (InPace S) (pega.fitness value) (pega'.fitness value')
      (fun r r' => A r.1 r'.1 ∧ IndividualAlike A r.2 r'.2) := by
  rcases value with ⟨genes, rows, totals, feasible, cache⟩
  rcases value' with ⟨genes', rows', totals', feasible', cache'⟩
  rcases hvalue with ⟨hgenes, hrows, htotals, hfeasible, hcache⟩
  cases hcache with
  | some hscore =>
      exact Lockstep.pure ⟨hscore, hgenes, hrows, htotals, hfeasible, Option.Rel.some hscore⟩
  | none =>
      unfold fitness
      rw [h.ops.domain]
      refine (scalar_alike h.ops _ htotals.linear).bind fun _ _ hnegative => ?_
      refine (greater_alike h.ops hnegative h.zero).bind fun _ _ hviolated => ?_
      refine (select_alike h.ops hviolated hnegative h.zero).bind fun _ _ hviolation => ?_
      refine (greater_alike h.ops htotals.c3 h.zero).bind fun _ _ hpresent => ?_
      refine (notBit_alike h.ops hpresent).bind fun _ _ hmissing => ?_
      refine (scalar_alike h.ops _ htotals.total).bind fun _ _ hbase => ?_
      refine (mul_alike h.ops h.penalty hviolation).bind fun _ _ hweighted => ?_
      refine (mul_alike h.ops h.missingPenalty hmissing).bind fun _ _ hcost => ?_
      refine (add_alike h.ops hbase h.penaltyScaled).bind fun _ _ hleft => ?_
      refine (add_alike h.ops hweighted hcost).bind fun _ _ hright => ?_
      refine (add_alike h.ops hleft hright).bind fun _ _ hscore => ?_
      exact Lockstep.pure ⟨hscore, hgenes, hrows, htotals, hfeasible, Option.Rel.some hscore⟩

theorem geneIndex_alike {gene : Gene C} {gene' : Gene D} (hgene : GeneAlike A gene gene') :
    Lockstep G (InPace S) (pega.geneIndex gene) (pega'.geneIndex gene') A :=
  (scalar_alike h.ops 2 (hgene 2)).bind fun _ _ htwice => add_alike h.ops (hgene 1) htwice

theorem lexFold_alike {compared : List (EncryptedBit C)} : ∀ {compared' : List (EncryptedBit D)}
    {lex before : EncryptedBit C} {lex' before' : EncryptedBit D},
    List.Forall₂ (BitAlike A) compared compared' → BitAlike A lex lex' →
    BitAlike A before before' →
    Lockstep G (InPace S) (pega.lexFold lex before compared) (pega'.lexFold lex' before' compared')
      (BitAlike A) := by
  induction compared using List.twoStepInduction with
  | nil =>
      intro compared' lex before lex' before' hcompared hlex _
      cases hcompared with
      | nil => exact Lockstep.pure hlex
  | singleton bit =>
      intro compared' lex before lex' before' hcompared hlex _
      cases hcompared with
      | cons _ hrest =>
          cases hrest with
          | nil => exact Lockstep.pure hlex
  | cons_cons smaller larger compared ih _ =>
      intro compared' lex before lex' before' hcompared hlex hbefore
      cases hcompared with
      | cons hsmaller hrest =>
          cases hrest with
          | cons hlarger hrest =>
              refine (orBitExclusive_alike h.ops hlarger hsmaller).bind fun _ _ hdifferent => ?_
              refine (notBit_alike h.ops hdifferent).bind fun _ _ hequal => ?_
              refine (andBit_alike h.ops hbefore hsmaller).bind fun _ _ hhere => ?_
              refine (orBit_alike h.ops hlex hhere).bind fun _ _ hnext => ?_
              refine (andBit_alike h.ops hbefore hequal).bind fun _ _ hstill => ?_
              exact ih hrest hnext hstill

theorem lexLess_alike {a b : Individual C} {a' b' : Individual D} (ha : IndividualAlike A a a')
    (hb : IndividualAlike A b b') :
    Lockstep G (InPace S) (pega.lexLess a b) (pega'.lexLess a' b') (BitAlike A) := by
  refine (greater_alike h.ops h.zero h.zero).bind fun _ _ hnever => ?_
  refine (notBit_alike h.ops hnever).bind fun _ _ hbefore => ?_
  refine (greater_alike h.ops h.zero h.zero).bind fun _ _ hlex => ?_
  refine Lockstep.bind (Lockstep.mapM (B := PairsAlike A) (zip_rel ha.genes hb.genes)
    fun genes genes' hgenes => ?_) fun relations relations' hrelations => ?_
  · refine (geneIndex_alike h hgenes.1).bind fun _ _ haIndex => ?_
    refine (geneIndex_alike h hgenes.2).bind fun _ _ hbIndex => Lockstep.pure ?_
    exact List.Forall₂.cons ⟨hbIndex, haIndex⟩
      (List.Forall₂.cons ⟨haIndex, hbIndex⟩ List.Forall₂.nil)
  · have hflat : PairsAlike A relations.flatten relations'.flatten := List.rel_flatten hrelations
    refine (greaterBatch_alike h.ops hflat).bind fun _ _ hcompared => ?_
    exact lexFold_alike h hcompared hlex hbefore

/-- A comparison returns its bit and both individuals. -/
abbrev ComparedAlike (A : C → D → Prop) (r : EncryptedBit C × Individual C × Individual C)
    (r' : EncryptedBit D × Individual D × Individual D) : Prop :=
  BitAlike A r.1 r'.1 ∧ IndividualAlike A r.2.1 r'.2.1 ∧ IndividualAlike A r.2.2 r'.2.2

theorem better_alike {a b : Individual C} {a' b' : Individual D} (ha : IndividualAlike A a a')
    (hb : IndividualAlike A b b') :
    Lockstep G (InPace S) (pega.better a b) (pega'.better a' b') (ComparedAlike A) := by
  -- Every operation of the comparison is made, whatever the bits are.
  refine (feasible_alike h ha).bind fun ⟨feasibleA, a⟩ ⟨feasibleA', a'⟩ ⟨hfeasibleA, ha⟩ => ?_
  refine (feasible_alike h hb).bind fun ⟨feasibleB, b⟩ ⟨feasibleB', b'⟩ ⟨hfeasibleB, hb⟩ => ?_
  refine (notBit_alike h.ops hfeasibleB).bind fun _ _ hinfeasibleB => ?_
  refine (andBit_alike h.ops hfeasibleA hinfeasibleB).bind fun _ _ honly => ?_
  refine (greater_alike h.ops ha.totals.total hb.totals.total).bind fun _ _ habove => ?_
  refine (greater_alike h.ops hb.totals.total ha.totals.total).bind fun _ _ hbelow => ?_
  refine (orBitExclusive_alike h.ops habove hbelow).bind fun _ _ hdifferent => ?_
  refine (notBit_alike h.ops hdifferent).bind fun _ _ hequal => ?_
  refine (less_alike h.ops ha.totals.linear hb.totals.linear).bind fun _ _ hratioLess => ?_
  refine (greater_alike h.ops ha.totals.linear hb.totals.linear).bind fun _ _ hratioAbove => ?_
  refine (greater_alike h.ops hb.totals.linear ha.totals.linear).bind fun _ _ hratioBelow => ?_
  refine (orBitExclusive_alike h.ops hratioAbove hratioBelow).bind fun _ _ hratioDiffers => ?_
  refine (notBit_alike h.ops hratioDiffers).bind fun _ _ hratioEqual => ?_
  refine (lexLess_alike h ha hb).bind fun _ _ hlex => ?_
  refine (andBit_alike h.ops hratioEqual hlex).bind fun _ _ htieLex => ?_
  refine (orBit_alike h.ops hratioLess htieLex).bind fun _ _ hratioBetter => ?_
  refine (andBit_alike h.ops hequal hratioBetter).bind fun _ _ htie => ?_
  refine (orBit_alike h.ops hbelow htie).bind fun _ _ hfeasibleBetter => ?_
  refine (fitness_alike h ha).bind fun ⟨fitnessA, a⟩ ⟨fitnessA', a'⟩ ⟨hfitnessA, ha⟩ => ?_
  refine (fitness_alike h hb).bind fun ⟨fitnessB, b⟩ ⟨fitnessB', b'⟩ ⟨hfitnessB, hb⟩ => ?_
  refine (less_alike h.ops hfitnessA hfitnessB).bind fun _ _ hless => ?_
  refine (greater_alike h.ops hfitnessA hfitnessB).bind fun _ _ habove => ?_
  refine (greater_alike h.ops hfitnessB hfitnessA).bind fun _ _ hbelow => ?_
  refine (orBitExclusive_alike h.ops habove hbelow).bind fun _ _ hdifferent => ?_
  refine (notBit_alike h.ops hdifferent).bind fun _ _ hequal => ?_
  refine (lexLess_alike h ha hb).bind fun _ _ hlex => ?_
  refine (andBit_alike h.ops hequal hlex).bind fun _ _ htie => ?_
  refine (orBit_alike h.ops hless htie).bind fun _ _ hinfeasibleBetter => ?_
  refine (andBit_alike h.ops hfeasibleA hfeasibleB).bind fun _ _ hsame => ?_
  refine (notBit_alike h.ops hfeasibleA).bind fun _ _ hnotA => ?_
  refine (notBit_alike h.ops hfeasibleB).bind fun _ _ hnotB => ?_
  refine (andBit_alike h.ops hnotA hnotB).bind fun _ _ hnone => ?_
  refine (andBit_alike h.ops hsame hfeasibleBetter).bind fun _ _ hfirst => ?_
  refine (andBit_alike h.ops hnone hinfeasibleBetter).bind fun _ _ hsecond => ?_
  refine (orBit_alike h.ops hfirst hsecond).bind fun _ _ heither => ?_
  refine (orBit_alike h.ops honly heither).bind fun _ _ hbit => ?_
  exact Lockstep.pure ⟨hbit, ha, hb⟩

/-! ## Selection -/

omit [CiphertextLike C] [CiphertextLike D] h in
theorem genePairs_alike {yes no : List (Gene C)} {yes' no' : List (Gene D)}
    (hyes : List.Forall₂ (GeneAlike A) yes yes') (hno : List.Forall₂ (GeneAlike A) no no') :
    PairsAlike A (genePairs yes no) (genePairs yes' no') := by
  refine List.rel_flatMap (zip_rel hyes hno) fun genes genes' hgenes => ?_
  have hpair : ∀ m, A (genes.1 m) (genes'.1 m) ∧ A (genes.2 m) (genes'.2 m) := fun m =>
    ⟨hgenes.1 m, hgenes.2 m⟩
  exact List.Forall₂.cons (hpair 0) (List.Forall₂.cons (hpair 1)
    (List.Forall₂.cons (hpair 2) List.Forall₂.nil))

omit [CiphertextLike C] [CiphertextLike D] h in
theorem regroup_alike {values : List C} : ∀ {values' : List D}, List.Forall₂ A values values' →
    List.Forall₂ (GeneAlike A) (regroup values) (regroup values') := by
  induction values using regroup.induct with
  | case1 first second third rest ih =>
      intro values' hvalues
      cases hvalues with
      | cons hfirst hvalues =>
          cases hvalues with
          | cons hsecond hvalues =>
              cases hvalues with
              | cons hthird hrest =>
                  exact List.Forall₂.cons (geneAlike_of hfirst hsecond hthird) (ih hrest)
  | case2 values hshort =>
      intro values' hvalues
      rcases hvalues with _ | ⟨_, _ | ⟨_, _ | ⟨_, _⟩⟩⟩
      · exact List.Forall₂.nil
      · exact List.Forall₂.nil
      · exact List.Forall₂.nil
      · exact absurd rfl (hshort _ _ _ _)

theorem choose_alike {bit : EncryptedBit C} {bit' : EncryptedBit D} (hbit : BitAlike A bit bit')
    {yes no : Individual C} {yes' no' : Individual D} (hyes : IndividualAlike A yes yes')
    (hno : IndividualAlike A no no') :
    Lockstep G (InPace S) (pega.choose bit yes no) (pega'.choose bit' yes' no')
      (IndividualAlike A) := by
  have hsummary : PairsAlike A
      [(yes.totals.total, no.totals.total), (yes.totals.c12, no.totals.c12),
        (yes.totals.c3, no.totals.c3), (yes.totals.linear, no.totals.linear)]
      [(yes'.totals.total, no'.totals.total), (yes'.totals.c12, no'.totals.c12),
        (yes'.totals.c3, no'.totals.c3), (yes'.totals.linear, no'.totals.linear)] :=
    List.Forall₂.cons ⟨hyes.totals.total, hno.totals.total⟩
      (List.Forall₂.cons ⟨hyes.totals.c12, hno.totals.c12⟩
        (List.Forall₂.cons ⟨hyes.totals.c3, hno.totals.c3⟩
          (List.Forall₂.cons ⟨hyes.totals.linear, hno.totals.linear⟩ List.Forall₂.nil)))
  refine (selectBatch_alike h.ops hbit (genePairs_alike hyes.genes hno.genes)).bind
    fun genes genes' hgenes => ?_
  refine (selectBatch_alike h.ops hbit hsummary).bind fun summary summary' hselected => ?_
  have hget := listGetD_alike h.ops.blank hselected
  exact Lockstep.pure ⟨regroup_alike hgenes, List.Forall₂.nil, ⟨hget 0, hget 1, hget 2, hget 3⟩,
    Option.Rel.none, Option.Rel.none⟩

theorem insertElite_alike {elite : List (Individual C)} : ∀ {elite' : List (Individual D)}
    {carry : Individual C} {carry' : Individual D}, PopulationAlike A elite elite' →
    IndividualAlike A carry carry' →
    Lockstep G (InPace S) (pega.insertElite elite carry) (pega'.insertElite elite' carry')
      (fun r r' => PopulationAlike A r.1 r'.1 ∧ IndividualAlike A r.2 r'.2) := by
  induction elite with
  | nil =>
      intro elite' carry carry' helite hcarry
      cases helite with
      | nil => exact Lockstep.pure ⟨List.Forall₂.nil, hcarry⟩
  | cons old elite ih =>
      intro elite' carry carry' helite hcarry
      cases helite with
      | cons hold helite =>
          refine (better_alike h hcarry hold).bind
            fun ⟨wins, carry, old⟩ ⟨wins', carry', old'⟩ ⟨hwins, hcarry, hold⟩ => ?_
          refine (choose_alike h hwins hcarry hold).bind fun kept kept' hkept => ?_
          refine (choose_alike h hwins hold hcarry).bind fun carry carry' hcarry => ?_
          refine (ih helite hcarry).bind
            fun ⟨rest, carry⟩ ⟨rest', carry'⟩ ⟨hrest, hcarry⟩ => ?_
          exact Lockstep.pure ⟨List.Forall₂.cons hkept hrest, hcarry⟩

theorem eliteSet_alike {population : List (Individual C)} {population' : List (Individual D)}
    (hpopulation : PopulationAlike A population population') :
    Lockstep G (InPace S) (pega.eliteSet population) (pega'.eliteSet population')
      (PopulationAlike A) := by
  cases hpopulation with
  | nil => exact Lockstep.throw
  | cons hfront hrest =>
      refine Lockstep.foldlM (B := PopulationAlike A) hrest
        (fun value value' elite elite' hvalue helite => ?_)
        (List.Forall₂.cons hfront List.Forall₂.nil)
      refine (insertElite_alike h helite hvalue).bind
        fun ⟨elite, carry⟩ ⟨elite', carry'⟩ ⟨helite, hcarry⟩ => Lockstep.pure ?_
      rw [helite.length_eq, h.config]
      split
      · exact List.rel_append helite (List.Forall₂.cons hcarry List.Forall₂.nil)
      · exact helite

/-- A member of each population. -/
abbrev DrawnAlike (A : C → D → Prop) (r : Individual C × List (Individual C))
    (r' : Individual D × List (Individual D)) : Prop :=
  IndividualAlike A r.1 r'.1 ∧ PopulationAlike A r.2 r'.2

theorem tournamentTurns_alike (turns : Nat) : ∀ {population : List (Individual C)}
    {population' : List (Individual D)} {winner : Individual C} {winner' : Individual D},
    PopulationAlike A population population' → IndividualAlike A winner winner' →
    Lockstep G (InPace S) (pega.tournamentTurns turns population winner)
      (pega'.tournamentTurns turns population' winner') (DrawnAlike A) := by
  induction turns with
  | zero => exact fun hpopulation hwinner => Lockstep.pure ⟨hwinner, hpopulation⟩
  | succ turns ih =>
      intro population population' winner winner' hpopulation hwinner
      unfold tournamentTurns
      rw [h.draws]
      refine (random_alike _).bind fun draw draw' hdraw => ?_
      subst hdraw
      refine (pick_alike hpopulation _).bind fun challenger challenger' hchallenger => ?_
      refine (better_alike h hchallenger hwinner).bind
        fun ⟨wins, challenger, winner⟩ ⟨wins', challenger', winner'⟩
          ⟨hwins, hchallenger, hwinner⟩ => ?_
      refine (choose_alike h hwins hchallenger hwinner).bind fun _ _ hnext => ?_
      rw [hpopulation.length_eq]
      exact ih (set_rel hpopulation hchallenger _) hnext

theorem tournament_alike {population : List (Individual C)} {population' : List (Individual D)}
    (hpopulation : PopulationAlike A population population') :
    Lockstep G (InPace S) (pega.tournament population) (pega'.tournament population')
      (DrawnAlike A) := by
  unfold tournament
  rw [h.draws, h.config]
  refine (random_alike _).bind fun draw draw' hdraw => ?_
  subst hdraw
  exact (pick_alike hpopulation _).bind fun _ _ hwinner =>
    tournamentTurns_alike h _ hpopulation hwinner

theorem crossover_alike {child other : Individual C} {child' other' : Individual D}
    (hchild : IndividualAlike A child child') (hother : IndividualAlike A other other') :
    Lockstep G (InPace S) (pega.crossover child other) (pega'.crossover child' other')
      (fun value value' => List.Forall₂ (GeneAlike A) value.genes value'.genes) := by
  unfold crossover
  rw [h.draws, h.config]
  refine (random_alike _).bind fun draw draw' hdraw => ?_
  subst hdraw
  split
  · refine Lockstep.bind (Lockstep.mapM (B := GeneAlike A) (zip_rel hchild.genes hother.genes)
      fun genes genes' hgenes => ?_) fun genes genes' hgenes => Lockstep.pure hgenes
    refine (random_alike _).bind fun draw draw' hdraw => Lockstep.pure ?_
    subst hdraw
    split
    · exact hgenes.2
    · exact hgenes.1
  · exact Lockstep.pure hchild.genes

theorem mutateRow_alike {row : CostRow C} {row' : CostRow D} (hrow : RowAlike A row row')
    {gene : Gene C} {gene' : Gene D} (hgene : GeneAlike A gene gene') :
    Lockstep G (InPace S) (pega.mutateRow row gene) (pega'.mutateRow row' gene')
      (GeneAlike A) := by
  have hoptions := options_rel hrow
  unfold mutateRow
  rw [h.draws, h.config, hoptions.length_eq]
  refine (random_alike _).bind fun draw draw' hdraw => ?_
  subst hdraw
  split
  · refine (random_alike _).bind fun selected selected' hselected => ?_
    subst hselected
    refine (pick_alike hoptions _).bind fun choice choice' hchoice => ?_
    refine (pick_alike hoptions _).bind fun fallback fallback' hfallback => ?_
    refine (oneHot_alike h.ops hchoice.1).bind fun target target' htarget => ?_
    refine (oneHot_alike h.ops hfallback.1).bind fun replacement replacement' hreplacement => ?_
    rw [← hchoice.1]
    refine (greater_alike h.ops (hgene _) h.one).bind fun _ _ habove => ?_
    refine (greater_alike h.ops h.one (hgene _)).bind fun _ _ hbelow => ?_
    refine (orBit_alike h.ops habove hbelow).bind fun _ _ hdifferent => ?_
    refine (notBit_alike h.ops hdifferent).bind fun _ _ hsame => ?_
    exact eachMethod_alike fun method =>
      select_alike h.ops hsame (hreplacement method) (htarget method)
  · exact Lockstep.pure hgene

theorem mutate_alike {child : Individual C} {child' : Individual D}
    (hchild : List.Forall₂ (GeneAlike A) child.genes child'.genes) :
    Lockstep G (InPace S) (pega.mutate child) (pega'.mutate child')
      (fun value value' => List.Forall₂ (GeneAlike A) value.genes value'.genes) :=
  Lockstep.bind (Lockstep.mapM (B := GeneAlike A) (zip_rel h.request.costs hchild)
    fun _ _ hitem => mutateRow_alike h hitem.1 hitem.2) fun _ _ hgenes => Lockstep.pure hgenes

/-! ## Repair -/

structure ScanAlike (A : C → D → Prop) (scan : Scan C) (scan' : Scan D) : Prop where
  selectedCost : A scan.selectedCost scan'.selectedCost
  selectedLinear : A scan.selectedLinear scan'.selectedLinear
  selectedId : A scan.selectedId scan'.selectedId
  haveSelected : BitAlike A scan.haveSelected scan'.haveSelected
  best3Cost : A scan.best3Cost scan'.best3Cost
  best3Linear : A scan.best3Linear scan'.best3Linear
  best3Id : A scan.best3Id scan'.best3Id
  have3 : BitAlike A scan.have3 scan'.have3

section Repairing

variable {need : EncryptedBit C} {need' : EncryptedBit D} {count : C} {count' : D}
  {gene : Gene C} {gene' : Gene D} {current : Totals C} {current' : Totals D} {row : Nat}
  {scan : Scan C} {scan' : Scan D} {choice : Choice C} {choice' : Choice D}

theorem validTarget_alike (hneed : BitAlike A need need') (hcount : A count count')
    (hgene : GeneAlike A gene gene') (hchoice : Choice.Rel A choice choice') {cost linear : C}
    {cost' linear' : D} (hcost : A cost cost') (hlinear : A linear linear')
    (hscan : ScanAlike A scan scan') :
    Lockstep G (InPace S) (pega.validTarget need count gene row choice cost linear scan)
      (pega'.validTarget need' count' gene' row choice' cost' linear' scan')
      (fun r r' => BitAlike A r.1 r'.1 ∧ ScanAlike A r.2 r'.2) := by
  refine (greater_alike h.ops hlinear h.zero).bind fun _ _ hpositive => ?_
  rw [← hchoice.1]
  split
  · refine (sub_alike h.ops hcount (hgene 2)).bind fun _ _ hremaining => ?_
    refine (greater_alike h.ops hremaining h.zero).bind fun _ _ hanother => ?_
    exact (andBit_alike h.ops hpositive hanother).bind fun _ _ hvalid =>
      Lockstep.pure ⟨hvalid, hscan⟩
  · refine (less_alike h.ops hcost hscan.best3Cost).bind fun _ _ hbetter => ?_
    refine (notBit_alike h.ops hscan.have3).bind fun _ _ hfirst => ?_
    refine (orBit_alike h.ops hfirst hbetter).bind fun _ _ hreplace => ?_
    refine (select_alike h.ops hreplace hcost hscan.best3Cost).bind fun _ _ hbestCost => ?_
    refine (select_alike h.ops hreplace hlinear hscan.best3Linear).bind fun _ _ hbestLinear => ?_
    refine (constant_alike h.ops _).bind fun _ _ hid => ?_
    refine (select_alike h.ops hreplace hid hscan.best3Id).bind fun _ _ hbestId => ?_
    refine (orBit_alike h.ops hscan.have3 hreplace).bind fun _ _ hhave => ?_
    refine (notBit_alike h.ops hneed).bind fun _ _ henough => ?_
    refine (andBit_alike h.ops hpositive henough).bind fun _ _ hvalid => Lockstep.pure ?_
    exact ⟨hvalid, hscan.selectedCost, hscan.selectedLinear, hscan.selectedId,
      hscan.haveSelected, hbestCost, hbestLinear, hbestId, hhave⟩

theorem scanTarget_alike (hneed : BitAlike A need need') (hcount : A count count')
    (hgene : GeneAlike A gene gene') (hcurrent : TotalsAlike A current current')
    (hscan : ScanAlike A scan scan') (hchoice : Choice.Rel A choice choice') :
    Lockstep G (InPace S) (pega.scanTarget need count gene current row scan choice)
      (pega'.scanTarget need' count' gene' current' row scan' choice') (ScanAlike A) := by
  unfold scanTarget
  rw [factor_alike h, hchoice.1]
  refine (sub_alike h.ops hchoice.2 hcurrent.total).bind fun _ _ hcost => ?_
  refine (scalar_alike h.ops _ hchoice.2).bind fun _ _ htarget => ?_
  refine (sub_alike h.ops htarget hcurrent.linear).bind fun _ _ hlinear => ?_
  refine (validTarget_alike h hneed hcount hgene hchoice hcost hlinear hscan).bind
    fun ⟨valid, scan⟩ ⟨valid', scan'⟩ ⟨hvalid, hscan⟩ => ?_
  refine (mul_alike h.ops hcost hscan.selectedLinear).bind fun _ _ hlhs => ?_
  refine (mul_alike h.ops hscan.selectedCost hlinear).bind fun _ _ hrhs => ?_
  refine (less_alike h.ops hlhs hrhs).bind fun _ _ hsmaller => ?_
  refine (notBit_alike h.ops hscan.haveSelected).bind fun _ _ hfirst => ?_
  refine (orBit_alike h.ops hfirst hsmaller).bind fun _ _ hpreferred => ?_
  refine (andBit_alike h.ops hvalid hpreferred).bind fun _ _ hreplace => ?_
  refine (select_alike h.ops hreplace hcost hscan.selectedCost).bind fun _ _ hselectedCost => ?_
  refine (select_alike h.ops hreplace hlinear hscan.selectedLinear).bind
    fun _ _ hselectedLinear => ?_
  refine (constant_alike h.ops _).bind fun _ _ hid => ?_
  refine (select_alike h.ops hreplace hid hscan.selectedId).bind fun _ _ hselectedId => ?_
  refine (orBit_alike h.ops hscan.haveSelected hvalid).bind fun _ _ hhave => Lockstep.pure ?_
  exact ⟨hselectedCost, hselectedLinear, hselectedId, hhave, hscan.best3Cost, hscan.best3Linear,
    hscan.best3Id, hscan.have3⟩

/-- Rows of alike individuals with the same number. -/
abbrev ViewAlike (A : C → D → Prop) (view : RowView C × Nat) (view' : RowView D × Nat) : Prop :=
  (RowAlike A view.1.1 view'.1.1 ∧ GeneAlike A view.1.2.1 view'.1.2.1 ∧
    TotalsAlike A view.1.2.2 view'.1.2.2) ∧ view.2 = view'.2

theorem rowViews_alike {value : Individual C} {value' : Individual D}
    (hvalue : IndividualAlike A value value') :
    List.Forall₂ (ViewAlike A) (pega.rowViews value) (pega'.rowViews value') := by
  have hrows := zip_rel h.request.costs (zip_rel hvalue.genes hvalue.rows)
  unfold rowViews
  rw [List.zipIdx_eq_zip_range', List.zipIdx_eq_zip_range', hrows.length_eq]
  exact zip_rel hrows (List.forall₂_same.2 fun _ _ => rfl)

theorem findTarget_alike {value : Individual C} {value' : Individual D}
    (hvalue : IndividualAlike A value value') {bit : EncryptedBit C} {bit' : EncryptedBit D}
    (hbit : BitAlike A bit bit') :
    Lockstep G (InPace S) (pega.findTarget value bit) (pega'.findTarget value' bit')
      (fun r r' => A r.1 r'.1 ∧ BitAlike A r.2 r'.2) := by
  refine (greater_alike h.ops h.zero h.zero).bind fun _ _ hnone => ?_
  refine (greater_alike h.ops hvalue.totals.c3 h.zero).bind fun _ _ hpresent => ?_
  refine (notBit_alike h.ops hpresent).bind fun _ _ hneed => ?_
  refine (greater_alike h.ops h.zero h.zero).bind fun _ _ hnone₂ => ?_
  refine Lockstep.bind (Lockstep.foldlM hvalue.genes (fun gene gene' _ _ hgene hcount =>
    add_alike h.ops hcount (hgene 2)) h.zero) fun count count' hcount => ?_
  refine Lockstep.bind (Lockstep.foldlM (B := ScanAlike A) (rowViews_alike h hvalue)
    (fun view view' scan scan' hview hscan => ?_)
    ⟨h.zero, h.zero, h.zero, hnone, h.zero, h.zero, h.zero, hnone₂⟩) fun scan scan' hscan => ?_
  · rw [hview.2]
    exact Lockstep.foldlM (options_rel hview.1.1) (fun choice choice' scan scan' hchoice hscan =>
      scanTarget_alike h hneed hcount hview.1.2.1 hview.1.2.2 hscan hchoice) hscan
  · refine (select_alike h.ops hneed hscan.best3Id hscan.selectedId).bind fun _ _ hid => ?_
    refine (select_alike h.ops hneed hscan.best3Cost hscan.selectedCost).bind fun _ _ _ => ?_
    refine (select_alike h.ops hneed hscan.best3Linear hscan.selectedLinear).bind
      fun _ _ _ => ?_
    refine (andBit_alike h.ops hneed hscan.have3).bind fun _ _ hneeded => ?_
    refine (orBit_alike h.ops hscan.haveSelected hneeded).bind fun _ _ hhave => ?_
    refine (notBit_alike h.ops hbit).bind fun _ _ hinfeasible => ?_
    exact (andBit_alike h.ops hinfeasible hhave).bind fun _ _ happly =>
      Lockstep.pure ⟨hid, happly⟩

structure PatchAlike (A : C → D → Prop) (patch : Patch C) (patch' : Patch D) : Prop where
  totals : TotalsAlike A patch.totals patch'.totals
  gene : GeneAlike A patch.gene patch'.gene
  row : TotalsAlike A patch.row patch'.row

theorem addMasked_alike {mask sum delta : C} {mask' sum' delta' : D} (hmask : A mask mask')
    (hsum : A sum sum') (hdelta : A delta delta') :
    Lockstep G (InPace S) (pega.addMasked mask sum delta) (pega'.addMasked mask' sum' delta') A :=
  (mul_alike h.ops hmask hdelta).bind fun _ _ hproduct => add_alike h.ops hsum hproduct

theorem targetMask_alike {id : C} {id' : D} (hid : A id id') {apply : EncryptedBit C}
    {apply' : EncryptedBit D} (happly : BitAlike A apply apply') (method : Method) :
    Lockstep G (InPace S) (pega.targetMask id apply row method)
      (pega'.targetMask id' apply' row method) A := by
  refine (constant_alike h.ops _).bind fun _ _ htarget => ?_
  refine (greater_alike h.ops hid htarget).bind fun _ _ habove => ?_
  refine (greater_alike h.ops htarget hid).bind fun _ _ hbelow => ?_
  refine (orBitExclusive_alike h.ops habove hbelow).bind fun _ _ hdifferent => ?_
  exact (notBit_alike h.ops hdifferent).bind fun _ _ heq => mul_alike h.ops happly heq

theorem applyTarget_alike {id : C} {id' : D} (hid : A id id') {apply : EncryptedBit C}
    {apply' : EncryptedBit D} (happly : BitAlike A apply apply') {patch : Patch C}
    {patch' : Patch D} (hpatch : PatchAlike A patch patch')
    (hchoice : Choice.Rel A choice choice') :
    Lockstep G (InPace S) (pega.applyTarget id apply row patch choice)
      (pega'.applyTarget id' apply' row patch' choice') (PatchAlike A) := by
  rcases choice with ⟨method, cost⟩
  rcases choice' with ⟨method', cost'⟩
  rcases hchoice with ⟨hmethod, hcost⟩
  change method = method' at hmethod
  subst hmethod
  -- Which of the two parts an option enters is public.
  have hc12 : A (if method < 2 then cost else pega.zero)
      (if method < 2 then cost' else pega'.zero) := by
    split
    · exact hcost
    · exact h.zero
  have hc3 : A (if method = 2 then cost else pega.zero)
      (if method = 2 then cost' else pega'.zero) := by
    split
    · exact hcost
    · exact h.zero
  unfold applyTarget
  rw [factor_alike h]
  refine (targetMask_alike h hid happly method).bind fun mask mask' hmask => ?_
  refine (scalar_alike h.ops _ hcost).bind fun _ _ htarget => ?_
  refine (sub_alike h.ops htarget hpatch.row.linear).bind fun _ _ hdeltaLinear => ?_
  refine (sub_alike h.ops hcost hpatch.row.total).bind fun _ _ hdeltaCost => ?_
  refine (sub_alike h.ops hc12 hpatch.row.c12).bind fun _ _ hdeltaC12 => ?_
  refine (sub_alike h.ops hc3 hpatch.row.c3).bind fun _ _ hdeltaC3 => ?_
  refine (addMasked_alike h hmask hpatch.totals.total hdeltaCost).bind fun _ _ htotal => ?_
  refine (addMasked_alike h hmask hpatch.totals.linear hdeltaLinear).bind fun _ _ hlinear => ?_
  refine (addMasked_alike h hmask hpatch.row.total hdeltaCost).bind fun _ _ hrowCost => ?_
  refine (addMasked_alike h hmask hpatch.row.linear hdeltaLinear).bind fun _ _ hrowLinear => ?_
  refine (addMasked_alike h hmask hpatch.row.c12 hdeltaC12).bind fun _ _ hrowC12 => ?_
  refine (addMasked_alike h hmask hpatch.row.c3 hdeltaC3).bind fun _ _ hrowC3 => ?_
  refine (addMasked_alike h hmask hpatch.totals.c12 hdeltaC12).bind fun _ _ htotalC12 => ?_
  refine (addMasked_alike h hmask hpatch.totals.c3 hdeltaC3).bind fun _ _ htotalC3 => ?_
  refine Lockstep.bind (R := GeneAlike A) (eachMethod_alike fun m => ?_)
    fun gene gene' hgene => ?_
  · refine (constant_alike h.ops _).bind fun _ _ hbit => ?_
    refine (sub_alike h.ops hbit (hpatch.gene m)).bind fun _ _ hdelta => ?_
    exact addMasked_alike h hmask (hpatch.gene m) hdelta
  · exact Lockstep.pure ⟨⟨htotal, htotalC12, htotalC3, hlinear⟩, hgene,
      ⟨hrowCost, hrowC12, hrowC3, hrowLinear⟩⟩

theorem applyTargets_alike {value : Individual C} {value' : Individual D}
    (hvalue : IndividualAlike A value value') {id : C} {id' : D} (hid : A id id')
    {apply : EncryptedBit C} {apply' : EncryptedBit D} (happly : BitAlike A apply apply') :
    Lockstep G (InPace S) (pega.applyTargets value id apply) (pega'.applyTargets value' id' apply')
      (IndividualAlike A) := by
  refine Lockstep.bind (Lockstep.foldlM
    (B := fun state state' => TotalsAlike A state.1 state'.1 ∧
      List.Forall₂ (fun row row' => GeneAlike A row.1 row'.1 ∧ TotalsAlike A row.2 row'.2)
        state.2 state'.2) (rowViews_alike h hvalue)
    (fun view view' state state' hview hstate => ?_) ⟨hvalue.totals, List.Forall₂.nil⟩)
    fun repaired repaired' hrepaired => ?_
  · rw [hview.2]
    refine Lockstep.bind (Lockstep.foldlM (options_rel hview.1.1)
      (fun choice choice' patch patch' hchoice hpatch =>
        applyTarget_alike h hid happly hpatch hchoice)
      ⟨hstate.1, hview.1.2.1, hview.1.2.2⟩) fun patch patch' hpatch => Lockstep.pure ?_
    exact ⟨hpatch.totals, List.rel_append hstate.2
      (List.Forall₂.cons ⟨hpatch.gene, hpatch.row⟩ List.Forall₂.nil)⟩
  · refine Lockstep.pure ⟨?_, ?_, hrepaired.1, Option.Rel.none, Option.Rel.none⟩
    · exact List.rel_map (fun _ _ hrow => hrow.1) hrepaired.2
    · exact List.rel_map (fun _ _ hrow => hrow.2) hrepaired.2

theorem repairRound_alike {value : Individual C} {value' : Individual D}
    (hvalue : IndividualAlike A value value') :
    Lockstep G (InPace S) (pega.repairRound value) (pega'.repairRound value')
      (IndividualAlike A) := by
  refine (feasible_alike h hvalue).bind fun ⟨bit, value⟩ ⟨bit', value'⟩ ⟨hbit, hvalue⟩ => ?_
  refine (findTarget_alike h hvalue hbit).bind fun ⟨id, apply⟩ ⟨id', apply'⟩ ⟨hid, happly⟩ => ?_
  exact applyTargets_alike h hvalue hid happly

theorem repairRounds_alike (rounds : Nat) : ∀ {value : Individual C} {value' : Individual D},
    IndividualAlike A value value' →
    Lockstep G (InPace S) (pega.repairRounds rounds value) (pega'.repairRounds rounds value')
      (IndividualAlike A) := by
  induction rounds with
  | zero => exact fun hvalue => Lockstep.pure hvalue
  | succ rounds ih =>
      exact fun hvalue => (repairRound_alike h hvalue).bind fun _ _ hnext => ih hnext

theorem rounds_alike : pega.rounds = pega'.rounds := by
  unfold rounds
  rw [h.config, h.request.costs.length_eq]

theorem repair_alike {value : Individual C} {value' : Individual D}
    (hvalue : IndividualAlike A value value') :
    Lockstep G (InPace S) (pega.repair value) (pega'.repair value') (IndividualAlike A) := by
  unfold repair
  rw [rounds_alike h]
  exact repairRounds_alike h _ hvalue

end Repairing

/-! ## The run -/

/-- The best individual so far and the population. -/
theorem trackBest_alike {population : List (Individual C)} :
    ∀ {population' : List (Individual D)} {best : Individual C} {best' : Individual D},
    PopulationAlike A population population' → IndividualAlike A best best' →
    Lockstep G (InPace S) (pega.trackBest population best) (pega'.trackBest population' best')
      (DrawnAlike A) := by
  induction population with
  | nil =>
      intro population' best best' hpopulation hbest
      cases hpopulation with
      | nil => exact Lockstep.pure ⟨hbest, List.Forall₂.nil⟩
  | cons value population ih =>
      intro population' best best' hpopulation hbest
      cases hpopulation with
      | cons hvalue hrest =>
          refine (better_alike h hvalue hbest).bind
            fun ⟨wins, value, best⟩ ⟨wins', value', best'⟩ ⟨hwins, hvalue, hbest⟩ => ?_
          refine (choose_alike h hwins hvalue hbest).bind fun _ _ hbest => ?_
          refine (ih hrest hbest).bind
            fun ⟨best, rest⟩ ⟨best', rest'⟩ ⟨hbest, hrest⟩ => Lockstep.pure ?_
          exact ⟨hbest, List.Forall₂.cons hvalue hrest⟩

theorem children_alike (count : Nat) : ∀ {population : List (Individual C)}
    {population' : List (Individual D)}, PopulationAlike A population population' →
    Lockstep G (InPace S) (pega.children count population) (pega'.children count population')
      (fun r r' => PopulationAlike A r.1 r'.1 ∧ PopulationAlike A r.2 r'.2) := by
  induction count with
  | zero => exact fun hpopulation => Lockstep.pure ⟨List.Forall₂.nil, hpopulation⟩
  | succ count ih =>
      intro population population' hpopulation
      refine (tournament_alike h hpopulation).bind
        fun ⟨child, population⟩ ⟨child', population'⟩ ⟨hchild, hpopulation⟩ => ?_
      refine (tournament_alike h hpopulation).bind
        fun ⟨other, population⟩ ⟨other', population'⟩ ⟨hother, hpopulation⟩ => ?_
      refine (crossover_alike h hchild hother).bind fun _ _ hcrossed => ?_
      refine (mutate_alike h hcrossed).bind fun _ _ hmutated => ?_
      refine (evaluate_alike h hmutated).bind fun _ _ hevaluated => ?_
      refine (repair_alike h hevaluated).bind fun _ _ hrepaired => ?_
      refine (ih hpopulation).bind
        fun ⟨rest, population⟩ ⟨rest', population'⟩ ⟨hrest, hpopulation⟩ => Lockstep.pure ?_
      exact ⟨List.Forall₂.cons hrepaired hrest, hpopulation⟩

theorem generation_alike {population : List (Individual C)} {population' : List (Individual D)}
    (hpopulation : PopulationAlike A population population') {best : Individual C}
    {best' : Individual D} (hbest : IndividualAlike A best best') :
    Lockstep G (InPace S) (pega.generation population best) (pega'.generation population' best')
      (DrawnAlike A) := by
  refine (eliteSet_alike h hpopulation).bind fun elite elite' helite => ?_
  rw [h.config, helite.length_eq]
  refine (children_alike h _ hpopulation).bind fun ⟨next, _⟩ ⟨next', _⟩ ⟨hnext, _⟩ => ?_
  exact trackBest_alike h (List.rel_append helite hnext) hbest

theorem generations_alike (count : Nat) : ∀ {population : List (Individual C)}
    {population' : List (Individual D)} {best : Individual C} {best' : Individual D},
    PopulationAlike A population population' → IndividualAlike A best best' →
    Lockstep G (InPace S) (pega.generations count population best)
      (pega'.generations count population' best')
      (fun r r' => IndividualAlike A r.1 r'.1 ∧
        List.Forall₂ (PopulationAlike A) r.2 r'.2) := by
  induction count with
  | zero => exact fun _ hbest => Lockstep.pure ⟨hbest, List.Forall₂.nil⟩
  | succ count ih =>
      intro population population' best best' hpopulation hbest
      refine (generation_alike h hpopulation hbest).bind
        fun ⟨best, population⟩ ⟨best', population'⟩ ⟨hbest, hpopulation⟩ => ?_
      refine (ih hpopulation hbest).bind
        fun ⟨best, history⟩ ⟨best', history'⟩ ⟨hbest, hhistory⟩ => Lockstep.pure ?_
      exact ⟨hbest, List.Forall₂.cons hpopulation hhistory⟩

theorem randomPopulation_alike (count : Nat) :
    Lockstep G (InPace S) (pega.randomPopulation count) (pega'.randomPopulation count)
      (PopulationAlike A) := by
  induction count with
  | zero => exact Lockstep.pure List.Forall₂.nil
  | succ count ih =>
      refine (randomIndividual_alike h).bind fun _ _ hvalue => ?_
      refine (repair_alike h hvalue).bind fun _ _ hrepaired => ?_
      exact ih.bind fun _ _ hrest => Lockstep.pure (List.Forall₂.cons hrepaired hrest)

/-- The profile is made of public sizes and of the counts. -/
theorem finalStats_alike (factors : Factors) (initialization run : OperationCounts) :
    pega.finalStats factors initialization run = pega'.finalStats factors initialization run := by
  have havailable : pega.availableMethods = pega'.availableMethods := by
    have hlengths : List.Forall₂ Eq (pega.request.costs.map fun row => (options row).length)
        (pega'.request.costs.map fun row => (options row).length) := by
      rw [List.forall₂_map_left_iff, List.forall₂_map_right_iff]
      exact h.request.costs.imp fun _ _ hrow => (options_rel hrow).length_eq
    rw [List.forall₂_eq_eq_eq] at hlengths
    exact congrArg List.sum hlengths
  unfold finalStats dimensions
  rw [h.config, h.request.costs.length_eq, havailable, rounds_alike h]

theorem run_alike (factors : Factors) :
    Lockstep G (InPace S) (pega.run factors) (pega'.run factors)
      (fun r r' => OutcomeAlike A r.1 r'.1 ∧ List.Forall₂ (PopulationAlike A) r.2 r'.2) := by
  unfold run
  rw [h.config]
  refine (cheapest_alike h).bind fun _ _ hfirst => ?_
  refine (repair_alike h hfirst).bind fun front front' hfront => ?_
  refine (randomPopulation_alike h _).bind fun rest rest' hrest => ?_
  refine (trackBest_alike h hrest hfront).bind
    fun ⟨best, rest⟩ ⟨best', rest'⟩ ⟨hbest, hrest⟩ => ?_
  refine locals_alike.bind fun initialization initialization' hinitialization => ?_
  have hpopulation := List.Forall₂.cons hfront hrest
  refine (generations_alike h _ hpopulation hbest).bind
    fun ⟨best, history⟩ ⟨best', history'⟩ ⟨hbest, hhistory⟩ => ?_
  refine locals_alike.bind fun progress progress' hprogress => Lockstep.pure ?_
  subst hinitialization
  subst hprogress
  exact ⟨⟨hbest.genes, hbest.totals.total, hbest.totals.c12, hbest.totals.c3,
    hbest.totals.linear, finalStats_alike h _ _ _⟩, List.Forall₂.cons hpopulation hhistory⟩

end Pega

/-- What is checked before the first call is public. -/
theorem validate_alike (hempty : ∀ {a a'}, A a a' →
      CiphertextLike.empty a = CiphertextLike.empty a') (domain : NumericDomain)
    (config : ConfidentialScalableOptimizerConfig) {request : EncryptedOptimizationRequest C}
    {request' : EncryptedOptimizationRequest D} (h : RequestAlike A request request') :
    validate domain config request = validate domain config request' := by
  simp only [validate, h.isEmpty, h.costs.length_eq, h.threshold, h.session,
    checkRows_alike hempty h.costs]

theorem program_alike {ops : SecureOps σ C} {ops' : SecureOps τ D} (h : AlikeOps G A S ops ops')
    (config : ConfidentialScalableOptimizerConfig) (factors : Factors) (draws : Nat → UInt64)
    {request : EncryptedOptimizationRequest C} {request' : EncryptedOptimizationRequest D}
    (hrequest : RequestAlike A request request') :
    Lockstep G (InPace S) (ConfidentialScalableOptimizer.program ops config factors draws request)
      (ConfidentialScalableOptimizer.program ops' config factors draws request')
      (fun r r' => OutcomeAlike A r.1 r'.1 ∧ List.Forall₂ (PopulationAlike A) r.2 r'.2) := by
  unfold ConfidentialScalableOptimizer.program
  rw [h.domain, validate_alike h.empty ops'.domain config hrequest]
  refine Lockstep.lift.bind fun _ _ _ => ?_
  exact (constructPega_alike h config draws hrequest).bind fun _ _ hpega =>
    Pega.run_alike hpega factors

end Lockstep

/-! ## A run over a traced backend -/

section Traced

variable {σ τ C D : Type} {A : C → D → Prop} {S : σ → τ → Prop}

/-- Two runs end in the same way, with the same calls, counts and draws; when they return, their
profiles are the same. -/
inductive RunsAlike (A : C → D → Prop) (S : σ → τ → Prop) :
    EStateM.Result Error ((σ × Trace) × Progress)
      (ConfidentialScalableOptimizationResult (Named C) × Pega.History (Named C)) →
    EStateM.Result Error ((τ × Trace) × Progress)
      (ConfidentialScalableOptimizationResult (Named D) × Pega.History (Named D)) → Prop
  | returned {result : ConfidentialScalableOptimizationResult (Named C)}
      {result' : ConfidentialScalableOptimizationResult (Named D)}
      {history : Pega.History (Named C)} {history' : Pega.History (Named D)} {s : σ} {t : τ}
      {trace : Trace} {progress : Progress} (hresult : OutcomeAlike (Same A) result result')
      (hst : S s t) :
      RunsAlike A S (.ok (result, history) ((s, trace), progress))
        (.ok (result', history') ((t, trace), progress))
  | raised (error : Error) {s : σ} {t : τ} {trace : Trace} {progress : Progress} :
      RunsAlike A S (.error error ((s, trace), progress)) (.error error ((t, trace), progress))

variable [CiphertextLike C] [CiphertextLike D]

/-- The costs have no influence on the calls, on the draws or on the profile. -/
theorem optimize_oblivious {ops : SecureOps σ C} {ops' : SecureOps τ D}
    (h : AlikeOps (fun _ => False) A S ops ops') (config : ConfidentialScalableOptimizerConfig)
    (factors : Factors) (draws : Nat → UInt64) {request : EncryptedOptimizationRequest C}
    {request' : EncryptedOptimizationRequest D} (hrequest : RequestAlike A request request') {s : σ}
    {t : τ} (hst : S s t) :
    RunsAlike A S
      (ConfidentialScalableOptimizer.program (tracedOps ops) config factors draws
        (nameRequest request) ((s, []), {}))
      (ConfidentialScalableOptimizer.program (tracedOps ops') config factors draws
        (nameRequest request') ((t, []), {})) := by
  have hstart : InPace (Synced S 0) (((s, []), {}) : (σ × Trace) × Progress) ((t, []), {}) :=
    ⟨⟨hst, rfl, rfl⟩, rfl⟩
  have hprogram := program_alike (tracedOps_alike h 0) config factors draws
    (nameRequest_alike hrequest)
  rcases hprogram.run hstart with (⟨_, _, _, hup⟩ | ⟨_, _, _, hup⟩) |
    ⟨r, r', w, w', hm, hn, hr, hw⟩ | ⟨error, w, w', hm, hn, hw⟩
  · exact hup.elim
  · exact hup.elim
  · rw [hm, hn]
    rcases w with ⟨⟨s', trace⟩, progress⟩
    rcases w' with ⟨⟨t', trace'⟩, progress'⟩
    rcases hw with ⟨⟨hst', rfl, _⟩, rfl⟩
    exact .returned hr.1 hst'
  · rw [hm, hn]
    rcases w with ⟨⟨s', trace⟩, progress⟩
    rcases w' with ⟨⟨t', trace'⟩, progress'⟩
    rcases hw with ⟨⟨_, rfl, _⟩, rfl⟩
    exact .raised error

end Traced

/-- A traced run of two rows over values in the clear. -/
def tracedRun (rows : List (CostRow Int)) :=
  ConfidentialScalableOptimizer.program (tracedOps (clearOps ⟨100, 4, 8, 10, 32, 64⟩)) pairConfig
    ⟨fun _ _ => 1, fun _ _ => 1⟩ (fun k => UInt64.ofNat (k * k + 3))
    (nameRequest (clearRequest rows 20 "two-rows")) (((), []), {})

/-- Other costs, the same run. -/
theorem optimize_oblivious_twoRows :
    RunsAlike BothPresent (fun _ _ => True)
      (tracedRun [![some 3, none, some 2], ![some 1, some 4, none]])
      (tracedRun [![some 30, none, some 25], ![some 7, some 40, none]]) := by
  have hrequest : RequestAlike BothPresent
      (clearRequest [![some 3, none, some 2], ![some 1, some 4, none]] 20 "two-rows")
      (clearRequest [![some 30, none, some 25], ![some 7, some 40, none]] 20 "two-rows") :=
    clearRequest_alike (List.Forall₂.cons (by decide) (List.Forall₂.cons (by decide)
      List.Forall₂.nil)) 20 "two-rows"
  exact optimize_oblivious (clearOps_alike _) pairConfig _ _ hrequest trivial

end Optimization
end SociSgx

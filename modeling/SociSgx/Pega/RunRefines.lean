import SociSgx.Pega.Units
import SociSgx.Pega.Result

/-!
# RunRefines — the confidential search against the plaintext one

The plaintext optimizer sorts the population before its tournaments draw from it; PEGA keeps the
population as it is stored, and its tournaments index that list.  The two runs are the same as long
as each draw of a tournament denotes the same member in both lists.  Where the costs are counted in
different units, both have to order the infeasible members alike as well.
-/

namespace SociSgx
namespace Optimization

open Exec Secure CountedOps Scalable Scalable.Evaluator

/-! ## The draws of the tournaments -/

namespace Scalable
namespace Evaluator

section Aligned

variable {F : Type} [LinearOrder F] (ev : Evaluator F) (config : GeneticSolverConfig F)
  (draws : Nat → UInt64)

omit ev config in
/-- The draw denotes the same member in the population as it is stored and in the sorted one. -/
def sameSlot (population : List (Individual F)) (drawn : Nat) : Bool :=
  let slot := (draws drawn).toNat % population.length
  decide (population[slot]? = (sorted population)[slot]?)

/-- The draws of the tournaments denote the same members, for all children. -/
def childrenAligned (population : List (Individual F)) : Nat → Tally → Bool
  | 0, _ => true
  | count + 1, tally =>
      (List.range (2 * config.tournamentSize)).all
          (fun turn => sameSlot draws population (tally.drawn + turn)) &&
        match ev.child config draws (sorted population) tally with
        | .ok _ tally => childrenAligned population count tally
        | .error _ _ => false

def generationsAligned : Nat → List (Individual F) → Tally → Bool
  | 0, _, _ => true
  | count + 1, population, tally =>
      let elite := (sorted population).take config.elitism
      ev.childrenAligned config draws population (config.population - elite.length) tally &&
        match ev.nextPopulation config draws population tally with
        | .ok next tally => generationsAligned count next tally
        | .error _ _ => false

/-- The population before the first generation. -/
def firstPopulation : RunM (List (Individual F)) := do
  let first ← ev.cheapest
  let rest ← ev.randomIndividuals draws (config.population - 1)
  return first :: rest

/-- In a whole run every draw of a tournament denotes the same member before and after the sort. -/
def aligned : Bool :=
  match ev.firstPopulation config draws {} with
  | .ok population tally => ev.generationsAligned config draws config.generations population tally
  | .error _ _ => false

end Aligned

/-! ## Computations that only draw -/

/-- Both runs have taken the same number of draws. -/
abbrev SameDrawn (t t' : Tally) : Prop :=
  t.drawn = t'.drawn

/-- The computation looks at the draws only, and not at the other counters. -/
abbrev DrawsOnly {α : Type} (m : RunM α) : Prop :=
  Follows SameDrawn m m Eq

section Draws

variable {α β : Type} {draws : Nat → UInt64}

theorem DrawsOnly.pure (a : α) : DrawsOnly (pure a : RunM α) :=
  Follows.pure rfl

theorem DrawsOnly.bind {m : RunM α} {f : α → RunM β} (h : DrawsOnly m)
    (hf : ∀ a, DrawsOnly (f a)) : DrawsOnly (m >>= f) :=
  Follows.bind h fun a _ heq => heq ▸ hf a

theorem DrawsOnly.mapM {f : α → RunM β} (h : ∀ a, DrawsOnly (f a)) (l : List α) :
    DrawsOnly (l.mapM f) := by
  induction l with
  | nil =>
      rw [List.mapM_nil]
      exact DrawsOnly.pure []
  | cons a l ih =>
      rw [List.mapM_cons]
      exact (h a).bind fun b => ih.bind fun bs => DrawsOnly.pure (b :: bs)

theorem rng_drawsOnly : DrawsOnly (rng draws) := by
  refine Follows.ofRun fun t t' ht => ⟨draws t.drawn, draws t'.drawn,
    { t with drawn := t.drawn + 1 }, { t' with drawn := t'.drawn + 1 }, rfl, rfl, ?_, ?_⟩
  · exact congrArg draws ht
  · exact congrArg (· + 1) ht

theorem index_drawsOnly (size : Nat) : DrawsOnly (index draws size) :=
  rng_drawsOnly.bind fun draw => DrawsOnly.pure (draw.toNat % size)

theorem randomGene_drawsOnly (row : CostRow Int) : DrawsOnly (randomGene draws row) :=
  (index_drawsOnly _).bind fun _ => DrawsOnly.pure _

theorem crossover_drawsOnly (rate : Rate) (genes other : List Method) :
    DrawsOnly (crossover draws rate genes other) := by
  refine rng_drawsOnly.bind fun draw => ?_
  split
  · exact DrawsOnly.mapM (fun pair => rng_drawsOnly.bind fun draw => DrawsOnly.pure _) _
  · exact DrawsOnly.pure genes

theorem mutateGene_drawsOnly (rate : Rate) (row : CostRow Int) (gene : Method) :
    DrawsOnly (mutateGene draws rate row gene) := by
  refine rng_drawsOnly.bind fun draw => ?_
  dsimp only
  split
  · refine (index_drawsOnly _).bind fun i => ?_
    split
    · exact DrawsOnly.pure _
    · exact DrawsOnly.pure _
  · exact DrawsOnly.pure gene

end Draws

theorem selectRounds_succ {F : Type} [LinearOrder F] {draws : Nat → UInt64}
    (population : List (Individual F)) (rounds : Nat) (winner : Individual F) (t : Tally) :
    selectRounds draws population (rounds + 1) winner t =
      selectRounds draws population rounds
        (if order (population.getD ((draws t.drawn).toNat % population.length) winner) winner = true
          then population.getD ((draws t.drawn).toNat % population.length) winner else winner)
        { t with drawn := t.drawn + 1 } :=
  rfl

/-- `repair` begins with an evaluation. -/
theorem repair_evaluated {F : Type} [LinearOrder F] {ev : Evaluator F} {x y : Individual F}
    (hx : Available ev.model x.genes) (h : y.genes = x.genes) : ev.repair y = ev.repair x := by
  have hy : Available ev.model y.genes := by rwa [h]
  have heval : ev.evaluate y = ev.evaluate x := ev.evaluate_congr h
  have hrunEq : ∀ fuel, ev.repairRun fuel y = ev.repairRun fuel x := by
    intro fuel
    unfold repairRun
    rw [heval]
  rcases repairRun_terminates le_rfl hx with ⟨rest, answer, hrun, _⟩
  have hrun' := (hrunEq _).trans hrun
  rw [← heval] at hrun'
  rw [repair_eq hrun, repair_eq hrun', heval]

end Evaluator
end Scalable

namespace Plain

/-! ## Individuals -/

/-- The members of both populations have the same genes, in the same order. -/
structure Shows (p p' : Plain) (xs : List (Scalable.Individual Int))
    (ys : List (Scalable.Individual ℚ)) : Prop where
  proper : ∀ x ∈ xs, p.Proper x
  eq : ys = xs.map fun x => p'.plaintext x.genes

variable {p p' : Plain} {unit : Int} {draws : Nat → UInt64}

theorem Shows.nil : Shows p p' [] [] :=
  ⟨fun _ hx => (by cases hx), rfl⟩

theorem Shows.cons {x : Scalable.Individual Int} {xs : List (Scalable.Individual Int)}
    {ys : List (Scalable.Individual ℚ)} (hx : p.Proper x) (h : Shows p p' xs ys) :
    Shows p p' (x :: xs) (p'.plaintext x.genes :: ys) := by
  refine ⟨List.forall_mem_cons.2 ⟨hx, h.proper⟩, ?_⟩
  rw [List.map_cons, ← h.eq]

theorem Shows.append {xs xs' : List (Scalable.Individual Int)}
    {ys ys' : List (Scalable.Individual ℚ)} (h : Shows p p' xs ys) (h' : Shows p p' xs' ys') :
    Shows p p' (xs ++ xs') (ys ++ ys') := by
  refine ⟨List.forall_mem_append.2 ⟨h.proper, h'.proper⟩, ?_⟩
  rw [List.map_append, ← h.eq, ← h'.eq]

section Repaired

variable (h : Rescaled p p' unit) (hpositive : p.Positive) (hnonempty : p.costs ≠ [])
  (hdefault : p.config.repairRounds = 0)
include h hpositive hnonempty hdefault

/-- The repair in the other units ends with the genes of the plaintext repair. -/
theorem repair_shows {genes : List Method} (hgenes : Available p.model genes) :
    p.Proper (p.repair (p.individual genes)) ∧
      (p'.reference.repair (p'.reference.fresh genes)).1.genes =
        (p.repair (p.individual genes)).genes := by
  have hgenes' : Available p'.model genes := h.available.2 hgenes
  have hnonempty' : p'.costs ≠ [] := by
    rw [h.costs]
    exact fun hnil => hnonempty (List.map_eq_nil_iff.1 hnil)
  have hdefault' : p'.config.repairRounds = 0 := by rw [h.config, hdefault]
  have hrepair := repair_individual (h.positive hpositive) hnonempty' hdefault' hgenes'
  have heq := h.repair genes
  rw [hrepair] at heq
  refine ⟨?_, heq⟩
  rw [repair_roundGenes] at heq ⊢
  refine Proper.ofGenes ?_
  have hfresh : Available p'.reference.model (p'.reference.fresh genes).genes := hgenes'
  have hconsistent := (repair_spec hfresh).1.available
  have hsame : (p'.reference.repair (p'.reference.fresh genes)).1.genes =
      p.roundGenes^[p.rounds] genes := heq
  rw [← hsame]
  exact h.available.1 hconsistent

/-- `prepare` makes the individual with the repaired genes, and draws nothing. -/
theorem prepare_shows {y : Scalable.Individual ℚ} (hgenes : Available p.model y.genes)
    (drawn : Nat) :
    Yields (fun tally : Tally => tally.drawn = drawn) (p'.reference.prepare y)
      (fun z => z = p'.plaintext (p.repair (p.individual y.genes)).genes) Never := by
  have hrepair := repair_shows h hpositive hnonempty hdefault hgenes
  have hgenes' : Available p'.model y.genes := h.available.2 hgenes
  -- The counters change, the number of draws does not.
  have hcount : ∀ f : Tally → Tally, (∀ tally, (f tally).drawn = tally.drawn) →
      Yields (fun tally : Tally => tally.drawn = drawn) (modify f : RunM PUnit) (fun _ => True)
        Never :=
    fun f hf => Triple.modify fun tally hdrawn => ⟨trivial, (hf tally).trans hdrawn⟩
  have hevaluate : p'.reference.evaluate y = p'.plaintext y.genes :=
    p'.reference.evaluate_congr rfl
  unfold prepare
  rw [hevaluate]
  dsimp only
  refine (hcount _ (by intro tally; rfl)).bind fun _ _ => ?_
  split
  · rename_i hfeasible
    refine (hcount _ (by intro tally; rfl)).bind fun _ _ => Yields.pure ?_
    have hnonempty' : p'.costs ≠ [] := by
      rw [h.costs]
      exact fun hnil => hnonempty (List.map_eq_nil_iff.1 hnil)
    have hdefault' : p'.config.repairRounds = 0 := by rw [h.config, hdefault]
    have hsame := repair_feasible (h.positive hpositive) hnonempty' hdefault' hgenes' hfeasible
    rw [hrepair.2] at hsame
    rw [hsame]
  · refine (hcount _ (by intro tally; rfl)).bind fun _ _ => ?_
    have hfresh : Available p'.reference.model (p'.reference.fresh y.genes).genes := hgenes'
    have hrepaired : (p'.reference.repair (p'.plaintext y.genes)).1.genes =
        (p.repair (p.individual y.genes)).genes := by
      rw [← hrepair.2, repair_evaluated hfresh (plaintext_genes y.genes)]
    have hresult : Yields (fun tally : Tally => tally.drawn = drawn)
        (pure (p'.reference.evaluate (p'.reference.repair (p'.plaintext y.genes)).1))
        (fun z => z = p'.plaintext (p.repair (p.individual y.genes)).genes)
        (Never : Error → Tally → Prop) :=
      Yields.pure (p'.reference.evaluate_congr hrepaired)
    dsimp only
    split
    · exact (hcount _ (by intro tally; rfl)).bind fun _ _ => hresult
    · exact hresult

end Repaired

/-! ## Tournaments -/

/-- A tournament is the first draw and the other rounds. -/
theorem tournament_eq (p : Plain) (population : List (Scalable.Individual Int)) (t : Tally) :
    p.tournament draws population t = selectRounds draws population (p.config.tournamentSize - 1)
      (population.getD ((draws t.drawn).toNat % population.length) (p.individual []))
      { t with drawn := t.drawn + 1 } :=
  rfl

theorem select_eq (ev : Evaluator ℚ) (tournamentSize : Nat)
    (population : List (Scalable.Individual ℚ)) (t : Tally) :
    ev.select draws tournamentSize population t = selectRounds draws population (tournamentSize - 1)
      (population.getD ((draws t.drawn).toNat % population.length) (ev.fresh []))
      { t with drawn := t.drawn + 1 } :=
  rfl

section Tournaments

variable {xs : List (Scalable.Individual Int)}
  {ys : List (Scalable.Individual ℚ)} (hshows : Shows p p' xs ys) (hne : xs ≠ [])
  (hordered : ∀ x ∈ xs, ∀ y ∈ xs,
    order (p'.plaintext x.genes) (p'.plaintext y.genes) = order x y)
include hshows

theorem Shows.length_sorted : (sorted ys).length = xs.length := by
  rw [sorted, List.length_insertionSort, hshows.eq, List.length_map]

include hne

/-- Where a draw denotes the same member in both lists, both tournaments take that member. -/
theorem slot_shows {drawn : Nat} (hslot : sameSlot draws ys drawn = true)
    (x : Scalable.Individual Int) (y : Scalable.Individual ℚ) :
    xs.getD ((draws drawn).toNat % xs.length) x ∈ xs ∧
      (sorted ys).getD ((draws drawn).toNat % (sorted ys).length) y =
        p'.plaintext (xs.getD ((draws drawn).toNat % xs.length) x).genes := by
  have hlength : ys.length = xs.length := by rw [hshows.eq, List.length_map]
  have hlt : (draws drawn).toNat % xs.length < xs.length :=
    Nat.mod_lt _ (List.length_pos_iff.2 hne)
  refine ⟨getD_mem hlt x, ?_⟩
  have hsame := of_decide_eq_true hslot
  rw [hlength] at hsame
  rw [hshows.length_sorted, List.getD_eq_getElem?_getD, ← hsame, hshows.eq, List.getElem?_map,
    List.getElem?_eq_getElem hlt, List.getD_eq_getElem _ _ hlt]
  rfl

include hordered

theorem selectRounds_shows (rounds : Nat) : ∀ {x : Scalable.Individual Int} {t t' : Tally},
    x ∈ xs → t.drawn = t'.drawn →
    (∀ turn < rounds, sameSlot draws ys (t'.drawn + turn) = true) →
    ∃ z s s', selectRounds draws xs rounds x t = .ok z s ∧
      selectRounds draws (sorted ys) rounds (p'.plaintext x.genes) t' =
        .ok (p'.plaintext z.genes) s' ∧
      z ∈ xs ∧ s.drawn = t'.drawn + rounds ∧ s'.drawn = t'.drawn + rounds := by
  induction rounds with
  | zero => exact fun {x t t'} hx ht _ => ⟨x, t, t', rfl, rfl, hx, ht, rfl⟩
  | succ rounds ih =>
      intro x t t' hx ht hslots
      have hslot : sameSlot draws ys t'.drawn = true := hslots 0 (Nat.succ_pos rounds)
      rcases slot_shows hshows hne hslot x (p'.plaintext x.genes) with ⟨hmem, hchallenger⟩
      let challenger := xs.getD ((draws t'.drawn).toNat % xs.length) x
      let winner := if order challenger x = true then challenger else x
      have hwinner : winner ∈ xs := by
        change (if order challenger x = true then challenger else x) ∈ xs
        split
        · exact hmem
        · exact hx
      have hshown : (if order (p'.plaintext challenger.genes) (p'.plaintext x.genes) = true then
          p'.plaintext challenger.genes else p'.plaintext x.genes) =
          p'.plaintext winner.genes := by
        rw [hordered challenger hmem x hx]
        exact (apply_ite (fun z : Scalable.Individual Int => p'.plaintext z.genes) _ _ _).symm
      have hrest : ∀ turn < rounds, sameSlot draws ys (t'.drawn + 1 + turn) = true := by
        intro turn hturn
        have hslot := hslots (turn + 1) (Nat.succ_lt_succ hturn)
        rwa [Nat.add_comm turn, ← Nat.add_assoc] at hslot
      -- One draw has been taken; the others are those of the remaining rounds.
      rcases @ih _ { t with drawn := t'.drawn + 1 } { t' with drawn := t'.drawn + 1 }
        hwinner rfl hrest with ⟨z, s, s', hrun, hrun', hz, hs, hs'⟩
      have hcount : t'.drawn + 1 + rounds = t'.drawn + (rounds + 1) := by omega
      refine ⟨z, s, s', ?_, ?_, hz, hs.trans hcount, hs'.trans hcount⟩
      · rw [selectRounds_succ, ht]
        exact hrun
      · rw [selectRounds_succ, hchallenger, hshown]
        exact hrun'

theorem tournament_shows (hsize : 0 < p.config.tournamentSize) {t t' : Tally}
    (ht : t.drawn = t'.drawn)
    (hslots : ∀ turn < p.config.tournamentSize, sameSlot draws ys (t'.drawn + turn) = true) :
    ∃ z s s', p.tournament draws xs t = .ok z s ∧
      p'.reference.select draws p.config.tournamentSize (sorted ys) t' =
        .ok (p'.plaintext z.genes) s' ∧
      z ∈ xs ∧ s.drawn = t'.drawn + p.config.tournamentSize ∧
      s'.drawn = t'.drawn + p.config.tournamentSize := by
  have hslot : sameSlot draws ys t'.drawn = true := hslots 0 hsize
  rcases slot_shows hshows hne hslot (p.individual []) (p'.reference.fresh []) with
    ⟨hmem, hwinner⟩
  have hrest : ∀ turn < p.config.tournamentSize - 1,
      sameSlot draws ys (t'.drawn + 1 + turn) = true := by
    intro turn hturn
    have hslot := hslots (turn + 1) (by omega)
    rwa [Nat.add_comm turn, ← Nat.add_assoc] at hslot
  rcases @selectRounds_shows _ _ _ _ _ hshows hne hordered (p.config.tournamentSize - 1) _
    { t with drawn := t'.drawn + 1 } { t' with drawn := t'.drawn + 1 } hmem rfl hrest with
    ⟨z, s, s', hrun, hrun', hz, hs, hs'⟩
  have hcount : t'.drawn + 1 + (p.config.tournamentSize - 1) =
      t'.drawn + p.config.tournamentSize := by omega
  refine ⟨z, s, s', ?_, ?_, hz, hs.trans hcount, hs'.trans hcount⟩
  · rw [tournament_eq, ht]
    exact hrun
  · rw [select_eq, hwinner]
    exact hrun'

end Tournaments

/-! ## Children -/

/-- The configurations of both optimizers are the same. -/
structure SameConfig (config : ConfidentialScalableOptimizerConfig)
    (plain : GeneticSolverConfig ℚ) : Prop where
  population : plain.population = config.population
  generations : plain.generations = config.generations
  elitism : plain.elitism = config.elitism
  tournamentSize : plain.tournamentSize = config.tournamentSize
  crossoverRate : plain.crossoverRate = config.crossoverRate
  mutationRate : plain.mutationRate = config.mutationRate
  penalty : plain.infeasiblePenaltyMultiplier = config.infeasiblePenalty

/-- What both runs need besides the populations. -/
structure SameRun (p p' : Plain) (unit : Int) (config : GeneticSolverConfig ℚ) : Prop where
  rescaled : Rescaled p p' unit
  positive : p.Positive
  nonempty : p.costs ≠ []
  choosable : ∀ row ∈ p.costs, options row ≠ []
  rounds : p.config.repairRounds = 0
  elitism : 0 < p.config.elitism
  tournament : 0 < p.config.tournamentSize
  config : SameConfig p.config config

variable {config : GeneticSolverConfig ℚ} (h : SameRun p p' unit config)
include h

theorem SameRun.mutate (genes : List Method) :
    p'.reference.mutate draws config.mutationRate genes = p.mutate draws genes := by
  unfold Evaluator.mutate Plain.mutate
  change (p'.costs.zip genes).mapM _ = _
  rw [h.rescaled.costs, List.zip_map_left, List.mapM_map, h.config.mutationRate]
  refine congrArg (fun f => List.mapM f (p.costs.zip genes)) (funext fun item => ?_)
  exact mutateGene_inUnits unit item.1 draws _ item.2

omit h in
theorem mutate_drawsOnly (genes : List Method) : DrawsOnly (p.mutate draws genes) :=
  DrawsOnly.mapM (f := fun item : CostRow Int × Method =>
    mutateGene draws p.config.mutationRate item.1 item.2)
    (fun item => mutateGene_drawsOnly _ item.1 item.2) (p.costs.zip genes)

/-- An individual and the plaintext one with its genes. -/
abbrev ShowsOne (p p' : Plain) (x : Scalable.Individual Int) (y : Scalable.Individual ℚ) : Prop :=
  p.Proper x ∧ y = p'.plaintext x.genes

/-- Where the second run prepares an individual, the first one has the repaired genes. -/
theorem SameRun.prepare {α β : Type} {m : RunM α} {g : Scalable.Individual ℚ → RunM β}
    {R : α → β → Prop} {genes : List Method} (hgenes : Available p.model genes)
    {y : Scalable.Individual ℚ} (hy : y.genes = genes)
    (hg : ∀ z, ShowsOne p p' (p.repair (p.individual genes)) z → Follows SameDrawn m (g z) R) :
    Follows SameDrawn m (p'.reference.prepare y >>= g) R := by
  subst hy
  refine Follows.bind_right (B := fun z =>
    z = p'.plaintext (p.repair (p.individual y.genes)).genes) (fun t => ?_) fun z hz => ?_
  · refine Triple.weaken (prepare_shows h.rescaled h.positive h.nonempty h.rounds hgenes t.drawn)
      (fun t' ht => ht.symm) (fun z t' hz => ⟨hz.1, hz.2.symm⟩) fun _ _ hnever => hnever
  · refine hg z ⟨?_, hz⟩
    exact (repair_shows h.rescaled h.positive h.nonempty h.rounds hgenes).1

/-- What is made of the two members that the tournaments return. -/
theorem SameRun.offspring {x other : Scalable.Individual Int} (hx : p.Proper x)
    (hother : p.Proper other) :
    Follows SameDrawn
      (do
        let genes ← crossover draws p.config.crossoverRate x.genes other.genes
        let genes ← p.mutate draws genes
        return p.repair (p.individual genes))
      (do
        let genes ← crossover draws config.crossoverRate x.genes other.genes
        let genes ← p'.reference.mutate draws config.mutationRate genes
        p'.reference.prepare { p'.plaintext x.genes with genes := genes })
      (ShowsOne p p') := by
  rw [h.config.crossoverRate]
  have hcrossed : Gives (crossover draws p.config.crossoverRate x.genes other.genes)
      (Available p.reference.model) := crossover_gives hx.available hother.available
  refine ((crossover_drawsOnly _ _ _).also hcrossed).bind fun genes genes' hgenes => ?_
  rcases hgenes with ⟨rfl, hgenes⟩
  have hmutated : Gives (p.reference.mutate draws p.config.mutationRate genes)
      (Available p.reference.model) := mutate_gives hgenes
  rw [h.mutate]
  refine ((mutate_drawsOnly genes).also hmutated).bind fun genes genes' hgenes => ?_
  rcases hgenes with ⟨rfl, hgenes⟩
  rw [← bind_pure (p'.reference.prepare _)]
  exact h.prepare hgenes rfl fun z hz => Follows.pure hz

section Population

variable {xs : List (Scalable.Individual Int)} {ys : List (Scalable.Individual ℚ)}
  (hshows : Shows p p' xs ys) (hne : xs ≠ [])
  (hordered : ∀ x ∈ xs, ∀ y ∈ xs,
    order (p'.plaintext x.genes) (p'.plaintext y.genes) = order x y)
include hshows hne hordered

theorem SameRun.child {t t' : Tally} (ht : t.drawn = t'.drawn)
    (hslots : (List.range (2 * config.tournamentSize)).all
      (fun turn => sameSlot draws ys (t'.drawn + turn)) = true) :
    ∃ z s s', p.child draws xs t = .ok z s ∧
      p'.reference.child config draws (sorted ys) t' = .ok (p'.plaintext z.genes) s' ∧
      p.Proper z ∧ s.drawn = s'.drawn := by
  have hslot : ∀ turn < 2 * p.config.tournamentSize,
      sameSlot draws ys (t'.drawn + turn) = true := by
    intro turn hturn
    rw [← h.config.tournamentSize] at hturn
    exact List.all_eq_true.1 hslots turn (List.mem_range.2 hturn)
  rcases tournament_shows hshows hne hordered h.tournament ht
    fun turn hturn => hslot turn (by omega) with ⟨x, s, s', hfirst, hfirst', hx, hs, hs'⟩
  have hsecondSlots : ∀ turn < p.config.tournamentSize,
      sameSlot draws ys (s'.drawn + turn) = true := by
    intro turn hturn
    rw [hs', Nat.add_assoc]
    exact hslot (p.config.tournamentSize + turn) (by omega)
  rcases tournament_shows hshows hne hordered h.tournament (hs.trans hs'.symm) hsecondSlots with
    ⟨other, r, r', hsecond, hsecond', hother, hr, hr'⟩
  rcases (h.offspring (hshows.proper x hx) (hshows.proper other hother)).run
    (hr.trans hr'.symm) with ⟨z, y, q, q', hrun, hrun', ⟨hz, rfl⟩, hq⟩
  refine ⟨z, q, q', ?_, ?_, hz, hq⟩
  · unfold Plain.child
    rw [bind_of_ok hfirst, bind_of_ok hsecond]
    exact hrun
  · unfold Evaluator.child
    rw [h.config.tournamentSize, bind_of_ok hfirst', bind_of_ok hsecond']
    exact hrun'

theorem SameRun.children (count : Nat) : ∀ {t t' : Tally}, t.drawn = t'.drawn →
    p'.reference.childrenAligned config draws ys count t' = true →
    ∃ zs ws s s', p.children draws xs count t = .ok zs s ∧
      p'.reference.childrenOf config draws (sorted ys) count t' = .ok ws s' ∧
      Shows p p' zs ws ∧ s.drawn = s'.drawn := by
  induction count with
  | zero => exact fun {t t'} ht _ => ⟨[], [], t, t', rfl, rfl, Shows.nil, ht⟩
  | succ count ih =>
      intro t t' ht haligned
      unfold childrenAligned at haligned
      rw [Bool.and_eq_true] at haligned
      rcases h.child hshows hne hordered ht haligned.1 with ⟨z, s, s', hrun, hrun', hz, hs⟩
      have hrest := haligned.2
      rw [hrun'] at hrest
      rcases ih hs hrest with ⟨zs, ws, r, r', hruns, hruns', hzs, hr⟩
      refine ⟨z :: zs, p'.plaintext z.genes :: ws, r, r', ?_, ?_, hzs.cons hz, hr⟩
      · unfold Plain.children
        rw [bind_of_ok hrun, bind_of_ok hruns]
        rfl
      · unfold Evaluator.childrenOf
        rw [bind_of_ok hrun', bind_of_ok hruns']
        rfl

/-! ## Generations -/

omit h hne in
/-- The sorted populations show each other as well. -/
theorem sorted_shows : Shows p p' (sorted xs) (sorted ys) := by
  refine ⟨fun x hx => hshows.proper x (mem_sorted.1 hx), ?_⟩
  rw [hshows.eq]
  refine (List.map_insertionSort _ _ _ _ fun x hx y hy => ?_).symm
  rw [hordered y hy x hx]

omit hne in
theorem SameRun.elite : Shows p p' (eliteSet p.config.elitism xs)
    ((sorted ys).take config.elitism) := by
  have hsorted := sorted_shows hshows hordered
  rw [eliteSet_eq h.elitism hshows.proper, h.config.elitism]
  refine ⟨fun x hx => hsorted.proper x (List.mem_of_mem_take hx), ?_⟩
  rw [hsorted.eq, List.map_take]

theorem SameRun.generation {t t' : Tally} (ht : t.drawn = t'.drawn)
    (haligned : p'.reference.childrenAligned config draws ys
      (config.population - ((sorted ys).take config.elitism).length) t' = true) :
    ∃ zs ws s s', p.nextPopulation draws xs t = .ok zs s ∧
      p'.reference.nextPopulation config draws ys t' = .ok ws s' ∧
      Shows p p' zs ws ∧ zs ≠ [] ∧ s.drawn = s'.drawn := by
  have helite := h.elite hshows hordered
  have hlength : ((sorted ys).take config.elitism).length =
      (eliteSet p.config.elitism xs).length := by
    rw [helite.eq, List.length_map]
  rcases h.children hshows hne hordered _ ht haligned with ⟨zs, ws, s, s', hrun, hrun', hzs, hs⟩
  refine ⟨eliteSet p.config.elitism xs ++ zs, (sorted ys).take config.elitism ++ ws, s, s',
    ?_, ?_, helite.append hzs, ?_, hs⟩
  · rw [hlength, h.config.population] at hrun
    unfold Plain.nextPopulation
    rw [bind_of_ok hrun]
    rfl
  · unfold Evaluator.nextPopulation
    rw [bind_of_ok hrun']
    rfl
  · exact List.append_ne_nil_of_left_ne_nil (InsertionNetwork.top_ne_nil hne) _

end Population

/-- The members of the population are ordered by both optimizers alike. -/
def OrderedAlike (p : Plain) (population : List (Scalable.Individual ℚ)) : Prop :=
  ∀ x ∈ population, ∀ y ∈ population,
    order x y = order (p.individual x.genes) (p.individual y.genes)

instance (p : Plain) (population : List (Scalable.Individual ℚ)) :
    Decidable (OrderedAlike p population) :=
  inferInstanceAs (Decidable (∀ x ∈ population, ∀ y ∈ population,
    order x y = order (p.individual x.genes) (p.individual y.genes)))

omit h in
theorem Shows.ordered {xs : List (Scalable.Individual Int)} {ys : List (Scalable.Individual ℚ)}
    (hshows : Shows p p' xs ys) (halike : OrderedAlike p ys) : ∀ x ∈ xs, ∀ y ∈ xs,
    order (p'.plaintext x.genes) (p'.plaintext y.genes) = order x y := by
  intro x hx y hy
  have hmem : ∀ z ∈ xs, p'.plaintext z.genes ∈ ys := by
    intro z hz
    rw [hshows.eq]
    exact List.mem_map_of_mem hz
  have horder := halike _ (hmem x hx) _ (hmem y hy)
  rwa [plaintext_genes, plaintext_genes, (hshows.proper x hx).individual,
    (hshows.proper y hy).individual] at horder

omit h in
/-- A run over one generation more. -/
theorem generationsFrom_succ {ev : Evaluator ℚ} {count : Nat} {ys : List (Scalable.Individual ℚ)}
    {later : History ℚ} {t s : Tally}
    (hrun : ev.generationsFrom config draws (count + 1) ys t = .ok later s) :
    ∃ next rest r, ev.nextPopulation config draws ys t = .ok next r ∧
      ev.generationsFrom config draws count next r = .ok rest s ∧ later = next :: rest := by
  unfold generationsFrom at hrun
  cases hnext : ev.nextPopulation config draws ys t with
  | error e r =>
      change EStateM.bind _ _ t = _ at hrun
      unfold EStateM.bind at hrun
      rw [hnext] at hrun
      cases hrun
  | ok next r =>
      rw [bind_of_ok hnext] at hrun
      cases hrest : ev.generationsFrom config draws count next r with
      | error e q =>
          change EStateM.bind _ _ r = _ at hrun
          unfold EStateM.bind at hrun
          rw [hrest] at hrun
          cases hrun
      | ok rest q =>
          rw [bind_of_ok hrest] at hrun
          cases hrun
          exact ⟨next, rest, r, rfl, hrest, rfl⟩

/-- The runs over the generations show each other, if every generation begins with a population
that both order alike. -/
theorem SameRun.generations (count : Nat) : ∀ {xs : List (Scalable.Individual Int)}
    {ys : List (Scalable.Individual ℚ)} {later' : History ℚ} {t t' s' : Tally},
    Shows p p' xs ys → xs ≠ [] → t.drawn = t'.drawn →
    p'.reference.generationsAligned config draws count ys t' = true →
    p'.reference.generationsFrom config draws count ys t' = .ok later' s' →
    (∀ population ∈ (ys :: later').dropLast, OrderedAlike p population) →
    ∃ later s, p.generations draws count xs t = .ok later s ∧
      List.Forall₂ (Shows p p') later later' := by
  induction count with
  | zero =>
      intro xs ys later' t t' s' _ _ _ _ hrun _
      cases hrun
      exact ⟨[], t, rfl, .nil⟩
  | succ count ih =>
      intro xs ys later' t t' s' hshows hne ht haligned hrun' halike
      rcases generationsFrom_succ hrun' with ⟨next', rest', r', hnext', hrest', rfl⟩
      rw [List.dropLast_cons_cons] at halike
      have hordered := hshows.ordered (halike ys List.mem_cons_self)
      unfold generationsAligned at haligned
      dsimp only at haligned
      rw [Bool.and_eq_true] at haligned
      rcases h.generation hshows hne hordered ht haligned.1 with
        ⟨zs, ws, r, q, hnext, hnextPlain, hzs, hzsNe, hr⟩
      rw [hnextPlain] at hnext'
      cases hnext'
      have hlater := haligned.2
      rw [hnextPlain] at hlater
      rcases ih hzs hzsNe hr hlater hrest' fun population hpopulation =>
        halike population (List.mem_cons_of_mem ys hpopulation) with ⟨rest, s, hrest, hrests⟩
      refine ⟨zs :: rest, s, ?_, .cons hzs hrests⟩
      unfold Plain.generations
      rw [bind_of_ok hnext, bind_of_ok hrest]
      rfl

/-! ## The run -/

theorem SameRun.cheapest_genes :
    p'.reference.model.costs.map cheapestGene = p.costs.map cheapestGene := by
  change p'.costs.map cheapestGene = _
  rw [h.rescaled.costs, List.map_map]
  exact List.map_congr_left fun row _ => cheapestGene_inUnits h.rescaled.unit_pos row

theorem SameRun.randomPopulation (count : Nat) :
    Follows SameDrawn (p.randomPopulation draws count)
      (p'.reference.randomIndividuals draws count) (Shows p p') := by
  induction count with
  | zero => exact Follows.pure Shows.nil
  | succ count ih =>
      have hmapped : p'.reference.model.costs.mapM (randomGene draws) =
          p.costs.mapM (randomGene draws) := by
        change p'.costs.mapM (randomGene draws) = _
        rw [h.rescaled.costs, List.mapM_map]
        exact congrArg (fun f => List.mapM f p.costs)
          (funext fun row => randomGene_inUnits unit row draws)
      have hgenes : Gives (p.reference.model.costs.mapM (randomGene draws))
          (Available p.reference.model) := randomGenes_gives h.choosable
      unfold Plain.randomPopulation Evaluator.randomIndividuals Plain.randomIndividual
        Evaluator.randomIndividual
      rw [hmapped, bind_assoc, bind_assoc]
      refine ((DrawsOnly.mapM randomGene_drawsOnly p.costs).also hgenes).bind
        fun genes genes' hgenes => ?_
      rcases hgenes with ⟨rfl, hgenes⟩
      rw [pure_bind]
      refine h.prepare hgenes rfl fun y hy => ?_
      refine ih.bind fun xs ys hxs => Follows.pure ?_
      rw [hy.2]
      exact hxs.cons hy.1

/-- Both runs begin with the same method vectors. -/
theorem SameRun.firstPopulation :
    Follows SameDrawn
      (do
        let rest ← p.randomPopulation draws (p.config.population - 1)
        return p.repair p.cheapest :: rest)
      (p'.reference.firstPopulation config draws)
      (fun xs ys => Shows p p' xs ys ∧ xs ≠ []) := by
  have hcheapest : Available p.model (p.costs.map cheapestGene) :=
    List.forall₂_map_right_iff.2 (List.forall₂_same.2 fun row hrow =>
      cheapestGene_available (h.choosable row hrow))
  unfold Evaluator.firstPopulation Evaluator.cheapest
  refine h.prepare hcheapest h.cheapest_genes fun y hy => ?_
  rw [h.config.population]
  refine (h.randomPopulation _).bind fun xs ys hxs => Follows.pure ⟨?_, List.cons_ne_nil _ _⟩
  rw [hy.2]
  exact hxs.cons hy.1

omit h in
/-- A run is its first population and the generations. -/
theorem history_eq {ev : Evaluator ℚ} : ev.history config draws =
    ev.firstPopulation config draws >>= fun population =>
      ev.generationsFrom config draws config.generations population >>= fun later =>
        pure (population :: later) := by
  unfold Evaluator.history Evaluator.firstPopulation
  simp only [bind_assoc, pure_bind]

/-- The runs show each other from the first population to the last. -/
theorem SameRun.history (haligned : p'.reference.aligned config draws = true)
    {history' : History ℚ} {s' : Tally}
    (hrun' : p'.reference.history config draws {} = .ok history' s')
    (halike : ∀ population ∈ history'.dropLast, OrderedAlike p population) :
    ∃ history s, p.history draws {} = .ok history s ∧
      List.Forall₂ (Shows p p') history history' := by
  rcases h.firstPopulation.run (rfl : SameDrawn {} {}) with
    ⟨xs, ys, t, t', hfirst, hfirst', ⟨hshows, hne⟩, ht⟩
  unfold Evaluator.aligned at haligned
  rw [hfirst'] at haligned
  rw [history_eq, bind_of_ok hfirst'] at hrun'
  cases hlater' : p'.reference.generationsFrom config draws config.generations ys t' with
  | error e r =>
      change EStateM.bind _ _ t' = _ at hrun'
      unfold EStateM.bind at hrun'
      rw [hlater'] at hrun'
      cases hrun'
  | ok later' r =>
      rw [bind_of_ok hlater'] at hrun'
      cases hrun'
      rcases h.generations config.generations hshows hne ht haligned hlater' halike with
        ⟨later, s, hlater, hlaters⟩
      refine ⟨xs :: later, s, ?_, .cons hshows hlaters⟩
      have hsplit : p.history draws = (do
          let rest ← p.randomPopulation draws (p.config.population - 1)
          return p.repair p.cheapest :: rest) >>= fun population =>
            p.generations draws p.config.generations population >>= fun later =>
              pure (population :: later) := by
        unfold Plain.history
        simp only [bind_assoc, pure_bind]
      rw [hsplit, bind_of_ok hfirst, ← h.config.generations, bind_of_ok hlater]
      rfl

/-- The best member of the plaintext run shows the best one of the other. -/
theorem SameRun.best {history : History Int} {history' : History ℚ}
    (hhistory : List.Forall₂ (Shows p p') history history') {best : Scalable.Individual ℚ}
    (hmem : best ∈ history'.flatten) (hfeasible : best.feasible = true)
    (hleast : ∀ y ∈ history'.flatten, y.feasible = true → order y best = false) :
    p.Proper (p.bestOf history) ∧ best = p'.plaintext (p.bestOf history).genes := by
  have hproper : ∀ x ∈ history.flatten, p.Proper x := by
    intro x hx
    rcases List.mem_flatten.1 hx with ⟨xs, hxs, hx⟩
    rcases mem_right_of_forall₂ hhistory.flip hxs with ⟨ys, _, hshows⟩
    exact hshows.proper x hx
  have hshown : ∀ x ∈ history.flatten, p'.plaintext x.genes ∈ history'.flatten := by
    intro x hx
    rcases List.mem_flatten.1 hx with ⟨xs, hxs, hx⟩
    rcases mem_right_of_forall₂ hhistory.flip hxs with ⟨ys, hys, hshows⟩
    refine List.mem_flatten.2 ⟨ys, hys, ?_⟩
    rw [hshows.eq]
    exact List.mem_map_of_mem hx
  have hfeasibleEq : ∀ x ∈ history.flatten, (p'.plaintext x.genes).feasible = x.feasible := by
    intro x hx
    rw [plaintext_feasible, (hproper x hx).feasible_eq, ← (hproper x hx).sums_eq]
    exact h.rescaled.isFeasible x.genes
  -- The member behind the best one of the plaintext run.
  rcases List.mem_flatten.1 hmem with ⟨ys, hys, hbest⟩
  rcases mem_right_of_forall₂ hhistory hys with ⟨xs, hxs, hshows⟩
  rw [hshows.eq] at hbest
  rcases List.mem_map.1 hbest with ⟨x, hx, rfl⟩
  have hxmem : x ∈ history.flatten := List.mem_flatten.2 ⟨xs, hxs, hx⟩
  rw [hfeasibleEq x hxmem] at hfeasible
  rcases bestOf_least (List.ne_nil_of_mem hxmem) hproper with ⟨hbestMem, hbestLeast⟩
  have hbestProper := hproper _ hbestMem
  have hbestFeasible : (p.bestOf history).feasible = true := by
    by_contra hinfeasible
    rw [Bool.not_eq_true] at hinfeasible
    have hfirst := hbestLeast x hxmem
    unfold order at hfirst
    rw [hfeasible, hinfeasible] at hfirst
    cases hfirst
  have hlast := hleast _ (hshown _ hbestMem) ((hfeasibleEq _ hbestMem).trans hbestFeasible)
  have hchoosable := h.rescaled.choosable h.choosable
  have hnonneg := (h.rescaled.positive h.positive).nonNegative
  rw [order_plaintext h.rescaled.scale_pos' hchoosable hnonneg
    (h.rescaled.available.2 hbestProper.available)
    (h.rescaled.available.2 (hproper x hxmem).available)] at hlast
  have hfeasible' : (p.individual (p.bestOf history).genes).feasible = true := by
    rwa [hbestProper.individual]
  rw [h.rescaled.order_feasible (Or.inl hfeasible'), hbestProper.individual,
    (hproper x hxmem).individual] at hlast
  have heq : p.bestOf history = x := by
    refine ranks.injective hbestProper (hproper x hxmem) (le_antisymm ?_ ?_)
    · exact (ranks.before_eq_false_iff (hproper x hxmem) hbestProper).1 (hbestLeast x hxmem)
    · exact (ranks.before_eq_false_iff hbestProper (hproper x hxmem)).1 hlast
  exact ⟨hbestProper, by rw [heq]⟩

/-- In one unit every population is ordered alike. -/
theorem SameRun.orderedAlike (hunit : unit = 1) {population : List (Scalable.Individual ℚ)}
    (hmembers : ∀ y ∈ population, p'.reference.Consistent y) : OrderedAlike p population := by
  subst hunit
  have hplaintext : ∀ y ∈ population, y = p'.plaintext y.genes := by
    intro y hy
    rw [← (hmembers y hy).evaluated]
    exact p'.reference.evaluate_congr rfl
  intro y hy z hz
  rw [hplaintext y hy, hplaintext z hz, plaintext_genes, plaintext_genes,
    order_plaintext h.rescaled.scale_pos' (h.rescaled.choosable h.choosable)
      (h.rescaled.positive h.positive).nonNegative (hmembers y hy).available
      (hmembers z hz).available, h.rescaled.order_sameUnit]

end Plain

/-! ## The optimizers -/

/-- The plaintext optimizer's model, as an instance of its own. -/
def modelOf (config : ConfidentialScalableOptimizerConfig) (model : Model) : Plain :=
  ⟨model.costs, model.scale, model.threshold, config⟩

/-- The plaintext optimizer is given the same request and configuration: its costs are those of the
request, counted in a unit of its own. -/
structure SameRequest (p : Plain) (plain : GeneticSolverConfig ℚ) (model : Model) (unit : Int) :
    Prop where
  unit_pos : 0 < unit
  costs : model.costs = p.costs.map (rowInUnits unit)
  threshold : model.threshold * p.scale = p.threshold * model.scale
  config : Plain.SameConfig p.config plain

theorem encode_model {input : CostMatrix} {threshold : Bytes} {model : Model}
    (hmodel : Scalable.encode input threshold = .ok model) :
    model.maxTotal = (model.costs.map rowMax).sum ∧ model.scale = kScale := by
  rcases bind_eq_ok.1 hmodel with ⟨_, _, h⟩
  rcases bind_eq_ok.1 h with ⟨_, _, h⟩
  rcases bind_eq_ok.1 h with ⟨_, _, h⟩
  rcases bind_eq_ok.1 h with ⟨_, _, h⟩
  rcases bind_eq_ok.1 h with ⟨_, _, h⟩
  cases h
  exact ⟨rfl, rfl⟩

theorem evaluatorOf_eq {config : ConfidentialScalableOptimizerConfig}
    {plain : GeneticSolverConfig ℚ} (hconfig : Plain.SameConfig config plain) {model : Model}
    (hmaximum : model.maxTotal = (model.costs.map rowMax).sum) :
    evaluatorOf exact plain model = (modelOf config model).reference := by
  unfold evaluatorOf Plain.reference modelOf
  rw [hconfig.penalty, ← hmaximum]

/-- Where every draw of a tournament denotes the same member before and after the sort, and both
optimizers order the members alike, which they do in one unit, PEGA returns the solution and the
total of the plaintext optimizer, and goes through its populations. -/
theorem optimize_agrees {σ C : Type} [CiphertextLike C] {D : C → Int → Prop} {I : σ → Prop}
    {ops : SecureOps σ C} (h : ExactOps ops D (fun _ => True) (fun _ => True) I)
    {config : ConfidentialScalableOptimizerConfig} {request : EncryptedOptimizationRequest C}
    (haccepted : validate ops.domain config request = .ok ⟨⟩) (hdefault : config.repairRounds = 0)
    {rows : List (CostRow Int)} (hcosts : List.Forall₂ (RowHolds D) request.costs rows)
    (hpositive : (plainOf ops.domain config request rows).Positive)
    {plain : GeneticSolverConfig ℚ} {input : CostMatrix} {threshold : Bytes} {model : Model}
    (hmodel : Scalable.encode input threshold = .ok model) {unit : Int}
    (hsame : SameRequest (plainOf ops.domain config request rows) plain model unit)
    (factors : Factors) (draws : Nat → UInt64)
    (haligned : (evaluatorOf exact plain model).aligned plain draws = true)
    (halike : unit = 1 ∨ ∀ history tally,
      (evaluatorOf exact plain model).history plain draws {} = .ok history tally →
      ∀ population ∈ history.dropLast,
        (plainOf ops.domain config request rows).OrderedAlike population)
    {result : ScalableOptimizationResult}
    (hresult : Scalable.optimize exact plain draws input threshold = .ok result) :
    ∀ s, I s → ∃ logged s' genes total,
      ConfidentialScalableOptimizer.optimizeLogged ops config factors draws request s =
        .ok logged s' ∧
      GenesHold D logged.1.1.chromosome genes ∧ result.solution = genes.map methodNumber ∧
      D logged.1.1.totalCost total ∧ result.total = unit * total ∧
      ∃ history tally,
        (evaluatorOf exact plain model).history plain draws {} = .ok history tally ∧
        List.Forall₂ (List.Forall₂ fun value y => GenesHold D value.genes y.genes)
          logged.1.2 history := by
  intro s hs
  let p := plainOf ops.domain config request rows
  have haccepted' := validate_ok haccepted
  rcases haccepted'.capacity rows with ⟨bound, hcapacity⟩
  rcases encode_model hmodel with ⟨hmaximum, hscale⟩
  have hnonempty : p.costs ≠ [] := by
    intro hnil
    have hlength : request.costs.length = rows.length := hcosts.length_eq
    have hrows : rows = [] := hnil
    rw [hrows] at hlength
    exact haccepted'.nonempty (List.length_eq_zero_iff.1 hlength)
  have hrun : p.SameRun (modelOf config model) unit plain :=
    { rescaled :=
        { costs := hsame.costs
          threshold := hsame.threshold
          config := rfl
          unit_pos := hsame.unit_pos
          scale_pos := lt_of_le_of_lt haccepted'.threshold.1 haccepted'.threshold.2
          scale_pos' := by
            change 0 < model.scale
            rw [hscale]
            decide }
      positive := hpositive
      nonempty := hnonempty
      choosable := haccepted'.choosable_plain hcosts
      rounds := hdefault
      elitism := haccepted'.elitism.1
      tournament := haccepted'.tournament
      config := hsame.config }
  have hevaluator : evaluatorOf exact plain model = (modelOf config model).reference :=
    evaluatorOf_eq hsame.config hmaximum
  have hchecked : checkConfig exact plain = .ok ⟨⟩ := by
    rcases bind_eq_ok.1 hresult with ⟨_, hchecked, _⟩
    exact hchecked
  -- The run of the plaintext optimizer.
  rcases optimize_ends draws hchecked hmodel with
    ⟨history', tally', hhistory', _, hmembers, _, hends⟩
  rcases hends.returns result hresult with
    ⟨_, best, hbest, hfeasible, hsolution, htotal, _, hleast⟩
  have hordered : ∀ population ∈ history'.dropLast, p.OrderedAlike population := by
    intro population hpopulation
    rcases halike with hunit | halike
    · refine hrun.orderedAlike hunit fun y hy => ?_
      rw [← hevaluator]
      exact (hmembers population (List.mem_of_mem_dropLast hpopulation)).2 y hy
    · exact halike history' tally' hhistory' population hpopulation
  rw [hevaluator] at haligned hhistory' ⊢
  rcases hrun.history haligned hhistory' hordered with ⟨history, tally, hhistory, hshown⟩
  rcases hrun.best hshown hbest hfeasible hleast with ⟨hproper, heq⟩
  -- The run of PEGA.
  rcases (optimizeLogged_yields h (fun _ _ => trivial) haccepted hcosts hcapacity factors
    draws).returns hs with ⟨logged, s', hok, ⟨_, _, hplain, hholds⟩, _⟩
  rw [hhistory] at hplain
  cases hplain
  refine ⟨logged, s', (p.bestOf history).genes, (p.bestOf history).total, hok, hholds.chromosome,
    ?_, hholds.totals.total, ?_, history', tally', hhistory', ?_⟩
  · rw [hsolution, heq, Plain.plaintext_genes]
  · have hsums := (hrun.rescaled.sums (p.bestOf history).genes).total
    rw [htotal, heq, ← hproper.sums_eq, ← hsums]
    exact congrArg Scalable.Sums.total (Plain.plaintext_sums _)
  · refine (comp_rel hholds.populations hshown).imp fun population ys hpopulation => ?_
    rcases hpopulation with ⟨xs, hpopulation, hshows⟩
    rw [hshows.eq, List.forall₂_map_right_iff]
    exact hpopulation.members.imp fun _ _ hvalue => hvalue.holds.genes

/-! ### Two rows in the clear -/

/-- A result that passes a check has been returned. -/
theorem ok_of_check {ε α : Type} {q : α → Prop} [DecidablePred q] {x : Except ε α}
    (hcheck : (match x with
      | .ok a => decide (q a)
      | .error _ => false) = true) : ∃ a, x = .ok a ∧ q a := by
  cases x with
  | ok a => exact ⟨a, rfl, of_decide_eq_true hcheck⟩
  | error e => cases hcheck

theorem returns_of_check {ε σ α : Type} {q : α → Prop} [DecidablePred q]
    {x : EStateM.Result ε σ α}
    (hcheck : (match x with
      | .ok a _ => decide (q a)
      | .error _ _ => false) = true) : ∃ a s, x = .ok a s ∧ q a := by
  cases x with
  | ok a s => exact ⟨a, s, rfl, of_decide_eq_true hcheck⟩
  | error e s => cases hcheck

def slotRows : List (CostRow Int) :=
  [![some 5, some 3, some 4], ![some 2, some 2, some 3]]

/-- The same costs as decimal strings. -/
def slotCosts : CostMatrix :=
  [![some [53], some [51], some [52]], ![some [50], some [50], some [51]]]

/-- `0.5` -/
def slotThreshold : Bytes :=
  [48, 46, 53]

def slotModel : Model where
  costs := [![some 5000000, some 3000000, some 4000000],
    ![some 2000000, some 2000000, some 3000000]]
  threshold := 500000
  maxTotal := 8000000

def slotDomain : NumericDomain :=
  ⟨100, 64, 8, 16, 28, 56⟩

def slotConfig : ConfidentialScalableOptimizerConfig where
  population := 2
  generations := 1
  elitism := 1
  tournamentSize := 1
  crossoverRate := ⟨true, fun _ => false⟩
  mutationRate := ⟨true, fun _ => true⟩

def slotPlain : GeneticSolverConfig ℚ where
  population := 2
  generations := 1
  elitism := 1
  tournamentSize := 1
  crossoverRate := ⟨true, fun _ => false⟩
  mutationRate := ⟨true, fun _ => true⟩
  infeasiblePenaltyMultiplier := 1

/-- The first outputs of `std::mt19937_64` for the seed 0. -/
def slotDraws (drawn : Nat) : UInt64 :=
  [2947667278772165694, 18301848765998365067, 729919693006235833, 11021831128136023278,
    10003392056472839596, 1054412044467431918, 11649642299870863663, 7813497161378842344,
    15536964167022953318].getD drawn 0

theorem slot_accepted :
    validate slotDomain slotConfig (clearRequest slotRows 50 "two-rows") = .ok ⟨⟩ := by
  decide +kernel

theorem slot_model : Scalable.encode slotCosts slotThreshold = .ok slotModel := rfl

theorem slot_costs : slotModel.costs = slotRows.map (rowInUnits kScale) := by
  have hrow : ∀ x y z : Int, (![some (kScale * x), some (kScale * y), some (kScale * z)] :
      CostRow Int) = rowInUnits kScale ![some x, some y, some z] := by
    intro x y z
    funext m
    match m with
    | 0 => rfl
    | 1 => rfl
    | 2 => rfl
  exact congrArg₂ (fun first second => [first, second]) (hrow 5 3 4) (hrow 2 2 3)

theorem slot_same : SameRequest
    (plainOf slotDomain slotConfig (clearRequest slotRows 50 "two-rows") slotRows) slotPlain
    slotModel kScale where
  unit_pos := by decide
  costs := slot_costs
  threshold := rfl
  config := ⟨rfl, rfl, rfl, rfl, rfl, rfl, rfl⟩

/-- The tournament draws the second member.  The plaintext optimizer has sorted the random
individual to the front, PEGA has not, and the mutations lead to different children. -/
theorem optimize_slots :
    (∃ result, Scalable.optimize exact slotPlain slotDraws slotCosts slotThreshold = .ok result ∧
      result.solution = [2, 3] ∧ result.total = 6 * kScale) ∧
    ∃ logged s', ConfidentialScalableOptimizer.optimizeLogged (clearOps slotDomain) slotConfig
        ⟨fun _ _ => 1, fun _ _ => 1⟩ slotDraws (clearRequest slotRows 50 "two-rows") PUnit.unit =
          .ok logged s' ∧
      logged.1.1.chromosome.map (fun gene => [gene 0, gene 1, gene 2]) =
        [[some 1, some 0, some 0], [some 0, some 0, some 1]] ∧
      logged.1.1.totalCost = some 8 := by
  exact ⟨ok_of_check (by decide +kernel), returns_of_check (by decide +kernel)⟩

/-- With other draws the tournament takes the first member of both lists. -/
theorem optimize_agrees_slots :
    ∃ logged s' genes, ConfidentialScalableOptimizer.optimizeLogged (clearOps slotDomain) slotConfig
        ⟨fun _ _ => 1, fun _ _ => 1⟩ (fun _ => 1) (clearRequest slotRows 50 "two-rows")
          PUnit.unit = .ok logged s' ∧
      GenesHold (fun c x => c = some x) logged.1.1.chromosome genes ∧
      genes.map methodNumber = [2, 3] := by
  have hresult : ∃ result, Scalable.optimize exact slotPlain (fun _ => 1) slotCosts slotThreshold =
      .ok result ∧ result.solution = [2, 3] :=
    ok_of_check (by decide +kernel)
  rcases hresult with ⟨result, hresult, hsolution⟩
  have hpositive : (plainOf slotDomain slotConfig (clearRequest slotRows 50 "two-rows")
      slotRows).Positive := by
    unfold Plain.Positive
    decide
  have haligned :
      (evaluatorOf exact slotPlain slotModel).aligned slotPlain (fun _ => 1) = true := by
    decide +kernel
  have halike : ∃ history tally, (evaluatorOf exact slotPlain slotModel).history slotPlain
      (fun _ => 1) {} = .ok history tally ∧ ∀ population ∈ history.dropLast,
        (plainOf slotDomain slotConfig (clearRequest slotRows 50 "two-rows")
          slotRows).OrderedAlike population :=
    returns_of_check (by decide +kernel)
  rcases halike with ⟨history, tally, hhistory, halike⟩
  rcases optimize_agrees (clearOps_exact slotDomain _ _) slot_accepted rfl
    (clearRequest_holds slotRows 50 "two-rows") hpositive slot_model slot_same
    ⟨fun _ _ => 1, fun _ _ => 1⟩ (fun _ => 1) haligned
    (Or.inr fun history' tally' hhistory' => by
      rw [hhistory] at hhistory'
      cases hhistory'
      exact halike) hresult PUnit.unit trivial with
    ⟨logged, s', genes, total, hok, hgenes, heq, _⟩
  exact ⟨logged, s', genes, hok, hgenes, heq.symm.trans hsolution⟩

end Optimization
end SociSgx

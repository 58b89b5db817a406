import SociSgx.Scalable.Order

/-!
# Search — what a run of the genetic search keeps

Every member of every population is consistent, whatever is drawn.  The best individual is kept
apart from the populations; it is a least feasible member of all of them.
-/

namespace SociSgx
namespace Optimization
namespace Scalable

open Exec

/-- A computation of a run that returns, whatever has been counted and drawn. -/
abbrev Gives {α : Type} (m : RunM α) (R : α → Prop) : Prop :=
  Yields (fun _ => True) m R Never

theorem rng_gives (draws : Nat → UInt64) : Gives (rng draws) fun _ => True :=
  fun _ _ => ⟨trivial, trivial⟩

theorem index_gives (draws : Nat → UInt64) {size : Nat} (h : 0 < size) :
    Gives (index draws size) (· < size) :=
  (rng_gives draws).bind fun _ _ => Yields.pure (Nat.mod_lt _ h)

theorem modify_gives (f : Tally → Tally) : Gives (modify f) fun _ => True :=
  fun _ _ => ⟨trivial, trivial⟩

theorem getD_mem {α : Type} {l : List α} {i : Nat} (h : i < l.length) (fallback : α) :
    l.getD i fallback ∈ l := by
  rw [List.getD_eq_getElem?_getD, List.getElem?_eq_getElem h]
  exact List.getElem_mem h

/-- A method at an index of the row is available. -/
theorem available_getD {row : CostRow Int} {i : Nat}
    (h : i < ((options row).map Choice.method).length) :
    (row (((options row).map Choice.method).getD i 0)).isSome = true := by
  rcases List.mem_map.1 (getD_mem h 0) with ⟨c, hc, hmethod⟩
  rw [← hmethod, mem_options.1 hc]
  rfl

namespace Evaluator

variable {F : Type} [LinearOrder F] {ev : Evaluator F} {draws : Nat → UInt64}

/-! ## Individuals -/

theorem prepare_gives {x : Individual F} (hx : Available ev.model x.genes) :
    Gives (ev.prepare x) ev.Consistent := by
  unfold prepare
  refine (modify_gives _).bind fun _ _ => ?_
  split
  · exact (modify_gives _).bind fun _ _ => Yields.pure (.ofGenes hx)
  · refine (modify_gives _).bind fun _ _ => ?_
    have hevaluated : Available ev.model (ev.evaluate x).genes := hx
    have hrepaired := (repair_spec hevaluated).1
    have hresult : Gives (pure (ev.evaluate (ev.repair (ev.evaluate x)).1)) ev.Consistent :=
      Yields.pure (.ofGenes hrepaired.available)
    dsimp only
    split
    · exact (modify_gives _).bind fun _ _ => hresult
    · exact hresult

theorem randomGene_gives {row : CostRow Int} (h : options row ≠ []) :
    Gives (randomGene draws row) fun method => (row method).isSome = true :=
  (index_gives draws (List.length_pos_of_ne_nil h)).bind fun _ hi =>
    Yields.pure (available_getD (by rwa [List.length_map]))

/-- The rows have methods to choose from. -/
abbrev Choosable (ev : Evaluator F) : Prop :=
  ∀ row ∈ ev.model.costs, options row ≠ []

omit [LinearOrder F] in
theorem randomGenes_gives (h : Choosable ev) :
    Gives (ev.model.costs.mapM (randomGene draws)) (Available ev.model) := by
  have hrows : List.Forall₂ (fun row row' => row = row' ∧ options row ≠ []) ev.model.costs
      ev.model.costs := List.forall₂_same.2 fun row hrow => ⟨rfl, h row hrow⟩
  refine (Yields.mapM (S := fun method (row : CostRow Int) => (row method).isSome = true) hrows
    fun row row' _ _ hrow => ?_).post fun genes hgenes => hgenes.flip
  rcases hrow with ⟨rfl, hrow⟩
  exact randomGene_gives hrow

theorem randomIndividual_gives (h : Choosable ev) :
    Gives (ev.randomIndividual draws) ev.Consistent :=
  (randomGenes_gives h).bind fun _ hgenes => prepare_gives hgenes

theorem cheapestGene_available {row : CostRow Int} (h : options row ≠ []) :
    (row (cheapestGene row)).isSome = true := by
  suffices hmem : (options row).tail.foldl (fun (least : Choice Int) c =>
      if c.cost < least.cost then c else least) ((options row).headD ⟨0, 0⟩) ∈ options row by
    rw [cheapestGene, mem_options.1 hmem]
    rfl
  cases hrow : options row with
  | nil => exact absurd hrow h
  | cons first rest =>
      refine List.foldlRecOn (motive := (· ∈ first :: rest)) _ _ (by simp) ?_
      intro least hleast c hc
      split
      · exact List.mem_cons_of_mem _ hc
      · exact hleast

theorem cheapest_gives (h : Choosable ev) : Gives ev.cheapest ev.Consistent := by
  refine prepare_gives ?_
  exact List.forall₂_map_right_iff.2 (List.forall₂_same.2 fun row hrow =>
    cheapestGene_available (h row hrow))

/-! ## A generation -/

/-- All members of a population are consistent, and there is one. -/
structure Populated (ev : Evaluator F) (population : List (Individual F)) : Prop where
  nonempty : population ≠ []
  consistent : ∀ x ∈ population, ev.Consistent x

omit [LinearOrder F] in
theorem Populated.index_gives {population : List (Individual F)} (h : ev.Populated population)
    (fallback : Individual F) :
    Gives (index draws population.length) fun i => ev.Consistent (population.getD i fallback) :=
  Yields.post (Scalable.index_gives draws (List.length_pos_of_ne_nil h.nonempty))
    fun _ hi => h.consistent _ (getD_mem hi fallback)

theorem selectRounds_gives {population : List (Individual F)} (h : ev.Populated population)
    (rounds : Nat) : ∀ {winner : Individual F}, ev.Consistent winner →
      Gives (selectRounds draws population rounds winner) ev.Consistent := by
  induction rounds with
  | zero => exact fun hwinner => Yields.pure hwinner
  | succ rounds ih =>
      intro winner hwinner
      refine (h.index_gives winner).bind fun i hchallenger => ih ?_
      split
      · exact hchallenger
      · exact hwinner

theorem select_gives {population : List (Individual F)} (h : ev.Populated population)
    (tournamentSize : Nat) :
    Gives (ev.select draws tournamentSize population) ev.Consistent :=
  (h.index_gives _).bind fun _ hwinner => selectRounds_gives h _ hwinner

omit [LinearOrder F] in
theorem crossover_gives {rate : Rate} {genes other : List Method}
    (hgenes : Available ev.model genes) (hother : Available ev.model other) :
    Gives (crossover draws rate genes other) (Available ev.model) := by
  refine (rng_gives draws).bind fun draw _ => ?_
  split
  · have hpairs : List.Forall₂ (fun (pair : Method × Method) (row : CostRow Int) =>
        (row pair.1).isSome = true ∧ (row pair.2).isSome = true) (genes.zip other)
        ev.model.costs := by
      unfold Available at hgenes hother
      generalize ev.model.costs = rows at hgenes hother ⊢
      induction hgenes generalizing other with
      | nil => exact List.Forall₂.nil
      | cons hgene _ ih =>
          cases hother with
          | cons hother hrest => exact List.Forall₂.cons ⟨hgene, hother⟩ (ih hrest)
    refine (Yields.mapM (S := fun method (row : CostRow Int) => (row method).isSome = true) hpairs
      fun pair row _ _ hpair => ?_).post fun _ hresult => hresult.flip
    refine (rng_gives draws).bind fun draw _ => Yields.pure ?_
    split
    · exact hpair.2
    · exact hpair.1
  · exact Yields.pure hgenes

theorem mutateGene_gives {rate : Rate} {row : CostRow Int} {gene : Method}
    (hgene : (row gene).isSome = true) :
    Gives (mutateGene draws rate row gene) fun method => (row method).isSome = true := by
  refine (rng_gives draws).bind fun draw _ => ?_
  dsimp only
  split
  · rename_i hmutates
    have hpos : 0 < ((options row).map Choice.method).length := by omega
    refine (index_gives draws hpos).bind fun i hi => ?_
    split
    · exact Yields.pure (available_getD (Nat.mod_lt _ hpos))
    · exact Yields.pure (available_getD hi)
  · exact Yields.pure hgene

omit [LinearOrder F] in
theorem mutate_gives {rate : Rate} {genes : List Method} (h : Available ev.model genes) :
    Gives (ev.mutate draws rate genes) (Available ev.model) := by
  have hitems : List.Forall₂ (fun (item : CostRow Int × Method) (row : CostRow Int) =>
      item.1 = row ∧ (row item.2).isSome = true) (ev.model.costs.zip genes) ev.model.costs := by
    unfold Available at h
    generalize ev.model.costs = rows at h ⊢
    induction h with
    | nil => exact List.Forall₂.nil
    | cons hgene _ ih => exact List.Forall₂.cons ⟨rfl, hgene⟩ ih
  refine (Yields.mapM (S := fun method (row : CostRow Int) => (row method).isSome = true) hitems
    fun item row _ _ hitem => ?_).post fun _ hresult => hresult.flip
  rcases hitem with ⟨rfl, hgene⟩
  exact mutateGene_gives hgene

theorem child_gives (config : GeneticSolverConfig F) {population : List (Individual F)}
    (h : ev.Populated population) : Gives (ev.child config draws population) ev.Consistent := by
  refine (select_gives h _).bind fun child hchild => ?_
  refine (select_gives h _).bind fun other hother => ?_
  refine (crossover_gives hchild.available hother.available).bind fun genes hgenes => ?_
  exact (mutate_gives hgenes).bind fun genes hgenes => prepare_gives hgenes

/-- A list of consistent individuals of a given length. -/
abbrev Members (ev : Evaluator F) (count : Nat) (xs : List (Individual F)) : Prop :=
  xs.length = count ∧ ∀ x ∈ xs, ev.Consistent x

omit [LinearOrder F] in
theorem Members.cons {count : Nat} {x : Individual F} {xs : List (Individual F)}
    (hx : ev.Consistent x) (h : ev.Members count xs) : ev.Members (count + 1) (x :: xs) := by
  refine ⟨by rw [List.length_cons, h.1], ?_⟩
  rintro y (_ | ⟨_, hy⟩)
  · exact hx
  · exact h.2 y hy

theorem childrenOf_gives (config : GeneticSolverConfig F) {population : List (Individual F)}
    (h : ev.Populated population) (count : Nat) :
    Gives (ev.childrenOf config draws population count) (ev.Members count) := by
  induction count with
  | zero => exact Yields.pure ⟨rfl, by simp⟩
  | succ count ih =>
      refine (child_gives config h).bind fun x hx => ?_
      exact ih.bind fun rest hrest => Yields.pure (hrest.cons hx)

theorem randomIndividuals_gives (h : Choosable ev) (count : Nat) :
    Gives (ev.randomIndividuals draws count) (ev.Members count) := by
  induction count with
  | zero => exact Yields.pure ⟨rfl, by simp⟩
  | succ count ih =>
      refine (randomIndividual_gives h).bind fun x hx => ?_
      exact ih.bind fun rest hrest => Yields.pure (hrest.cons hx)

theorem mem_sorted {population : List (Individual F)} {x : Individual F} :
    x ∈ sorted population ↔ x ∈ population :=
  (List.perm_insertionSort _ population).mem_iff

theorem nextPopulation_gives {config : GeneticSolverConfig F}
    (helitism : config.elitism < config.population) {population : List (Individual F)}
    (h : ev.Members config.population population) :
    Gives (ev.nextPopulation config draws population) (ev.Members config.population) := by
  have hlength : (sorted population).length = config.population :=
    (List.length_insertionSort _ population).trans h.1
  have hordered : ev.Populated (sorted population) := by
    refine ⟨List.ne_nil_of_length_pos (by omega), fun x hx => h.2 x (mem_sorted.1 hx)⟩
  refine (childrenOf_gives config hordered _).bind fun next hnext => Yields.pure ⟨?_, ?_⟩
  · rw [List.length_append, hnext.1, List.length_take, hlength]
    omega
  · intro x hx
    rcases List.mem_append.1 hx with hx | hx
    · exact hordered.consistent x (List.mem_of_mem_take hx)
    · exact hnext.2 x hx

theorem generationsFrom_gives {config : GeneticSolverConfig F}
    (helitism : config.elitism < config.population) (count : Nat) :
    ∀ {population : List (Individual F)}, ev.Members config.population population →
      Gives (ev.generationsFrom config draws count population) fun history =>
        history.length = count ∧ ∀ next ∈ history, ev.Members config.population next := by
  induction count with
  | zero => exact fun _ => Yields.pure ⟨rfl, by simp⟩
  | succ count ih =>
      intro population h
      refine (nextPopulation_gives helitism h).bind fun next hnext => ?_
      refine (ih hnext).bind fun rest hrest => Yields.pure ⟨by rw [List.length_cons, hrest.1], ?_⟩
      rintro other (_ | ⟨_, hother⟩)
      · exact hnext
      · exact hrest.2 other hother

/-- Every population of a run has the size of the configuration and consistent members. -/
theorem history_gives {config : GeneticSolverConfig F} (hrows : Choosable ev)
    (helitism : config.elitism < config.population) :
    Gives (ev.history config draws) fun history => history.length = config.generations + 1 ∧
      ∀ population ∈ history, ev.Members config.population population := by
  refine (cheapest_gives hrows).bind fun first hfirst => ?_
  refine (randomIndividuals_gives hrows _).bind fun rest hrest => ?_
  have hpopulation := hrest.cons hfirst
  rw [Nat.sub_add_cancel (by omega)] at hpopulation
  refine (generationsFrom_gives helitism _ hpopulation).bind fun later hlater =>
    Yields.pure ⟨by rw [List.length_cons, hlater.1], ?_⟩
  rintro population (_ | ⟨_, hmem⟩)
  · exact hpopulation
  · exact hlater.2 population hmem

/-! ## The best individual -/

/-- `best` is a least feasible member of what has been seen, if there is one. -/
def Retains (seen : List (Individual F)) : Best F → Prop
  | none => ∀ x ∈ seen, x.feasible = false
  | some (best, _) => best ∈ seen ∧ best.feasible = true ∧
      ∀ x ∈ seen, x.feasible = true → order x best = false

/-- One round of the loop of `retain_best`. -/
theorem retains_round {seen : List (Individual F)} (hseen : ∀ x ∈ seen, ev.Consistent x)
    {best : Best F} (h : Retains seen best) {x : Individual F} (hx : ev.Consistent x)
    (generation : Nat) : Retains (seen ++ [x]) (retainBest generation [x] best) := by
  unfold retainBest
  rw [List.foldl_cons, List.foldl_nil]
  cases best with
  | none =>
      cases hfeasible : x.feasible
      · intro y hy
        rcases List.mem_append.1 hy with hy | hy
        · exact h y hy
        · rw [List.mem_singleton.1 hy, hfeasible]
      · refine ⟨by simp, hfeasible, fun y hy hyf => ?_⟩
        rcases List.mem_append.1 hy with hy | hy
        · exact absurd (h y hy) (by rw [hyf]; decide)
        · rw [List.mem_singleton.1 hy]
          exact (hx.order_false_iff).2 le_rfl
  | some found =>
      rcases found with ⟨best, old⟩
      rcases h with ⟨hmem, hbest, hleast⟩
      have hconsistent := hseen best hmem
      dsimp only
      split
      -- The new one is feasible and before the best, hence before all of them.
      · rename_i hwins
        rw [Bool.and_eq_true] at hwins
        have hless := hconsistent.order_iff.1 hwins.2
        refine ⟨by simp, hwins.1, fun y hy hyf => hx.order_false_iff.2 ?_⟩
        rcases List.mem_append.1 hy with hy | hy
        · exact hless.le.trans (hconsistent.order_false_iff.1 (hleast y hy hyf))
        · rw [List.mem_singleton.1 hy]
      · rename_i hloses
        refine ⟨List.mem_append_left _ hmem, hbest, fun y hy hyf => ?_⟩
        rcases List.mem_append.1 hy with hy | hy
        · exact hleast y hy hyf
        · rw [List.mem_singleton.1 hy] at hyf ⊢
          simpa [hyf] using hloses

theorem retains_retainBest {population : List (Individual F)}
    (hpopulation : ∀ x ∈ population, ev.Consistent x) (generation : Nat) :
    ∀ {seen : List (Individual F)} {best : Best F}, (∀ x ∈ seen, ev.Consistent x) →
      Retains seen best → Retains (seen ++ population) (retainBest generation population best) := by
  induction population with
  | nil =>
      intro seen best _ h
      rwa [List.append_nil]
  | cons x population ih =>
      intro seen best hseen h
      have hx := hpopulation x (by simp)
      have hround := retains_round hseen h hx generation
      have hnow : ∀ y ∈ seen ++ [x], ev.Consistent y := by
        intro y hy
        rcases List.mem_append.1 hy with hy | hy
        · exact hseen y hy
        · rw [List.mem_singleton.1 hy]
          exact hx
      have hrest := ih (fun y hy => hpopulation y (by simp [hy])) hnow hround
      rwa [List.append_assoc, List.singleton_append] at hrest

/-- Costs that are defined stay defined and do not increase. -/
def Continues (a b : Option Int) : Prop :=
  ∀ x, a = some x → ∃ y, b = some y ∧ y ≤ x

def cost (best : Best F) : Option Int :=
  best.map fun found => found.1.total

theorem retains_continues {seen later : List (Individual F)} {best next : Best F}
    (hlater : ∀ x ∈ seen ++ later, ev.Consistent x) (h : Retains seen best)
    (hnext : Retains (seen ++ later) next) : Continues (cost best) (cost next) := by
  intro x hx
  rcases Option.map_eq_some_iff.1 hx with ⟨⟨old, generation⟩, rfl, rfl⟩
  rcases h with ⟨hmem, hfeasible, _⟩
  have hstill := List.mem_append_left later hmem
  cases next with
  | none => exact absurd (hnext old hstill) (by rw [hfeasible]; decide)
  | some found =>
      rcases found with ⟨new, newGeneration⟩
      rcases hnext with ⟨hnew, hnewFeasible, hleast⟩
      have hle := (hlater new hnew).order_false_iff.1 (hleast old hstill hfeasible)
      exact ⟨new.total, rfl, total_le_of_rank_le hnewFeasible hfeasible hle⟩

/-- The best of the whole history, and its costs on the way. -/
theorem retained_spec {history : History F} : ∀ {seen : List (Individual F)} {best : Best F}
    (generation : Nat), (∀ x ∈ seen ++ history.flatten, ev.Consistent x) → Retains seen best →
    Retains (seen ++ history.flatten) (retained generation history best).2 ∧
      (cost best :: (retained generation history best).1).IsChain Continues := by
  induction history with
  | nil =>
      intro seen best generation _ h
      refine ⟨?_, .singleton _⟩
      rwa [List.flatten_nil, List.append_nil]
  | cons population history ih =>
      intro seen best generation hall h
      rw [List.flatten_cons, ← List.append_assoc] at hall ⊢
      have hnow : ∀ x ∈ seen ++ population, ev.Consistent x :=
        fun x hx => hall x (List.mem_append_left _ hx)
      have hstep := retains_retainBest (fun x hx => hnow x (List.mem_append_right _ hx)) generation
        (fun x hx => hnow x (List.mem_append_left _ hx)) h
      have hrest := ih (generation + 1) hall hstep
      exact ⟨hrest.1, .cons_cons (retains_continues hnow h hstep) hrest.2⟩

theorem retained_length {history : History F} : ∀ (generation : Nat) (best : Best F),
    (retained generation history best).1.length = history.length := by
  induction history with
  | nil => exact fun _ _ => rfl
  | cons population history ih =>
      intro generation best
      exact congrArg (· + 1) (ih _ _)

end Evaluator

/-! ## The run -/

open Evaluator

/-- A model that `encode` has made. -/
theorem encode_choosable {F : Type} [LinearOrder F] {input : CostMatrix} {threshold : Bytes}
    {model : Model} (h : encode input threshold = .ok model) (arithmetic : LongDouble F)
    (config : GeneticSolverConfig F) : Choosable (evaluatorOf arithmetic config model) := by
  rcases bind_eq_ok.1 h with ⟨_, _, h⟩
  rcases bind_eq_ok.1 h with ⟨_, _, h⟩
  rcases bind_eq_ok.1 h with ⟨costs, hcosts, h⟩
  rcases bind_eq_ok.1 h with ⟨_, _, h⟩
  rcases bind_eq_ok.1 h with ⟨_, _, h⟩
  cases h
  intro row hrow
  rcases mem_right_of_forall₂ (mapM_eq_ok hcosts) hrow with ⟨source, _, hencoded⟩
  exact (encodeRow_ok hencoded).1

section Runs

variable {F : Type} [LinearOrder F]

/-- The exception of a run without a feasible individual. -/
def noFeasible : Error :=
  .optimization .noFeasibleSolution "GA found no feasible assignment"

/-- How `optimize` ends, by the populations that it has gone through. -/
structure Ends (history : History F) (outcome : Except Error ScalableOptimizationResult) :
    Prop where
  returns : ∀ result, outcome = .ok result →
    result.convergence = (retained 0 history none).1 ∧
    ∃ best ∈ history.flatten, best.feasible = true ∧
      result.solution = best.genes.map methodNumber ∧ result.total = best.total ∧
      result.c12 = best.c12 ∧
      ∀ x ∈ history.flatten, x.feasible = true → order x best = false
  throws : outcome = .error noFeasible ↔ ∀ x ∈ history.flatten, x.feasible = false
  otherwise : (∃ result, outcome = .ok result) ∨ outcome = .error noFeasible

theorem report_ends {history : History F} {last : List (Individual F)} {tally : Tally}
    (h : Retains history.flatten (retained 0 history none).2) :
    Ends history (report (retained 0 history none).2 last tally (retained 0 history none).1) := by
  cases hbest : (retained 0 history none).2 with
  | none =>
      rw [hbest] at h
      refine ⟨fun _ hresult => (by cases hresult), ?_, Or.inr rfl⟩
      exact ⟨fun _ => h, fun _ => rfl⟩
  | some found =>
      rcases found with ⟨best, generation⟩
      rw [hbest] at h
      rcases h with ⟨hmem, hfeasible, hleast⟩
      refine ⟨?_, ?_, Or.inl ⟨_, rfl⟩⟩
      · intro result hresult
        cases hresult
        exact ⟨rfl, best, hmem, hfeasible, rfl, rfl, rfl, hleast⟩
      · constructor
        · intro hthrows
          cases hthrows
        · intro hno
          rw [hno best hmem] at hfeasible
          cases hfeasible

/-- After the populations of the run, `optimize` reports. -/
theorem optimize_eq {arithmetic : LongDouble F} {config : GeneticSolverConfig F}
    {draws : Nat → UInt64} {input : CostMatrix} {threshold : Bytes} {model : Model}
    (hconfig : checkConfig arithmetic config = .ok ⟨⟩)
    (hmodel : encode input threshold = .ok model) {history : History F} {tally : Tally}
    (hrun : (evaluatorOf arithmetic config model).history config draws {} = .ok history tally) :
    optimize arithmetic config draws input threshold =
      report (retained 0 history none).2 (history.getLastD []) tally
        (retained 0 history none).1 := by
  have hsearch : search arithmetic config draws model {} =
      (lift (report (retained 0 history none).2 (history.getLastD []) tally
        (retained 0 history none).1) >>= fun result => pure (result, history) :
          RunM (ScalableOptimizationResult × History F)) tally := by
    unfold search
    rw [bind_of_ok hrun]
    rfl
  unfold optimize
  rw [ok_bind hconfig, ok_bind hmodel, hsearch]
  cases report (retained 0 history none).2 (history.getLastD []) tally
      (retained 0 history none).1 <;> rfl

/-- `optimize` ends as the populations of its run tell. -/
theorem optimize_ends {arithmetic : LongDouble F} {config : GeneticSolverConfig F}
    (draws : Nat → UInt64) {input : CostMatrix} {threshold : Bytes} {model : Model}
    (hconfig : checkConfig arithmetic config = .ok ⟨⟩)
    (hmodel : encode input threshold = .ok model) :
    ∃ history tally,
      (evaluatorOf arithmetic config model).history config draws {} = .ok history tally ∧
      history.length = config.generations + 1 ∧
      (∀ population ∈ history,
        (evaluatorOf arithmetic config model).Members config.population population) ∧
      (retained 0 history none).1.IsChain Continues ∧
      Ends history (optimize arithmetic config draws input threshold) := by
  have hvalid := ensure_eq_ok.1 hconfig
  have hrows := encode_choosable hmodel arithmetic config
  have hgives : Gives ((evaluatorOf arithmetic config model).history config draws) _ :=
    history_gives hrows hvalid.2.2.2.1
  rcases hgives.returns trivial with ⟨history, tally, hrun, ⟨hlength, hmembers⟩, _⟩
  have hall : ∀ x ∈ history.flatten, (evaluatorOf arithmetic config model).Consistent x := by
    intro x hx
    rcases List.mem_flatten.1 hx with ⟨population, hpopulation, hmem⟩
    exact (hmembers population hpopulation).2 x hmem
  have hstart : Retains ([] : List (Individual F)) none := by
    intro x hx
    cases hx
  have hretained := retained_spec 0 hall hstart
  refine ⟨history, tally, hrun, hlength, hmembers, hretained.2.of_cons, ?_⟩
  rw [optimize_eq hconfig hmodel hrun]
  exact report_ends hretained.1

/-- The invariants of a run, from the first population to the last. -/
theorem optimize_invariants (arithmetic : LongDouble F) (config : GeneticSolverConfig F)
    (draws : Nat → UInt64) {input : CostMatrix} {threshold : Bytes} {model : Model}
    (hconfig : checkConfig arithmetic config = .ok ⟨⟩)
    (hmodel : encode input threshold = .ok model) :
    ∃ history tally,
      (evaluatorOf arithmetic config model).history config draws {} = .ok history tally ∧
      history.length = config.generations + 1 ∧
      (∀ population ∈ history, population.length = config.population ∧
        ∀ x ∈ population, Available model x.genes ∧
          x.toSums = ⟨total (choices model x.genes), c12 (choices model x.genes),
            c3 (choices model x.genes),
            linear model.scale model.threshold (choices model x.genes)⟩) ∧
      (retained 0 history none).1.length = config.generations + 1 ∧
      (retained 0 history none).1.IsChain Continues ∧
      Ends history (optimize arithmetic config draws input threshold) := by
  rcases optimize_ends draws hconfig hmodel with
    ⟨history, tally, hrun, hlength, hmembers, hchain, hends⟩
  refine ⟨history, tally, hrun, hlength, ?_, ?_, hchain, hends⟩
  · intro population hpopulation
    refine ⟨(hmembers population hpopulation).1, fun x hx => ?_⟩
    have hx := (hmembers population hpopulation).2 x hx
    have hsums := (evaluatorOf arithmetic config model).evaluate_sums x
    rw [hx.evaluated] at hsums
    exact ⟨hx.available, hsums⟩
  · rw [retained_length, hlength]

end Runs

/-- Two members, one of them drawn. -/
def twoMembers : GeneticSolverConfig ℚ where
  population := 2
  generations := 1
  elitism := 1
  tournamentSize := 1
  crossoverRate := ⟨true, fun _ => true⟩
  mutationRate := ⟨true, fun _ => false⟩
  infeasiblePenaltyMultiplier := 1

/-- Two materials, of which the first has no method 2 and the second no method 3. -/
def twoMaterials : CostMatrix :=
  [![some [51], none, some [50]], ![some [49], some [52], none]]

theorem optimize_invariants_twoMembers : ∃ (history : History ℚ) (result : _),
    optimize exact twoMembers (fun _ => 0) twoMaterials [48, 46, 49] = .ok result ∧
      result.solution = [3, 1] ∧ Ends history (.ok result) := by
  have hmodel : encode twoMaterials [48, 46, 49] =
      .ok { costs := [![some 3000000, none, some 2000000], ![some 1000000, some 4000000, none]]
            threshold := 100000
            maxTotal := 7000000 } := rfl
  have hsolution : (optimize exact twoMembers (fun _ => 0) twoMaterials
      [48, 46, 49]).toOption.map ScalableOptimizationResult.solution = some [3, 1] := by
    decide +kernel
  rcases optimize_invariants exact twoMembers (fun _ => 0) (ensure_eq_ok.2 (by decide)) hmodel with
    ⟨history, _, _, _, _, _, _, hends⟩
  rcases hends.otherwise with ⟨result, hrun⟩ | hthrows
  · rw [hrun] at hsolution hends
    exact ⟨history, result, hrun, Option.some.inj hsolution, hends⟩
  · rw [hthrows] at hsolution
    cases hsolution

end Scalable
end Optimization
end SociSgx

import SociSgx.Optimizer.EngineSession

/-!
# Optimality — the encrypted solver returns the optimal assignment

Over an exact backend, with an authorizer that allows everything and a resolver that tells the
truth, `solve` reports the optimal assignment of `Assignment.lean` and its sums.  The one way in
which it can fail is that one of its 64-bit operation counters wraps around.
-/

namespace SociSgx
namespace Optimization

open Exec Secure Secure.PredicateEngine BranchBound

variable {σ C : Type} [CiphertextLike C]

/-- The search on plain integers. -/
def plainRun (bound : CostBound) (scale threshold : Int) (rows : List (CostRow Int)) :
    Log (Choice Int) :=
  explore options (bound.decisions scale threshold) rows [] {}

/-- The PRUNE evaluations of a search: every visited node but the leaves. -/
def pruneEvaluations (log : Log (Choice Int)) : Nat :=
  log.visited.length - log.candidates.length

def acceptEvaluations (log : Log (Choice Int)) : Nat :=
  log.candidates.length

/-- The result says whether there is a feasible assignment, and if so which one is optimal. -/
structure ReportsOptimum (D : C → Int → Prop) (scale threshold : Int)
    (rows : List (CostRow Int)) (result : EncryptedBranchAndBoundResult C) : Prop where
  feasible : result.feasible = true ↔
    ∃ leaf, IsAssignment rows leaf ∧ Feasible scale threshold leaf
  optimal : result.feasible = true → ∃ leaf, IsOptimal scale threshold rows leaf ∧
    result.solution = reportPath leaf ∧ D result.totalCost (total leaf) ∧
    D result.c12 (c12 leaf) ∧ D result.c3 (c3 leaf) ∧
    D result.linear (linear scale threshold leaf)
  infeasible : result.feasible = false → result.solution = []

/-- Nothing but the admission of the operands is asked of a backend that is exact everywhere. -/
theorem operandsFit_everywhere (bound : CostBound) (scale threshold : Int)
    (rows : List (CostRow Int)) :
    OperandsFit (fun _ => True) (fun _ => True) bound scale threshold rows where
  bits := ⟨trivial, trivial⟩
  contributions := fun _ _ _ _ _ _ => ⟨trivial, trivial⟩
  scores := fun _ _ _ _ _ _ _ _ => ⟨trivial, trivial⟩
  uppers := fun _ _ _ _ _ => trivial
  lowers := fun _ _ _ _ _ _ _ => trivial
  results := fun _ _ => ⟨trivial, trivial, trivial, trivial, trivial⟩
  batch := fun _ _ _ => trivial

/-- Truthful answers make the run of the search the plain one. -/
theorem explores_eq_plainRun {bound : CostBound} {scale threshold : Int}
    {rows : List (CostRow Int)} {log : Log (Choice Int)}
    (h : Explores options (answers Eq bound scale threshold) rows [] {} log) :
    log = plainRun bound scale threshold rows := by
  rw [answers_eq, explores_answers_iff] at h
  exact h

/-- What the local variables hold after the search is what `finish` reports. -/
theorem finish_reports {D : C → Int → Prop} {grid : Option LagrangianGrid}
    {scale threshold : Int} {rows : List (CostRow Int)} {p : Nat} {s : Search C}
    (hvalid : (boundOf grid).Valid)
    (h : SearchHolds D grid scale threshold rows
      (plainRun (boundOf grid) scale threshold rows) p s) :
    ReportsOptimum D scale threshold rows (EncryptedBranchAndBoundSolver.finish s) := by
  have hoptimal := CostBound.explore_optimal scale threshold hvalid rows
  have hfeasible := h.hasIncumbent
  cases hinc : (plainRun (boundOf grid) scale threshold rows).incumbent with
  | none =>
      rw [hinc] at hfeasible
      rw [plainRun] at hinc
      rw [hinc] at hoptimal
      have hno : s.hasIncumbent = false := hfeasible
      refine ⟨?_, ?_, ?_⟩
      · simp only [EncryptedBranchAndBoundSolver.finish, hno]
        constructor
        · intro hfalse
          exact absurd hfalse (by simp)
        · rintro ⟨leaf, hleaf, hfeas⟩
          exact absurd hfeas (hoptimal leaf hleaf)
      · intro hyes
        simp [EncryptedBranchAndBoundSolver.finish, hno] at hyes
      · intro _
        simp [EncryptedBranchAndBoundSolver.finish, hno]
  | some leaf =>
      have hholds := h.incumbent leaf hinc
      rw [hinc] at hfeasible
      rw [plainRun] at hinc
      rw [hinc] at hoptimal
      have hyes : s.hasIncumbent = true := hfeasible
      refine ⟨?_, ?_, ?_⟩
      · simp only [EncryptedBranchAndBoundSolver.finish, hyes, if_true, true_iff]
        exact ⟨leaf, hoptimal.assignment, hoptimal.feasible⟩
      · intro _
        simp only [EncryptedBranchAndBoundSolver.finish, hyes, if_true]
        exact ⟨leaf, hoptimal, hholds.solution, hholds.sums.total, hholds.sums.c12,
          hholds.sums.c3, hholds.sums.linear⟩
      · intro hno
        simp [EncryptedBranchAndBoundSolver.finish, hyes] at hno

/-- A counter wraps around only if the plain search asks its predicate more than `2^64` times. -/
theorem failsAt_counters {bound : CostBound} {scale threshold : Int}
    {rows : List (CostRow Int)} {J : σ → Prop} {err : Error} {s : σ}
    (h : FailsAt Eq (SessionFails J Never) bound scale threshold rows [] {} err s) :
    2 ^ 64 < pruneEvaluations (plainRun bound scale threshold rows) ∨
      2 ^ 64 < acceptEvaluations (plainRun bound scale threshold rows) := by
  rcases h with ⟨mid, below, p, hreaches, hcount, ⟨hwrap, _, _⟩ | hnever⟩
  · rw [answers_eq] at hreaches
    have hgrows := reaches_grows (by simp [CostBound.decisions]) rows hreaches
    cases below with
    | nil =>
        have haccept := hgrows.1 rfl
        have hwrap' : 2 ^ 64 ≤ mid.candidates.length := hwrap
        exact Or.inr (by unfold acceptEvaluations plainRun; omega)
    | cons row rest =>
        have hinner := (hgrows.2 (by simp)).inner
        have hwrap' : 2 ^ 64 ≤ p := hwrap
        exact Or.inl (by unfold pruneEvaluations plainRun; omega)
  · exact hnever.elim

/-- `solve` does not throw and reports the optimum, as long as neither predicate is evaluated more
than `2^64` times. -/
theorem solve_optimal {e : PredicateEngine σ C} {D : C → Int → Prop} {J : σ → Prop}
    (h : Parties e D (fun _ => True) (fun _ => True) J Eq Never)
    {config : EncryptedBranchAndBoundConfig} {request : EncryptedOptimizationRequest C}
    {grid : Option LagrangianGrid} (hcheck : checkRequest e.ops.domain config request = .ok grid)
    {rows : List (CostRow Int)} (hcosts : List.Forall₂ (RowHolds D) request.costs rows)
    {world : EngineWorld σ} (hworld : J world.1) (hunused : Unused request.sessionId world.2)
    (hprunes : pruneEvaluations (plainRun (boundOf grid) e.ops.domain.scale
      request.thresholdScaled rows) ≤ 2 ^ 64)
    (haccepts : acceptEvaluations (plainRun (boundOf grid) e.ops.domain.scale
      request.thresholdScaled rows) ≤ 2 ^ 64) :
    ∃ result world', (engineSolver e config).solve request world = .ok result world' ∧
      ReportsOptimum D e.ops.domain.scale request.thresholdScaled rows result := by
  have hspec := solve_spec h hcheck hcosts (operandsFit_everywhere _ _ _ _) hunused
  rcases hspec.run (s := world) ⟨hworld, rfl⟩ with
    ⟨result, world', hrun, s, log, rfl, hexplores, p, _, _, hsearch⟩ | ⟨err, world', _, hfail⟩
  · refine ⟨_, world', hrun, ?_⟩
    rw [explores_eq_plainRun hexplores] at hsearch
    exact finish_reports (checkRequest_valid hcheck) hsearch
  · rcases failsAt_counters hfail with hp | ha
    · exact absurd hp (not_lt.2 hprunes)
    · exact absurd ha (not_lt.2 haccepts)

/-- When a counter wraps around, the engine refuses the repeated operation. -/
theorem solve_wraps {e : PredicateEngine σ C} {D : C → Int → Prop} {J : σ → Prop}
    (h : Parties e D (fun _ => True) (fun _ => True) J Eq Never)
    {config : EncryptedBranchAndBoundConfig} {request : EncryptedOptimizationRequest C}
    {grid : Option LagrangianGrid} (hcheck : checkRequest e.ops.domain config request = .ok grid)
    {rows : List (CostRow Int)} (hcosts : List.Forall₂ (RowHolds D) request.costs rows)
    {world : EngineWorld σ} (hworld : J world.1) (hunused : Unused request.sessionId world.2)
    (hwraps : 2 ^ 64 < pruneEvaluations (plainRun (boundOf grid) e.ops.domain.scale
        request.thresholdScaled rows) ∨
      2 ^ 64 < acceptEvaluations (plainRun (boundOf grid) e.ops.domain.scale
        request.thresholdScaled rows)) :
    ∃ world', (engineSolver e config).solve request world =
      .error (Error.predicate "predicate operation replayed") world' := by
  have hspec := solve_spec h hcheck hcosts (operandsFit_everywhere _ _ _ _) hunused
  rcases hspec.run (s := world) ⟨hworld, rfl⟩ with
    ⟨result, world', _, s, log, _, hexplores, p, hcount, ⟨_, hconsumed⟩, _⟩ |
    ⟨err, world', hrun, mid, below, p, _, _, ⟨_, rfl, _⟩ | hnever⟩
  · have hbound := hconsumed.bound
    rw [explores_eq_plainRun hexplores] at hbound hcount
    unfold pruneEvaluations acceptEvaluations at hwraps
    omega
  · exact ⟨world', hrun⟩
  · exact hnever.elim

theorem checkRequest_twoRows : checkRequest (clearEngine ⟨100, 4, 8, 16, 32, 32⟩).ops.domain {}
    (clearRequest [![some 3, none, some 2], ![some 1, some 4, none]] 20 "two-rows") =
      .ok none := rfl

/-- Two rows, the second without method 3: the optimum takes method 3 first. -/
theorem solve_optimal_twoRows :
    ∃ result world', (engineSolver (clearEngine ⟨100, 4, 8, 16, 32, 32⟩) {}).solve
        (clearRequest [![some 3, none, some 2], ![some 1, some 4, none]] 20 "two-rows")
        ((), []) = .ok result world' ∧
      ReportsOptimum (fun c x => c = some x) 100 20
        [![some 3, none, some 2], ![some 1, some 4, none]] result :=
  solve_optimal (clearEngine_parties _ _ _) checkRequest_twoRows
    (clearRequest_holds _ 20 "two-rows")
    trivial (fun _ h => absurd h (by simp)) (by decide) (by decide)

/-! ## The counters do wrap around -/

/-- A row whose three methods cost nothing. -/
def freeRow : CostRow Int := fun _ => some 0

theorem options_freeRow : options freeRow = [⟨0, 0⟩, ⟨1, 0⟩, ⟨2, 0⟩] := rfl

theorem sumOf_free (f : Choice Int → Int) (hf : ∀ m, f ⟨m, 0⟩ = 0) {path : List (Choice Int)}
    (hpath : ∀ c ∈ path, c.cost = 0) : sumOf f path = 0 := by
  induction path with
  | nil => rfl
  | cons c path ih =>
      rcases c with ⟨m, cost⟩
      have hcost : cost = 0 := hpath ⟨m, cost⟩ (by simp)
      subst hcost
      rw [sumOf_cons, hf, ih fun d hd => hpath d (by simp [hd])]
      rfl

/-- Nothing is cut and nothing is accepted when nothing costs anything. -/
theorem explore_free (n : Nat) : ∀ {path : List (Choice Int)} {log : Log (Choice Int)},
    (∀ c ∈ path, c.cost = 0) → log.incumbent = none →
    (explore options (CostBound.currentSuffix.decisions 100 0) (List.replicate n freeRow) path
        log).incumbent = none ∧
      (explore options (CostBound.currentSuffix.decisions 100 0) (List.replicate n freeRow) path
        log).candidates.length = log.candidates.length + 3 ^ n := by
  induction n with
  | zero =>
      intro path log hpath hinc
      have hprune : (CostBound.currentSuffix.decisions 100 0).prune log.incumbent path [] = false :=
        rfl
      -- Nothing costs anything, so no third method contributes and the leaf does not qualify.
      have haccept : (CostBound.currentSuffix.decisions 100 0).accept log.incumbent path =
          false := by
        rw [Bool.eq_false_iff]
        intro h
        have hc3 : c3 path = 0 := sumOf_free _ (by simp) hpath
        have hpos := (CostBound.accept_iff.1 h).1.2
        omega
      rw [List.replicate_zero, explore, hprune, haccept]
      refine ⟨?_, ?_⟩
      · simpa [Log.candidate, Log.incumbent, Log.visit] using hinc
      · simp [Log.candidate, Log.visit]
  | succ n ih =>
      intro path log hpath hinc
      have hprune : (CostBound.currentSuffix.decisions 100 0).prune log.incumbent path
          (freeRow :: List.replicate n freeRow) = false := by
        rw [Bool.eq_false_iff]
        intro h
        -- The upper bound of the linear sum is zero, and there is no incumbent.
        rcases (CostBound.prune_iff.1 h).2 with hneg | ⟨b, hb, _⟩
        · have hlinear : linear 100 0 path = 0 := sumOf_free _ (by simp [contribution]) hpath
          have hrow : rowBest max (contribution 100 0) freeRow = 0 := by decide
          have hsuffix : ∀ k, suffix max (contribution 100 0) (List.replicate k freeRow) = 0 := by
            intro k
            induction k with
            | zero => rfl
            | succ k ihk => rw [List.replicate_succ, suffix_cons, hrow, ihk]; rfl
          have hupper := hsuffix (n + 1)
          rw [List.replicate_succ] at hupper
          omega
        · rw [hinc] at hb
          cases hb
      have hchild : ∀ m, ∀ c ∈ path ++ [(⟨m, 0⟩ : Choice Int)], c.cost = 0 := by
        intro m c hc
        rcases List.mem_append.1 hc with hc | hc
        · exact hpath c hc
        · rw [List.mem_singleton.1 hc]
      rw [List.replicate_succ, explore, hprune, options_freeRow]
      have hvisit : (log.visit path).incumbent = none := hinc
      have h0 := ih (hchild 0) hvisit
      have h1 := ih (hchild 1) h0.1
      have h2 := ih (hchild 2) h1.1
      refine ⟨h2.1, ?_⟩
      simp only [Bool.false_eq_true, if_false, List.foldl_cons, List.foldl_nil]
      rw [h2.2, h1.2, h0.2]
      simp only [Log.visit]
      ring

def freeRows : List (CostRow Int) := List.replicate 64 freeRow

def freeDomain : NumericDomain := ⟨100, 64, 8, 16, 32, 32⟩

theorem checkRequest_freeRows : checkRequest (clearEngine freeDomain).ops.domain {}
    (clearRequest freeRows 0 "free") = .ok none := rfl

theorem candidates_freeRows :
    2 ^ 64 < (plainRun .currentSuffix 100 0 freeRows).candidates.length := by
  have hempty : ∀ c ∈ ([] : List (Choice Int)), c.cost = 0 := by simp
  have hcount := (explore_free 64 hempty (show Log.incumbent {} = none from rfl)).2
  have hplain : (plainRun .currentSuffix 100 0 freeRows).candidates.length = 3 ^ 64 := by
    rw [plainRun, freeRows, hcount]
    simp
  rw [hplain]
  norm_num

/-- With 64 free rows the ACCEPT counter wraps around: the request is admitted, the backend is exact
and the parties are truthful, and `solve` throws. -/
theorem solve_freeRows_throws :
    checkRequest (clearEngine freeDomain).ops.domain {} (clearRequest freeRows 0 "free") =
      .ok none ∧
      Parties (clearEngine freeDomain) (fun c x => c = some x) (fun _ => True) (fun _ => True)
        (fun _ => True) Eq Never ∧
      ∃ world', (engineSolver (clearEngine freeDomain) {}).solve (clearRequest freeRows 0 "free")
        ((), []) = .error (Error.predicate "predicate operation replayed") world' := by
  have hparties := clearEngine_parties freeDomain (fun _ => True) (fun _ => True)
  refine ⟨checkRequest_freeRows, hparties, ?_⟩
  exact solve_wraps hparties checkRequest_freeRows (clearRequest_holds freeRows 0 "free") trivial
    (fun _ h => absurd h List.not_mem_nil) (Or.inr candidates_freeRows)

end Optimization
end SociSgx

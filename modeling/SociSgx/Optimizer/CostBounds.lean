import SociSgx.Optimizer.Optimality

/-!
# CostBounds — the two bound modes search the same leaves

With truthful predicates the Lagrangian search accepts the leaves that the suffix search accepts, in
the same order, and visits no node that the suffix search does not visit.
-/

namespace SociSgx
namespace Optimization

open Exec Secure BranchBound

variable {W C : Type} [CiphertextLike C]

/-- Predicates that always answer with the truth. -/
structure Truthful (predicates : Predicates W C) (D : C → Int → Prop) (J : W → Prop) : Prop where
  pruneNode : ∀ context {inputs : PruneInputs C} {v : PruneInputs Int}, inputs.Holds D v →
    Yields J (predicates.pruneNode context inputs) (Eq v.holds) Never
  acceptCandidate : ∀ context {inputs : AcceptInputs C} {v : AcceptInputs Int},
    inputs.Holds D v → Yields J (predicates.acceptCandidate context inputs) (Eq v.holds) Never

section Runs

variable {solver : EncryptedBranchAndBoundSolver W C} {D : C → Int → Prop} {J : W → Prop}
  {request : EncryptedOptimizationRequest C} {grid : Option LagrangianGrid}
  {rows : List (CostRow Int)}

omit [CiphertextLike C] in
theorem Truthful.contract {predicates : Predicates W C} (h : Truthful predicates D J)
    (sessionId : Bytes) :
    PredicateContract predicates D (fun _ => True) (fun _ => True) sessionId Eq (fun _ _ => J)
      (fun _ _ _ => Never) where
  pruneNode := fun _ _ _ _ _ _ hin _ => h.pruneNode _ hin
  acceptCandidate := fun _ _ _ _ _ _ hin _ => h.acceptCandidate _ hin

/-- With truthful predicates the search returns, and it has done what the plain search does. -/
theorem search_truthful (solver : EncryptedBranchAndBoundSolver W C)
    (hops : ExactOps solver.ops D (fun _ => True) (fun _ => True) J)
    (hpredicates : Truthful solver.predicates D J)
    (hcheck : checkRequest solver.ops.domain solver.config request = .ok grid)
    (hcosts : List.Forall₂ (RowHolds D) request.costs rows) {w : W} (hw : J w) :
    ∃ s w' p, solver.search request w = .ok s w' ∧
      SearchHolds D grid solver.ops.domain.scale request.thresholdScaled rows
        (plainRun (boundOf grid) solver.ops.domain.scale request.thresholdScaled rows) p s := by
  have hsetting : Setting solver D (fun _ => True) (fun _ => True) request.sessionId Eq
      (fun _ _ => J) (fun _ _ _ => Never) grid solver.ops.domain.scale request.thresholdScaled
      rows :=
    ⟨fun _ _ => hops, hpredicates.contract _, operandsFit_everywhere _ _ _ _,
      (checkRequest_valid hcheck).nonempty⟩
  rcases (search_spec hcheck hcosts hsetting).run (s := w) hw with
    ⟨s, w', hrun, log, hexplores, p, _, _, hsearch⟩ | ⟨_, _, _, _, _, _, _, _, hnever⟩
  · rw [explores_eq_plainRun hexplores] at hsearch
    exact ⟨s, w', p, hrun, hsearch⟩
  · exact hnever.elim

omit [CiphertextLike C] in
theorem solve_of_search [CiphertextLike C] {s : Search C} {w w' : W}
    (h : solver.search request w = .ok s w') :
    solver.solve request w = .ok (EncryptedBranchAndBoundSolver.finish s) w' := by
  change EStateM.map EncryptedBranchAndBoundSolver.finish (solver.search request) w = _
  rw [EStateM.map, h]

theorem finish_stats (s : Search C) :
    (EncryptedBranchAndBoundSolver.finish s).stats = s.stats := by
  cases h : s.hasIncumbent <;> simp [EncryptedBranchAndBoundSolver.finish, h]

end Runs

/-! ## The plain searches -/

section Plain

/-- Whether a leaf is accepted does not depend on the bound. -/
theorem decisions_accept (bound bound' : CostBound) (scale threshold : Int) :
    (bound.decisions scale threshold).accept = (bound'.decisions scale threshold).accept :=
  rfl

variable {scale threshold : Int} {rows : List (CostRow Int)}

/-- Both bounds are sound, so both searches accept what an enumeration accepts. -/
theorem plainRun_accepted {bound : CostBound} (hvalid : bound.Valid) :
    (plainRun bound scale threshold rows).accepted =
      (plainRun .currentSuffix scale threshold rows).accepted := by
  unfold plainRun
  rw [explore_accepted (CostBound.decisions_sound hvalid),
    explore_accepted (CostBound.decisions_sound CostBound.valid_currentSuffix),
    decisions_accept bound .currentSuffix]

theorem plainRun_visited {q : Int} {mu : List Int} (hvalid : (CostBound.lagrangian q mu).Valid)
    (hzero : 0 ∈ mu) :
    (plainRun (.lagrangian q mu) scale threshold rows).visited.Sublist
      (plainRun .currentSuffix scale threshold rows).visited := by
  have hmore : ∀ inc path rest,
      (CostBound.currentSuffix.decisions scale threshold).prune inc path rest = true →
        ((CostBound.lagrangian q mu).decisions scale threshold).prune inc path rest = true :=
    fun inc path rest hprune => CostBound.lagrangian_prunes hvalid.weight hzero hprune
  unfold plainRun
  exact visited_sublist (CostBound.decisions_sound hvalid)
    (CostBound.decisions_sound CostBound.valid_currentSuffix) (decisions_accept _ _ _ _) hmore
    rows [] {} {} rfl (List.Sublist.refl _)

theorem plainRun_zero {q : Int} (hq : 0 < q) :
    plainRun (.lagrangian q [0]) scale threshold rows =
      plainRun .currentSuffix scale threshold rows := by
  have haccept := decisions_accept (.lagrangian q [0]) .currentSuffix scale threshold
  unfold plainRun
  exact explore_congr (CostBound.lagrangian_zero_prune hq)
    (fun inc path => congrFun (congrFun haccept inc) path) rows [] {}

end Plain

/-! ## Predicates in the clear -/

def PruneInputs.clear (inputs : PruneInputs (Option Int)) : PruneInputs Int :=
  { linearUpper := inputs.linearUpper.getD 0
    costLowers := inputs.costLowers.map fun lower => lower.getD 0
    hasIncumbent := inputs.hasIncumbent
    incumbentCost := inputs.incumbentCost.getD 0 }

def AcceptInputs.clear (inputs : AcceptInputs (Option Int)) : AcceptInputs Int :=
  { linear := inputs.linear.getD 0
    c3 := inputs.c3.getD 0
    cost := inputs.cost.getD 0
    c12 := inputs.c12.getD 0
    hasIncumbent := inputs.hasIncumbent
    incumbentCost := inputs.incumbentCost.getD 0
    incumbentC12 := inputs.incumbentC12.getD 0 }

/-- Predicates that look at the plaintexts of a backend in the clear. -/
def clearPredicates : Predicates Unit (Option Int) :=
  { pruneNode := fun _ inputs => pure (PruneInputs.clear inputs).holds
    acceptCandidate := fun _ inputs => pure (AcceptInputs.clear inputs).holds }

theorem clearPredicates_truthful :
    Truthful clearPredicates (fun c x => c = some x) (fun _ => True) where
  pruneNode := by
    intro context inputs v hin
    refine Yields.pure ?_
    have hlowers : (PruneInputs.clear inputs).costLowers = v.costLowers := by
      have hcosts := hin.costLowers
      change inputs.costLowers.map _ = _
      generalize inputs.costLowers = cs at hcosts
      generalize v.costLowers = xs at hcosts
      induction hcosts with
      | nil => rfl
      | cons hc _ ih => rw [List.map_cons, hc, ih]; rfl
    have hupper : (PruneInputs.clear inputs).linearUpper = v.linearUpper := by
      simp [PruneInputs.clear, hin.linearUpper]
    have hinc : (PruneInputs.clear inputs).hasIncumbent = v.hasIncumbent := hin.hasIncumbent
    cases hv : v.hasIncumbent
    · simp [PruneInputs.holds, hinc, hupper, hv]
    · have hcost : (PruneInputs.clear inputs).incumbentCost = v.incumbentCost := by
        simp [PruneInputs.clear, hin.incumbentCost hv]
      simp [PruneInputs.holds, hinc, hupper, hv, hlowers, hcost]
  acceptCandidate := by
    intro context inputs v hin
    refine Yields.pure ?_
    cases hv : v.hasIncumbent
    · simp [AcceptInputs.holds, AcceptInputs.clear, hin.hasIncumbent, hin.linear, hin.c3, hv]
    · simp [AcceptInputs.holds, AcceptInputs.clear, hin.hasIncumbent, hin.linear, hin.c3,
        hin.cost, hin.c12, hin.incumbentCost hv, hin.incumbentC12 hv, hv]

/-! ## The encrypted searches -/

/-- The Lagrangian search accepts the same leaves in the same order and visits a subset of the
nodes; with the grid `{0}` the two searches are the same. -/
theorem lagrangian_follows_suffix {ops : SecureOps W C} {predicates : Predicates W C}
    {D : C → Int → Prop} {J : W → Prop}
    (hops : ExactOps ops D (fun _ => True) (fun _ => True) J)
    (hpredicates : Truthful predicates D J) {gridConfig : LagrangianGridConfig}
    {request : EncryptedOptimizationRequest C} {grid : LagrangianGrid}
    (hsuffix : checkRequest ops.domain ⟨.currentSuffix, gridConfig⟩ request = .ok none)
    (hlagrangian : checkRequest ops.domain ⟨.lagrangian, gridConfig⟩ request = .ok (some grid))
    {rows : List (CostRow Int)} (hcosts : List.Forall₂ (RowHolds D) request.costs rows)
    {v w : W} (hv : J v) (hw : J w) :
    ∃ s v' l w', EncryptedBranchAndBoundSolver.search ⟨ops, predicates, .currentSuffix, gridConfig⟩
          request v = .ok s v' ∧
      EncryptedBranchAndBoundSolver.search ⟨ops, predicates, .lagrangian, gridConfig⟩
          request w = .ok l w' ∧
      EncryptedBranchAndBoundSolver.solve ⟨ops, predicates, .currentSuffix, gridConfig⟩
          request v = .ok (EncryptedBranchAndBoundSolver.finish s) v' ∧
      EncryptedBranchAndBoundSolver.solve ⟨ops, predicates, .lagrangian, gridConfig⟩
          request w = .ok (EncryptedBranchAndBoundSolver.finish l) w' ∧
      l.trace.accepted = s.trace.accepted ∧
      (∀ node ∈ l.trace.visited, node ∈ s.trace.visited) ∧
      (grid.mu = [0] → l.trace.visited = s.trace.visited ∧ l.trace.pruned = s.trace.pruned ∧
        (EncryptedBranchAndBoundSolver.finish l).stats.visitedNodes =
          (EncryptedBranchAndBoundSolver.finish s).stats.visitedNodes ∧
        (EncryptedBranchAndBoundSolver.finish l).stats.prunedNodes =
          (EncryptedBranchAndBoundSolver.finish s).stats.prunedNodes ∧
        (EncryptedBranchAndBoundSolver.finish l).stats.candidateCount =
          (EncryptedBranchAndBoundSolver.finish s).stats.candidateCount) := by
  have hvalid := checkRequest_valid hlagrangian
  have hfacts : 0 ∈ grid.mu := by
    rcases (checkRequest_costs hlagrangian).2.2 with ⟨hno, _⟩ | ⟨g, _, hg, hbuild⟩
    · cases hno
    · cases hg
      exact (accepted_facts hbuild).1.zero
  -- Each encrypted search is its plain run, and the plain runs are compared.
  rcases search_truthful ⟨ops, predicates, .currentSuffix, gridConfig⟩ hops
    hpredicates hsuffix hcosts hv with ⟨s, v', _, hs, hsuffixRun⟩
  rcases search_truthful ⟨ops, predicates, .lagrangian, gridConfig⟩ hops
    hpredicates hlagrangian hcosts hw with ⟨l, w', _, hl, hlagrangianRun⟩
  refine ⟨s, v', l, w', hs, hl, solve_of_search hs, solve_of_search hl, ?_, ?_, ?_⟩
  · rw [hlagrangianRun.trace, hsuffixRun.trace]
    change List.map reportPath _ = List.map reportPath _
    rw [plainRun_accepted hvalid]
    rfl
  · rw [hlagrangianRun.trace, hsuffixRun.trace]
    intro node hnode
    exact ((plainRun_visited hvalid hfacts).map reportPath).subset hnode
  · intro hzero
    -- With the multiplier zero alone the two bounds are the same number at every node.
    have hsame : plainRun (boundOf (some grid)) ops.domain.scale request.thresholdScaled rows =
        plainRun (boundOf none) ops.domain.scale request.thresholdScaled rows := by
      change plainRun (.lagrangian grid.q grid.mu) _ _ _ = _
      rw [hzero]
      exact plainRun_zero hvalid.weight
    rw [hsame] at hlagrangianRun
    rw [finish_stats, finish_stats]
    refine ⟨?_, ?_, ?_, ?_, ?_⟩
    · rw [hlagrangianRun.trace, hsuffixRun.trace]
    · rw [hlagrangianRun.trace, hsuffixRun.trace]
    · rw [hlagrangianRun.visitedNodes, hsuffixRun.visitedNodes]
    · rw [hlagrangianRun.prunedNodes, hsuffixRun.prunedNodes]
    · rw [hlagrangianRun.candidateCount, hsuffixRun.candidateCount]

theorem checkRequest_suffix_twoRows :
    checkRequest (⟨100, 4, 8, 16, 32, 32⟩ : NumericDomain) ⟨.currentSuffix, {}⟩
      (clearRequest [![some 3, none, some 2], ![some 1, some 4, none]] 20 "two-rows") =
        .ok none := by
  decide +kernel

theorem checkRequest_lagrangian_twoRows :
    checkRequest (⟨100, 4, 8, 16, 32, 32⟩ : NumericDomain) ⟨.lagrangian, {}⟩
      (clearRequest [![some 3, none, some 2], ![some 1, some 4, none]] 20 "two-rows") =
        .ok (some ⟨100, 1, [0, 1, 3, 5, 8]⟩) := by
  decide +kernel

/-- Two rows with the default grid. -/
theorem lagrangian_follows_suffix_twoRows :
    ∃ s v' l w', EncryptedBranchAndBoundSolver.search
          ⟨clearOps ⟨100, 4, 8, 16, 32, 32⟩, clearPredicates, .currentSuffix, {}⟩
          (clearRequest [![some 3, none, some 2], ![some 1, some 4, none]] 20 "two-rows") () =
            .ok s v' ∧
      EncryptedBranchAndBoundSolver.search
          ⟨clearOps ⟨100, 4, 8, 16, 32, 32⟩, clearPredicates, .lagrangian, {}⟩
          (clearRequest [![some 3, none, some 2], ![some 1, some 4, none]] 20 "two-rows") () =
            .ok l w' ∧
      l.trace.accepted = s.trace.accepted := by
  rcases lagrangian_follows_suffix (clearOps_exact ⟨100, 4, 8, 16, 32, 32⟩ _ _)
      clearPredicates_truthful checkRequest_suffix_twoRows checkRequest_lagrangian_twoRows
      (clearRequest_holds [![some 3, none, some 2], ![some 1, some 4, none]] 20 "two-rows")
      (v := ()) (w := ()) trivial trivial with ⟨s, v', l, w', hs, hl, _, _, haccepted, _⟩
  exact ⟨s, v', l, w', hs, hl, haccepted⟩

end Optimization
end SociSgx

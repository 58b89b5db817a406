import SociSgx.Optimizer.CostBounds
import SociSgx.Optimizer.PlainSolver

/-!
# PlainOptimality — the reference solver, and why the encrypted solver agrees with it

A visit of the plain solver is a run of `explore`, so it ends with the first leaf of least
`nearestKey`.  Among feasible assignments of equal total the distance of the ratio to the threshold
grows with `C12`, so this leaf is also the optimum of the encrypted solver.
-/

namespace SociSgx
namespace Optimization

open Exec Secure BranchBound

/-! ## A visit is a run of the search -/

/-- The sums that `visit` gets for a path. -/
def sumsOf (threshold : Int) (path : List (Choice Int)) : Sums :=
  ⟨total path, c12 path, c3 path, linear kScale threshold path⟩

theorem child_sumsOf (threshold : Int) (path : List (Choice Int)) (c : Choice Int) :
    (sumsOf threshold path).child threshold c = sumsOf threshold (path ++ [c]) := by
  by_cases hmethod : c.method < 2
  · simp [sumsOf, Sums.child, total, c12, c3, linear, contribution, coefficient, hmethod]
  · have hneg : linear kScale threshold path - threshold * c.cost =
        linear kScale threshold path + -(threshold * c.cost) := by ring
    simpa [sumsOf, Sums.child, total, c12, c3, linear, contribution, coefficient, hmethod]
      using hneg

/-- The solver holds the incumbent of the log. -/
structure SolverHolds (model : Encoded) (log : Log (Choice Int)) (s : Solver) : Prop where
  fresh : log.incumbent = none → s.bestCost = int64Max ∧ s.best = []
  assignment : ∀ b, log.incumbent = some b → IsAssignment model.costs b
  feasible : ∀ b, log.incumbent = some b → Feasible kScale model.threshold b
  sums : ∀ b, log.incumbent = some b →
    s.bestCost = total b ∧ s.bestC12 = c12 b ∧ s.bestC3 = c3 b ∧ s.best = solutionOf b
  visitedNodes : s.visitedNodes = UInt64.ofNat log.visited.length

section Visit

variable {model : Encoded} (haccepted : model.Accepted) {log : Log (Choice Int)} {s : Solver}
  {done rest : List (CostRow Int)} {path : List (Choice Int)}

theorem SolverHolds.enter (h : SolverHolds model log s) (path : List (Choice Int)) :
    SolverHolds model (log.visit path) s.enter where
  fresh := h.fresh
  assignment := h.assignment
  feasible := h.feasible
  sums := h.sums
  visitedNodes := by
    change s.visitedNodes + 1 = _
    rw [h.visitedNodes, ofNat_succ]
    simp

include haccepted

/-- The sentinel tells whether there is an incumbent. -/
theorem cuts_eq (h : SolverHolds model log s) (path : List (Choice Int))
    (rest : List (CostRow Int)) :
    s.cuts (sumsOf model.threshold path) (suffix min Choice.cost rest)
        (suffix max (contribution kScale model.threshold) rest) =
      (nearestDecisions model.threshold).prune log.incumbent path rest := by
  cases hinc : log.incumbent with
  | none =>
      simp only [Solver.cuts, nearestDecisions, sumsOf, (h.fresh hinc).1, ne_eq, not_true_eq_false,
        false_and, decide_false, Option.any_none]
      rfl
  | some b =>
      have hne : total b ≠ int64Max := (haccepted.total_lt (h.assignment b hinc)).ne
      simp only [Solver.cuts, nearestDecisions, sumsOf, (h.sums b hinc).1, ne_eq, hne,
        not_false_eq_true, true_and, Option.any_some]
      rfl

/-- The comparison with the incumbent at a leaf. -/
theorem improves_iff (h : SolverHolds model log s) (hpath : IsAssignment model.costs path)
    (hfeasible : Feasible kScale model.threshold path) :
    (total path < s.bestCost ∨ (total path = s.bestCost ∧
        s.betterTie model.threshold (c12 path) (c3 path) (solutionOf path) = true)) ↔
      ∀ b, log.incumbent = some b →
        nearestKey model.threshold path < nearestKey model.threshold b := by
  cases hinc : log.incumbent with
  | none =>
      have hless : total path < s.bestCost := by
        rw [(h.fresh hinc).1]
        exact haccepted.total_lt hpath
      simp [hless]
  | some b =>
      rcases h.sums b hinc with ⟨hcost, hheld⟩
      have hb := h.feasible b hinc
      have htie := betterTie_iff hheld ⟨hfeasible.1, haccepted.total_pos hpath hfeasible⟩
        ⟨hb.1, haccepted.total_pos (h.assignment b hinc) hb⟩
      rw [hcost, htie]
      simp [nearestKey, Prod.Lex.toLex_lt_toLex]

/-- A leaf that the solver reaches replaces its incumbent exactly when it is nearer. -/
theorem leaf_eq (h : SolverHolds model log s) (hpath : IsAssignment model.costs path) :
    s.leaf model.threshold (sumsOf model.threshold path) (solutionOf path) =
      if (nearestDecisions model.threshold).accept log.incumbent path then
        { s with
          best := solutionOf path
          bestCost := total path
          bestC12 := c12 path
          bestC3 := c3 path }
      else s := by
  have htotal := total_eq path
  by_cases hfeasible : Feasible kScale model.threshold path
  · have hpos := haccepted.total_pos hpath hfeasible
    have hpass : ¬ (linear kScale model.threshold path < 0 ∨ c3 path ≤ 0 ∨
        c12 path + c3 path ≤ 0) := by
      have hlinear := hfeasible.1
      have hc3 := hfeasible.2
      omega
    have haccept : (nearestDecisions model.threshold).accept log.incumbent path = true ↔
        ∀ b, log.incumbent = some b →
          nearestKey model.threshold path < nearestKey model.threshold b := by
      simp [nearestDecisions, hfeasible, hpos, Option.all_eq_true]
    have hiff := (improves_iff haccepted h hpath hfeasible).trans haccept.symm
    exact (if_neg hpass).trans (if_congr hiff rfl rfl)
  · have hstop : linear kScale model.threshold path < 0 ∨ c3 path ≤ 0 ∨
        c12 path + c3 path ≤ 0 := by
      unfold Feasible at hfeasible
      omega
    have haccept : (nearestDecisions model.threshold).accept log.incumbent path = false := by
      simp [nearestDecisions, hfeasible]
    rw [haccept]
    exact if_pos hstop

theorem leaf_holds (h : SolverHolds model log s) (hpath : IsAssignment model.costs path) :
    SolverHolds model
      (log.candidate path ((nearestDecisions model.threshold).accept log.incumbent path))
      (s.leaf model.threshold (sumsOf model.threshold path) (solutionOf path)) := by
  rw [leaf_eq haccepted h hpath]
  cases haccept : (nearestDecisions model.threshold).accept log.incumbent path
  · exact ⟨h.fresh, h.assignment, h.feasible, h.sums, h.visitedNodes⟩
  · have hfeasible : Feasible kScale model.threshold path := by
      simp only [nearestDecisions, Bool.and_eq_true, decide_eq_true_eq] at haccept
      exact haccept.1.1
    have hlast : ∀ b, (log.candidate path true).incumbent = some b → b = path := by
      intro b hb
      simpa [Log.candidate, Log.incumbent, eq_comm] using hb
    refine ⟨?_, ?_, ?_, ?_, h.visitedNodes⟩
    · intro hnone
      simp [Log.candidate, Log.incumbent] at hnone
    · intro b hb
      rw [hlast b hb]
      exact hpath
    · intro b hb
      rw [hlast b hb]
      exact hfeasible
    · intro b hb
      rw [hlast b hb]
      exact ⟨rfl, rfl, rfl, rfl⟩

/-- A visit follows the plain search below its node. -/
theorem visit_holds (rest : List (CostRow Int)) : ∀ {done : List (CostRow Int)}
    {path : List (Choice Int)} {log : Log (Choice Int)} {s : Solver},
    model.costs = done ++ rest → IsAssignment done path → SolverHolds model log s →
    SolverHolds model (explore options (nearestDecisions model.threshold) rest path log)
      (Solver.visit model rest done.length (sumsOf model.threshold path) (solutionOf path) s) := by
  induction rest with
  | nil =>
      intro done path log s hsplit hpath h
      have hassignment : IsAssignment model.costs path := by
        rw [hsplit, List.append_nil]
        exact hpath
      have hcut := cuts_eq haccepted (h.enter path) path []
      rw [Log.visit_incumbent] at hcut
      simp only [Solver.visit, explore, haccepted.minSuffix_getD hsplit,
        haccepted.ratioMaxSuffix_getD hsplit, hcut]
      split
      · exact ⟨h.fresh, h.assignment, h.feasible, h.sums, (h.enter path).visitedNodes⟩
      · exact leaf_holds haccepted (h.enter path) hassignment
  | cons row rest ih =>
      intro done path log s hsplit hpath h
      have hcut := cuts_eq haccepted (h.enter path) path (row :: rest)
      rw [Log.visit_incumbent] at hcut
      simp only [Solver.visit, explore, haccepted.minSuffix_getD hsplit,
        haccepted.ratioMaxSuffix_getD hsplit, hcut]
      split
      · exact ⟨h.fresh, h.assignment, h.feasible, h.sums, (h.enter path).visitedNodes⟩
      · -- Both loops run over the options of the row.
        refine List.foldl_rel (r := fun t l => SolverHolds model l t) (h.enter path) ?_
        intro c hc t l hholds
        have hchild : IsAssignment (done ++ [row]) (path ++ [c]) :=
          List.rel_append hpath (List.Forall₂.cons (mem_options.1 hc) List.Forall₂.nil)
        have hstep := ih (by rw [hsplit]; simp) hchild hholds
        rw [List.length_append, List.length_singleton] at hstep
        rw [child_sumsOf]
        simpa [solutionOf] using hstep

/-- The whole search. -/
theorem run_holds : SolverHolds model
    (explore options (nearestDecisions model.threshold) model.costs [] {})
    (Solver.run model) := by
  have hstart : SolverHolds model {} {} := by
    refine ⟨fun _ => ⟨rfl, rfl⟩, ?_, ?_, ?_, rfl⟩ <;>
      exact fun b hb => absurd hb (by simp [Log.incumbent])
  exact visit_holds haccepted model.costs rfl List.Forall₂.nil hstart

end Visit

/-! ## Sixty-four bits are enough -/

theorem abs_contribution_le {threshold : Int} (hthreshold : 0 ≤ threshold ∧ threshold < kScale)
    {c : Choice Int} (hcost : 0 ≤ c.cost) :
    |contribution kScale threshold c| ≤ kScale * c.cost := by
  rw [contribution, abs_mul, abs_of_nonneg hcost]
  refine mul_le_mul_of_nonneg_right ?_ hcost
  unfold coefficient
  split
  · rw [abs_of_nonneg (by omega)]
    omega
  · rw [abs_neg, abs_of_nonneg hthreshold.1]
    exact hthreshold.2.le

namespace Encoded.Accepted

variable {model : Encoded} (h : model.Accepted)
include h

theorem within_cost : Within Choice.cost rowMax model.costs := by
  intro row hrow
  refine ⟨rowMax_nonneg row, fun c hc => ?_⟩
  rw [abs_of_nonneg (h.costs row hrow c hc)]
  exact cost_le_rowMax hc

theorem within_contribution : Within (contribution kScale model.threshold)
    (fun row => rowMax row * kScale) model.costs := by
  intro row hrow
  refine ⟨mul_nonneg (rowMax_nonneg row) (by decide), fun c hc => ?_⟩
  calc
    |contribution kScale model.threshold c| ≤ kScale * c.cost :=
      abs_contribution_le h.threshold (h.costs row hrow c hc)
    _ ≤ kScale * rowMax row := mul_le_mul_of_nonneg_left (cost_le_rowMax hc) (by decide)
    _ = rowMax row * kScale := mul_comm _ _

end Encoded.Accepted

/-- Whatever a visit adds up stays within the safe bound, so nothing overflows in 64 bits, and the
cross products of `better_tie` do not overflow in 128. -/
theorem visit_in_range {model : Encoded} (haccepted : model.Accepted)
    {done rest : List (CostRow Int)} {path : List (Choice Int)}
    (hsplit : model.costs = done ++ rest) (hpath : IsAssignment done path) :
    |total path + suffix min Choice.cost rest| * kScale ≤ kFixedSafe ∧
      |linear kScale model.threshold path +
        suffix max (contribution kScale model.threshold) rest| ≤ kFixedSafe := by
  refine ⟨?_, ?_⟩
  · have hnode := abs_node_le selective_min haccepted.within_cost hsplit hpath
    exact (mul_le_mul_of_nonneg_right hnode (by decide)).trans haccepted.aggregate
  · have hnode := abs_node_le selective_max haccepted.within_contribution hsplit hpath
    rw [List.sum_map_mul_right] at hnode
    exact hnode.trans haccepted.aggregate

/-! ## The nearest assignment -/

theorem solutionOf_eq (leaf : List (Choice Int)) :
    solutionOf leaf = (methods leaf).map methodNumber := by
  simp [solutionOf, methods]

theorem methodNumber_lt {m m' : Method} (h : m < m') : methodNumber m < methodNumber m' := by
  have hval : m.val < m'.val := h
  unfold methodNumber
  omega

/-- The numbers of the methods keep the lexicographic order. -/
theorem solutionOf_lt {a b : List (Choice Int)} (h : methods a < methods b) :
    solutionOf a < solutionOf b := by
  rw [solutionOf_eq, solutionOf_eq]
  have hlex : ∀ {l l' : List Method}, List.Lex (· < ·) l l' →
      List.Lex (· < ·) (l.map methodNumber) (l'.map methodNumber) := by
    intro l l' hl
    induction hl with
    | nil => exact List.Lex.nil
    | rel hlt => exact List.Lex.rel (methodNumber_lt hlt)
    | cons _ ih => exact List.Lex.cons ih
  exact hlex h

/-- The methods determine the assignment. -/
theorem assignment_ext {rows : List (CostRow Int)} {a b : List (Choice Int)}
    (ha : IsAssignment rows a) (hb : IsAssignment rows b) (h : solutionOf a = solutionOf b) :
    a = b := by
  induction ha generalizing b with
  | nil =>
      cases hb
      rfl
  | @cons row c rows path hc _ ih =>
      rcases hb with _ | ⟨hd, hrest⟩
      rename_i d path'
      rw [solutionOf, solutionOf, List.map_cons, List.map_cons, List.cons.injEq] at h
      have hmethod : c.method = d.method := by
        have hnumber := h.1
        unfold methodNumber at hnumber
        exact Fin.ext (by omega)
      have hcost : c.cost = d.cost := by
        rw [hmethod, hd] at hc
        exact (Option.some.inj hc).symm
      have hchoice : c = d := by
        cases c
        cases d
        simp_all
      rw [hchoice, ih hrest h.2]

theorem isNearest_unique {threshold : Int} {rows : List (CostRow Int)} {a b : List (Choice Int)}
    (ha : IsNearest threshold rows a) (hb : IsNearest threshold rows b) : a = b := by
  have hkey := le_antisymm (ha.best b hb.assignment hb.feasible)
    (hb.best a ha.assignment ha.feasible)
  have hsolution : solutionOf a = solutionOf b := by
    have hpair := congrArg (fun k => (ofLex (ofLex k).2).2) hkey
    exact hpair
  exact assignment_ext ha.assignment hb.assignment hsolution

theorem feasible_iff (threshold : Int) (leaf : List (Choice Int)) :
    Feasible kScale threshold leaf ↔
      threshold * c3 leaf ≤ (kScale - threshold) * c12 leaf ∧ 0 < c3 leaf := by
  unfold Feasible
  rw [linear_eq, sub_nonneg]

/-- What the solver holds at the end. -/
theorem run_describes {model : Encoded} (haccepted : model.Accepted) :
    ((Solver.run model).best = [] ∧
      ∀ leaf, IsAssignment model.costs leaf → ¬ Feasible kScale model.threshold leaf) ∨
    ∃ leaf, IsNearest model.threshold model.costs leaf ∧ (Solver.run model).best = solutionOf leaf ∧
      (Solver.run model).bestCost = total leaf ∧ (Solver.run model).bestC12 = c12 leaf ∧
      (Solver.run model).bestC3 = c3 leaf := by
  have hholds := run_holds haccepted
  have hfound := describes_explore (nearestDecisions_sound model.threshold)
    (nearestDecisions_improves model.threshold) model.costs
  cases hinc : (explore options (nearestDecisions model.threshold) model.costs [] {}).incumbent with
  | none =>
      rw [hinc] at hfound
      refine Or.inl ⟨(hholds.fresh hinc).2, fun leaf hleaf hfeasible => ?_⟩
      exact hfound leaf (mem_leaves_iff.2 hleaf) ⟨hfeasible, haccepted.total_pos hleaf hfeasible⟩
  | some leaf =>
      rw [hinc] at hfound
      rcases hholds.sums leaf hinc with ⟨hcost, hc12, hc3, hbest⟩
      refine Or.inr ⟨leaf, ⟨hholds.assignment leaf hinc, hholds.feasible leaf hinc, ?_⟩, hbest,
        hcost, hc12, hc3⟩
      intro other hother hfeasible
      exact hfound.least other (mem_leaves_iff.2 hother)
        ⟨hfeasible, haccepted.total_pos hother hfeasible⟩

theorem solutionOf_ne_nil {model : Encoded} (haccepted : model.Accepted)
    {leaf : List (Choice Int)} (hleaf : IsAssignment model.costs leaf) : solutionOf leaf ≠ [] := by
  intro hnil
  have hlen := hleaf.length_eq
  rw [List.map_eq_nil_iff.1 hnil] at hlen
  exact haccepted.nonempty (List.length_eq_zero_iff.1 hlen)

/-- The search of `optimize_plain` finds a solution exactly when there is a feasible assignment, and
it keeps the only best one in the documented order, with its sums. -/
theorem run_nearest {matrix : CostMatrix} {threshold : Bytes} {model : Encoded}
    (hencode : encode matrix threshold = .ok model) :
    ((Solver.run model).best ≠ [] ↔ ∃ leaf, IsAssignment model.costs leaf ∧
      model.threshold * c3 leaf ≤ (kScale - model.threshold) * c12 leaf ∧ 0 < c3 leaf) ∧
    ((Solver.run model).best ≠ [] → ∃ leaf, IsNearest model.threshold model.costs leaf ∧
      (∀ other, IsNearest model.threshold model.costs other → other = leaf) ∧
      (Solver.run model).best = solutionOf leaf ∧ (Solver.run model).bestCost = total leaf ∧
      (Solver.run model).bestC12 = c12 leaf ∧ (Solver.run model).bestC3 = c3 leaf) := by
  have haccepted := encode_accepted hencode
  rcases run_describes haccepted with ⟨hnil, hnone⟩ | ⟨leaf, hleaf, hbest, hsums⟩
  · refine ⟨⟨fun hne => absurd hnil hne, ?_⟩, fun hne => absurd hnil hne⟩
    rintro ⟨leaf, hleaf, hfeasible⟩
    exact absurd ((feasible_iff _ _).2 hfeasible) (hnone leaf hleaf)
  · have hne : (Solver.run model).best ≠ [] := by
      rw [hbest]
      exact solutionOf_ne_nil haccepted hleaf.assignment
    refine ⟨⟨fun _ => ⟨leaf, hleaf.assignment, (feasible_iff _ _).1 hleaf.feasible⟩,
      fun _ => hne⟩, fun _ => ⟨leaf, hleaf, fun other hother => isNearest_unique hother hleaf,
      hbest, hsums⟩⟩

/-- Two rows of equal costs at the threshold 0, as `costs` reads them. -/
def evenModel : Encoded :=
  ⟨[![some 1000000, some 1000000, some 1000000], ![some 1000000, some 1000000, some 1000000]], 0⟩

theorem encode_evenRows :
    encode [![some [49], some [49], some [49]], ![some [49], some [49], some [49]]] [48] =
      .ok evenModel := rfl

/-- Among equal costs the ratio nearest to 0 wins: method 3 twice. -/
theorem run_nearest_evenRows :
    ((Solver.run evenModel).best ≠ [] ↔ ∃ leaf, IsAssignment evenModel.costs leaf ∧
      evenModel.threshold * c3 leaf ≤ (kScale - evenModel.threshold) * c12 leaf ∧ 0 < c3 leaf) ∧
    ((Solver.run evenModel).best ≠ [] → ∃ leaf,
      IsNearest evenModel.threshold evenModel.costs leaf ∧
      (∀ other, IsNearest evenModel.threshold evenModel.costs other → other = leaf) ∧
      (Solver.run evenModel).best = solutionOf leaf ∧
      (Solver.run evenModel).bestCost = total leaf ∧ (Solver.run evenModel).bestC12 = c12 leaf ∧
      (Solver.run evenModel).bestC3 = c3 leaf) :=
  run_nearest encode_evenRows

/-! ## The two solvers agree -/

theorem solutionOf_report (leaf : List (Choice Int)) :
    (reportPath leaf).map (fun number => (number.toNat : Int)) = solutionOf leaf := by
  rw [solutionOf_eq, reportPath, List.map_map]
  refine List.map_congr_left fun m _ => ?_
  have hsmall : m.val + 1 < 2 ^ 8 := by omega
  simp only [Function.comp_apply, report, methodNumber, UInt8.toNat_ofNat']
  rw [Nat.mod_eq_of_lt hsmall]
  push_cast
  rfl

/-- The optimum of the encrypted solver is the nearest assignment. -/
theorem isOptimal_eq_isNearest {model : Encoded} (haccepted : model.Accepted)
    {a b : List (Choice Int)} (ha : IsNearest model.threshold model.costs a)
    (hb : IsOptimal kScale model.threshold model.costs b) : a = b := by
  have hleast := hb.least a ha.assignment ha.feasible
  have hkey := Prod.Lex.toLex_le_toLex.1 (ha.best b hb.assignment hb.feasible)
  have htotal : total a = total b := by
    rcases hkey with hlt | ⟨heq, _⟩
    · omega
    · exact heq
  have hpos := haccepted.total_pos ha.assignment ha.feasible
  have hposb := haccepted.total_pos hb.assignment hb.feasible
  have hinner : toLex (gap model.threshold a, solutionOf a) ≤
      toLex (gap model.threshold b, solutionOf b) := by
    rcases hkey with hlt | ⟨_, hle⟩
    · exact absurd htotal hlt.ne
    · exact hle
  have hc12 : c12 b ≤ c12 a := by omega
  -- Equal totals: the nearer ratio has the smaller `C12`.
  have hlinear : linear kScale model.threshold a ≤ linear kScale model.threshold b := by
    have hgap : ¬ gap model.threshold b < gap model.threshold a := by
      rcases Prod.Lex.toLex_le_toLex.1 hinner with hlt | ⟨heq, _⟩
      · exact hlt.not_gt
      · exact heq.not_gt
    rw [gap_lt_iff ⟨hb.feasible.1, hposb⟩ ⟨ha.feasible.1, hpos⟩, htotal, not_lt] at hgap
    exact le_of_mul_le_mul_right hgap hposb
  have hsame : c12 a = c12 b := by
    rw [← crossGap_eq, ← crossGap_eq, htotal] at hlinear
    simp only [kScale] at hlinear
    omega
  have hgap : gap model.threshold a = gap model.threshold b := by
    rw [gap, gap, ratio, ratio, hsame, htotal]
  have hsolution : solutionOf a ≤ solutionOf b := by
    rcases Prod.Lex.toLex_le_toLex.1 hinner with hlt | ⟨_, hle⟩
    · exact absurd hgap hlt.ne
    · exact hle
  have hfirst := hb.first a ha.assignment ha.feasible htotal hsame
  refine assignment_ext ha.assignment hb.assignment ?_
  rcases hfirst.lt_or_eq with hlt | heq
  · exact absurd (solutionOf_lt hlt) (not_lt.2 hsolution)
  · rw [solutionOf_eq, solutionOf_eq, heq]

section Agreement

variable {W C : Type} [CiphertextLike C]

/-- On the same fixed-point costs and threshold both solvers report that there is no feasible
assignment, or both report the same methods. -/
theorem encrypted_agrees_plain (solver : EncryptedBranchAndBoundSolver W C) {D : C → Int → Prop}
    {J : W → Prop} (hops : ExactOps solver.ops D (fun _ => True) (fun _ => True) J)
    (hpredicates : Truthful solver.predicates D J) {matrix : CostMatrix} {threshold : Bytes}
    {model : Encoded} (hencode : encode matrix threshold = .ok model)
    (hscale : solver.ops.domain.scale = kScale) {request : EncryptedOptimizationRequest C}
    {grid : Option LagrangianGrid}
    (hcheck : checkRequest solver.ops.domain solver.config request = .ok grid)
    (hthreshold : request.thresholdScaled = model.threshold)
    (hcosts : List.Forall₂ (RowHolds D) request.costs model.costs) {w : W} (hw : J w) :
    ∃ result w', solver.solve request w = .ok result w' ∧
      ((result.feasible = false ∧ optimizePlain matrix threshold = .error (.optimization
          .noFeasibleSolution "no assignment satisfies the ratio constraint")) ∨
        ∃ s, result.feasible = true ∧ optimizePlain matrix threshold = .ok s ∧
          result.solution.map (fun number => (number.toNat : Int)) = s.best) := by
  have haccepted := encode_accepted hencode
  rcases search_truthful solver hops hpredicates hcheck hcosts hw with ⟨s, w', p, hrun, hholds⟩
  have hreports := finish_reports (checkRequest_valid hcheck) hholds
  rw [hscale, hthreshold] at hreports
  have hplain : optimizePlain matrix threshold = solve model := by
    unfold optimizePlain
    rw [hencode]
    rfl
  refine ⟨_, w', solve_of_search hrun, ?_⟩
  rw [hplain]
  -- Both know whether there is a feasible assignment, and the optimum is unique.
  rcases run_describes haccepted with ⟨hnil, hnone⟩ | ⟨leaf, hleaf, hbest, _⟩
  · refine Or.inl ⟨?_, ?_⟩
    · rw [← Bool.not_eq_true, hreports.feasible]
      rintro ⟨leaf, hassignment, hfeasible⟩
      exact hnone leaf hassignment hfeasible
    · simp only [solve, hnil]
      rfl
  · have hfeasible := hreports.feasible.2 ⟨leaf, hleaf.assignment, hleaf.feasible⟩
    rcases hreports.optimal hfeasible with ⟨opt, hoptimal, hsolution, _⟩
    have hne : (Solver.run model).best ≠ [] := by
      rw [hbest]
      exact solutionOf_ne_nil haccepted hleaf.assignment
    refine Or.inr ⟨Solver.run model, hfeasible, ?_, ?_⟩
    · exact bind_eq_ok.2 ⟨PUnit.unit, ensure_eq_ok.2 hne, rfl⟩
    · rw [hsolution, solutionOf_report, hbest, isOptimal_eq_isNearest haccepted hleaf hoptimal]

end Agreement

theorem checkRequest_evenRows :
    checkRequest (⟨1000000, 2, 20, 21, 42, 42⟩ : NumericDomain) ⟨.currentSuffix, {}⟩
      (clearRequest evenModel.costs evenModel.threshold "even-rows") = .ok none := by
  decide +kernel

theorem encrypted_agrees_plain_evenRows :
    ∃ result w', EncryptedBranchAndBoundSolver.solve
        ⟨clearOps ⟨1000000, 2, 20, 21, 42, 42⟩, clearPredicates, .currentSuffix, {}⟩
        (clearRequest evenModel.costs evenModel.threshold "even-rows") () = .ok result w' ∧
      ((result.feasible = false ∧
          optimizePlain [![some [49], some [49], some [49]], ![some [49], some [49], some [49]]]
            [48] = .error (.optimization .noFeasibleSolution
              "no assignment satisfies the ratio constraint")) ∨
        ∃ s, result.feasible = true ∧
          optimizePlain [![some [49], some [49], some [49]], ![some [49], some [49], some [49]]]
            [48] = .ok s ∧
          result.solution.map (fun number => (number.toNat : Int)) = s.best) := by
  have hcosts := clearRequest_holds evenModel.costs evenModel.threshold "even-rows"
  exact encrypted_agrees_plain
    ⟨clearOps ⟨1000000, 2, 20, 21, 42, 42⟩, clearPredicates, .currentSuffix, {}⟩
    (clearOps_exact _ _ _) clearPredicates_truthful encode_evenRows rfl checkRequest_evenRows rfl
    hcosts trivial

end Optimization
end SociSgx

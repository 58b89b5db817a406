import SociSgx.Benchmark.StructuredSearch

/-!
# StructuredOptimality — when the solver of the benchmarks is right

The solver returns the best of the valid selections that it looks at; so it is right on exactly the
inputs where no other valid selection is better.
-/

namespace SociSgx
namespace StructuredExact

open Exec Optimization

/-- No valid selection is cheaper than all the valid ones that the solver looks at. -/
def ReducedOptimum (rows : List Row) (threshold : Int) : Prop :=
  ∀ solution, Valid rows threshold solution → ∃ solution', Valid rows threshold solution' ∧
    Reduced rows threshold solution' ∧ totalOf rows solution' ≤ totalOf rows solution

/-- The result is right: a feasible one has the least total of all valid selections, and the status
of an infeasible one is given when there are none. -/
structure Right (rows : List Row) (threshold : Int) (result : Result) : Prop where
  feasible : result.feasible = true ↔ ∃ solution, Valid rows threshold solution
  attained : result.feasible = true → Valid rows threshold result.solution ∧
    totalOf rows result.solution = result.objective
  least : result.feasible = true → ∀ solution, Valid rows threshold solution →
    result.objective ≤ totalOf rows solution
  status : if result.feasible then
      result.status = .cheapestGlobalOptimum ∨ result.status = .optimalVerified
    else result.status = .infeasible

/-! ## The steps of the solver -/

section Solver

variable {rows : List Row} {threshold : Int} {plan : Plan}

/-- What the solver finds: the best of the valid selections that it looks at. -/
structure Finds (rows : List Row) (threshold : Int) (result : Result) : Prop where
  attained : result.feasible = true → Valid rows threshold result.solution ∧
    Reduced rows threshold result.solution ∧ totalOf rows result.solution = result.objective
  least : ∀ solution, Valid rows threshold solution → Reduced rows threshold solution →
    result.feasible = true ∧ result.objective ≤ totalOf rows solution
  status : if result.feasible then
      result.status = .cheapestGlobalOptimum ∨ result.status = .optimalVerified
    else result.status = .infeasible

theorem validate_iff {result : Result} : validate rows threshold result = .ok ⟨⟩ ↔
    Valid rows threshold result.solution ∧ totalOf rows result.solution = result.objective := by
  unfold validate
  constructor
  · intro hu
    rcases bind_eq_ok.1 hu with ⟨_, _, hu⟩
    rcases bind_eq_ok.1 hu with ⟨_, hone, hu⟩
    rcases bind_eq_ok.1 hu with ⟨_, hc3, hu⟩
    rcases bind_eq_ok.1 hu with ⟨_, hratio, hu⟩
    exact ⟨⟨ensure_eq_ok.1 hone, ensure_eq_ok.1 hratio, ensure_eq_ok.1 hc3⟩, ensure_eq_ok.1 hu⟩
  · rintro ⟨⟨hone, hratio, hc3⟩, htotal⟩
    refine bind_eq_ok.2 ⟨⟨⟩, ensure_eq_ok.2 hone.length_eq.symm, ?_⟩
    refine bind_eq_ok.2 ⟨⟨⟩, ensure_eq_ok.2 hone, bind_eq_ok.2 ⟨⟨⟩, ensure_eq_ok.2 hc3, ?_⟩⟩
    exact bind_eq_ok.2 ⟨⟨⟩, ensure_eq_ok.2 hratio, ensure_eq_ok.2 htotal⟩

theorem objectiveOf_spec (hrows : Admissible rows threshold) {solution : List Method}
    (h : OneHot rows solution) (hmax : totalOf rows solution ≤ int64Max) :
    objectiveOf rows solution = .ok (totalOf rows solution) := by
  have hrange := hrows.total_range h
  exact checkedI64_ok ⟨by omega, hmax⟩

/-- The partial sums are at most the scaled partial totals. -/
theorem baselineG_spec (ht : 0 ≤ threshold ∧ threshold < kScale) {rows : List Row}
    {base : List Method} (h : OneHot rows base) :
    (∀ row ∈ rows, ∀ m x, row m = some x → 0 ≤ x) →
    ∀ g0 : Int, -searchBound ≤ g0 - kScale * totalOf rows base →
      g0 + kScale * totalOf rows base ≤ searchBound →
      baselineG threshold rows base g0 = .ok (g0 + gOf threshold rows base) := by
  induction h with
  | nil =>
      intro _ g0 _ _
      exact congrArg Except.ok (add_zero g0).symm
  | @cons row m rows base _ hbase ih =>
      intro hrows g0 hlow hhigh
      have hcost := costOf_nonneg hrows (List.mem_cons_self (a := row)) m
      have hterm := gTerm_range ht (m := m) hcost
      have hrest := totalOf_nonneg (fun r hr => hrows r (by simp [hr])) hbase
      have hscaled : 0 ≤ kScale * totalOf rows base := mul_nonneg (by decide) hrest
      have hsplit : kScale * totalOf (row :: rows) (m :: base) =
          kScale * costOf row m + kScale * totalOf rows base := by
        rw [totalOf, rowSum_cons, mul_add]
      rw [hsplit] at hlow hhigh
      rw [neg_mul] at hterm
      have hadd : checkedAdd g0 (gTerm threshold m (costOf row m)) "baseline G" =
          .ok (g0 + gTerm threshold m (costOf row m)) := checkedI128_ok ⟨by omega, by omega⟩
      have hstep := ih (fun r hr => hrows r (by simp [hr]))
        (g0 + gTerm threshold m (costOf row m)) (by omega) (by omega)
      have hcons : gOf threshold (row :: rows) (m :: base) =
          gTerm threshold m (costOf row m) + gOf threshold rows base := rowSum_cons ..
      rw [hcons, ← add_assoc]
      exact bind_eq_ok.2 ⟨_, hadd, hstep⟩

theorem Admissible.baselineG_eq (hrows : Admissible rows threshold)
    (hplan : Planned threshold 0 rows plan) :
    baselineG threshold rows plan.base 0 = .ok (gOf threshold rows plan.base) := by
  have hbase := hrows.total_range hplan.oneHot
  have hscaled : 0 ≤ kScale * totalOf rows plan.base ∧
      kScale * totalOf rows plan.base ≤ kScale * int64Max :=
    ⟨mul_nonneg (by decide) hbase.1, mul_le_mul_of_nonneg_left hbase.2 (by decide)⟩
  have hbound : searchBound = 1024 * (kScale * int64Max) := mul_assoc ..
  have hsum := baselineG_spec hrows.threshold hplan.oneHot hrows.nonneg 0 (by omega) (by omega)
  rw [hsum, zero_add]

/-- The loop at the start of `solve`. -/
theorem cheapest_spec {base : List Method}
    (h : List.Forall₂ (fun row m => cheapestMethod row = some m) rows base) :
    rows.mapM (fun row => match cheapestMethod row with
      | none => Except.error "row has no available method"
      | some m => .ok m) = .ok base := by
  induction h with
  | nil => rfl
  | cons hm _ ih =>
      rw [List.mapM_cons, hm]
      exact bind_eq_ok.2 ⟨_, rfl, bind_eq_ok.2 ⟨_, ih, rfl⟩⟩

theorem reduceAndSearch_spec (hrows : Admissible rows threshold)
    (hplan : Planned threshold 0 rows plan) (hclassify : classify threshold 0 rows = .ok plan)
    (enableLagrangian : Bool) :
    ∃ result, reduceAndSearch rows threshold 0 enableLagrangian = .ok result ∧
      Finds rows threshold result := by
  rcases newSearch_spec hrows hplan enableLagrangian with ⟨c, hnew, hc⟩
  have hobjective := objectiveOf_spec hrows hplan.oneHot (hrows.total_range hplan.oneHot).2
  have hg0 := hrows.baselineG_eq hplan
  let initial : SearchState := { metrics := {
    totalRows := rows.length
    fixedNoM3Rows := plan.fixedNoM3Rows
    fixedDominatedRows := plan.fixedDominatedRows
    decisionRows := plan.decisions.length
    lagrangianGridSize := if enableLagrangian then kLagrangianGrid.length else 0 } }
  have hinitial : Inv rows threshold plan.base (fun _ => False) initial :=
    ⟨⟨rfl, fun h => by cases h⟩, fun _ h => h.elim⟩
  rcases (Search.run_spec hc).returns hinitial with ⟨_, s, hrun, ⟨hlimit, hfound⟩, hbeats⟩
  -- The search ends with all selections beaten: by nothing at all, or by the one that is kept.
  by_cases hnone : s.found = false
  · refine ⟨{ status := .infeasible, metrics := s.metrics }, ?_, ?_, ?_, ?_⟩
    · unfold reduceAndSearch
      rw [ok_bind hclassify, ok_bind hg0, ok_bind hobjective, ok_bind hnew]
      dsimp only
      rw [hrun]
      change (if s.found = false then _ else _) = _
      rw [if_pos hnone, hlimit]
      rfl
    · exact fun h => by cases h
    · intro solution hvalid hreduced
      have hbeat := hbeats _ ⟨solution, hreduced, hvalid, rfl⟩
      exact absurd (hnone.symm.trans hbeat.1) (by decide)
    · rfl
  · have hyes : s.found = true := by simpa using hnone
    rcases hfound hyes with ⟨hvalid, hreduced, hextra⟩
    have htotal : totalOf rows plan.base + s.bestExtra = totalOf rows s.best := by
      rw [hextra, extraOf]
      ring
    have hrange := hrows.total_range hvalid.oneHot
    -- The last check of the source cannot fail: the total is that of a valid selection.
    have hfinal : checkedI64 (totalOf rows plan.base + s.bestExtra) "final objective" =
        .ok (totalOf rows s.best) := by
      rw [htotal]
      exact checkedI64_ok ⟨by omega, hrange.2⟩
    let result : Result := {
      feasible := true
      status := .optimalVerified
      solution := s.best
      objective := totalOf rows s.best
      metrics := s.metrics }
    refine ⟨result, ?_, ?_, ?_, ?_⟩
    · unfold reduceAndSearch
      rw [ok_bind hclassify, ok_bind hg0, ok_bind hobjective, ok_bind hnew]
      dsimp only
      rw [hrun]
      change (if s.found = false then _ else _) = _
      rw [if_neg hnone, hlimit]
      have hcheck : validate rows threshold result = .ok ⟨⟩ := validate_iff.2 ⟨hvalid, rfl⟩
      rw [ok_bind hfinal, if_neg Bool.false_ne_true, hcheck]
      rfl
    · exact fun _ => ⟨hvalid, hreduced, rfl⟩
    · intro solution hvalid' hreduced'
      have hbeat := hbeats _ ⟨solution, hreduced', hvalid', rfl⟩
      refine ⟨rfl, ?_⟩
      have hle := hbeat.2
      rw [hextra, extraOf, extraOf] at hle
      change totalOf rows s.best ≤ totalOf rows solution
      omega
    · exact Or.inr rfl

/-- The cheapest selection is the cheapest. -/
theorem Planned.total_le (hplan : Planned threshold 0 rows plan) {solution : List Method}
    (h : OneHot rows solution) : totalOf rows plan.base ≤ totalOf rows solution := by
  have hleast := hplan.least
  generalize plan.base = base at hleast
  clear hplan
  induction hleast generalizing solution with
  | nil =>
      cases h
      exact le_refl _
  | @cons row m rows base hm _ ih =>
      rcases solution with _ | ⟨m', solution⟩
      · cases h
      · rcases List.forall₂_cons.1 h with ⟨hm', hsolution⟩
        rcases Option.isSome_iff_exists.1 hm' with ⟨x, hx⟩
        rw [totalOf, rowSum_cons, rowSum_cons, costOf_eq hx]
        exact add_le_add (hm m' x hx) (ih hsolution)

theorem solve_spec (hrows : Admissible rows threshold) (enableLagrangian : Bool) :
    ∃ result, solve rows threshold 0 enableLagrangian = .ok result ∧
      Finds rows threshold result := by
  rcases classify_spec threshold rows 0 hrows.available (fun _ hrow _ _ hx =>
    hrows.cost_le hrow hx) with
    ⟨plan, hclassify, hplan⟩
  have hcheapest := cheapest_spec hplan.cheapest
  have hobjective := objectiveOf_spec hrows hplan.oneHot (hrows.fits _ hplan.oneHot)
  let cheap : Result := { solution := plan.base, objective := totalOf rows plan.base }
  have hthreshold : ensure (0 ≤ threshold ∧ threshold < kScale)
      "threshold must satisfy 0 <= T < 1" = Except.ok PUnit.unit :=
    ensure_eq_ok.2 hrows.threshold
  cases hcheck : validate rows threshold cheap with
  | error what =>
      rcases reduceAndSearch_spec hrows hplan hclassify enableLagrangian with
        ⟨result, hresult, hfinds⟩
      refine ⟨result, (ok_bind hthreshold).trans ((ok_bind hcheapest).trans ?_), hfinds⟩
      rw [ok_bind hobjective]
      dsimp only
      rw [hcheck]
      exact hresult
  | ok u =>
      have hvalid := (validate_iff.1 hcheck).1
      let fast : Result := { cheap with
        feasible := true
        status := .cheapestGlobalOptimum
        metrics := {
          totalRows := rows.length
          cheapestFastPathHit := true
          lagrangianGridSize := if enableLagrangian then kLagrangianGrid.length else 0 } }
      have hsolve : solve rows threshold 0 enableLagrangian = .ok fast := by
        refine (ok_bind hthreshold).trans ((ok_bind hcheapest).trans ?_)
        rw [ok_bind hobjective]
        dsimp only
        rw [hcheck]
        rfl
      refine ⟨fast, hsolve, fun _ => ⟨hvalid, ?_, rfl⟩, fun solution hsolution _ =>
        ⟨rfl, hplan.total_le hsolution.oneHot⟩, Or.inl rfl⟩
      -- Nothing is short, so no decision is taken.
      have hnil := Covers.covers_of_nonpos Decision.gain
        (neg_nonpos.2 hvalid.ratio) plan.decisions
      exact ⟨plan.base, plan.base, hplan.cheapest, (hplan.covered _ _).2 ⟨[], by
        rw [hnil]
        simp, rfl⟩, Or.inl ⟨hvalid.c3, rfl⟩⟩

/-- The solver is right on exactly the inputs where no other valid selection is cheaper than those
that it looks at. -/
theorem solve_right_iff (hrows : Admissible rows threshold) (enableLagrangian : Bool) :
    (∃ result, solve rows threshold 0 enableLagrangian = .ok result ∧
      Right rows threshold result) ↔ ReducedOptimum rows threshold := by
  rcases solve_spec hrows enableLagrangian with ⟨result, hsolve, hfinds⟩
  constructor
  · rintro ⟨result', hsolve', hright⟩ solution hsolution
    cases Except.ok.inj (hsolve.symm.trans hsolve')
    have hfeasible := hright.feasible.2 ⟨solution, hsolution⟩
    rcases hfinds.attained hfeasible with ⟨hvalid, hreduced, htotal⟩
    exact ⟨_, hvalid, hreduced, htotal ▸ hright.least hfeasible solution hsolution⟩
  · intro hoptimum
    refine ⟨result, hsolve, ⟨fun h => ⟨_, (hfinds.attained h).1⟩, ?_⟩, ?_, ?_, hfinds.status⟩
    · rintro ⟨solution, hsolution⟩
      rcases hoptimum solution hsolution with ⟨solution', hvalid, hreduced, _⟩
      exact (hfinds.least solution' hvalid hreduced).1
    · exact fun h => ⟨(hfinds.attained h).1, (hfinds.attained h).2.2⟩
    · intro _ solution hsolution
      rcases hoptimum solution hsolution with ⟨solution', hvalid, hreduced, hle⟩
      exact le_trans (hfinds.least solution' hvalid hreduced).2 hle

end Solver

/-- Two offers of one row at different prices, and a row with method 3 only. -/
def dearerRows : List Row :=
  [![some 5, some 10, none], ![none, none, some 10]]

theorem dearerRows_admissible : Admissible dearerRows 500000 where
  threshold := by decide
  available := by decide
  nonneg := by decide
  fits := by
    intro solution h
    rcases List.forall₂_cons_left_iff.1 h with ⟨m, solution', _, h', rfl⟩
    rcases List.forall₂_cons_left_iff.1 h' with ⟨m', solution'', _, h'', rfl⟩
    cases h''
    revert m m'
    decide

/-- The dearer one of the methods 1 and 2 is never tried: the only valid selection is missed. -/
theorem dearer_method_missed : Admissible dearerRows 500000 ∧
    (∀ enableLagrangian, ∃ result, solve dearerRows 500000 0 enableLagrangian = .ok result ∧
      result.feasible = false ∧ result.status = .infeasible) ∧
    OneHot dearerRows [1, 2] ∧ 0 ≤ gOf 500000 dearerRows [1, 2] ∧
      0 < c3Of dearerRows [1, 2] := by
  refine ⟨dearerRows_admissible, fun enableLagrangian => ?_, by decide, by decide, by decide⟩
  cases enableLagrangian <;> exact ⟨_, rfl, rfl, rfl⟩

theorem solve_right_iff_dearer :
    (∃ result, solve dearerRows 500000 0 true = .ok result ∧ Right dearerRows 500000 result) ↔
      ReducedOptimum dearerRows 500000 :=
  solve_right_iff dearerRows_admissible true

end StructuredExact
end SociSgx

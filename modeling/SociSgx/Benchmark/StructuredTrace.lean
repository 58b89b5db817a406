import SociSgx.Benchmark.StructuredOptimality
import SociSgx.Lib.GhostLog

/-!
# StructuredTrace — a search that writes down what it does

The counters of a search tell how many nodes it has visited and how often the incumbent has
changed, but not where.  The traced search keeps both sequences next to the state; apart from that
it is the search.
-/

namespace SociSgx
namespace StructuredExact

open Exec Optimization

/-- The nodes that were visited, each by the decisions that lead to it, and the incumbents. -/
structure Trace where
  visited : List (List Bool) := []
  updates : List (List Method × Int) := []
  deriving DecidableEq, Repr

abbrev TraceM : Type → Type :=
  EStateM String (SearchState × Trace)

/-- What a step at the node `path` adds: the node when the counter of the nodes has grown, and the
incumbent when the counter of the updates has. -/
def Trace.extend (trace : Trace) (path : List Bool) (s s' : SearchState) : Trace where
  visited :=
    if s.metrics.nodesVisited < s'.metrics.nodesVisited then trace.visited ++ [path]
    else trace.visited
  updates :=
    if s.metrics.incumbentUpdateCount < s'.metrics.incumbentUpdateCount then
      trace.updates ++ [(s'.best, s'.bestExtra)]
    else trace.updates

/-- Run a step at the node `path` and write down what it did. -/
def observed {α : Type} (path : List Bool) (m : SearchM α) : TraceM α := fun t =>
  match m t.1 with
  | .ok a s => .ok a (s, t.2.extend path t.1 s)
  | .error e s => .error e (s, t.2.extend path t.1 s)

namespace Search

variable (c : Search)

/-- `visit`, with the decisions above the node; `true` is the branch that takes one. -/
def visitTraced :
    List Decision → Nat → Int → Int → Int → List Method → List Bool → TraceM Unit
  | [], depth, gain, cost, m3Count, current, path => do
      let settled ← observed path (c.settles depth gain cost m3Count current)
      if settled then
        pure ()
      else
        onFst (count fun m => { m with feasibilityPruneCount := m.feasibilityPruneCount + 1 })
  | d :: rest, depth, gain, cost, m3Count, current, path => do
      let settled ← observed path (c.settles depth gain cost m3Count current)
      if settled then
        pure ()
      else
        let gain' ← onFst (lift (checkedAdd gain d.gain "branch gain"))
        let cost' ← onFst (lift (checkedI64 (cost + d.extra) "cover cost"))
        visitTraced rest (depth + 1) gain' cost' (m3Count - c.providesM3 d)
          (current.set d.row d.m12) (path ++ [true])
        let s ← onFst get
        if s.limitReached = true then
          pure ()
        else
          visitTraced rest (depth + 1) gain cost m3Count current (path ++ [false])

/-- `run`; the incumbent of the seed is offered before the root is visited. -/
def runTraced (base : List Method) : TraceM Unit := do
  let m3 := positiveM3Count c.rows base
  if 0 < c.required then
    let x ← onFst (lift (c.seed c.decisions ⟨0, 0, m3, base⟩))
    if c.required ≤ x.gain then
      observed [] (c.submit x.current x.gain x.cost (decide (0 < x.m3)))
  c.visitTraced c.decisions 0 0 0 m3 base []

end Search

/-- The end of `reduceAndSearch`. -/
def finish (rows : List Row) (threshold baseObjective : Int) (s : SearchState) :
    Checked Result :=
  if s.found = false then
    return {
      status := if s.limitReached then .nodeLimit else .infeasible
      metrics := s.metrics }
  else do
    let objective ← checkedI64 (baseObjective + s.bestExtra) "final objective"
    let result : Result := {
      feasible := true
      status := if s.limitReached then .nodeLimit else .optimalVerified
      solution := s.best
      objective := objective
      metrics := s.metrics }
    match validate rows threshold result with
    | .error what => .error ("internal validation failed: " ++ what)
    | .ok _ => return result

/-- The search with its start state: `decision_rows` and the other counters of the reduction. -/
def startState (rows : List Row) (plan : Plan) (enableLagrangian : Bool) : SearchState where
  metrics := {
    totalRows := rows.length
    fixedNoM3Rows := plan.fixedNoM3Rows
    fixedDominatedRows := plan.fixedDominatedRows
    decisionRows := plan.decisions.length
    lagrangianGridSize := if enableLagrangian then kLagrangianGrid.length else 0 }

def reduceAndSearchTraced (rows : List Row) (threshold : Int) (maxNodes : Nat)
    (enableLagrangian : Bool) : Checked (Result × Trace) := do
  let plan ← classify threshold 0 rows
  let g0 ← baselineG threshold rows plan.base 0
  let required := if g0 < 0 then -g0 else 0
  let baseObjective ← objectiveOf rows plan.base
  let search ← newSearch rows plan g0 required maxNodes enableLagrangian
  match search.runTraced plan.base (startState rows plan enableLagrangian, {}) with
  | .error what _ => .error what
  | .ok _ t => do
      let result ← finish rows threshold baseObjective t.1
      return (result, t.2)

/-- `solve` with the trace of its search; the shortcut does not search. -/
def solveTraced (rows : List Row) (threshold : Int) (maxNodes : Nat) (enableLagrangian : Bool) :
    Checked (Result × Trace) := do
  ensure (0 ≤ threshold ∧ threshold < kScale) "threshold must satisfy 0 <= T < 1"
  let cheapest ← rows.mapM fun row =>
    match cheapestMethod row with
    | none => Except.error "row has no available method"
    | some m => .ok m
  let objective ← objectiveOf rows cheapest
  let cheap : Result := { solution := cheapest, objective := objective }
  match validate rows threshold cheap with
  | .ok _ =>
      return ({ cheap with
        feasible := true
        status := .cheapestGlobalOptimum
        metrics := {
          totalRows := rows.length
          cheapestFastPathHit := true
          lagrangianGridSize := if enableLagrangian then kLagrangianGrid.length else 0 } }, {})
  | .error _ => reduceAndSearchTraced rows threshold maxNodes enableLagrangian

/-! ## The trace changes nothing -/

theorem erases_observed {α : Type} (path : List Bool) (m : SearchM α) :
    Erases Prod.fst (observed path m) m := by
  intro t
  unfold observed
  cases m t.1 <;> rfl

theorem Search.erases_visit (c : Search) (rest : List Decision) :
    ∀ (depth : Nat) (gain cost m3Count : Int) (current : List Method) (path : List Bool),
      Erases Prod.fst (c.visitTraced rest depth gain cost m3Count current path)
        (c.visit rest depth gain cost m3Count current) := by
  induction rest with
  | nil =>
      intro depth gain cost m3Count current path
      refine (erases_observed path _).bind fun settled => ?_
      cases settled with
      | true => exact Erases.pure ()
      | false =>
          rw [if_neg Bool.false_ne_true, if_neg Bool.false_ne_true]
          exact Erases.onFst
  | cons d rest ih =>
      intro depth gain cost m3Count current path
      refine (erases_observed path _).bind fun settled => ?_
      cases settled with
      | true => exact Erases.pure ()
      | false =>
          refine Erases.onFst.bind fun gain' => Erases.onFst.bind fun cost' => ?_
          refine (ih _ _ _ _ _ _).bind fun _ => Erases.onFst.bind fun s => ?_
          by_cases hlimit : s.limitReached = true
          · rw [if_pos hlimit, if_pos hlimit]
            exact Erases.pure ()
          · rw [if_neg hlimit, if_neg hlimit]
            exact ih _ _ _ _ _ _

theorem Search.erases_run (c : Search) (base : List Method) :
    Erases Prod.fst (c.runTraced base) (c.run base) := by
  have hvisit := c.erases_visit c.decisions 0 0 0 (positiveM3Count c.rows base) base []
  unfold Search.runTraced Search.run
  dsimp only
  by_cases hrequired : 0 < c.required
  · rw [if_pos hrequired, if_pos hrequired]
    refine Erases.onFst.bind fun x => ?_
    by_cases hmet : c.required ≤ x.gain
    · rw [if_pos hmet, if_pos hmet]
      exact (erases_observed [] _).bind fun _ => hvisit
    · rw [if_neg hmet, if_neg hmet]
      exact hvisit
  · rw [if_neg hrequired, if_neg hrequired]
    exact hvisit

theorem reduceAndSearchTraced_fst (rows : List Row) (threshold : Int) (maxNodes : Nat)
    (enableLagrangian : Bool) :
    Prod.fst <$> reduceAndSearchTraced rows threshold maxNodes enableLagrangian =
      reduceAndSearch rows threshold maxNodes enableLagrangian := by
  unfold reduceAndSearchTraced reduceAndSearch
  simp only [map_bind]
  refine bind_congr fun plan => bind_congr fun g0 => bind_congr fun objective => ?_
  refine bind_congr fun search => ?_
  have herase := search.erases_run plan.base (startState rows plan enableLagrangian, {})
  unfold startState at herase ⊢
  dsimp only at herase ⊢
  rw [← herase]
  generalize search.runTraced plan.base _ = traced
  cases traced with
  | error what t => rfl
  | ok u t =>
      change Prod.fst <$> (finish rows threshold objective t.1 >>= fun result =>
        pure (result, t.2)) = finish rows threshold objective t.1
      rw [map_bind]
      exact bind_pure _

/-- The traced solver returns what the solver returns. -/
theorem solveTraced_fst (rows : List Row) (threshold : Int) (maxNodes : Nat)
    (enableLagrangian : Bool) :
    Prod.fst <$> solveTraced rows threshold maxNodes enableLagrangian =
      solve rows threshold maxNodes enableLagrangian := by
  unfold solveTraced solve
  simp only [map_bind]
  refine bind_congr fun _ => bind_congr fun cheapest => bind_congr fun objective => ?_
  cases validate rows threshold { solution := cheapest, objective := objective } with
  | error what => exact reduceAndSearchTraced_fst rows threshold maxNodes enableLagrangian
  | ok _ => rfl

/-! ## The trace is complete -/

/-- Every visit and every update of the counters is in the trace. -/
def Counted (t : SearchState × Trace) : Prop :=
  t.2.visited.length = t.1.metrics.nodesVisited ∧
    t.2.updates.length = t.1.metrics.incumbentUpdateCount

/-- The counters of the nodes and of the updates are `k` and `n`. -/
def CountsAt (k n : Nat) (s : SearchState) : Prop :=
  s.metrics.nodesVisited = k ∧ s.metrics.incumbentUpdateCount = n

/-- A step has visited at most one node and has updated the incumbent at most once. -/
def Steps (k n : Nat) (s : SearchState) : Prop :=
  (s.metrics.nodesVisited = k ∨ s.metrics.nodesVisited = k + 1) ∧
    (s.metrics.incumbentUpdateCount = n ∨ s.metrics.incumbentUpdateCount = n + 1)

theorem Counted.extend {t : SearchState × Trace} (h : Counted t) (path : List Bool)
    {s : SearchState} (hs : Steps t.1.metrics.nodesVisited t.1.metrics.incumbentUpdateCount s) :
    Counted (s, t.2.extend path t.1 s) := by
  rcases h with ⟨hvisited, hupdates⟩
  rcases hs with ⟨hnodes, hcount⟩
  constructor
  · rcases hnodes with hsame | hnext
    · simp [Trace.extend, hsame, hvisited]
    · simp [Trace.extend, hnext, hvisited]
  · rcases hcount with hsame | hnext
    · simp [Trace.extend, hsame, hupdates]
    · simp [Trace.extend, hnext, hupdates]

theorem observed_counted {α : Type} {m : SearchM α} (path : List Bool)
    (h : ∀ k n, Triple (CountsAt k n) m (fun _ => Steps k n) fun _ => Steps k n) :
    Triple Counted (observed path m) (fun _ => Counted) fun _ => Counted := by
  intro t ht
  have hm := h _ _ t.1 ⟨rfl, rfl⟩
  unfold observed
  cases hrun : m t.1 with
  | ok a s =>
      rw [hrun] at hm
      exact ht.extend path hm
  | error e s =>
      rw [hrun] at hm
      exact ht.extend path hm

/-- One of the other counters is changed first. -/
theorem count_then {α : Type} {k n : Nat} {f : Metrics → Metrics} {m : SearchM α}
    {Q : α → SearchState → Prop} {E : String → SearchState → Prop}
    (hf : ∀ m, (f m).nodesVisited = m.nodesVisited ∧
      (f m).incumbentUpdateCount = m.incumbentUpdateCount) (h : Triple (CountsAt k n) m Q E) :
    Triple (CountsAt k n) (count f >>= fun _ => m) Q E := by
  refine Triple.bind (Q := fun _ => CountsAt k n) (Triple.modify fun _ hs => ?_) fun _ => h
  exact ⟨(hf _).1.trans hs.1, (hf _).2.trans hs.2⟩

/-- A step of the counters at the node that is being visited. -/
def Offered (k n : Nat) (s : SearchState) : Prop :=
  s.metrics.nodesVisited = k ∧
    (s.metrics.incumbentUpdateCount = n ∨ s.metrics.incumbentUpdateCount = n + 1)

theorem CountsAt.offered {k n : Nat} {s : SearchState} (h : CountsAt k n s) : Offered k n s :=
  ⟨h.1, Or.inl h.2⟩

theorem Search.offer_counts (c : Search) {k n : Nat} (candidate : List Method)
    (extra gain : Int) {E : String → SearchState → Prop} :
    Triple (CountsAt k n) (c.offer candidate extra gain) (fun _ => Offered k n) E := by
  refine Triple.get_bind fun s hs => ?_
  by_cases hratio : c.g0 + gain < 0
  · rw [if_pos hratio]
    rintro _ rfl
    exact hs.offered
  · rw [if_neg hratio]
    by_cases hbetter : s.found = false ∨ extra < s.bestExtra
    · rw [if_pos hbetter]
      rintro _ rfl
      exact ⟨hs.1, Or.inr (congrArg (· + 1) hs.2)⟩
    · rw [if_neg hbetter]
      rintro _ rfl
      exact hs.offered

theorem Search.submit_counts (c : Search) {k n : Nat} (current : List Method) (gain extra : Int)
    (rhs : Bool) :
    Triple (CountsAt k n) (c.submit current gain extra rhs) (fun _ => Offered k n)
      fun _ => Offered k n := by
  unfold Search.submit
  cases rhs with
  | true => exact c.offer_counts current extra gain
  | false =>
      rw [if_neg Bool.false_ne_true]
      cases c.provider gain with
      | none => exact Triple.modify fun _ hs => ⟨hs.1, Or.inl hs.2⟩
      | some d =>
          refine Triple.bind (Triple.lift (fun _ _ _ hs => hs) fun _ _ _ hs => hs.offered)
            fun extra' => ?_
          refine Triple.bind (Triple.lift (fun _ _ _ hs => hs) fun _ _ _ hs => hs.offered)
            fun gain' => ?_
          exact c.offer_counts _ extra' gain'

theorem Search.lagrangianCuts_counts (c : Search) {k n : Nat} (depth : Nat) (gain cost : Int) :
    Triple (CountsAt k n) (c.lagrangianCuts depth gain cost) (fun _ => CountsAt k n)
      fun _ => CountsAt k n := by
  have hlower : Triple (CountsAt k n) (c.lagrangianLowerBound depth (c.required - gain))
      (fun _ => CountsAt k n) fun _ => CountsAt k n := by
    unfold Search.lagrangianLowerBound
    split
    · exact Triple.pure fun _ hs => hs
    · refine count_then (fun _ => ⟨rfl, rfl⟩) ?_
      exact Triple.lift (fun _ _ _ hs => hs) fun _ _ _ hs => hs
  refine hlower.bind fun lowerBound => ?_
  refine Triple.bind (Triple.lift (fun _ _ _ hs => hs) fun _ _ _ hs => hs) fun total => ?_
  refine Triple.get_bind fun s hs => ?_
  split
  · refine Triple.bind (Q := fun _ => CountsAt k n) ?_ fun _ => Triple.pure fun _ hs => hs
    rintro _ rfl
    exact hs
  · rintro _ rfl
    exact hs

theorem Search.settles_counts (c : Search) {k n : Nat} (depth : Nat) (gain cost m3Count : Int)
    (current : List Method) :
    Triple (CountsAt k n) (c.settles depth gain cost m3Count current) (fun _ => Steps k n)
      fun _ => Steps k n := by
  have hsteps : ∀ s, Offered (k + 1) n s → Steps k n s := fun s hs => ⟨Or.inr hs.1, hs.2⟩
  refine Triple.get_bind fun s hs => ?_
  split
  · rintro _ rfl
    exact ⟨Or.inl hs.1, Or.inl hs.2⟩
  split
  · rintro _ rfl
    exact ⟨Or.inl hs.1, Or.inl hs.2⟩
  refine Triple.bind (Q := fun _ => CountsAt (k + 1) n) ?_ fun _ => ?_
  · rintro _ rfl
    exact ⟨congrArg (· + 1) hs.1, hs.2⟩
  split
  · refine count_then (fun _ => ⟨rfl, rfl⟩) ?_
    refine Triple.weaken (Triple.bind (c.submit_counts current gain cost _) fun _ =>
      Triple.pure fun _ hs => hs) (fun _ hs => hs) (fun _ => hsteps) fun _ => hsteps
  split
  · refine count_then (fun _ => ⟨rfl, rfl⟩) ?_
    exact Triple.pure fun s hs => hsteps s hs.offered
  split
  · refine count_then (fun _ => ⟨rfl, rfl⟩) ?_
    exact Triple.pure fun s hs => hsteps s hs.offered
  split
  · exact (c.lagrangianCuts_counts depth gain cost).weaken (fun _ hs => hs)
      (fun _ s hs => hsteps s hs.offered) fun _ s hs => hsteps s hs.offered
  · exact Triple.pure fun s hs => hsteps s hs.offered

/-- A step that changes none of the two counters. -/
theorem onFst_counted {α : Type} {m : SearchM α}
    (h : ∀ k n, Triple (CountsAt k n) m (fun _ => CountsAt k n) fun _ => CountsAt k n) :
    Triple Counted (onFst m) (fun _ => Counted) fun _ => Counted := by
  intro t ht
  have hm := h _ _ t.1 ⟨rfl, rfl⟩
  unfold onFst
  cases hrun : m t.1 with
  | ok a s =>
      rw [hrun] at hm
      exact ⟨ht.1.trans hm.1.symm, ht.2.trans hm.2.symm⟩
  | error e s =>
      rw [hrun] at hm
      exact ⟨ht.1.trans hm.1.symm, ht.2.trans hm.2.symm⟩

theorem lift_counted {α : Type} {x : Checked α} :
    Triple Counted (onFst (lift x)) (fun _ => Counted) fun _ => Counted :=
  onFst_counted fun _ _ => Triple.lift (fun _ _ _ hs => hs) fun _ _ _ hs => hs

theorem Search.visit_counted (c : Search) (rest : List Decision) :
    ∀ (depth : Nat) (gain cost m3Count : Int) (current : List Method) (path : List Bool),
      Triple Counted (c.visitTraced rest depth gain cost m3Count current path) (fun _ => Counted)
        fun _ => Counted := by
  have htests : ∀ (depth : Nat) (gain cost m3Count : Int) (current : List Method)
      (path : List Bool), Triple Counted
        (observed path (c.settles depth gain cost m3Count current)) (fun _ => Counted)
        fun _ => Counted :=
    fun depth gain cost m3Count current path =>
      observed_counted path fun k n => c.settles_counts depth gain cost m3Count current
  induction rest with
  | nil =>
      intro depth gain cost m3Count current path
      refine (htests depth gain cost m3Count current path).bind fun settled => ?_
      split
      · exact Triple.pure fun _ ht => ht
      · exact onFst_counted fun _ _ => Triple.modify fun _ hs => hs
  | cons d rest ih =>
      intro depth gain cost m3Count current path
      refine (htests depth gain cost m3Count current path).bind fun settled => ?_
      split
      · exact Triple.pure fun _ ht => ht
      · refine lift_counted.bind fun gain' => lift_counted.bind fun cost' => ?_
        refine Triple.bind (ih (depth + 1) gain' cost' _ _ _) fun _ => ?_
        refine Triple.bind (onFst_counted fun _ _ => fun _ hs => hs) fun s => ?_
        split
        · exact Triple.pure fun _ ht => ht
        · exact ih (depth + 1) gain cost m3Count current _

/-- The trace of a search has as many entries as the counters say. -/
theorem Search.run_counted (c : Search) (base : List Method) :
    Triple Counted (c.runTraced base) (fun _ => Counted) fun _ => Counted := by
  have hvisit := c.visit_counted c.decisions 0 0 0 (positiveM3Count c.rows base) base []
  unfold Search.runTraced
  dsimp only
  split
  · refine lift_counted.bind fun x => ?_
    split
    · refine Triple.bind (observed_counted [] fun k n => ?_) fun _ => hvisit
      have hsteps : ∀ s, Offered k n s → Steps k n s := fun s hs => ⟨Or.inl hs.1, hs.2⟩
      exact (c.submit_counts x.current x.gain x.cost _).weaken (fun _ hs => hs)
        (fun _ => hsteps) fun _ => hsteps
    · exact hvisit
  · exact hvisit

theorem finish_metrics {rows : List Row} {threshold baseObjective : Int} {s : SearchState}
    {result : Result} (h : finish rows threshold baseObjective s = .ok result) :
    result.metrics = s.metrics := by
  unfold finish at h
  split at h
  · cases h
    rfl
  · rcases bind_eq_ok.1 h with ⟨objective, _, hresult⟩
    dsimp only at hresult
    split at hresult
    · cases hresult
    · cases hresult
      rfl

/-- The trace of a result has as many entries as its counters say. -/
theorem solveTraced_counted {rows : List Row} {threshold : Int} {maxNodes : Nat}
    {enableLagrangian : Bool} {r : Result × Trace}
    (h : solveTraced rows threshold maxNodes enableLagrangian = .ok r) :
    r.2.visited.length = r.1.metrics.nodesVisited ∧
      r.2.updates.length = r.1.metrics.incumbentUpdateCount := by
  rcases bind_eq_ok.1 h with ⟨_, _, h⟩
  rcases bind_eq_ok.1 h with ⟨cheapest, _, h⟩
  rcases bind_eq_ok.1 h with ⟨objective, _, h⟩
  dsimp only at h
  split at h
  · cases h
    exact ⟨rfl, rfl⟩
  · rcases bind_eq_ok.1 h with ⟨plan, _, h⟩
    rcases bind_eq_ok.1 h with ⟨g0, _, h⟩
    rcases bind_eq_ok.1 h with ⟨baseObjective, _, h⟩
    rcases bind_eq_ok.1 h with ⟨search, _, h⟩
    have hcounted := search.run_counted plan.base (startState rows plan enableLagrangian, {})
      ⟨rfl, rfl⟩
    split at h
    · cases h
    · rename_i t hrun
      rw [hrun] at hcounted
      rcases bind_eq_ok.1 h with ⟨result, hfinish, h⟩
      cases h
      rw [finish_metrics hfinish]
      exact hcounted

end StructuredExact
end SociSgx

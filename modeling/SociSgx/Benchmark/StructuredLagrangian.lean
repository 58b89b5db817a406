import SociSgx.Benchmark.StructuredTrace
import SociSgx.Lib.TwoRuns
import SociSgx.Optimizer.PlainSolver

/-!
# StructuredLagrangian — the Lagrangian cut changes no result

The search with the cut and the search without it run side by side.  They hold the same incumbent
at every node that both visit; below a node that only the cut drops, the other search finds nothing
that beats the incumbent, so the incumbents are the same again when it comes back.
-/

namespace SociSgx
namespace StructuredExact

open Exec Optimization

/-! ## Searches that hold the same incumbent -/

/-- The same incumbent after the same number of updates, and no search is at its limit. -/
structure Alike (s t : SearchState) : Prop where
  found : s.found = t.found
  bestExtra : s.bestExtra = t.bestExtra
  best : s.best = t.best
  updates : s.metrics.incumbentUpdateCount = t.metrics.incumbentUpdateCount
  running : s.limitReached = false
  running' : t.limitReached = false

/-- Besides, `k` and `l` nodes have been visited. -/
def AlikeAt (k l : Nat) (s t : SearchState) : Prop :=
  Alike s t ∧ s.metrics.nodesVisited = k ∧ t.metrics.nodesVisited = l

/-- The searches with their traces: the same updates, and the first one has visited no other nodes
than the second one. -/
structure Same (u v : SearchState × Trace) : Prop where
  state : Alike u.1 v.1
  updates : u.2.updates = v.2.updates
  visited : u.2.visited.Sublist v.2.visited

theorem Alike.beats_iff {s t : SearchState} (h : Alike s t) {x : Int} : Beats s x ↔ Beats t x := by
  rw [Beats, Beats, h.found, h.bestExtra]

/-- A step of both searches at the node `path`. -/
theorem observed_together {α β : Type} {m : SearchM α} {n : SearchM β}
    {Q : α → β → SearchState → SearchState → Prop} (path : List Bool)
    (h : ∀ k l, Together (AlikeAt k l) m n (fun a b s t => Q a b s t ∧ Alike s t ∧
      (k < s.metrics.nodesVisited → l < t.metrics.nodesVisited))) :
    Together Same (observed path m) (observed path n)
      (fun a b u v => Q a b u.1 v.1 ∧ Same u v) := by
  refine Together.ofRun fun u v hsame => ?_
  rcases (h _ _).run ⟨hsame.state, rfl, rfl⟩ with ⟨a, b, s, t, hm, hn, hQ, halike, hnodes⟩
  refine ⟨a, b, (s, u.2.extend path u.1 s), (t, v.2.extend path v.1 t), ?_, ?_, hQ, halike, ?_, ?_⟩
  · simp only [observed, hm]
  · simp only [observed, hn]
  · simp only [Trace.extend, hsame.state.updates, halike.updates, halike.best, halike.bestExtra,
      hsame.updates]
  · have hvisited := hsame.visited
    by_cases hk : u.1.metrics.nodesVisited < s.metrics.nodesVisited
    · simp only [Trace.extend, if_pos hk, if_pos (hnodes hk)]
      exact hvisited.append_right _
    · simp only [Trace.extend, if_neg hk]
      split
      · exact hvisited.trans (List.sublist_append_left _ _)
      · exact hvisited

/-- A step of the second search alone. -/
theorem observed_idle {β : Type} {n : SearchM β} {R : β → Prop} {u : SearchState × Trace}
    (path : List Bool) (h : Yields (Alike u.1) n R Never) :
    Yields (Same u) (observed path n) R Never := by
  intro v hsame
  rcases h.returns hsame.state with ⟨b, t, hn, hR, halike⟩
  simp only [observed, hn]
  refine ⟨hR, halike, ?_, ?_⟩
  · have hcount : ¬ v.1.metrics.incumbentUpdateCount < t.metrics.incumbentUpdateCount := by
      rw [← hsame.state.updates, ← halike.updates]
      exact lt_irrefl _
    simp only [Trace.extend, if_neg hcount, hsame.updates]
  · have hvisited := hsame.visited
    simp only [Trace.extend]
    split
    · exact hvisited.trans (List.sublist_append_left _ _)
    · exact hvisited

/-- A step that is not written down. -/
theorem onFst_idle {β : Type} {n : SearchM β} {R : β → Prop} {u : SearchState × Trace}
    (h : Yields (Alike u.1) n R Never) : Yields (Same u) (onFst n) R Never := by
  have hkept := h.onFst fun trace : Trace =>
    u.2.updates = trace.updates ∧ u.2.visited.Sublist trace.visited
  exact hkept.weaken (fun v hv => ⟨hv.state, hv.updates, hv.visited⟩)
    (fun b v hv => ⟨hv.1, hv.2.1, hv.2.2.1, hv.2.2.2⟩) fun _ _ he => he

theorem onFst_together {α β : Type} {m : SearchM α} {n : SearchM β} {R : α → β → Prop}
    (h : Follows Alike m n R) : Follows Same (onFst m) (onFst n) R := by
  refine Follows.ofRun fun u v hsame => ?_
  rcases h.run hsame.state with ⟨a, b, s, t, hm, hn, hR, halike⟩
  refine ⟨a, b, (s, u.2), (t, v.2), ?_, ?_, hR, halike, hsame.updates, hsame.visited⟩
  · simp only [onFst, hm]
  · simp only [onFst, hn]

/-- The test of the limit between two branches. -/
theorem unlimited {m : TraceM Unit} {u : SearchState × Trace} (hu : u.1.limitReached = false) :
    (onFst get >>= fun s : SearchState => if s.limitReached = true then pure () else m) u =
      m u := by
  have hget : (onFst get : TraceM SearchState) u = .ok u.1 u := rfl
  rw [bind_of_ok hget, if_neg (by rw [hu]; exact Bool.false_ne_true)]

/-- A stateless computation that succeeds. -/
theorem onFst_lift_ok {α : Type} {x : Checked α} {a : α} (h : x = .ok a) :
    (onFst (lift x) : TraceM α) = pure a := by
  subst h
  rfl

/-! ## One step -/

/-- A counter other than those of the nodes and of the updates. -/
theorem count_idle {s : SearchState} {f : Metrics → Metrics}
    (hf : ∀ m, (f m).incumbentUpdateCount = m.incumbentUpdateCount) :
    Triple (Alike s) (count f) (fun _ => Alike s) Never :=
  Triple.modify fun _ ht =>
    ⟨ht.found, ht.bestExtra, ht.best, ht.updates.trans (hf _).symm, ht.running, ht.running'⟩

theorem count_together {k l : Nat} {f : Metrics → Metrics}
    (hf : ∀ m, (f m).incumbentUpdateCount = m.incumbentUpdateCount ∧
      (f m).nodesVisited = m.nodesVisited) :
    Together (AlikeAt k l) (count f) (count f) (fun _ _ => AlikeAt k l) := by
  refine Twin.modify ?_
  rintro s t ⟨hst, hk, hl⟩
  refine ⟨⟨hst.found, hst.bestExtra, hst.best, ?_, hst.running, hst.running'⟩, ?_, ?_⟩
  · exact ((hf _).1.trans hst.updates).trans (hf _).1.symm
  · exact (hf _).2.trans hk
  · exact (hf _).2.trans hl

theorem reject_idle {s : SearchState} :
    Triple (Alike s) Search.rejectCandidate (fun _ => Alike s) Never := by
  unfold Search.rejectCandidate
  exact count_idle fun _ => rfl

theorem reject_together {k l : Nat} :
    Together (AlikeAt k l) Search.rejectCandidate Search.rejectCandidate
      (fun _ _ => AlikeAt k l) := by
  unfold Search.rejectCandidate
  exact count_together fun _ => ⟨rfl, rfl⟩

theorem Search.offer_together (c : Search) {k l : Nat} (candidate : List Method)
    (extra gain : Int) :
    Together (AlikeAt k l) (c.offer candidate extra gain) (c.offer candidate extra gain)
      (fun _ _ => AlikeAt k l) := by
  refine Twin.get_bind fun s t hst => ?_
  by_cases hratio : c.g0 + gain < 0
  · rw [if_pos hratio, if_pos hratio]
    refine Twin.weaken reject_together ?_ (fun _ _ _ _ h => h) fun _ _ h => h
    rintro s' t' ⟨rfl, rfl⟩
    exact hst
  · rw [if_neg hratio, if_neg hratio, ← hst.1.found, ← hst.1.bestExtra]
    by_cases hbetter : s.found = false ∨ extra < s.bestExtra
    · rw [if_pos hbetter, if_pos hbetter]
      refine Twin.modify fun s' t' _ => ⟨⟨rfl, rfl, rfl, ?_, hst.1.running, hst.1.running'⟩, hst.2⟩
      exact congrArg (· + 1) hst.1.updates
    · rw [if_neg hbetter, if_neg hbetter]
      exact Twin.pure fun s' t' h => h.1 ▸ h.2 ▸ hst

/-- An offer that does not beat the incumbent is no update. -/
theorem Search.offer_idle (c : Search) {s : SearchState} {candidate : List Method}
    {extra gain : Int} (hbeats : 0 ≤ c.g0 + gain → Beats s extra) :
    Triple (Alike s) (c.offer candidate extra gain) (fun _ => Alike s) Never := by
  refine Triple.get_bind fun t hst => ?_
  by_cases hratio : c.g0 + gain < 0
  · rw [if_pos hratio]
    refine reject_idle.pre ?_
    rintro t' rfl
    exact hst
  · rw [if_neg hratio]
    have ht := hst.beats_iff.1 (hbeats (not_lt.1 hratio))
    have hworse : ¬ (t.found = false ∨ extra < t.bestExtra) := by
      rw [ht.1, not_or]
      exact ⟨Bool.noConfusion, not_lt.2 ht.2⟩
    rw [if_neg hworse]
    exact Triple.pure fun t' ht' => ht' ▸ hst

/-- The same search without the Lagrangian cut. -/
def Search.withoutLagrangian (c : Search) : Search :=
  { c with enableLagrangian := false, suffixLagrangian := [] }

@[simp] theorem Search.withoutLagrangian_rows (c : Search) : c.withoutLagrangian.rows = c.rows :=
  rfl

@[simp] theorem Search.withoutLagrangian_decisions (c : Search) :
    c.withoutLagrangian.decisions = c.decisions :=
  rfl

@[simp] theorem Search.withoutLagrangian_submit (c : Search) :
    c.withoutLagrangian.submit = c.submit :=
  rfl

section Steps

variable {rows : List Row} {threshold : Int} {plan : Plan} {c : Search} {rest : List Decision}
  {d : Decision} {depth k l : Nat} {gain cost m3Count : Int} {cur : List Method}

theorem Setting.withoutLagrangian (hc : Setting rows threshold plan c) :
    Setting rows threshold plan c.withoutLagrangian :=
  { hc with terms := fun h => Bool.noConfusion h }

theorem Visiting.withoutLagrangian
    (h : Visiting rows threshold plan c rest depth gain cost m3Count cur) :
    Visiting rows threshold plan c.withoutLagrangian rest depth gain cost m3Count cur :=
  ⟨h.node, h.drop, h.nonneg, h.gain_eq, h.cost_eq, h.m3Count_eq, h.reduced⟩

theorem Search.submit_together (hc : Setting rows threshold plan c)
    (h : Visiting rows threshold plan c rest depth gain cost m3Count cur) :
    Together (AlikeAt k l) (c.submit cur gain cost (decide (0 < m3Count)))
      (c.submit cur gain cost (decide (0 < m3Count))) (fun _ _ => AlikeAt k l) := by
  have hnode := h.node.sublist (List.nil_sublist rest)
  rw [h.m3Count_eq]
  rcases Search.submit_offers hc hnode h.gain_eq h.cost_eq with
    ⟨hrun, _⟩ | ⟨candidate, extra, gain', hrun, _⟩
  · rw [hrun]
    exact reject_together
  · rw [hrun]
    exact c.offer_together candidate extra gain'

/-- Nothing is submitted that beats an incumbent which beats all completions. -/
theorem Search.submit_idle (hc : Setting rows threshold plan c)
    (h : Visiting rows threshold plan c rest depth gain cost m3Count cur)
    (hmet : c.required ≤ gain) {s : SearchState}
    (hbeats : ∀ x, Completions rows threshold plan.base cur (c.required - gain) rest x →
      Beats s x) :
    Triple (Alike s) (c.submit cur gain cost (decide (0 < m3Count))) (fun _ => Alike s)
      Never := by
  have hnode := h.node.sublist (List.nil_sublist rest)
  rw [h.m3Count_eq]
  rcases Search.submit_offers hc hnode h.gain_eq h.cost_eq with
    ⟨hrun, _⟩ | ⟨candidate, extra, gain', hrun, hoffers⟩
  · rw [hrun]
    exact reject_idle
  · rw [hrun]
    refine c.offer_idle fun hratio => ?_
    -- The offer is a completion: the empty set of decisions meets the cover.
    have hcovers := Covers.covers_of_nonpos Decision.gain (sub_nonpos.2 hmet) rest
    have hvalid : Valid rows threshold candidate :=
      ⟨hoffers.oneHot, hoffers.gain_eq ▸ hratio, hoffers.c3⟩
    refine hbeats extra ⟨[], ?_, candidate, hoffers.repaired, hvalid, hoffers.extra_eq⟩
    rw [hcovers]
    exact List.mem_singleton_self []

/-- The cut is taken only where the incumbent beats all completions. -/
theorem Search.lagrangianCuts_alike (hc : Setting rows threshold plan c)
    (hlag : c.enableLagrangian = true)
    (h : Visiting rows threshold plan c rest depth gain cost m3Count cur)
    (hshort : gain < c.required) {t : SearchState} (hfound : t.found = true) :
    Triple (fun s => AlikeAt k l s t) (c.lagrangianCuts depth gain cost)
      (fun b s => (b = true → ∀ x,
        Completions rows threshold plan.base cur (c.required - gain) rest x → Beats t x) ∧
          AlikeAt k l s t) Never := by
  rcases h.le_of_gridBound hc hlag hshort with ⟨bound, hbound, htotal, hlow⟩
  -- The counters are the only thing that the cut changes.
  have hcount : ∀ {f : Metrics → Metrics}, (∀ m, (f m).incumbentUpdateCount =
      m.incumbentUpdateCount ∧ (f m).nodesVisited = m.nodesVisited) →
      Triple (fun s => AlikeAt k l s t) (count f) (fun _ s => AlikeAt k l s t) Never := by
    refine fun hf => Triple.modify fun s hs => ⟨⟨hs.1.found, hs.1.bestExtra, hs.1.best,
      (hf _).1.trans hs.1.updates, hs.1.running, hs.1.running'⟩, (hf _).2.trans hs.2.1, hs.2.2⟩
  have hlower := Search.lagrangianLowerBound_spec (sub_pos.2 hshort) hbound
    (P := fun s => AlikeAt k l s t) fun s m hupdates hvisited hs =>
      ⟨⟨hs.1.found, hs.1.bestExtra, hs.1.best, hupdates.trans hs.1.updates, hs.1.running,
        hs.1.running'⟩, hvisited.trans hs.2.1, hs.2.2⟩
  refine hlower.bind fun b => Triple.assuming fun hb => ?_
  subst hb
  refine Triple.lift_bind htotal (Triple.get_bind fun s₀ hs₀ => ?_)
  -- The bound is below every completion, so the incumbent beats all of them.
  by_cases hcut : s₀.bestExtra ≤ cost + b
  · rw [if_pos hcut]
    have hbeats : ∀ x, Completions rows threshold plan.base cur (c.required - gain) rest x →
        Beats t x := fun x hx => ⟨hfound, by
      rw [← hs₀.1.bestExtra]
      exact le_trans hcut (hlow x hx)⟩
    refine Triple.bind (Q := fun _ s => AlikeAt k l s t) ?_ fun _ =>
      Triple.pure fun s hs => ⟨fun _ => hbeats, hs⟩
    refine Triple.pre (hcount fun _ => ⟨rfl, rfl⟩) ?_
    rintro s rfl
    exact hs₀
  · rw [if_neg hcut]
    refine Triple.pure ?_
    rintro s rfl
    exact ⟨Bool.noConfusion, hs₀⟩

/-- The tests at a node with the cut and without it: both searches leave the node, or both go on,
or only the cut is taken and the incumbent beats all completions. -/
inductive Ending (rows : List Row) (threshold : Int) (plan : Plan) (c : Search)
    (rest : List Decision) (gain : Int) (cur : List Method) (s : SearchState) :
    Bool → Bool → Prop where
  | leaves : Ending rows threshold plan c rest gain cur s true true
  | goesOn (hshort : gain < c.required) : Ending rows threshold plan c rest gain cur s false false
  | cut (hshort : gain < c.required)
      (hbeats : ∀ x, Completions rows threshold plan.base cur (c.required - gain) rest x →
        Beats s x) : Ending rows threshold plan c rest gain cur s true false

theorem Search.settles_together (hc : Setting rows threshold plan c)
    (h : Visiting rows threshold plan c rest depth gain cost m3Count cur) :
    Together (AlikeAt k l) (c.settles depth gain cost m3Count cur)
      (c.withoutLagrangian.settles depth gain cost m3Count cur)
      (fun b b' s t => Ending rows threshold plan c rest gain cur s b b' ∧
        AlikeAt (k + 1) (l + 1) s t) := by
  refine Twin.get_bind fun s t hst => ?_
  have hs : ¬ s.limitReached = true := by rw [hst.1.running]; decide
  have ht : ¬ t.limitReached = true := by rw [hst.1.running']; decide
  have hs' : ¬ (c.maxNodes ≠ 0 ∧ c.maxNodes ≤ s.metrics.nodesVisited) :=
    fun hn => hn.1 hc.maxNodes
  have ht' : ¬ (c.withoutLagrangian.maxNodes ≠ 0 ∧
      c.withoutLagrangian.maxNodes ≤ t.metrics.nodesVisited) := fun hn => hn.1 hc.maxNodes
  -- Neither search has a limit on its nodes.
  rw [if_neg hs, if_neg ht, if_neg hs', if_neg ht']
  let f : Metrics → Metrics := fun m =>
    { m with nodesVisited := m.nodesVisited + 1, maxDepth := max m.maxDepth depth }
  have hvisit : Together (fun s' t' => s' = s ∧ t' = t) (count f) (count f)
      (fun _ _ s' t' => AlikeAt (k + 1) (l + 1) s' t' ∧ s'.found = s.found ∧
        s'.bestExtra = s.bestExtra) := by
    refine Twin.modify ?_
    rintro s' t' ⟨rfl, rfl⟩
    exact ⟨⟨⟨hst.1.found, hst.1.bestExtra, hst.1.best, hst.1.updates, hst.1.running,
      hst.1.running'⟩, congrArg (· + 1) hst.2.1, congrArg (· + 1) hst.2.2⟩, rfl, rfl⟩
  refine Twin.bind hvisit fun _ _ => ?_
  change Together _
    (if c.required ≤ gain then _
      else if gain + c.suffixGain.getD depth 0 < c.required then _
      else if s.found = true ∧ s.bestExtra ≤ cost then _
      else if s.found = true ∧ c.enableLagrangian = true then c.lagrangianCuts depth gain cost
      else pure false)
    (if c.required ≤ gain then _
      else if gain + c.suffixGain.getD depth 0 < c.required then _
      else if t.found = true ∧ t.bestExtra ≤ cost then _
      else if t.found = true ∧ false = true then _
      else pure false) _
  -- Both ask the same questions up to the last one, which only the search with the cut asks.
  rw [← hst.1.found, ← hst.1.bestExtra]
  by_cases hmet : c.required ≤ gain
  · rw [if_pos hmet, if_pos hmet]
    refine Twin.bind (Twin.weaken (count_together fun _ => ⟨rfl, rfl⟩) (fun _ _ hs => hs.1)
      (fun _ _ _ _ hs => hs) fun _ _ hs => hs) fun _ _ => ?_
    refine Twin.bind (Search.submit_together hc h) fun _ _ => ?_
    exact Twin.pure fun s' t' hs => ⟨.leaves, hs⟩
  rw [if_neg hmet, if_neg hmet]
  by_cases hfeasible : gain + c.suffixGain.getD depth 0 < c.required
  · rw [if_pos hfeasible, if_pos hfeasible]
    refine Twin.bind (Twin.weaken (count_together fun _ => ⟨rfl, rfl⟩) (fun _ _ hs => hs.1)
      (fun _ _ _ _ hs => hs) fun _ _ hs => hs) fun _ _ => ?_
    exact Twin.pure fun s' t' hs => ⟨.leaves, hs⟩
  rw [if_neg hfeasible, if_neg hfeasible]
  by_cases hcost : s.found = true ∧ s.bestExtra ≤ cost
  · rw [if_pos hcost, if_pos hcost]
    refine Twin.bind (Twin.weaken (count_together fun _ => ⟨rfl, rfl⟩) (fun _ _ hs => hs.1)
      (fun _ _ _ _ hs => hs) fun _ _ hs => hs) fun _ _ => ?_
    exact Twin.pure fun s' t' hs => ⟨.leaves, hs⟩
  rw [if_neg hcost, if_neg hcost, if_neg (show ¬ (s.found = true ∧ false = true) by simp)]
  have hshort := not_le.1 hmet
  by_cases hlag : s.found = true ∧ c.enableLagrangian = true
  -- Here the first search may leave while the second one goes on.
  · rw [if_pos hlag]
    refine Twin.pure_right fun t' => Triple.weaken (P := fun s' => t'.found = true ∧
      AlikeAt (k + 1) (l + 1) s' t') (Triple.assuming fun hfound =>
        Search.lagrangianCuts_alike hc hlag.2 h hshort hfound) ?_ ?_ fun _ _ he => he
    · exact fun s' hs => ⟨(hs.1.1.found.symm.trans hs.2.1).trans hlag.1, hs.1⟩
    · rintro b s' ⟨hbeats, hs⟩
      cases b with
      | false => exact ⟨.goesOn hshort, hs⟩
      | true => exact ⟨.cut hshort fun x hx => hs.1.beats_iff.2 (hbeats rfl x hx), hs⟩
  · rw [if_neg hlag]
    exact Twin.pure fun s' t' hs => ⟨.goesOn hshort, hs.1⟩

/-- The search without the cut leaves a node where the incumbent beats all completions, or it goes
on there. -/
theorem Search.settles_idle (hc : Setting rows threshold plan c)
    (hlag : c.enableLagrangian = false)
    (h : Visiting rows threshold plan c rest depth gain cost m3Count cur) {s : SearchState}
    (hbeats : ∀ x, Completions rows threshold plan.base cur (c.required - gain) rest x →
      Beats s x) :
    Yields (Alike s) (c.settles depth gain cost m3Count cur)
      (fun b => b = false → gain < c.required) Never := by
  refine Triple.get_bind fun t hst => ?_
  have ht : ¬ t.limitReached = true := by rw [hst.running']; decide
  have ht' : ¬ (c.maxNodes ≠ 0 ∧ c.maxNodes ≤ t.metrics.nodesVisited) :=
    fun hn => hn.1 hc.maxNodes
  rw [if_neg ht, if_neg ht']
  have hvisit := count_idle (s := s) (f := fun m =>
    { m with nodesVisited := m.nodesVisited + 1, maxDepth := max m.maxDepth depth }) fun _ => rfl
  refine Triple.bind (hvisit.pre ?_) fun _ => ?_
  · rintro t' rfl
    exact hst
  -- However the node is left, only counters have changed.
  have hleave : ∀ f : Metrics → Metrics,
      (∀ m, (f m).incumbentUpdateCount = m.incumbentUpdateCount) →
      Yields (Alike s) (do count f; return true) (fun b => b = false → gain < c.required) Never :=
    fun f hf => Triple.bind (count_idle hf) fun _ => Yields.pure Bool.noConfusion
  by_cases hmet : c.required ≤ gain
  · rw [if_pos hmet]
    refine Triple.bind (count_idle fun _ => rfl) fun _ => ?_
    refine (Search.submit_idle hc h hmet hbeats).bind fun _ => ?_
    exact Yields.pure Bool.noConfusion
  rw [if_neg hmet]
  by_cases hfeasible : gain + c.suffixGain.getD depth 0 < c.required
  · rw [if_pos hfeasible]
    exact hleave _ fun _ => rfl
  rw [if_neg hfeasible]
  by_cases hcost : t.found = true ∧ t.bestExtra ≤ cost
  · rw [if_pos hcost]
    exact hleave _ fun _ => rfl
  rw [if_neg hcost, if_neg (fun hn => Bool.noConfusion (hlag.symm.trans hn.2))]
  exact Yields.pure fun _ => not_le.1 hmet

/-! ## Whole runs -/

/-- The sums of the branch that takes the decision do not overflow. -/
theorem Setting.branches_eq (hc : Setting rows threshold plan c)
    (h : Visiting rows threshold plan c (d :: rest) depth gain cost m3Count cur)
    (hshort : gain < c.required) (m : Int → Int → TraceM Unit) :
    (do
      let gain' ← onFst (lift (checkedAdd gain d.gain "branch gain"))
      let cost' ← onFst (lift (checkedI64 (cost + d.extra) "cover cost"))
      m gain' cost') = m (gain + d.gain) (cost + d.extra) := by
  have htake := h.take hc hshort
  have hgain : checkedAdd gain d.gain "branch gain" = .ok (gain + d.gain) := checkedI128_ok (by
    rw [htake.gain_eq]
    exact hc.gain_range htake.node.oneHot)
  have hcost : checkedI64 (cost + d.extra) "cover cost" = .ok (cost + d.extra) :=
    checkedI64_ok (by
      rw [htake.cost_eq]
      exact hc.extra_range htake.node.oneHot)
  rw [onFst_lift_ok hgain, pure_bind, onFst_lift_ok hcost, pure_bind]

/-- Two branches, of which neither changes the incumbent. -/
theorem branches_idle {u : SearchState × Trace} {m n : TraceM Unit}
    (hm : Yields (Same u) m (fun _ => True) Never)
    (hn : Yields (Same u) n (fun _ => True) Never) :
    Yields (Same u) (do
      m
      let s ← onFst get
      if s.limitReached = true then pure () else n) (fun _ => True) Never := by
  refine hm.bind fun _ _ => ?_
  intro v hv
  rw [unlimited hv.state.running']
  exact hn v hv

theorem branches_together {m m' n n' : TraceM Unit} (hm : Follows Same m m' fun _ _ => True)
    (hn : Follows Same n n' fun _ _ => True) :
    Follows Same (do
      m
      let s ← onFst get
      if s.limitReached = true then pure () else n) (do
      m'
      let s ← onFst get
      if s.limitReached = true then pure () else n') (fun _ _ => True) := by
  refine hm.bind fun _ _ _ => ?_
  intro u v huv
  rw [unlimited huv.state.running, unlimited huv.state.running']
  exact hn u v huv

/-- What completes a branch completes the node. -/
theorem completions_take (hshort : gain < c.required) {x : Int}
    (hx : Completions rows threshold plan.base (cur.set d.row d.m12)
      (c.required - (gain + d.gain)) rest x) :
    Completions rows threshold plan.base cur (c.required - gain) (d :: rest) x := by
  rcases hx with ⟨U, hU, solution, hsolution⟩
  rw [← sub_sub] at hU
  have hcons := (Covers.mem_covers_cons (not_le.2 (sub_pos.2 hshort))).2
    (Or.inl ⟨U, hU, rfl⟩)
  exact ⟨d :: U, hcons, solution, hsolution⟩

theorem completions_skip (hshort : gain < c.required) {x : Int}
    (hx : Completions rows threshold plan.base cur (c.required - gain) rest x) :
    Completions rows threshold plan.base cur (c.required - gain) (d :: rest) x := by
  rcases hx with ⟨U, hU, solution, hsolution⟩
  exact ⟨U, (Covers.mem_covers_cons (not_le.2 (sub_pos.2 hshort))).2 (Or.inr hU), solution,
    hsolution⟩

/-- Below a node where the incumbent beats all completions the search without the cut changes
nothing. -/
theorem Search.visit_idle (hc : Setting rows threshold plan c)
    (hlag : c.enableLagrangian = false) :
    ∀ {rest : List Decision} {depth : Nat} {gain cost m3Count : Int} {cur : List Method}
      (path : List Bool), Visiting rows threshold plan c rest depth gain cost m3Count cur →
      ∀ {u : SearchState × Trace},
        (∀ x, Completions rows threshold plan.base cur (c.required - gain) rest x →
          Beats u.1 x) →
        Yields (Same u) (c.visitTraced rest depth gain cost m3Count cur path) (fun _ => True)
          Never := by
  intro rest
  induction rest with
  | nil =>
      intro depth gain cost m3Count cur path h u hbeats
      refine (observed_idle path (Search.settles_idle hc hlag h hbeats)).bind fun b _ => ?_
      cases b with
      | true => exact Yields.pure trivial
      | false =>
          rw [if_neg Bool.false_ne_true]
          refine onFst_idle (Triple.post (count_idle fun _ => rfl) fun _ t ht => ⟨trivial, ht⟩)
  | cons d rest ih =>
      intro depth gain cost m3Count cur path h u hbeats
      refine (observed_idle path (Search.settles_idle hc hlag h hbeats)).bind fun b hb => ?_
      cases b with
      | true => exact Yields.pure trivial
      | false =>
          have hshort := hb rfl
          rw [if_neg Bool.false_ne_true, hc.branches_eq h hshort]
          exact branches_idle
            (ih _ (h.take hc hshort) fun x hx => hbeats x (completions_take hshort hx))
            (ih _ (h.skip hshort) fun x hx => hbeats x (completions_skip hshort hx))

/-- The rest of a visit, after the tests. -/
theorem Search.after_tests {m m' : TraceM Unit}
    (hon : gain < c.required → Follows Same m m' fun _ _ => True)
    (hcut : gain < c.required → ∀ {u : SearchState × Trace},
      (∀ x, Completions rows threshold plan.base cur (c.required - gain) rest x → Beats u.1 x) →
      Yields (Same u) m' (fun _ => True) Never) (b b' : Bool) :
    Together (fun u v => Ending rows threshold plan c rest gain cur u.1 b b' ∧ Same u v)
      (if b = true then pure () else m) (if b' = true then pure () else m')
      (fun _ _ u v => True ∧ Same u v) := by
  rintro u v ⟨hending, hsame⟩
  cases hending with
  | leaves => exact Or.inr (Or.inr ⟨trivial, hsame⟩)
  | goesOn hshort => exact hon hshort u v hsame
  | cut hshort hbeats =>
      rcases (hcut hshort hbeats).returns hsame with ⟨_, v', hrun, hsame'⟩
      rw [if_neg Bool.false_ne_true, hrun]
      exact Or.inr (Or.inr hsame')

/-- The searches with and without the cut visit a node together. -/
theorem Search.visit_together (hc : Setting rows threshold plan c) :
    ∀ {rest : List Decision} {depth : Nat} {gain cost m3Count : Int} {cur : List Method}
      (path : List Bool), Visiting rows threshold plan c rest depth gain cost m3Count cur →
      Follows Same (c.visitTraced rest depth gain cost m3Count cur path)
        (c.withoutLagrangian.visitTraced rest depth gain cost m3Count cur path)
        (fun _ _ => True) := by
  have hc' := hc.withoutLagrangian
  have htests : ∀ {rest : List Decision} {depth : Nat} {gain cost m3Count : Int}
      {cur : List Method} (path : List Bool),
      Visiting rows threshold plan c rest depth gain cost m3Count cur →
      Together Same (observed path (c.settles depth gain cost m3Count cur))
        (observed path (c.withoutLagrangian.settles depth gain cost m3Count cur))
        (fun b b' u v => Ending rows threshold plan c rest gain cur u.1 b b' ∧ Same u v) := by
    intro rest depth gain cost m3Count cur path h
    refine observed_together
      (Q := fun b b' s _ => Ending rows threshold plan c rest gain cur s b b')
      path fun k l => ?_
    refine (Search.settles_together hc h).post fun b b' s t hs => ⟨hs.1, hs.2.1, fun _ => ?_⟩
    rw [hs.2.2.2]
    exact Nat.lt_succ_self l
  intro rest
  -- By induction on the decisions that are left; `Ending` says which of the three endings it was.
  induction rest with
  | nil =>
      intro depth gain cost m3Count cur path h
      refine Twin.bind (htests path h) (Search.after_tests (fun _ => ?_) fun _ _ _ => ?_)
      · refine onFst_together (Twin.modify fun s t hst => ⟨trivial, ?_⟩)
        exact ⟨hst.found, hst.bestExtra, hst.best, hst.updates, hst.running, hst.running'⟩
      · exact onFst_idle (Triple.post (count_idle fun _ => rfl) fun _ t ht => ⟨trivial, ht⟩)
  | cons d rest ih =>
      intro depth gain cost m3Count cur path h
      refine Twin.bind (htests path h) (Search.after_tests (fun hshort => ?_) fun hshort {u} => ?_)
      · rw [hc.branches_eq h hshort, hc.branches_eq h hshort]
        exact branches_together (ih _ (h.take hc hshort)) (ih _ (h.skip hshort))
      -- Below a cut the other search is idle: the incumbent beats whatever it finds there.
      · intro hbeats
        rw [hc.branches_eq h hshort]
        exact branches_idle
          (Search.visit_idle hc' rfl _ (h.take hc hshort).withoutLagrangian fun x hx =>
            hbeats x (completions_take hshort hx))
          (Search.visit_idle hc' rfl _ (h.skip hshort).withoutLagrangian fun x hx =>
            hbeats x (completions_skip hshort hx))

@[simp] theorem Search.withoutLagrangian_seed (ds : List Decision) :
    ∀ x : Search.Seed, c.withoutLagrangian.seed ds x = c.seed ds x := by
  induction ds with
  | nil => exact fun _ => rfl
  | cons d ds ih =>
      intro x
      unfold Search.seed
      exact if_congr Iff.rfl (bind_congr fun gain => bind_congr fun cost => ih _) rfl

/-- The offer before the search. -/
theorem Search.seeded_together (hc : Setting rows threshold plan c)
    (h : Visiting rows threshold plan c rest depth gain cost m3Count cur) :
    Follows Same (observed [] (c.submit cur gain cost (decide (0 < m3Count))))
      (observed [] (c.submit cur gain cost (decide (0 < m3Count)))) (fun _ _ => True) := by
  refine observed_together (Q := fun _ _ _ _ => True) [] fun k l => ?_
  refine Twin.post (Search.submit_together hc h) fun _ _ s t hst => ⟨trivial, hst.1, fun hk => ?_⟩
  exact absurd hk (hst.2.1.symm ▸ lt_irrefl k)

theorem Search.run_together (hc : Setting rows threshold plan c) :
    Follows Same (c.runTraced plan.base) (c.withoutLagrangian.runTraced plan.base)
      (fun _ _ => True) := by
  have hvisit : Follows Same
      (c.visitTraced c.decisions 0 0 0 (positiveM3Count c.rows plan.base) plan.base [])
      (c.withoutLagrangian.visitTraced c.decisions 0 0 0 (positiveM3Count c.rows plan.base)
        plan.base []) (fun _ _ => True) := by
    rw [hc.decisions, hc.rows_eq]
    exact Search.visit_together hc [] hc.root
  unfold Search.runTraced
  simp only [Search.withoutLagrangian_rows, Search.withoutLagrangian_decisions,
    Search.withoutLagrangian_submit, Search.withoutLagrangian_seed]
  by_cases hrequired : 0 < c.required
  · rw [if_pos hrequired, if_pos (show 0 < c.withoutLagrangian.required from hrequired)]
    rcases Search.seed_spec hc (x := ⟨0, 0, positiveM3Count rows plan.base, plan.base⟩)
      hc.root with ⟨x, hx, rest, depth, hvisiting⟩
    rw [← hc.rows_eq, ← hc.decisions] at hx
    rw [onFst_lift_ok hx, pure_bind, pure_bind]
    by_cases hmet : c.required ≤ x.gain
    · rw [if_pos hmet, if_pos (show c.withoutLagrangian.required ≤ x.gain from hmet)]
      exact (Search.seeded_together hc hvisiting).bind fun _ _ _ => hvisit
    · rw [if_neg hmet, if_neg (show ¬ c.withoutLagrangian.required ≤ x.gain from hmet)]
      exact hvisit
  · rw [if_neg hrequired, if_neg (show ¬ 0 < c.withoutLagrangian.required from hrequired)]
    exact hvisit

end Steps

/-! ## The solver -/

/-- The same result, from the same updates; the first search has visited no other nodes than the
second one. -/
structure Agreed (r r' : Result × Trace) : Prop where
  feasible : r.1.feasible = r'.1.feasible
  status : r.1.status = r'.1.status
  objective : r.1.objective = r'.1.objective
  solution : r.1.solution = r'.1.solution
  updates : r.2.updates = r'.2.updates
  visited : r.2.visited.Sublist r'.2.visited

section Solving

variable {rows : List Row} {threshold : Int} {plan : Plan} {c : Search}

/-- The end of `reduceAndSearch` looks at the incumbent only. -/
theorem finish_agreed {baseObjective : Int} {u v : SearchState × Trace} (h : Same u v)
    {result : Result} (hfinish : finish rows threshold baseObjective u.1 = .ok result) :
    ∃ result', finish rows threshold baseObjective v.1 = .ok result' ∧
      Agreed (result, u.2) (result', v.2) := by
  have hrunning := h.state.running
  have hrunning' := h.state.running'
  unfold finish at hfinish ⊢
  rw [hrunning] at hfinish
  rw [← h.state.found, ← h.state.best, ← h.state.bestExtra, hrunning']
  by_cases hfound : u.1.found = false
  · rw [if_pos hfound] at hfinish ⊢
    cases hfinish
    exact ⟨_, rfl, rfl, rfl, rfl, rfl, h.updates, h.visited⟩
  · rw [if_neg hfound] at hfinish ⊢
    rcases bind_eq_ok.1 hfinish with ⟨objective, hobjective, hresult⟩
    let found (metrics : Metrics) : Result := {
      feasible := true
      status := .optimalVerified
      solution := u.1.best
      objective := objective
      metrics := metrics }
    -- `validate` does not read the counters.
    have hvalidate : validate rows threshold (found v.1.metrics) =
        validate rows threshold (found u.1.metrics) := rfl
    rw [if_neg Bool.false_ne_true] at hresult
    dsimp only at hresult
    cases hcheck : validate rows threshold (found u.1.metrics) with
    | error what =>
        rw [hcheck] at hresult
        cases hresult
    | ok _ =>
        rw [hcheck] at hresult
        cases hresult
        refine ⟨found v.1.metrics, ?_, rfl, rfl, rfl, rfl, h.updates, h.visited⟩
        rw [ok_bind hobjective, if_neg Bool.false_ne_true]
        dsimp only
        rw [hvalidate, hcheck]
        rfl

theorem newSearch_withoutLagrangian {g0 required : Int}
    (h : newSearch rows plan g0 required 0 true = .ok c) :
    newSearch rows plan g0 required 0 false = .ok c.withoutLagrangian := by
  rcases bind_eq_ok.1 h with ⟨gains, hgains, h⟩
  rcases bind_eq_ok.1 h with ⟨terms, hterms, h⟩
  cases h
  exact bind_eq_ok.2 ⟨gains, hgains, bind_eq_ok.2 ⟨[], rfl, rfl⟩⟩

theorem startState_same (enableLagrangian enableLagrangian' : Bool) :
    Same (startState rows plan enableLagrangian, {}) (startState rows plan enableLagrangian', {}) :=
  ⟨⟨rfl, rfl, rfl, rfl, rfl, rfl⟩, rfl, List.Sublist.refl _⟩

/-- The steps before the search succeed. -/
theorem reduceAndSearchTraced_eq (hrows : Admissible rows threshold)
    (hplan : Planned threshold 0 rows plan) (hclassify : classify threshold 0 rows = .ok plan)
    {enableLagrangian : Bool} (hnew : newSearch rows plan (gOf threshold rows plan.base)
      (if gOf threshold rows plan.base < 0 then -gOf threshold rows plan.base else 0) 0
      enableLagrangian = .ok c) {u : SearchState × Trace}
    (hrun : c.runTraced plan.base (startState rows plan enableLagrangian, {}) = .ok ⟨⟩ u) :
    reduceAndSearchTraced rows threshold 0 enableLagrangian =
      (finish rows threshold (totalOf rows plan.base) u.1 >>= fun result =>
        pure (result, u.2)) := by
  have hg0 := hrows.baselineG_eq hplan
  have hobjective := objectiveOf_spec hrows hplan.oneHot (hrows.total_range hplan.oneHot).2
  unfold reduceAndSearchTraced
  rw [ok_bind hclassify, ok_bind hg0, ok_bind hobjective, ok_bind hnew, hrun]

theorem reduceAndSearchTraced_agreed (hrows : Admissible rows threshold)
    (hplan : Planned threshold 0 rows plan) (hclassify : classify threshold 0 rows = .ok plan) :
    ∃ r r', reduceAndSearchTraced rows threshold 0 true = .ok r ∧
      reduceAndSearchTraced rows threshold 0 false = .ok r' ∧ Agreed r r' := by
  rcases newSearch_spec hrows hplan true with ⟨c, hnew, hc⟩
  rcases (Search.run_together hc).run (startState_same true false) with
    ⟨_, _, u, v, hrun, hrun', _, hsame⟩
  have heq := reduceAndSearchTraced_eq hrows hplan hclassify hnew hrun
  have heq' := reduceAndSearchTraced_eq hrows hplan hclassify
    (newSearch_withoutLagrangian hnew) hrun'
  -- The search with the cut returns, so its end has not failed.
  rcases reduceAndSearch_spec hrows hplan hclassify true with ⟨result, hresult, _⟩
  rw [← reduceAndSearchTraced_fst, heq] at hresult
  cases hfinish : finish rows threshold (totalOf rows plan.base) u.1 with
  | error what =>
      rw [hfinish] at hresult
      cases hresult
  | ok found =>
      rcases finish_agreed hsame hfinish with ⟨found', hfinish', hagreed⟩
      refine ⟨_, _, ?_, ?_, hagreed⟩
      · rw [heq, ok_bind hfinish]
        rfl
      · rw [heq', ok_bind hfinish']
        rfl

theorem totalOf_le_rowMax {solution : List Method} (h : OneHot rows solution) :
    totalOf rows solution ≤ (rows.map rowMax).sum := by
  induction h with
  | nil => exact le_refl _
  | @cons row m rows solution hm _ ih =>
      rcases Option.isSome_iff_exists.1 hm with ⟨x, hx⟩
      have hle : x ≤ rowMax row := cost_le_rowMax (c := ⟨m, x⟩) (mem_options.2 hx)
      calc
        totalOf (row :: rows) (m :: solution) = x + totalOf rows solution := by
          rw [totalOf, rowSum_cons, costOf_eq hx]
        _ ≤ rowMax row + (rows.map rowMax).sum := add_le_add hle ih
        _ = ((row :: rows).map rowMax).sum := (List.sum_cons).symm

/-- A row without a method fails the loop at the start of `solve`. -/
theorem cheapest_error (h : ∃ row ∈ rows, ∀ m, row m = none) :
    rows.mapM (fun row => match cheapestMethod row with
      | none => Except.error "row has no available method"
      | some m => .ok m) = (.error "row has no available method" : Checked (List Method)) := by
  rcases h with ⟨row, hrow, hnone⟩
  have hcheapest : cheapestMethod row = none := by
    rw [cheapestMethod_eq, hnone, hnone]
  induction rows with
  | nil => cases hrow
  | cons first rest ih =>
      rw [List.mapM_cons]
      cases hfirst : cheapestMethod first with
      | none => rfl
      | some m =>
          rcases List.mem_cons.1 hrow with rfl | hmem
          · cases hfirst.symm.trans hcheapest
          · exact (ok_bind rfl).trans (by rw [ih hmem]; rfl)

/-- On admissible rows both searches return. -/
theorem solveTraced_agreed (hrows : Admissible rows threshold) :
    ∃ r r', solveTraced rows threshold 0 true = .ok r ∧
      solveTraced rows threshold 0 false = .ok r' ∧ Agreed r r' := by
  rcases classify_spec threshold rows 0 hrows.available (fun _ hrow _ _ hx =>
    hrows.cost_le hrow hx) with ⟨plan, hclassify, hplan⟩
  have hcheapest := cheapest_spec hplan.cheapest
  have hobjective := objectiveOf_spec hrows hplan.oneHot (hrows.fits _ hplan.oneHot)
  have hthreshold : ensure (0 ≤ threshold ∧ threshold < kScale)
      "threshold must satisfy 0 <= T < 1" = Except.ok PUnit.unit :=
    ensure_eq_ok.2 hrows.threshold
  have hsolve : ∀ enableLagrangian {answer}, _ = answer →
      solveTraced rows threshold 0 enableLagrangian = answer := fun _ _ h =>
    (ok_bind hthreshold).trans ((ok_bind hcheapest).trans ((ok_bind hobjective).trans h))
  -- Either the cheapest selection is valid and nothing is searched, or the searches run side by
  -- side.
  cases hcheck : validate rows threshold
    { solution := plan.base, objective := totalOf rows plan.base } with
  | error what =>
      rcases reduceAndSearchTraced_agreed hrows hplan hclassify with ⟨r, r', hr, hr', hagreed⟩
      refine ⟨r, r', hsolve _ ?_, hsolve _ ?_, hagreed⟩
      · dsimp only
        rw [hcheck]
        exact hr
      · dsimp only
        rw [hcheck]
        exact hr'
  | ok _ =>
      have hfast : ∀ enableLagrangian, solveTraced rows threshold 0 enableLagrangian = .ok ({
          feasible := true
          status := .cheapestGlobalOptimum
          solution := plan.base
          objective := totalOf rows plan.base
          metrics := {
            totalRows := rows.length
            cheapestFastPathHit := true
            lagrangianGridSize := if enableLagrangian then kLagrangianGrid.length else 0 } },
          {}) := by
        intro enableLagrangian
        apply hsolve
        dsimp only
        rw [hcheck]
        rfl
      exact ⟨_, _, hfast true, hfast false, rfl, rfl, rfl, rfl, rfl, List.Sublist.refl _⟩

/-- The search with the Lagrangian cut and the search without it fail for the same reason, or they
return the same result after the same incumbents, and the cut visits no further node. -/
theorem solve_lagrangian_agreed (rows : List Row) (threshold : Int)
    (hnonneg : ∀ row ∈ rows, ∀ m x, row m = some x → 0 ≤ x)
    (hmax : (rows.map rowMax).sum ≤ int64Max) :
    (∃ what, (¬ (0 ≤ threshold ∧ threshold < kScale) ∨ ∃ row ∈ rows, ∀ m, row m = none) ∧
      solve rows threshold 0 true = .error what ∧ solve rows threshold 0 false = .error what) ∨
    ∃ r r', solveTraced rows threshold 0 true = .ok r ∧
      solveTraced rows threshold 0 false = .ok r' ∧ solve rows threshold 0 true = .ok r.1 ∧
      solve rows threshold 0 false = .ok r'.1 ∧ Agreed r r' := by
  by_cases ht : 0 ≤ threshold ∧ threshold < kScale
  · have hthreshold : ensure (0 ≤ threshold ∧ threshold < kScale)
        "threshold must satisfy 0 <= T < 1" = Except.ok PUnit.unit := ensure_eq_ok.2 ht
    by_cases hnone : ∃ row ∈ rows, ∀ m, row m = none
    · have herror : ∀ enableLagrangian, solve rows threshold 0 enableLagrangian =
          .error "row has no available method" := fun _ =>
        (ok_bind hthreshold).trans (error_bind (cheapest_error hnone))
      exact Or.inl ⟨_, Or.inr hnone, herror true, herror false⟩
    -- Neither of the two errors occurs, so both searches return.
    · have havailable : ∀ row ∈ rows, ∃ m, (row m).isSome = true := by
        intro row hrow
        by_contra hall
        refine hnone ⟨row, hrow, fun m => Option.not_isSome_iff_eq_none.1 fun hm => ?_⟩
        exact hall ⟨m, hm⟩
      have hrows : Admissible rows threshold :=
        ⟨ht, havailable, hnonneg, fun solution h => le_trans (totalOf_le_rowMax h) hmax⟩
      rcases solveTraced_agreed hrows with ⟨r, r', hr, hr', hagreed⟩
      refine Or.inr ⟨r, r', hr, hr', ?_, ?_, hagreed⟩
      · rw [← solveTraced_fst, hr]
        rfl
      · rw [← solveTraced_fst, hr']
        rfl
  · have herror : ∀ enableLagrangian, solve rows threshold 0 enableLagrangian =
        .error "threshold must satisfy 0 <= T < 1" := fun enableLagrangian => by
      unfold solve ensure
      rw [if_neg ht]
      rfl
    exact Or.inl ⟨_, Or.inl ht, herror true, herror false⟩

end Solving

/-- Four rows whose search is cut. -/
def cutRows : List Row :=
  [![some 7, none, some 2], ![some 9, none, some 6], ![some 8, none, some 2],
    ![some 11, none, some 1]]

theorem solve_lagrangian_agreed_cut :
    (∃ what, (¬ (0 ≤ (300000 : Int) ∧ (300000 : Int) < kScale) ∨
        ∃ row ∈ cutRows, ∀ m, row m = none) ∧
      solve cutRows 300000 0 true = .error what ∧ solve cutRows 300000 0 false = .error what) ∨
    ∃ r r', solveTraced cutRows 300000 0 true = .ok r ∧
      solveTraced cutRows 300000 0 false = .ok r' ∧ solve cutRows 300000 0 true = .ok r.1 ∧
      solve cutRows 300000 0 false = .ok r'.1 ∧ Agreed r r' :=
  solve_lagrangian_agreed cutRows 300000 (by decide) (by decide)

-- With the cut five nodes are visited, without it nine.
example : (solveTraced cutRows 300000 0 true).toOption.map (fun r => r.2.visited.length) = some 5 ∧
    (solveTraced cutRows 300000 0 false).toOption.map (fun r => r.2.visited.length) = some 9 := by
  decide +kernel

end StructuredExact
end SociSgx

import SociSgx.Benchmark.StructuredBounds

/-!
# StructuredSearch — what the search of the benchmarks finds

The search ends with one of the covers of the plan, and it repairs a cover without a positive
method 3 by one dominated row.  The incumbent after a run is at least as good as every valid
selection of this kind: the cuts drop only what it beats already.
-/

namespace SociSgx
namespace StructuredExact

open Exec Optimization

/-! ## Providers -/

theorem getElem?_of_forall₂ {α β : Type} {R : α → β → Prop} {xs : List α} {ys : List β}
    (h : List.Forall₂ R xs ys) {k : Nat} {x : α} (hx : xs[k]? = some x) :
    ∃ y, ys[k]? = some y ∧ R x y := by
  induction h generalizing k with
  | nil => cases hx
  | @cons x' y' xs ys hxy _ ih =>
      cases k with
      | zero =>
          cases hx
          exact ⟨y', rfl, hxy⟩
      | succ k => exact ih hx

section Providers

variable {rows : List Row} {threshold : Int} {plan : Plan} {c : Search} {cur : List Method}

/-- A repaired selection is one of the dominated rows moved to method 3. -/
theorem Planned.repaired_iff (h : Planned threshold 0 rows plan) {solution : List Method} :
    Repaired rows cur solution ↔ (0 < c3Of rows cur ∧ solution = cur) ∨
      (c3Of rows cur ≤ 0 ∧ ∃ p ∈ plan.dominated, solution = cur.set p.row 2) := by
  refine or_congr Iff.rfl (and_congr Iff.rfl ⟨?_, ?_⟩)
  · rintro ⟨k, row, m, hrow, hm, hne, hsome, rfl⟩
    rcases getElem?_of_forall₂ h.cheapest hrow with ⟨m', hbase, hm'⟩
    cases hm.symm.trans hm'
    rcases h.allDominated k row m hrow hbase hne hsome with ⟨p, hp, hk⟩
    exact ⟨p, hp, by rw [hk, Nat.zero_add]⟩
  · rintro ⟨p, hp, rfl⟩
    rcases (h.dominated p hp).2 with ⟨row, m, hrow, hbase, _, b, _, hb, hne, _⟩
    rcases getElem?_of_forall₂ h.cheapest hrow with ⟨m', hbase', hm'⟩
    cases hbase.symm.trans hbase'
    exact ⟨p.row, row, m, hrow, hm', hne, by rw [hb]; rfl, rfl⟩

/-- The rows that `provider` considers. -/
def Search.Eligible (c : Search) (gain : Int) (p : Dominated) : Prop :=
  0 < costOf (c.rows.getD p.row fun _ => none) 2 ∧ 0 ≤ c.g0 + gain - p.loss

theorem Search.provider_spec (c : Search) (gain : Int) :
    match c.provider gain with
    | none => ∀ p ∈ c.dominated, ¬ c.Eligible gain p
    | some d => d ∈ c.dominated ∧ c.Eligible gain d ∧
        ∀ p ∈ c.dominated, c.Eligible gain p → d.extra ≤ p.extra := by
  -- The loop, with the rows it has already seen.
  suffices hloop : ∀ (rest seen : List Dominated) (best : Option Dominated),
      (match best with
        | none => ∀ p ∈ seen, ¬ c.Eligible gain p
        | some d => d ∈ seen ∧ c.Eligible gain d ∧
            ∀ p ∈ seen, c.Eligible gain p → d.extra ≤ p.extra) →
      match rest.foldl (fun best d =>
          if costOf (c.rows.getD d.row fun _ => none) 2 ≤ 0 then best
          else if c.g0 + gain - d.loss < 0 then best
          else match best with
            | none => some d
            | some b => if d.extra < b.extra then some d else some b) best with
      | none => ∀ p ∈ seen ++ rest, ¬ c.Eligible gain p
      | some d => d ∈ seen ++ rest ∧ c.Eligible gain d ∧
          ∀ p ∈ seen ++ rest, c.Eligible gain p → d.extra ≤ p.extra by
    exact hloop c.dominated [] none (by simp)
  intro rest
  induction rest with
  | nil =>
      intro seen best h
      simpa using h
  | cons d rest ih =>
      intro seen best h
      have happend : seen ++ d :: rest = seen ++ [d] ++ rest := by simp
      rw [List.foldl_cons, happend]
      refine ih (seen ++ [d]) _ ?_
      by_cases hcost : costOf (c.rows.getD d.row fun _ => none) 2 ≤ 0
      · rw [if_pos hcost]
        have hno : ¬ c.Eligible gain d := fun he => absurd he.1 (not_lt.2 hcost)
        cases best with
        | none => simpa [or_imp, forall_and, hno] using h
        | some b => exact ⟨by simp [h.1], h.2.1, by simpa [or_imp, forall_and, hno] using h.2.2⟩
      · rw [if_neg hcost]
        by_cases hratio : c.g0 + gain - d.loss < 0
        · rw [if_pos hratio]
          have hno : ¬ c.Eligible gain d := fun he => absurd he.2 (not_le.2 hratio)
          cases best with
          | none => simpa [or_imp, forall_and, hno] using h
          | some b => exact ⟨by simp [h.1], h.2.1, by simpa [or_imp, forall_and, hno] using h.2.2⟩
        · rw [if_neg hratio]
          have hyes : c.Eligible gain d := ⟨not_le.1 hcost, not_lt.1 hratio⟩
          cases best with
          | none =>
              refine ⟨by simp, hyes, fun p hp he => ?_⟩
              rcases List.mem_append.1 hp with hp | hp
              · exact absurd he (h p hp)
              · rw [List.mem_singleton.1 hp]
          | some b =>
              by_cases hlt : d.extra < b.extra
              · simp only [if_pos hlt]
                refine ⟨by simp, hyes, fun p hp he => ?_⟩
                rcases List.mem_append.1 hp with hp | hp
                · exact le_of_lt (lt_of_lt_of_le hlt (h.2.2 p hp he))
                · rw [List.mem_singleton.1 hp]
              · simp only [if_neg hlt]
                refine ⟨by simp [h.1], h.2.1, fun p hp he => ?_⟩
                rcases List.mem_append.1 hp with hp | hp
                · exact h.2.2 p hp he
                · rw [List.mem_singleton.1 hp]
                  exact not_lt.1 hlt

/-- Every dominated row is there once. -/
theorem Setting.dominatedLoss_eq (hc : Setting rows threshold plan c) {p : Dominated}
    (hp : p ∈ c.dominated) : c.dominatedLoss p.row = p.loss := by
  have hfind : c.dominated.find? (fun d => d.row = p.row) = some p := by
    have horder := hc.planned.dominatedOrder
    rw [← hc.dominated] at horder
    generalize c.dominated = ps at hp horder ⊢
    induction ps with
    | nil => cases hp
    | cons d ps ih =>
        rcases List.mem_cons.1 hp with rfl | hp'
        · simp
        · have hlt := (List.pairwise_cons.1 horder).1 p hp'
          rw [List.find?_cons_of_neg (by simp; omega)]
          exact ih hp' (List.pairwise_cons.1 horder).2
  rw [Search.dominatedLoss, hfind]
  rfl

end Providers

/-! ## The state of the search -/

section States

variable (rows : List Row) (threshold : Int) (base : List Method)

/-- The extra cost of a selection. -/
def extraOf (solution : List Method) : Int :=
  totalOf rows solution - totalOf rows base

/-- The incumbent, if there is one, is valid and is one that the solver may return. -/
def Good (s : SearchState) : Prop :=
  s.limitReached = false ∧ (s.found = true → Valid rows threshold s.best ∧
    Reduced rows threshold s.best ∧ s.bestExtra = extraOf rows base s.best)

/-- The incumbent is at least as good as the extra cost `x`. -/
def Beats (s : SearchState) (x : Int) : Prop :=
  s.found = true ∧ s.bestExtra ≤ x

/-- The incumbent is good, and it beats the extra costs in `X`. -/
def Inv (X : Int → Prop) (s : SearchState) : Prop :=
  Good rows threshold base s ∧ ∀ x, X x → Beats s x

/-- The extra costs of the valid selections that complete `cur`. -/
def Completions (cur : List Method) (required : Int) (rest : List Decision) (x : Int) : Prop :=
  ∃ U ∈ Covers.covers Decision.gain required rest, ∃ solution,
    Repaired rows (upgrade 0 cur U) solution ∧ Valid rows threshold solution ∧
      x = extraOf rows base solution

end States

section Visits

variable {rows : List Row} {threshold : Int} {plan : Plan} {base : List Method} {c : Search}
  {cur : List Method} {X Y : Int → Prop} {s : SearchState}

theorem Inv.mono (h : Inv rows threshold base X s) (hY : ∀ y, Y y → ∃ x, X x ∧ x ≤ y) :
    Inv rows threshold base Y s := by
  refine ⟨h.1, fun y hy => ?_⟩
  rcases hY y hy with ⟨x, hx, hle⟩
  exact ⟨(h.2 x hx).1, le_trans (h.2 x hx).2 hle⟩

/-- What the incumbent beats already. -/
theorem Inv.or_of (h : Inv rows threshold base X s) (hY : ∀ y, Y y → Beats s y) :
    Inv rows threshold base (fun x => X x ∨ Y x) s :=
  ⟨h.1, fun x hx => hx.elim (h.2 x) (hY x)⟩

theorem Inv.or_false (h : Inv rows threshold base X s) (hY : ∀ y, ¬ Y y) :
    Inv rows threshold base (fun x => X x ∨ Y x) s :=
  h.or_of fun y hy => absurd hy (hY y)

/-- The counters do not matter. -/
theorem count_spec (f : Metrics → Metrics) :
    Triple (Inv rows threshold base X) (count f) (fun _ => Inv rows threshold base X) Never :=
  Triple.modify fun _ hs => hs

theorem Search.offer_spec {candidate : List Method} {extra gain : Int}
    (hone : OneHot rows candidate) (hc3 : 0 < c3Of rows candidate)
    (hreduced : Reduced rows threshold candidate) (hextra : extra = extraOf rows base candidate)
    (hgain : c.g0 + gain = gOf threshold rows candidate) :
    Triple (Inv rows threshold base X) (c.offer candidate extra gain)
      (fun _ => Inv rows threshold base fun x =>
        X x ∨ (Valid rows threshold candidate ∧ x = extra)) Never := by
  refine Triple.get_bind fun s₀ hs₀ => ?_
  by_cases hratio : c.g0 + gain < 0
  · rw [if_pos hratio]
    refine (count_spec _).weaken (fun s hs => hs ▸ hs₀) (fun _ s hs => hs.or_false fun x hx => ?_)
      (fun _ _ he => he)
    exact absurd hx.1.ratio (not_le.2 (hgain ▸ hratio))
  · have hvalid : Valid rows threshold candidate := ⟨hone, hgain ▸ not_lt.1 hratio, hc3⟩
    rw [if_neg hratio]
    by_cases hbetter : s₀.found = false ∨ extra < s₀.bestExtra
    · rw [if_pos hbetter]
      intro s hs
      -- The candidate is the new incumbent; the old one was worse.
      refine ⟨⟨hs₀.1.1, fun _ => ⟨hvalid, hreduced, hextra⟩⟩, fun x hx => ⟨rfl, ?_⟩⟩
      rcases hx with hx | ⟨_, rfl⟩
      · have hbeats := hs₀.2 x hx
        rcases hbetter with hnone | hlt
        · exact absurd (hnone.symm.trans hbeats.1) (by decide)
        · exact le_trans (le_of_lt hlt) hbeats.2
      · exact le_refl _
    · rw [if_neg hbetter]
      rw [not_or, Bool.not_eq_false, not_lt] at hbetter
      refine Triple.pure fun s hs => ?_
      subst hs
      refine hs₀.or_of fun x hx => ?_
      rw [hx.2]
      exact hbetter

theorem Setting.extra_range (hc : Setting rows threshold plan c) {solution : List Method}
    (h : OneHot rows solution) : -int64Max ≤ extraOf rows plan.base solution ∧
      extraOf rows plan.base solution ≤ int64Max := by
  have hsolution := hc.admissible.total_range h
  have hbase := hc.admissible.total_range hc.planned.oneHot
  rw [extraOf]
  omega

theorem Setting.gain_range (hc : Setting rows threshold plan c) {solution : List Method}
    (h : OneHot rows solution) : -searchBound ≤ gOf threshold rows solution - c.g0 ∧
      gOf threshold rows solution - c.g0 ≤ searchBound := by
  have hsolution := hc.admissible.g_range h
  have hbase := hc.admissible.g_range hc.planned.oneHot
  have hbound : searchBound = 1024 * (kScale * int64Max) := mul_assoc ..
  rw [hc.g0]
  omega

/-- What `submit` offers: the best valid repair of `cur`, if there is a valid one. -/
structure Offers (rows : List Row) (threshold : Int) (base : List Method) (g0 : Int)
    (cur candidate : List Method) (extra gain : Int) : Prop where
  repaired : Repaired rows cur candidate
  oneHot : OneHot rows candidate
  c3 : 0 < c3Of rows candidate
  extra_eq : extra = extraOf rows base candidate
  gain_eq : g0 + gain = gOf threshold rows candidate
  least : ∀ solution, Repaired rows cur solution → Valid rows threshold solution →
    Valid rows threshold candidate ∧ extra ≤ extraOf rows base solution

/-- `submit` rejects a selection without a valid repair, or it offers one of its repairs. -/
theorem Search.submit_offers (hc : Setting rows threshold plan c)
    (hnode : Node threshold rows plan.dominated cur []) {gain extra : Int}
    (hgain : gain = gOf threshold rows cur - c.g0) (hextra : extra = extraOf rows plan.base cur) :
    (c.submit cur gain extra (decide (0 < positiveM3Count rows cur)) = rejectCandidate ∧
      ∀ solution, Repaired rows cur solution → ¬ Valid rows threshold solution) ∨
    ∃ candidate extra' gain',
      c.submit cur gain extra (decide (0 < positiveM3Count rows cur)) =
        c.offer candidate extra' gain' ∧
      Offers rows threshold plan.base c.g0 cur candidate extra' gain' := by
  have hcount := c3_pos_iff hc.admissible.nonneg hnode.oneHot
  unfold Search.submit
  by_cases hc3 : 0 < c3Of rows cur
  · rw [if_pos (decide_eq_true (hcount.1 hc3))]
    refine Or.inr ⟨cur, extra, gain, rfl, Or.inl ⟨hc3, rfl⟩, hnode.oneHot, hc3, hextra, by
      rw [hgain]; ring, fun solution hsolution hvalid => ?_⟩
    rcases hsolution with ⟨_, rfl⟩ | ⟨hle, _⟩
    · exact ⟨hvalid, hextra.le⟩
    · exact absurd hc3 (not_lt.2 hle)
  · rw [if_neg (by rw [decide_eq_true_eq]; exact fun h => hc3 (hcount.2 h))]
    -- A valid repair of the selection comes from an eligible row.
    have heligible : ∀ solution, Repaired rows cur solution → Valid rows threshold solution →
        ∃ p ∈ c.dominated, c.Eligible gain p ∧
          extraOf rows plan.base solution = extra + p.extra := by
      intro solution hsolution hvalid
      rcases hc.planned.repaired_iff.1 hsolution with ⟨hpos, _⟩ | ⟨hle, p, hp, rfl⟩
      · exact absurd hpos hc3
      · rcases hnode.provide hc.admissible hp with ⟨row, b, hrow, hb, _, _, _, htotal, hg, hc3'⟩
        have hget : c.rows.getD p.row (fun _ => none) = row := by
          rw [hc.rows_eq, List.getD_eq_getElem?_getD, hrow, Option.getD_some]
        have hratio := hvalid.ratio
        have hpositive := hvalid.c3
        rw [hg] at hratio
        rw [hc3'] at hpositive
        refine ⟨p, hc.dominated ▸ hp, ⟨?_, ?_⟩, ?_⟩
        · rw [hget, costOf_eq hb]
          omega
        · rw [hgain]
          omega
        · rw [extraOf, htotal, hextra, extraOf]
          omega
    have hprovider := c.provider_spec gain
    cases hbest : c.provider gain with
    | none =>
        rw [hbest] at hprovider
        refine Or.inl ⟨rfl, fun solution hsolution hvalid => ?_⟩
        rcases heligible solution hsolution hvalid with ⟨p, hp, he, _⟩
        exact hprovider p hp he
    | some d =>
        rw [hbest] at hprovider
        rcases hprovider with ⟨hd, he, hleast⟩
        have hmem : d ∈ plan.dominated := hc.dominated ▸ hd
        rcases hnode.provide hc.admissible hmem with
          ⟨row, b, hrow, hb, _, _, hone, htotal, hg, hc3'⟩
        have hget : c.rows.getD d.row (fun _ => none) = row := by
          rw [hc.rows_eq, List.getD_eq_getElem?_getD, hrow, Option.getD_some]
        have hcost := he.1
        rw [hget, costOf_eq hb] at hcost
        have hle := not_lt.1 hc3
        have hnew : 0 < c3Of rows (cur.set d.row 2) := by
          have hcount0 : 0 ≤ c3Of rows cur := c3Of_nonneg hc.admissible.nonneg hnode.oneHot
          omega
        have hextra' : extra + d.extra = extraOf rows plan.base (cur.set d.row 2) := by
          rw [extraOf, htotal, hextra, extraOf]
          omega
        have hgain' : gain - d.loss = gOf threshold rows (cur.set d.row 2) - c.g0 := by
          rw [hg, hgain]
          omega
        have hextraRun : checkedI64 (extra + d.extra) "provider extra cost" =
            .ok (extra + d.extra) := by
          rw [hextra']
          exact checkedI64_ok (hc.extra_range hone)
        have hgainRun : checkedSub gain (c.dominatedLoss d.row) "provider gain loss" =
            .ok (gain - d.loss) := by
          rw [hc.dominatedLoss_eq hd]
          refine checkedI128_ok ?_
          rw [hgain']
          exact hc.gain_range hone
        refine Or.inr ⟨cur.set d.row 2, extra + d.extra, gain - d.loss, ?_,
          hc.planned.repaired_iff.2 (Or.inr ⟨hle, d, hmem, rfl⟩), hone, hnew, hextra', by
            rw [hgain']; ring, fun solution hsolution hvalid => ?_⟩
        · dsimp only
          rw [hextraRun, hgainRun]
          rfl
        · rcases heligible solution hsolution hvalid with ⟨p, hp, hep, hextraEq⟩
          have hratio := he.2
          refine ⟨⟨hone, by omega, hnew⟩, ?_⟩
          rw [hextraEq]
          exact add_le_add_right (hleast p hp hep) extra

theorem Search.submit_spec (hc : Setting rows threshold plan c)
    (hnode : Node threshold rows plan.dominated cur []) {gain extra : Int}
    (hgain : gain = gOf threshold rows cur - c.g0) (hextra : extra = extraOf rows plan.base cur)
    (hreduced : ∀ solution, Repaired rows cur solution → Reduced rows threshold solution) :
    Triple (Inv rows threshold plan.base X)
      (c.submit cur gain extra (decide (0 < positiveM3Count rows cur)))
      (fun _ => Inv rows threshold plan.base fun x => X x ∨ ∃ solution,
        Repaired rows cur solution ∧ Valid rows threshold solution ∧
          x = extraOf rows plan.base solution) Never := by
  rcases Search.submit_offers hc hnode hgain hextra with
    ⟨hrun, hnone⟩ | ⟨candidate, extra', gain', hrun, hoffers⟩
  · rw [hrun]
    refine (count_spec _).post fun _ s hs => hs.or_false ?_
    rintro x ⟨solution, hsolution, hvalid, rfl⟩
    exact hnone solution hsolution hvalid
  · rw [hrun]
    refine (Search.offer_spec hoffers.oneHot hoffers.c3 (hreduced _ hoffers.repaired)
      hoffers.extra_eq hoffers.gain_eq).post fun _ s hs => hs.mono ?_
    rintro x (hx | ⟨solution, hsolution, hvalid, rfl⟩)
    · exact ⟨x, Or.inl hx, le_refl _⟩
    · rcases hoffers.least solution hsolution hvalid with ⟨hcandidate, hle⟩
      exact ⟨_, Or.inr ⟨hcandidate, rfl⟩, hle⟩

/-- What the arguments of a visit are. -/
structure Visiting (rows : List Row) (threshold : Int) (plan : Plan) (c : Search)
    (rest : List Decision) (depth : Nat) (gain cost m3Count : Int) (cur : List Method) :
    Prop where
  node : Node threshold rows plan.dominated cur rest
  drop : plan.decisions.drop depth = rest
  nonneg : 0 ≤ gain
  gain_eq : gain = gOf threshold rows cur - c.g0
  cost_eq : cost = extraOf rows plan.base cur
  m3Count_eq : m3Count = positiveM3Count rows cur
  reduced : ∀ U ∈ Covers.covers Decision.gain (c.required - gain) rest, ∀ solution,
    Repaired rows (upgrade 0 cur U) solution → Reduced rows threshold solution

variable {rest : List Decision} {d : Decision} {depth : Nat} {gain cost m3Count : Int}

/-- Leaving the next decision. -/
theorem Visiting.skip (h : Visiting rows threshold plan c (d :: rest) depth gain cost m3Count cur)
    (hshort : gain < c.required) :
    Visiting rows threshold plan c rest (depth + 1) gain cost m3Count cur where
  node := h.node.skip
  drop := by rw [← List.tail_drop, h.drop, List.tail_cons]
  nonneg := h.nonneg
  gain_eq := h.gain_eq
  cost_eq := h.cost_eq
  m3Count_eq := h.m3Count_eq
  reduced := fun U hU =>
    h.reduced U ((Covers.mem_covers_cons (not_le.2 (sub_pos.2 hshort))).2 (Or.inr hU))

/-- Taking the next decision. -/
theorem Visiting.take (hc : Setting rows threshold plan c)
    (h : Visiting rows threshold plan c (d :: rest) depth gain cost m3Count cur)
    (hshort : gain < c.required) :
    Visiting rows threshold plan c rest (depth + 1) (gain + d.gain) (cost + d.extra)
      (m3Count - c.providesM3 d) (cur.set d.row d.m12) where
  node := h.node.take
  drop := by rw [← List.tail_drop, h.drop, List.tail_cons]
  nonneg := add_nonneg h.nonneg (h.node.decision_range hc.admissible (by simp)).2.1
  gain_eq := by
    rw [h.node.g_take, h.gain_eq]
    ring
  cost_eq := by
    rw [extraOf, h.node.total_take, h.cost_eq, extraOf]
    ring
  m3Count_eq := by rw [h.node.count_take hc.rows_eq, h.m3Count_eq]
  reduced := fun U hU => h.reduced (d :: U) <|
    (Covers.mem_covers_cons (not_le.2 (sub_pos.2 hshort))).2 (Or.inl ⟨U, by
      rw [sub_sub]
      exact hU, rfl⟩)

/-- What completes a selection: it takes the next decision or leaves it. -/
theorem completions_cons (hshort : gain < c.required) {x : Int}
    (hx : Completions rows threshold plan.base cur (c.required - gain) (d :: rest) x) :
    Completions rows threshold plan.base (cur.set d.row d.m12) (c.required - (gain + d.gain))
        rest x ∨
      Completions rows threshold plan.base cur (c.required - gain) rest x := by
  rcases hx with ⟨U, hU, solution, hsolution⟩
  rcases (Covers.mem_covers_cons (not_le.2 (sub_pos.2 hshort))).1 hU with ⟨V, hV, rfl⟩ | hU
  · exact Or.inl ⟨V, by rw [← sub_sub]; exact hV, solution, hsolution⟩
  · exact Or.inr ⟨U, hU, solution, hsolution⟩

/-- A completion costs at least what its cover costs. -/
theorem Visiting.le_completion (hc : Setting rows threshold plan c)
    (h : Visiting rows threshold plan c rest depth gain cost m3Count cur) {x : Int}
    (hx : Completions rows threshold plan.base cur (c.required - gain) rest x) :
    ∃ U, U.Sublist rest ∧ c.required - gain ≤ Covers.sumOf Decision.gain U ∧
      cost + Covers.sumOf Decision.extra U ≤ x := by
  rcases hx with ⟨U, hU, solution, hsolution, _, rfl⟩
  rcases Covers.mem_covers hU with ⟨hsub, hreach⟩
  rcases (h.node.sublist hsub).upgrade with ⟨hnode, htotal, _⟩
  refine ⟨U, hsub, hreach, ?_⟩
  have hle : totalOf rows (upgrade 0 cur U) ≤ totalOf rows solution := by
    rcases hc.planned.repaired_iff.1 hsolution with ⟨_, rfl⟩ | ⟨_, p, hp, rfl⟩
    · exact le_refl _
    · rcases hnode.provide hc.admissible hp with ⟨_, b, _, _, _, hextra, _, htotal', _⟩
      rw [htotal']
      exact le_add_of_nonneg_right hextra
  rw [h.cost_eq, extraOf, extraOf]
  omega

/-- The Lagrangian bound holds for every completion. -/
theorem Visiting.le_of_gridBound (hc : Setting rows threshold plan c)
    (hlag : c.enableLagrangian = true)
    (h : Visiting rows threshold plan c rest depth gain cost m3Count cur)
    (hshort : gain < c.required) :
    ∃ bound, c.gridBound depth (c.required - gain) = .ok bound ∧
      checkedAdd cost bound "B2 current+bound" = .ok (cost + bound) ∧
      ∀ x, Completions rows threshold plan.base cur (c.required - gain) rest x →
        cost + bound ≤ x := by
  have hrequired := hc.required_range
  have hnonneg := h.nonneg
  rcases hc.gridBound_spec hlag depth (c.required - gain) ⟨by omega, by omega⟩ with
    ⟨bound, hbound, hrange, hcovers⟩
  rw [h.drop] at hcovers
  have hcost := h.cost_eq ▸ hc.extra_range h.node.oneHot
  have hsearch : searchBound = 1024 * (kScale * int64Max) := mul_assoc ..
  have hsmall : int64Max ≤ kScale * int64Max := by decide
  refine ⟨bound, hbound, checkedI128_ok ⟨by omega, by omega⟩, fun x hx => ?_⟩
  rcases h.le_completion hc hx with ⟨U, hU, hreach, hle⟩
  exact le_trans (add_le_add_right (hcovers U hU hreach) cost) hle

/-- The bound is computed without an error and only counted. -/
theorem Search.lagrangianLowerBound_spec {residual bound : Int} (hresidual : 0 < residual)
    (hbound : c.gridBound depth residual = .ok bound) {P : SearchState → Prop}
    (hcounted : ∀ s (m : Metrics), m.incumbentUpdateCount = s.metrics.incumbentUpdateCount →
      m.nodesVisited = s.metrics.nodesVisited → P s → P { s with metrics := m }) :
    Triple P (c.lagrangianLowerBound depth residual) (fun b s => b = bound ∧ P s) Never := by
  unfold Search.lagrangianLowerBound
  rw [if_neg (not_le.2 hresidual)]
  refine Triple.bind (Triple.modify (R := fun _ s => P s) fun s hs =>
    hcounted s _ rfl rfl hs) fun _ => ?_
  refine Triple.lift (fun b s hb hs => ?_) fun e s he => ?_
  · cases hbound.symm.trans hb
    exact ⟨rfl, hs⟩
  · cases hbound.symm.trans he

/-- The Lagrangian cut drops only what the incumbent beats. -/
theorem Search.lagrangianCuts_spec (hc : Setting rows threshold plan c)
    (hlag : c.enableLagrangian = true)
    (h : Visiting rows threshold plan c rest depth gain cost m3Count cur)
    (hshort : gain < c.required) :
    Triple (fun s => s.found = true ∧ Inv rows threshold plan.base X s)
      (c.lagrangianCuts depth gain cost)
      (fun b s => if b then Inv rows threshold plan.base (fun x => X x ∨
          Completions rows threshold plan.base cur (c.required - gain) rest x) s
        else Inv rows threshold plan.base X s) Never := by
  rcases h.le_of_gridBound hc hlag hshort with ⟨bound, hbound, htotal, hlow⟩
  have hlower := Search.lagrangianLowerBound_spec (sub_pos.2 hshort) hbound
    (P := fun s => s.found = true ∧ Inv rows threshold plan.base X s) fun _ _ _ _ hs => hs
  refine hlower.bind fun b => Triple.assuming fun hb => ?_
  subst hb
  refine Triple.lift_bind htotal (Triple.get_bind fun s₀ hs₀ => ?_)
  by_cases hcut : s₀.bestExtra ≤ cost + b
  · rw [if_pos hcut]
    refine Triple.bind (Triple.modify (R := fun _ s => Inv rows threshold plan.base (fun x => X x ∨
      Completions rows threshold plan.base cur (c.required - gain) rest x) s) ?_)
      fun _ => Triple.pure fun _ hs => by simpa using hs
    rintro s rfl
    -- What is dropped costs at least the bound more, so it is beaten already.
    exact Inv.or_of hs₀.2 fun x hx => ⟨hs₀.1, le_trans hcut (hlow x hx)⟩
  · rw [if_neg hcut]
    refine Triple.pure ?_
    rintro s rfl
    simpa using hs₀.2

/-- A selection that meets the cover is completed as it is. -/
theorem Search.submit_met (hc : Setting rows threshold plan c)
    (h : Visiting rows threshold plan c rest depth gain cost m3Count cur)
    (hmet : c.required ≤ gain) :
    Triple (Inv rows threshold plan.base X) (c.submit cur gain cost (decide (0 < m3Count)))
      (fun _ => Inv rows threshold plan.base fun x => X x ∨
        Completions rows threshold plan.base cur (c.required - gain) rest x) Never := by
  have hcovers := Covers.covers_of_nonpos Decision.gain (sub_nonpos.2 hmet) rest
  have hreduced := h.reduced [] (by rw [hcovers]; simp)
  rw [h.m3Count_eq]
  refine (Search.submit_spec hc (h.node.sublist (List.nil_sublist _)) h.gain_eq h.cost_eq
    hreduced).post fun _ s hs => hs.mono ?_
  rintro x (hx | ⟨U, hU, hsolution⟩)
  · exact ⟨x, Or.inl hx, le_refl _⟩
  · rw [hcovers, List.mem_singleton] at hU
    subst hU
    exact ⟨x, Or.inr hsolution, le_refl _⟩

/-- A visit ends early only when nothing is left that the incumbent does not beat. -/
theorem Search.settles_spec (hc : Setting rows threshold plan c)
    (h : Visiting rows threshold plan c rest depth gain cost m3Count cur) :
    Triple (Inv rows threshold plan.base X) (c.settles depth gain cost m3Count cur)
      (fun b s => if b then Inv rows threshold plan.base (fun x => X x ∨
          Completions rows threshold plan.base cur (c.required - gain) rest x) s
        else gain < c.required ∧ Inv rows threshold plan.base X s) Never := by
  refine Triple.get_bind fun s₀ hs₀ => ?_
  rw [if_neg (by rw [hs₀.1.1]; decide), if_neg (by rw [hc.maxNodes]; exact fun hn => hn.1 rfl)]
  refine Triple.bind (Triple.modify (R := fun _ s => Inv rows threshold plan.base X s ∧
    s.found = s₀.found ∧ s.bestExtra = s₀.bestExtra) ?_) fun _ => ?_
  · rintro s rfl
    exact ⟨hs₀, rfl, rfl⟩
  by_cases hmet : c.required ≤ gain
  · rw [if_pos hmet]
    refine Triple.bind (Triple.pre (count_spec _) fun s hs => hs.1) fun _ => ?_
    refine (Search.submit_met hc h hmet).bind fun _ => Triple.pure fun s hs => ?_
    rw [if_pos rfl]
    exact hs
  · rw [if_neg hmet]
    have hshort := not_le.1 hmet
    by_cases hfeasible : gain + c.suffixGain.getD depth 0 < c.required
    · rw [if_pos hfeasible]
      refine Triple.bind (Triple.pre (count_spec _) fun s hs => hs.1) fun _ =>
        Triple.pure fun s hs => ?_
      rw [if_pos rfl]
      -- The gains of all decisions that are left do not reach the sum.
      refine hs.or_false fun x hx => ?_
      rcases h.le_completion hc hx with ⟨U, hU, hreach, _⟩
      have hle : Covers.sumOf Decision.gain U ≤ Covers.sumOf Decision.gain rest :=
        (hU.map _).sum_le_sum fun y hy => by
          rcases List.mem_map.1 hy with ⟨d, hd, rfl⟩
          exact (h.node.decision_range hc.admissible hd).2.1
      rw [hc.gains depth, h.drop] at hfeasible
      omega
    · rw [if_neg hfeasible]
      by_cases hcost : s₀.found = true ∧ s₀.bestExtra ≤ cost
      · rw [if_pos hcost]
        refine Triple.bind (Triple.modify (R := fun _ s => Inv rows threshold plan.base X s ∧
          s.found = s₀.found ∧ s.bestExtra = s₀.bestExtra) fun _ hs => hs) fun _ =>
            Triple.pure fun s hs => ?_
        rw [if_pos rfl]
        refine hs.1.or_of fun x hx => ⟨hs.2.1.trans hcost.1, ?_⟩
        rcases h.le_completion hc hx with ⟨U, hU, _, hle⟩
        have hnonneg : 0 ≤ Covers.sumOf Decision.extra U := Covers.sumOf_nonneg fun d hd =>
          (h.node.decision_range hc.admissible (hU.subset hd)).1.1
        have hbest := hcost.2
        rw [← hs.2.2] at hbest
        omega
      · rw [if_neg hcost]
        by_cases hlag : s₀.found = true ∧ c.enableLagrangian = true
        · rw [if_pos hlag]
          refine (Search.lagrangianCuts_spec hc hlag.2 h hshort).weaken
            (fun s hs => ⟨hs.2.1.trans hlag.1, hs.1⟩) (fun b s hs => ?_) fun _ _ he => he
          cases b with
          | true => exact hs
          | false => exact ⟨hshort, hs⟩
        · rw [if_neg hlag]
          exact Triple.pure fun s hs => ⟨hshort, hs.1⟩

/-- A visit beats every selection that completes `cur`. -/
theorem Search.visit_spec (hc : Setting rows threshold plan c) :
    ∀ {rest : List Decision} {X : Int → Prop} {depth : Nat} {gain cost m3Count : Int}
      {cur : List Method}, Visiting rows threshold plan c rest depth gain cost m3Count cur →
      Triple (Inv rows threshold plan.base X) (c.visit rest depth gain cost m3Count cur)
        (fun _ => Inv rows threshold plan.base fun x => X x ∨
          Completions rows threshold plan.base cur (c.required - gain) rest x) Never := by
  intro rest
  induction rest with
  | nil =>
      intro X depth gain cost m3Count cur h
      refine (Search.settles_spec hc h).bind fun settled => ?_
      cases settled with
      | true => exact Triple.pure fun s hs => hs
      | false =>
          refine Triple.assuming fun hshort => ?_
          rw [if_neg Bool.false_ne_true]
          refine (count_spec _).post fun _ s hs => hs.or_false ?_
          rintro x ⟨U, hU, _⟩
          -- The residual is positive and nothing is left: there is no completion.
          rw [Covers.covers, if_neg (not_le.2 (sub_pos.2 hshort))] at hU
          cases hU
  | cons d rest ih =>
      intro X depth gain cost m3Count cur h
      refine (Search.settles_spec hc h).bind fun settled => ?_
      cases settled with
      | true => exact Triple.pure fun s hs => hs
      | false =>
          refine Triple.assuming fun hshort => ?_
          have htake := h.take hc hshort
          refine Triple.lift_bind (b := gain + d.gain) (checkedI128_ok (by
            rw [htake.gain_eq]
            exact hc.gain_range htake.node.oneHot)) ?_
          refine Triple.lift_bind (b := cost + d.extra) (checkedI64_ok (by
            rw [htake.cost_eq]
            exact hc.extra_range htake.node.oneHot)) ?_
          refine (ih htake).bind fun _ => Triple.get_bind fun s₀ hs₀ => ?_
          rw [if_neg (by rw [hs₀.1.1]; decide)]
          refine (ih (h.skip hshort)).weaken (fun s hs => hs ▸ hs₀) (fun _ s hs => ?_)
            fun _ _ he => he
          refine hs.mono ?_
          rintro x (hx | hx)
          · exact ⟨x, Or.inl (Or.inl hx), le_refl _⟩
          -- A completion takes the next decision or skips it.
          · rcases completions_cons hshort hx with hx | hx
            · exact ⟨x, Or.inl (Or.inr hx), le_refl _⟩
            · exact ⟨x, Or.inr hx, le_refl _⟩

/-! ## A whole search -/

/-- The loop before the search takes decisions only. -/
theorem Search.seed_spec (hc : Setting rows threshold plan c) :
    ∀ {rest : List Decision} {depth : Nat} {x : Search.Seed},
      Visiting rows threshold plan c rest depth x.gain x.cost x.m3 x.current →
      ∃ x', c.seed rest x = .ok x' ∧ ∃ rest' depth',
        Visiting rows threshold plan c rest' depth' x'.gain x'.cost x'.m3 x'.current := by
  intro rest
  induction rest with
  | nil => exact fun {depth x} h => ⟨x, rfl, [], depth, h⟩
  | cons d rest ih =>
      intro depth x h
      by_cases hshort : x.gain < c.required
      · have htake := h.take hc hshort
        rcases ih (x := ⟨x.gain + d.gain, x.cost + d.extra, x.m3 - c.providesM3 d,
          x.current.set d.row d.m12⟩) htake with ⟨x', hrun, hx'⟩
        have hgain : checkedAdd x.gain d.gain "seed gain" = .ok (x.gain + d.gain) := by
          refine checkedI128_ok ?_
          rw [htake.gain_eq]
          exact hc.gain_range htake.node.oneHot
        have hcost : checkedI64 (x.cost + d.extra) "seed cover cost" =
            .ok (x.cost + d.extra) := by
          refine checkedI64_ok ?_
          rw [htake.cost_eq]
          exact hc.extra_range htake.node.oneHot
        refine ⟨x', ?_, hx'⟩
        rw [Search.seed, if_pos hshort]
        exact bind_eq_ok.2 ⟨_, hgain, bind_eq_ok.2 ⟨_, hcost, hrun⟩⟩
      · exact ⟨x, if_neg hshort, _, depth, h⟩

theorem Setting.covers_required (hc : Setting rows threshold plan c) (l : List Decision) :
    Covers.covers Decision.gain c.required l =
      Covers.covers Decision.gain (-gOf threshold rows plan.base) l := by
  have hrequired := hc.required
  rw [hc.g0] at hrequired
  by_cases hneg : gOf threshold rows plan.base < 0
  · rw [hrequired, if_pos hneg]
  · rw [hrequired, if_neg hneg, Covers.covers_of_nonpos _ (le_refl 0),
      Covers.covers_of_nonpos _ (by omega)]

/-- The selections that the search is for are those that it can end with. -/
theorem Setting.reduced_iff (hc : Setting rows threshold plan c) (solution : List Method) :
    Reduced rows threshold solution ↔ ∃ U ∈ Covers.covers Decision.gain c.required plan.decisions,
      Repaired rows (upgrade 0 plan.base U) solution := by
  rw [hc.covers_required]
  constructor
  · rintro ⟨base, cur, hbase, hcovered, hrepaired⟩
    have heq : base = plan.base := by
      refine List.right_unique_forall₂' (fun row m m' hm hm' => ?_) hbase hc.planned.cheapest
      exact Option.some.inj (hm.symm.trans hm')
    subst heq
    rcases (hc.planned.covered _ _).1 hcovered with ⟨U, hU, rfl⟩
    exact ⟨U, hU, hrepaired⟩
  · rintro ⟨U, hU, hrepaired⟩
    exact ⟨plan.base, _, hc.planned.cheapest, (hc.planned.covered _ _).2 ⟨U, hU, rfl⟩, hrepaired⟩

theorem Setting.root (hc : Setting rows threshold plan c) :
    Visiting rows threshold plan c plan.decisions 0 0 0 (positiveM3Count rows plan.base)
      plan.base where
  node := hc.planned.root
  drop := rfl
  nonneg := le_refl 0
  gain_eq := by rw [hc.g0, sub_self]
  cost_eq := by rw [extraOf, sub_self]
  m3Count_eq := rfl
  reduced := fun U hU solution hsolution => by
    rw [sub_zero] at hU
    exact (hc.reduced_iff solution).2 ⟨U, hU, hsolution⟩

/-- After a search the incumbent beats every valid selection that the search is for. -/
theorem Search.run_spec (hc : Setting rows threshold plan c) :
    Triple (Inv rows threshold plan.base fun _ => False) (c.run plan.base)
      (fun _ => Inv rows threshold plan.base fun x => ∃ solution,
        Reduced rows threshold solution ∧ Valid rows threshold solution ∧
          x = extraOf rows plan.base solution) Never := by
  have hvisit : Triple (Inv rows threshold plan.base fun _ => False)
      (c.visit c.decisions 0 0 0 (positiveM3Count c.rows plan.base) plan.base)
      (fun _ => Inv rows threshold plan.base fun x => ∃ solution,
        Reduced rows threshold solution ∧ Valid rows threshold solution ∧
          x = extraOf rows plan.base solution) Never := by
    rw [hc.decisions, hc.rows_eq]
    refine (Search.visit_spec hc hc.root).post fun _ s hs => hs.mono ?_
    rintro x ⟨solution, hreduced, hvalid, rfl⟩
    rcases (hc.reduced_iff solution).1 hreduced with ⟨U, hU, hrepaired⟩
    rw [← sub_zero c.required] at hU
    exact ⟨_, Or.inr ⟨U, hU, solution, hrepaired, hvalid, rfl⟩, le_refl _⟩
  unfold Search.run
  dsimp only
  by_cases hrequired : 0 < c.required
  · rw [if_pos hrequired]
    rcases Search.seed_spec hc (x := ⟨0, 0, positiveM3Count rows plan.base, plan.base⟩)
      hc.root with ⟨x, hx, rest, depth, hvisiting⟩
    rw [← hc.rows_eq, ← hc.decisions] at hx
    refine Triple.lift_bind hx ?_
    by_cases hmet : c.required ≤ x.gain
    · rw [if_pos hmet]
      refine Triple.bind (Search.submit_met hc hvisiting hmet) fun _ => hvisit.pre ?_
      exact fun s hs => hs.mono fun x hx => hx.elim
    · rw [if_neg hmet]
      exact hvisit
  · rw [if_neg hrequired]
    exact hvisit

end Visits

end StructuredExact
end SociSgx

import SociSgx.Scalable.Optimizer

/-!
# Repair — the greedy repair ends

`repair` has no counter.  Every pass of its loop raises the linear contribution of one row, and a
row has at most three contributions, so that the number of contributions above the current ones,
`headroom`, bounds the passes that are left.
-/

namespace SociSgx
namespace Optimization
namespace Scalable

/-! ## One entry of a list -/

section Entries

variable {α β M : Type}

/-- A sum over two lists after one entry of the second has changed. -/
theorem sum_zipWith_set [AddCommMonoid M] (f : α → β → M) {xs : List α} {ys : List β} {i : Nat}
    {x : α} {y : β} (h : (xs.zip ys)[i]? = some (x, y)) (z : β) :
    (List.zipWith f xs (ys.set i z)).sum + f x y = (List.zipWith f xs ys).sum + f x z := by
  induction xs generalizing ys i with
  | nil => simp at h
  | cons x' xs ih =>
      cases ys with
      | nil => simp at h
      | cons y' ys =>
          cases i with
          | zero =>
              have heq : x' = x ∧ y' = y := by simpa using h
              rw [heq.1, heq.2, List.set_cons_zero, List.zipWith_cons_cons, List.zipWith_cons_cons,
                List.sum_cons, List.sum_cons]
              abel
          | succ i =>
              have hrest : (xs.zip ys)[i]? = some (x, y) := by simpa using h
              rw [List.set_cons_succ, List.zipWith_cons_cons, List.zipWith_cons_cons,
                List.sum_cons, List.sum_cons, add_assoc, add_assoc, ih hrest]

theorem forall₂_set {R : α → β → Prop} {xs : List α} {ys : List β} {i : Nat} {x : α} {y z : β}
    (h : List.Forall₂ R xs ys) (hi : (xs.zip ys)[i]? = some (x, y)) (hz : R x z) :
    List.Forall₂ R xs (ys.set i z) := by
  induction h generalizing i with
  | nil => simp at hi
  | @cons x' y' xs ys hhead hrest ih =>
      cases i with
      | zero =>
          have heq : x' = x ∧ y' = y := by simpa using hi
          rw [List.set_cons_zero, heq.1]
          exact List.Forall₂.cons hz hrest
      | succ i => exact List.Forall₂.cons hhead (ih (by simpa using hi))

/-- One more entry counts. -/
theorem countP_lt_countP {p q : α → Bool} {l : List α} {a : α} (ha : a ∈ l)
    (hpq : ∀ x, p x = true → q x = true) (hq : q a = true) (hp : ¬ p a = true) :
    l.countP p < l.countP q := by
  rcases List.append_of_mem ha with ⟨before, after, rfl⟩
  have hbefore : before.countP p ≤ before.countP q := List.countP_mono_left fun x _ => hpq x
  have hafter : after.countP p ≤ after.countP q := List.countP_mono_left fun x _ => hpq x
  rw [List.countP_append, List.countP_append, List.countP_cons_of_neg hp,
    List.countP_cons_of_pos hq]
  omega

end Entries

/-! ## Method vectors -/

/-- Every gene is an available method of its row. -/
abbrev Available (model : Model) (genes : List Method) : Prop :=
  List.Forall₂ (fun row method => (row method).isSome = true) model.costs genes

theorem chosen_of_available {row : CostRow Int} {method : Method}
    (h : (row method).isSome = true) :
    row (chosen row method).method = some (chosen row method).cost := by
  rcases Option.isSome_iff_exists.1 h with ⟨cost, hcost⟩
  simp [chosen, hcost]

theorem chosen_method {row : CostRow Int} {c : Choice Int} (hc : c ∈ options row) :
    chosen row c.method = c := by
  simp [chosen, mem_options.1 hc]

/-- The choices behind available genes are an assignment. -/
theorem choices_assignment {model : Model} {genes : List Method} (h : Available model genes) :
    IsAssignment model.costs (choices model genes) := by
  unfold Available at h
  unfold choices
  generalize model.costs = rows at h ⊢
  induction h with
  | nil => exact List.Forall₂.nil
  | cons hgene _ ih => exact List.Forall₂.cons (chosen_of_available hgene) ih

namespace Evaluator

variable {F : Type} (ev : Evaluator F)

/-! ## Evaluated individuals -/

/-- The contribution of a gene to `linear`. -/
def gain (row : CostRow Int) (method : Method) : Int :=
  contribution ev.model.scale ev.model.threshold (chosen row method)

theorem foldl_addChoice (leaf : List (Choice Int)) (sums : Sums) :
    leaf.foldl ev.addChoice sums =
      ⟨sums.total + total leaf, sums.c12 + c12 leaf, sums.c3 + c3 leaf,
        sums.linear + linear ev.model.scale ev.model.threshold leaf⟩ := by
  induction leaf generalizing sums with
  | nil => simp [total, c12, c3, linear]
  | cons c leaf ih =>
      rw [List.foldl_cons, ih]
      by_cases hmethod : c.method < 2
      · simp only [addChoice, if_pos hmethod, total, c12, c3, linear, sumOf_cons, contribution,
          factor, Sums.mk.injEq]
        refine ⟨?_, ?_, ?_, ?_⟩ <;> ring
      · simp only [addChoice, if_neg hmethod, total, c12, c3, linear, sumOf_cons, contribution,
          factor, Sums.mk.injEq]
        refine ⟨?_, ?_, ?_, ?_⟩ <;> ring

/-- The sums of an evaluated individual are those of its genes. -/
theorem evaluate_sums (x : Individual F) :
    (ev.evaluate x).toSums =
      ⟨total (choices ev.model x.genes), c12 (choices ev.model x.genes),
        c3 (choices ev.model x.genes),
        linear ev.model.scale ev.model.threshold (choices ev.model x.genes)⟩ := by
  change (choices ev.model x.genes).foldl ev.addChoice {} = _
  rw [foldl_addChoice]
  simp

theorem evaluate_linear (x : Individual F) :
    (ev.evaluate x).linear = (List.zipWith ev.gain ev.model.costs x.genes).sum := by
  rw [evaluate_sums, linear, sumOf, choices, List.map_zipWith]
  rfl

theorem evaluate_feasible (x : Individual F) :
    (ev.evaluate x).feasible = true ↔
      0 ≤ (ev.evaluate x).linear ∧ 0 < (ev.evaluate x).c3 ∧ 0 < (ev.evaluate x).total :=
  decide_eq_true_iff

@[simp] theorem evaluate_genes (x : Individual F) : (ev.evaluate x).genes = x.genes := rfl

/-- Nothing but the genes matters. -/
theorem evaluate_congr {x y : Individual F} (h : x.genes = y.genes) :
    ev.evaluate x = ev.evaluate y := by
  unfold evaluate
  rw [h]

/-! ## The moves -/

/-- The number of contributions of the row that are above the one of its gene. -/
def rowHeadroom (row : CostRow Int) (method : Method) : Nat :=
  (options row).countP fun c => decide (ev.gain row method < ev.gain row c.method)

def headroom (genes : List Method) : Nat :=
  (List.zipWith ev.rowHeadroom ev.model.costs genes).sum

/-- What the scan for a move accepts. -/
structure Candidate (genes : List Method) (row : CostRow Int) (gene : Method) (move : Move F) :
    Prop where
  entry : (ev.model.costs.zip genes)[move.row]? = some (row, gene)
  available : (row move.method).isSome = true
  different : move.method ≠ gene
  lastMethod3 : gene = 2 → method3Count genes ≠ 1
  gains : ev.gain row gene < ev.gain row move.method

theorem rowHeadroom_le {row : CostRow Int} {gene : Method} (h : (row gene).isSome = true) :
    ev.rowHeadroom row gene ≤ 2 := by
  have hmem : chosen row gene ∈ options row := mem_options.2 (chosen_of_available h)
  have hlength : (options row).length ≤ 3 :=
    (List.length_filterMap_le _ _).trans (by rw [List.length_finRange])
  have hself : ¬ decide (ev.gain row gene < ev.gain row (chosen row gene).method) = true := by
    simp [chosen]
  have hlt : (options row).countP (fun c => decide (ev.gain row gene < ev.gain row c.method)) <
      (options row).length := by
    refine lt_of_le_of_ne List.countP_le_length fun heq => hself ?_
    exact List.countP_eq_length.1 heq _ hmem
  unfold rowHeadroom
  omega

theorem headroom_le {genes : List Method} (h : Available ev.model genes) :
    ev.headroom genes ≤ 2 * ev.model.costs.length := by
  unfold headroom
  unfold Available at h
  generalize ev.model.costs = rows at h ⊢
  induction h with
  | nil => exact le_rfl
  | cons hgene _ ih =>
      have hrow := ev.rowHeadroom_le hgene
      rw [List.zipWith_cons_cons, List.sum_cons, List.length_cons]
      omega

namespace Candidate

variable {ev} {genes : List Method} {row : CostRow Int} {gene : Method} {move : Move F}
  (h : ev.Candidate genes row gene move)
include h

theorem set_available (hgenes : Available ev.model genes) :
    Available ev.model (genes.set move.row move.method) :=
  forall₂_set hgenes h.entry h.available

/-- A higher contribution leaves fewer ones above it. -/
theorem rowHeadroom_lt : ev.rowHeadroom row move.method < ev.rowHeadroom row gene := by
  have hmem : chosen row move.method ∈ options row :=
    mem_options.2 (chosen_of_available h.available)
  refine countP_lt_countP hmem (fun c hc => ?_) (decide_eq_true h.gains) ?_
  · exact decide_eq_true (h.gains.trans (of_decide_eq_true hc))
  · exact fun hself => lt_irrefl _ (of_decide_eq_true hself)

theorem headroom_lt : ev.headroom (genes.set move.row move.method) < ev.headroom genes := by
  have hsum := sum_zipWith_set ev.rowHeadroom h.entry move.method
  have hrow := h.rowHeadroom_lt
  unfold headroom
  omega

/-- A pass raises `linear`. -/
theorem linear_lt (x : Individual F) (hx : x.genes = genes) :
    (ev.evaluate x).linear < (ev.applyMove x move).linear := by
  have hsum := sum_zipWith_set ev.gain h.entry move.method
  have hgains := h.gains
  rw [applyMove, evaluate_linear, evaluate_linear, hx]
  dsimp only
  omega

/-- The last method 3 stays. -/
theorem method3Count_pos (hpos : 0 < method3Count genes) :
    0 < method3Count (genes.set move.row move.method) := by
  have hget : genes[move.row]? = some gene := (List.getElem?_zip_eq_some.1 h.entry).2
  rcases List.getElem?_eq_some_iff.1 hget with ⟨hlt, hgene⟩
  have hlast := h.lastMethod3
  unfold method3Count at hpos hlast ⊢
  rw [List.count_set hlt, hgene]
  by_cases htwo : gene = 2
  · have hne := hlast htwo
    simp only [htwo, beq_self_eq_true, if_true]
    omega
  · simp only [beq_iff_eq, htwo, if_false]
    omega

end Candidate

/-! ## The scan -/

variable [LinearOrder F]

theorem considerMove_candidate {genes : List Method} {row : CostRow Int} {gene : Method} {i : Nat}
    (hentry : (ev.model.costs.zip genes)[i]? = some (row, gene)) {next : Choice Int}
    (hnext : next ∈ options row) {best : Option (Move F)} {move : Move F}
    (h : ev.considerMove (method3Count genes) i (chosen row gene) best next = some move) :
    best = some move ∨ ev.Candidate genes row gene move := by
  unfold considerMove at h
  split at h
  · exact Or.inl h
  rename_i hdifferent
  split at h
  · exact Or.inl h
  rename_i hlast
  dsimp only at h
  split at h
  · exact Or.inl h
  rename_i hgain
  -- The three tests that were passed are the three conditions of a candidate.
  have hcandidate : ∀ move : Move F, move.row = i → move.method = next.method →
      ev.Candidate genes row gene move := by
    intro move hrow hmethod
    refine ⟨by rw [hrow]; exact hentry, ?_, ?_, ?_, ?_⟩
    · rw [hmethod, mem_options.1 hnext]
      rfl
    · rw [hmethod]
      exact hdifferent
    · intro hgene hcount
      refine hlast ⟨hgene, ?_, hcount⟩
      rw [← hgene]
      exact hdifferent
    · rw [hmethod, gain, gain, chosen_method hnext]
      unfold contribution
      exact sub_pos.1 (not_le.1 hgain)
  cases best with
  | none =>
      cases h
      exact Or.inr (hcandidate _ rfl rfl)
  | some found =>
      dsimp only at h
      split at h
      · cases h
        exact Or.inr (hcandidate _ rfl rfl)
      · exact Or.inl h

theorem bestMove_candidate {genes : List Method} {move : Move F}
    (h : ev.bestMove genes = some move) : ∃ row gene, ev.Candidate genes row gene move := by
  suffices hall : ∀ move, ev.bestMove genes = some move →
      ∃ row gene, ev.Candidate genes row gene move from hall move h
  unfold bestMove
  refine List.foldlRecOn (motive := fun best : Option (Move F) =>
    ∀ move, best = some move → ∃ row gene, ev.Candidate genes row gene move) _ _ ?_ ?_
  · intro move hmove
    cases hmove
  · intro best hbest item hitem
    have hentry : (ev.model.costs.zip genes)[item.2]? = some item.1 :=
      List.mem_zipIdx_iff_getElem?.1 hitem
    refine List.foldlRecOn (motive := fun best : Option (Move F) =>
      ∀ move, best = some move → ∃ row gene, ev.Candidate genes row gene move) _ _ hbest ?_
    intro best hbest next hnext move hmove
    rcases ev.considerMove_candidate hentry hnext hmove with hold | hnew
    · exact hbest move hold
    · exact ⟨_, _, hnew⟩

omit [LinearOrder F] in
theorem cheapestMethod3_entry {genes : List Method} {found : Nat × Int}
    (h : ev.cheapestMethod3 genes = some found) :
    ∃ row gene, (ev.model.costs.zip genes)[found.1]? = some (row, gene) ∧
      (row 2).isSome = true := by
  suffices hall : ∀ found, ev.cheapestMethod3 genes = some found →
      ∃ row gene, (ev.model.costs.zip genes)[found.1]? = some (row, gene) ∧
        (row 2).isSome = true from hall found h
  unfold cheapestMethod3
  refine List.foldlRecOn (motive := fun best : Option (Nat × Int) => ∀ found, best = some found →
    ∃ row gene, (ev.model.costs.zip genes)[found.1]? = some (row, gene) ∧
      (row 2).isSome = true) _ _ ?_ ?_
  · intro found hfound
    cases hfound
  · intro best hbest item hitem found hfound
    have hentry : (ev.model.costs.zip genes)[item.2]? = some item.1 :=
      List.mem_zipIdx_iff_getElem?.1 hitem
    cases hcost : item.1.1 2 with
    | none =>
        rw [hcost] at hfound
        exact hbest found hfound
    | some cost =>
        have hnew : ∀ delta : Int, (item.2, delta) = found → ∃ row gene,
            (ev.model.costs.zip genes)[found.1]? = some (row, gene) ∧ (row 2).isSome = true := by
          rintro delta rfl
          exact ⟨item.1.1, item.1.2, hentry, by rw [hcost]; rfl⟩
        rw [hcost] at hfound
        cases best with
        | none => exact hnew _ (Option.some.inj hfound)
        | some old =>
            dsimp only at hfound
            split at hfound
            · exact hnew _ (Option.some.inj hfound)
            · exact hbest found hfound

/-! ## The loop -/

/-- The genes are available, and the other members are those of the genes. -/
structure Consistent (x : Individual F) : Prop where
  available : Available ev.model x.genes
  evaluated : ev.evaluate x = x

/-- One gene is assigned, and a solution that has method 3 keeps it. -/
structure Changes (x y : Individual F) : Prop where
  gene : ∃ i method, y.genes = x.genes.set i method
  method3 : 0 < method3Count x.genes → 0 < method3Count y.genes

variable {ev}

omit [LinearOrder F] in
theorem Consistent.ofGenes {x : Individual F} (h : Available ev.model x.genes) :
    ev.Consistent (ev.evaluate x) :=
  ⟨h, ev.evaluate_congr rfl⟩

omit [LinearOrder F] in
theorem Consistent.feasible_iff {x : Individual F} (h : ev.Consistent x) :
    x.feasible = true ↔ 0 ≤ x.linear ∧ 0 < x.c3 ∧ 0 < x.total := by
  have hiff := ev.evaluate_feasible x
  rwa [h.evaluated] at hiff

/-- A pass of the loop. -/
theorem applyMove_spec {x : Individual F} (hx : ev.Consistent x) {move : Move F}
    (h : ev.bestMove x.genes = some move) :
    ev.Consistent (ev.applyMove x move) ∧ Changes x (ev.applyMove x move) ∧
      x.linear < (ev.applyMove x move).linear ∧
      ev.headroom (ev.applyMove x move).genes < ev.headroom x.genes := by
  rcases ev.bestMove_candidate h with ⟨row, gene, hmove⟩
  have hlinear := hmove.linear_lt x rfl
  rw [hx.evaluated] at hlinear
  exact ⟨.ofGenes (hmove.set_available hx.available),
    ⟨⟨move.row, move.method, rfl⟩, hmove.method3Count_pos⟩, hlinear, hmove.headroom_lt⟩

theorem repairLoop_stops {x : Individual F} (hlinear : ¬ x.linear < 0) (fuel : Nat) :
    ev.repairLoop fuel x = some ([], x.feasible) := by
  rw [repairLoop, if_neg hlinear]

theorem repairLoop_givesUp {x : Individual F} (hlinear : x.linear < 0)
    (hbest : ev.bestMove x.genes = none) (fuel : Nat) :
    ev.repairLoop fuel x = some ([], false) := by
  rw [repairLoop, if_pos hlinear, hbest]

theorem repairLoop_pass {x : Individual F} (hlinear : x.linear < 0) {move : Move F}
    (hbest : ev.bestMove x.genes = some move) (fuel : Nat) :
    ev.repairLoop (fuel + 1) x = (ev.repairLoop fuel (ev.applyMove x move)).map
      fun run => (ev.applyMove x move :: run.1, run.2) := by
  rw [repairLoop, if_pos hlinear, hbest]

/-- What the loop does when it starts from `x`. -/
structure LoopRun (ev : Evaluator F) (x : Individual F) (run : List (Individual F) × Bool) :
    Prop where
  bounded : run.1.length ≤ ev.headroom x.genes
  consistent : ∀ y ∈ run.1, ev.Consistent y
  passes : (x :: run.1).IsChain fun a b => Changes a b ∧ a.linear < b.linear
  answer : run.2 = true ↔ 0 ≤ (run.1.getLastD x).linear ∧ 0 < (run.1.getLastD x).c3 ∧
    0 < (run.1.getLastD x).total

omit [LinearOrder F] in
theorem LoopRun.ends {x : Individual F} (hx : ev.Consistent x) :
    LoopRun ev x ([], x.feasible) where
  bounded := Nat.zero_le _
  consistent := by simp
  passes := .singleton x
  answer := hx.feasible_iff

omit [LinearOrder F] in
theorem LoopRun.givesUp {x : Individual F} (hlinear : x.linear < 0) :
    LoopRun ev x ([], false) where
  bounded := Nat.zero_le _
  consistent := by simp
  passes := .singleton x
  answer := by
    simp only [List.getLastD_nil, Bool.false_eq_true, false_iff]
    exact fun hfeasible => absurd hfeasible.1 (not_le.2 hlinear)

omit [LinearOrder F] in
theorem LoopRun.cons {x y : Individual F} {run : List (Individual F) × Bool}
    (hy : ev.Consistent y) (hchanges : Changes x y) (hraises : x.linear < y.linear)
    (hless : ev.headroom y.genes < ev.headroom x.genes) (h : LoopRun ev y run) :
    LoopRun ev x (y :: run.1, run.2) where
  bounded := by
    have hbounded := h.bounded
    rw [List.length_cons]
    omega
  consistent := by
    rintro z (_ | ⟨_, hz⟩)
    · exact hy
    · exact h.consistent z hz
  passes := .cons_cons ⟨hchanges, hraises⟩ h.passes
  answer := by
    rw [List.getLastD_cons]
    exact h.answer

/-- The headroom is fuel enough for the loop: a pass leaves less of it. -/
theorem repairLoop_run (fuel : Nat) : ∀ {x : Individual F}, ev.Consistent x →
    ev.headroom x.genes ≤ fuel →
    ∃ run, ev.repairLoop fuel x = some run ∧ LoopRun ev x run := by
  induction fuel with
  | zero =>
      intro x hx hfuel
      by_cases hlinear : x.linear < 0
      · have hnone : ev.bestMove x.genes = none := by
          cases hbest : ev.bestMove x.genes with
          | none => rfl
          | some move =>
              have hless := (applyMove_spec hx hbest).2.2.2
              omega
        exact ⟨_, repairLoop_givesUp hlinear hnone 0, .givesUp hlinear⟩
      · exact ⟨_, repairLoop_stops hlinear 0, .ends hx⟩
  | succ fuel ih =>
      intro x hx hfuel
      by_cases hlinear : x.linear < 0
      · cases hbest : ev.bestMove x.genes with
        | none => exact ⟨_, repairLoop_givesUp hlinear hbest _, .givesUp hlinear⟩
        | some move =>
            rcases applyMove_spec hx hbest with ⟨hy, hchanges, hraises, hless⟩
            rcases ih hy (by omega) with ⟨run, hrun, hloop⟩
            refine ⟨_, ?_, hloop.cons hy hchanges hraises hless⟩
            rw [repairLoop_pass hlinear hbest, hrun]
            rfl
      · exact ⟨_, repairLoop_stops hlinear _, .ends hx⟩

/-! ## Repair -/

/-- What `repair` does: `rest` are the individuals after its changes of genes. -/
structure Repairs (ev : Evaluator F) (first : Individual F) (rest : List (Individual F))
    (answer : Bool) : Prop where
  bounded : rest.length ≤ 2 * ev.model.costs.length + 1
  consistent : ∀ y ∈ first :: rest, ev.Consistent y
  changes : (first :: rest).IsChain Changes
  /-- The first change may be the one that obtains a method 3; the others are passes. -/
  passes : (if first.c3 = 0 then rest else first :: rest).IsChain fun a b => a.linear < b.linear
  answer : answer = true ↔ 0 ≤ (rest.getLastD first).linear ∧ 0 < (rest.getLastD first).c3 ∧
    0 < (rest.getLastD first).total

/-- The greedy repair ends after at most two changes for a row and one more. -/
theorem repairRun_terminates {fuel : Nat} (hfuel : 2 * ev.model.costs.length ≤ fuel)
    {x : Individual F} (hx : Available ev.model x.genes) :
    ∃ rest answer, ev.repairRun fuel x = some (ev.evaluate x :: rest, answer) ∧
      Repairs ev (ev.evaluate x) rest answer := by
  have hfirst : ev.Consistent (ev.evaluate x) := .ofGenes hx
  have hroom := ev.headroom_le hx
  -- With no method 3 the run begins with the cheapest change to it, if there is one.
  by_cases hc3 : (ev.evaluate x).c3 = 0
  · cases hfound : ev.cheapestMethod3 x.genes with
    | none =>
        refine ⟨[], false, by simp [repairRun, hc3, hfound], Nat.zero_le _, ?_, .singleton _, ?_,
          ?_⟩
        · simpa using hfirst
        · rw [if_pos hc3]
          exact .nil
        · simp [hc3]
    | some found =>
        rcases ev.cheapestMethod3_entry hfound with ⟨row, gene, hentry, hrow⟩
        have hgenes := forall₂_set hx hentry hrow
        have hy : ev.Consistent (ev.evaluate { ev.evaluate x with
            genes := x.genes.set found.1 2 }) := .ofGenes hgenes
        have hchanges : Changes (ev.evaluate x)
            (ev.evaluate { ev.evaluate x with genes := x.genes.set found.1 2 }) := by
          refine ⟨⟨found.1, 2, rfl⟩, fun _ => ?_⟩
          have hlt := (List.getElem?_eq_some_iff.1 (List.getElem?_zip_eq_some.1 hentry).2).1
          exact List.count_pos_iff.2 (List.mem_set hlt 2)
        have hroom' := ev.headroom_le hgenes
        rcases repairLoop_run fuel hy (hroom'.trans hfuel) with ⟨run, hrun, hloop⟩
        have hbounded := hloop.bounded.trans hroom'
        refine ⟨ev.evaluate { ev.evaluate x with genes := x.genes.set found.1 2 } :: run.1, run.2,
          by simp [repairRun, hc3, hfound, hrun], ?_, ?_, ?_, ?_, ?_⟩
        · rw [List.length_cons]
          omega
        · rintro z (_ | ⟨_, _ | ⟨_, hz⟩⟩)
          · exact hfirst
          · exact hy
          · exact hloop.consistent z hz
        · exact .cons_cons hchanges (hloop.passes.imp fun _ _ h => h.1)
        · rw [if_pos hc3]
          exact hloop.passes.imp fun _ _ h => h.2
        · rw [List.getLastD_cons]
          exact hloop.answer
  · rcases repairLoop_run fuel hfirst (hroom.trans hfuel) with ⟨run, hrun, hloop⟩
    have hbounded := hloop.bounded.trans hroom
    refine ⟨run.1, run.2, by simp [repairRun, hc3, hrun], by omega, ?_, ?_, ?_, hloop.answer⟩
    · rintro z (_ | ⟨_, hz⟩)
      · exact hfirst
      · exact hloop.consistent z hz
    · exact hloop.passes.imp fun _ _ h => h.1
    · rw [if_neg hc3]
      exact hloop.passes.imp fun _ _ h => h.2

/-- More fuel changes nothing. -/
theorem repairLoop_mono {fuel : Nat} : ∀ {x : Individual F} {run : List (Individual F) × Bool}
    {fuel' : Nat}, ev.repairLoop fuel x = some run → fuel ≤ fuel' →
    ev.repairLoop fuel' x = some run := by
  induction fuel with
  | zero =>
      intro x run fuel' h _
      by_cases hlinear : x.linear < 0
      · cases hbest : ev.bestMove x.genes with
        | none => rwa [repairLoop_givesUp hlinear hbest] at h ⊢
        | some move =>
            rw [repairLoop, if_pos hlinear, hbest] at h
            cases h
      · rwa [repairLoop_stops hlinear] at h ⊢
  | succ fuel ih =>
      intro x run fuel' h hle
      rcases Nat.exists_eq_succ_of_ne_zero (show fuel' ≠ 0 by omega) with ⟨fuel', rfl⟩
      by_cases hlinear : x.linear < 0
      · cases hbest : ev.bestMove x.genes with
        | none => rwa [repairLoop_givesUp hlinear hbest] at h ⊢
        | some move =>
            rw [repairLoop_pass hlinear hbest, Option.map_eq_some_iff] at h ⊢
            rcases h with ⟨rest, hrest, hrun⟩
            exact ⟨rest, ih hrest (by omega), hrun⟩
      · rwa [repairLoop_stops hlinear] at h ⊢

theorem repairRun_mono {fuel fuel' : Nat} {x : Individual F}
    {run : List (Individual F) × Bool} (h : ev.repairRun fuel x = some run) (hle : fuel ≤ fuel') :
    ev.repairRun fuel' x = some run := by
  have hmap : ∀ {y : Individual F} {f : List (Individual F) × Bool → List (Individual F) × Bool},
      (ev.repairLoop fuel y).map f = some run → (ev.repairLoop fuel' y).map f = some run := by
    intro y f hy
    rcases Option.map_eq_some_iff.1 hy with ⟨rest, hrest, hrun⟩
    rw [repairLoop_mono hrest hle, Option.map_some, hrun]
  unfold repairRun at h ⊢
  dsimp only at h ⊢
  split at h
  · rename_i hc3
    rw [if_pos hc3]
    split at h
    · exact h
    · exact hmap h
  · rename_i hc3
    rw [if_neg hc3]
    exact hmap h

theorem repair_eq {x : Individual F} {rest : List (Individual F)} {answer : Bool}
    (h : ev.repairRun (2 * ev.model.costs.length) x = some (ev.evaluate x :: rest, answer)) :
    ev.repair x = (rest.getLastD (ev.evaluate x), answer) := by
  unfold repair
  rw [h]
  dsimp only
  rw [List.getLastD_cons]

/-- What the callers of `repair` use. -/
theorem repair_spec {x : Individual F} (hx : Available ev.model x.genes) :
    ev.Consistent (ev.repair x).1 ∧
      ((ev.repair x).2 = true ↔ (ev.repair x).1.feasible = true) := by
  rcases repairRun_terminates le_rfl hx with ⟨rest, answer, hrun, hrepairs⟩
  have hlast : ev.Consistent (rest.getLastD (ev.evaluate x)) :=
    hrepairs.consistent _ List.getLastD_mem_cons
  rw [repair_eq hrun]
  exact ⟨hlast, hrepairs.answer.trans hlast.feasible_iff.symm⟩

/-- `repair` ends after at most `2 n + 1` changes of genes, whatever `long double` does. -/
theorem repair_terminates {x : Individual F} (hx : Available ev.model x.genes) :
    ∃ rest answer, ev.repair x = (rest.getLastD (ev.evaluate x), answer) ∧
      (∀ fuel, 2 * ev.model.costs.length ≤ fuel →
        ev.repairRun fuel x = some (ev.evaluate x :: rest, answer)) ∧
      Repairs ev (ev.evaluate x) rest answer := by
  rcases repairRun_terminates le_rfl hx with ⟨rest, answer, hrun, hrepairs⟩
  exact ⟨rest, answer, repair_eq hrun, fun fuel hfuel => repairRun_mono hrun hfuel, hrepairs⟩

/-- Two rows without rounding; method 2 is available in neither. -/
def twoRows : Evaluator ℚ where
  model :=
    { costs := [![some 6000000, none, some 2000000], ![some 2000000, none, some 6000000]]
      threshold := 200000
      maxTotal := 12000000 }
  arithmetic := exact
  penalty := 12000001

theorem repair_terminates_twoRows :
    ∃ (rest : List (Individual ℚ)) (answer : Bool), twoRows.repair (twoRows.fresh [2, 2]) =
      (rest.getLastD (twoRows.evaluate (twoRows.fresh [2, 2])), answer) ∧ rest.length ≤ 5 := by
  have havailable : Available twoRows.model (twoRows.fresh [2, 2]).genes :=
    .cons rfl (.cons rfl .nil)
  rcases repair_terminates havailable with ⟨rest, answer, hrepair, _, hrepairs⟩
  exact ⟨rest, answer, hrepair, hrepairs.bounded⟩

end Evaluator

end Scalable
end Optimization
end SociSgx

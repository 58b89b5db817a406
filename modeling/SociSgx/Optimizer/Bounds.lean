import SociSgx.Optimizer.Assignment

/-!
# Bounds — why the cuts of the encrypted search are sound

The search cuts a node when its linear upper bound is negative, or when one of its objective lower
bounds exceeds the incumbent.  `currentSuffix` has one objective, the cost; `lagrangian` has one
per multiplier `mu`, namely `q * cost - mu * linear`, compared with `q` times the incumbent's cost.

`decisions` is the search on plain integers: what an exact and truthful run decides.
-/

namespace SociSgx
namespace Optimization

open BranchBound Secure

/-- `std::max` or `std::min` over a row; 0 for a row without methods. -/
def best (op : Int → Int → Int) : List Int → Int
  | [] => 0
  | x :: xs => xs.foldl op x

theorem foldl_max_ge (xs : List Int) (x : Int) :
    x ≤ xs.foldl max x ∧ ∀ y ∈ xs, y ≤ xs.foldl max x := by
  induction xs generalizing x with
  | nil => simp
  | cons z xs ih =>
      have hz := ih (max x z)
      refine ⟨(le_max_left x z).trans hz.1, ?_⟩
      intro y hy
      rcases List.mem_cons.1 hy with rfl | hy
      · exact (le_max_right x y).trans hz.1
      · exact hz.2 y hy

theorem foldl_min_le (xs : List Int) (x : Int) :
    xs.foldl min x ≤ x ∧ ∀ y ∈ xs, xs.foldl min x ≤ y := by
  induction xs generalizing x with
  | nil => simp
  | cons z xs ih =>
      have hz := ih (min x z)
      refine ⟨hz.1.trans (min_le_left x z), ?_⟩
      intro y hy
      rcases List.mem_cons.1 hy with rfl | hy
      · exact hz.1.trans (min_le_right x y)
      · exact hz.2 y hy

theorem le_best_max {xs : List Int} {y : Int} (hy : y ∈ xs) : y ≤ best max xs := by
  cases xs with
  | nil => cases hy
  | cons x xs =>
      rcases List.mem_cons.1 hy with rfl | hy
      · exact (foldl_max_ge xs y).1
      · exact (foldl_max_ge xs x).2 y hy

theorem best_min_le {xs : List Int} {y : Int} (hy : y ∈ xs) : best min xs ≤ y := by
  cases xs with
  | nil => cases hy
  | cons x xs =>
      rcases List.mem_cons.1 hy with rfl | hy
      · exact (foldl_min_le xs y).1
      · exact (foldl_min_le xs x).2 y hy

theorem best_append (op : Int → Int → Int) {xs : List Int} (hne : xs ≠ []) (y : Int) :
    best op (xs ++ [y]) = op (best op xs) y := by
  cases xs with
  | nil => exact absurd rfl hne
  | cons x xs => simp [best]

/-- `std::max` and `std::min` return one of their arguments. -/
def Selective (op : Int → Int → Int) : Prop :=
  ∀ x y, op x y = x ∨ op x y = y

theorem selective_max : Selective max := max_choice

theorem selective_min : Selective min := min_choice

theorem best_mem {op : Int → Int → Int} (hop : Selective op) {xs : List Int} (hne : xs ≠ []) :
    best op xs ∈ xs := by
  induction xs using List.reverseRecOn with
  | nil => exact absurd rfl hne
  | append_singleton xs y ih =>
      cases xs with
      | nil => simp [best]
      | cons x xs =>
          rw [best_append op (by simp)]
          rcases hop (best op (x :: xs)) y with h | h
          · rw [h]
            exact List.mem_append_left _ (ih (by simp))
          · rw [h]
            simp

/-- The best value of `f` over a row. -/
def rowBest (op : Int → Int → Int) (f : Choice Int → Int) (row : CostRow Int) : Int :=
  best op ((options row).map f)

/-- `max_linear_suffix[depth]`, `min_cost_suffix[depth]` or `lagrangian_suffix[depth][k]`. -/
def suffix (op : Int → Int → Int) (f : Choice Int → Int) (rows : List (CostRow Int)) : Int :=
  (rows.map (rowBest op f)).sum

@[simp] theorem suffix_nil (op : Int → Int → Int) (f : Choice Int → Int) : suffix op f [] = 0 :=
  rfl

@[simp] theorem suffix_cons (op : Int → Int → Int) (f : Choice Int → Int) (row : CostRow Int)
    (rows : List (CostRow Int)) :
    suffix op f (row :: rows) = rowBest op f row + suffix op f rows := by
  simp [suffix]

theorem sumOf_le_suffix (f : Choice Int → Int) {rows : List (CostRow Int)}
    {cs : List (Choice Int)} (h : List.Forall₂ (fun row c => c ∈ options row) rows cs) :
    sumOf f cs ≤ suffix max f rows := by
  induction h with
  | nil => simp
  | cons hc _ ih =>
      have hbest := le_best_max (List.mem_map_of_mem (f := f) hc)
      simp only [sumOf_cons, suffix_cons, rowBest]
      linarith

theorem suffix_le_sumOf (f : Choice Int → Int) {rows : List (CostRow Int)}
    {cs : List (Choice Int)} (h : List.Forall₂ (fun row c => c ∈ options row) rows cs) :
    suffix min f rows ≤ sumOf f cs := by
  induction h with
  | nil => simp
  | cons hc _ ih =>
      have hbest := best_min_le (List.mem_map_of_mem (f := f) hc)
      simp only [sumOf_cons, suffix_cons, rowBest]
      linarith

/-! ## Magnitudes -/

/-- The options of every row stay within the row's bound. -/
def Within (f : Choice Int → Int) (bound : CostRow Int → Int) (rows : List (CostRow Int)) : Prop :=
  ∀ row ∈ rows, 0 ≤ bound row ∧ ∀ c ∈ options row, |f c| ≤ bound row

section Magnitudes

variable {f : Choice Int → Int} {bound : CostRow Int → Int} {rows done rest : List (CostRow Int)}
  {path : List (Choice Int)}

theorem Within.tail {row : CostRow Int} (h : Within f bound (row :: rows)) :
    Within f bound rows :=
  fun row' hrow' => h row' (List.mem_cons_of_mem _ hrow')

theorem abs_sumOf_le (h : Within f bound rows) (hpath : IsAssignment rows path) :
    |sumOf f path| ≤ (rows.map bound).sum := by
  induction hpath with
  | nil => simp
  | @cons row c rows path hc _ ih =>
      have hhead := (h row (by simp)).2 c (mem_options.2 hc)
      rw [sumOf_cons, List.map_cons, List.sum_cons]
      exact (abs_add_le _ _).trans (add_le_add hhead (ih h.tail))

theorem abs_rowBest_le {op : Int → Int → Int} (hop : Selective op) {row : CostRow Int} {b : Int}
    (hb : 0 ≤ b) (h : ∀ c ∈ options row, |f c| ≤ b) : |rowBest op f row| ≤ b := by
  by_cases hnil : (options row).map f = []
  · rw [rowBest, hnil]
    simpa [best] using hb
  · rcases List.mem_map.1 (best_mem hop hnil) with ⟨c, hc, hbest⟩
    rw [rowBest, ← hbest]
    exact h c hc

theorem abs_suffix_le {op : Int → Int → Int} (hop : Selective op) (h : Within f bound rows) :
    |suffix op f rows| ≤ (rows.map bound).sum := by
  induction rows with
  | nil => simp
  | cons row rows ih =>
      have hrow := h row (by simp)
      rw [suffix_cons, List.map_cons, List.sum_cons]
      exact (abs_add_le _ _).trans
        (add_le_add (abs_rowBest_le hop hrow.1 hrow.2) (ih h.tail))

/-- What a node sums up: a choice in the rows above it, a best value in the rows below. -/
theorem abs_node_le {op : Int → Int → Int} (hop : Selective op) (h : Within f bound rows)
    (hsplit : rows = done ++ rest) (hpath : IsAssignment done path) :
    |sumOf f path + suffix op f rest| ≤ (rows.map bound).sum := by
  subst hsplit
  have habove := abs_sumOf_le (fun row hrow => h row (List.mem_append_left _ hrow)) hpath
  have hbelow := abs_suffix_le hop fun row hrow => h row (List.mem_append_right _ hrow)
  rw [List.map_append, List.sum_append]
  exact (abs_add_le _ _).trans (add_le_add habove hbelow)

end Magnitudes

/-! ## The two cost bounds -/

/-- Which lower bounds the search computes. -/
inductive CostBound where
  | currentSuffix
  | lagrangian (q : Int) (mu : List Int)

namespace CostBound

/-- The factor of the incumbent's cost. -/
def weight : CostBound → Int
  | currentSuffix => 1
  | lagrangian q _ => q

def multipliers : CostBound → List Int
  | currentSuffix => [0]
  | lagrangian _ mu => mu

/-- What a choice adds to the objective of a multiplier. -/
def score (weight scale threshold mu : Int) (c : Choice Int) : Int :=
  weight * c.cost - mu * contribution scale threshold c

/-- The weight is positive and the multipliers are not negative. -/
structure Valid (bound : CostBound) : Prop where
  weight : 0 < bound.weight
  multipliers : ∀ mu ∈ bound.multipliers, 0 ≤ mu
  nonempty : bound.multipliers ≠ []

theorem valid_currentSuffix : Valid currentSuffix where
  weight := by decide
  multipliers := by simp [CostBound.multipliers]
  nonempty := by simp [CostBound.multipliers]

variable (bound : CostBound) (scale threshold : Int)

/-- `cost_lowers` at a node. -/
def lowers (path : List (Choice Int)) (rest : List (CostRow Int)) : List Int :=
  bound.multipliers.map fun mu =>
    sumOf (score bound.weight scale threshold mu) path +
      suffix min (score bound.weight scale threshold mu) rest

/-- The plaintexts that `pruneNode` sees at a node. -/
def pruneInputs (inc : Option (List (Choice Int))) (path : List (Choice Int))
    (rest : List (CostRow Int)) : PruneInputs Int :=
  { linearUpper := linear scale threshold path + suffix max (contribution scale threshold) rest
    costLowers := if inc.isSome then bound.lowers scale threshold path rest else []
    hasIncumbent := inc.isSome
    incumbentCost := bound.weight * total (inc.getD []) }

/-- The plaintexts that `acceptCandidate` sees at a leaf. -/
def acceptInputs (inc : Option (List (Choice Int))) (path : List (Choice Int)) :
    AcceptInputs Int :=
  { linear := linear scale threshold path
    c3 := c3 path
    cost := total path
    c12 := c12 path
    hasIncumbent := inc.isSome
    incumbentCost := total (inc.getD [])
    incumbentC12 := c12 (inc.getD []) }

/-- The search on plain integers.  A leaf is never cut. -/
def decisions : Decisions (CostRow Int) (Choice Int) :=
  { prune := fun inc path rest =>
      !rest.isEmpty && (bound.pruneInputs scale threshold inc path rest).holds
    accept := fun inc path => (acceptInputs scale threshold inc path).holds }

variable {bound scale threshold}

theorem sumOf_score (scale threshold weight mu : Int) (path : List (Choice Int)) :
    sumOf (score weight scale threshold mu) path =
      weight * total path - mu * linear scale threshold path := by
  induction path with
  | nil => simp [total, linear]
  | cons c path ih =>
      simp only [total, linear, sumOf_cons, score] at ih ⊢
      linarith

/-- A node whose linear upper bound is negative has no feasible leaf. -/
theorem linear_le_upper (scale threshold : Int) {path leaf : List (Choice Int)}
    {rest : List (CostRow Int)}
    (h : leaf ∈ leaves options rest path) :
    linear scale threshold leaf ≤
      linear scale threshold path + suffix max (contribution scale threshold) rest := by
  rcases mem_leaves.1 h with ⟨cs, hcs, rfl⟩
  have hle := sumOf_le_suffix (contribution scale threshold) hcs
  simp only [linear, sumOf_append]
  linarith

/-- Each multiplier gives a lower bound of the weighted cost of the feasible leaves. -/
theorem lower_le (weight : Int) {mu : Int} (hmu : 0 ≤ mu) {path leaf : List (Choice Int)}
    {rest : List (CostRow Int)} (h : leaf ∈ leaves options rest path)
    (hfeasible : 0 ≤ linear scale threshold leaf) :
    sumOf (score weight scale threshold mu) path +
        suffix min (score weight scale threshold mu) rest ≤ weight * total leaf := by
  rcases mem_leaves.1 h with ⟨cs, hcs, rfl⟩
  have hle := suffix_le_sumOf (score weight scale threshold mu) hcs
  have hscore := sumOf_score scale threshold weight mu (path ++ cs)
  have hslack : 0 ≤ mu * linear scale threshold (path ++ cs) := mul_nonneg hmu hfeasible
  calc
    sumOf (score weight scale threshold mu) path +
          suffix min (score weight scale threshold mu) rest
        ≤ sumOf (score weight scale threshold mu) (path ++ cs) := by
          rw [sumOf_append]
          linarith
    _ = weight * total (path ++ cs) - mu * linear scale threshold (path ++ cs) := hscore
    _ ≤ weight * total (path ++ cs) := by linarith

theorem accept_iff {inc : Option (List (Choice Int))} {path : List (Choice Int)} :
    (bound.decisions scale threshold).accept inc path = true ↔
      Feasible scale threshold path ∧ ∀ b, inc = some b → key path < key b := by
  change (acceptInputs scale threshold inc path).holds = true ↔ _
  rw [AcceptInputs.holds_iff]
  cases inc with
  | none => simp [acceptInputs, Feasible]
  | some b => simp [acceptInputs, Feasible, key, Prod.Lex.toLex_lt_toLex]

theorem prune_iff {inc : Option (List (Choice Int))} {path : List (Choice Int)}
    {rest : List (CostRow Int)} :
    (bound.decisions scale threshold).prune inc path rest = true ↔ rest ≠ [] ∧
      (linear scale threshold path + suffix max (contribution scale threshold) rest < 0 ∨
        ∃ b, inc = some b ∧ ∃ lower ∈ bound.lowers scale threshold path rest,
          bound.weight * total b < lower) := by
  simp only [decisions, Bool.and_eq_true, PruneInputs.holds_iff]
  cases inc with
  | none => simp [pruneInputs]
  | some b => simp [pruneInputs]

/-- A cut loses no leaf that would be accepted. -/
theorem decisions_sound (hvalid : bound.Valid) :
    Sound options (bound.decisions scale threshold) := by
  intro inc path rest hprune leaf hleaf
  rw [Bool.eq_false_iff]
  intro haccept
  rcases accept_iff.1 haccept with ⟨hfeasible, hbetter⟩
  rcases (prune_iff.1 hprune).2 with hupper | ⟨b, rfl, lower, hmem, hcut⟩
  · have hle := linear_le_upper scale threshold hleaf
    have hnonneg := hfeasible.1
    omega
  · rcases List.mem_map.1 hmem with ⟨mu, hmu, rfl⟩
    have hle := lower_le bound.weight (hvalid.multipliers mu hmu) hleaf hfeasible.1
    have hcost : total leaf ≤ total b := by
      rcases (Prod.Lex.toLex_lt_toLex).1 (hbetter b rfl) with hlt | heq
      · exact hlt.le
      · exact heq.1.le
    have hweight : bound.weight * total leaf ≤ bound.weight * total b :=
      mul_le_mul_of_nonneg_left hcost hvalid.weight.le
    omega

theorem decisions_improves :
    Improves (Feasible scale threshold) key (bound.decisions scale threshold).accept where
  infeasible := by
    intro inc leaf hno
    rw [Bool.eq_false_iff]
    intro haccept
    exact hno (accept_iff.1 haccept).1
  none := by
    intro leaf hfeasible
    exact accept_iff.2 ⟨hfeasible, by simp⟩
  some := by
    intro inc leaf _ hfeasible
    rw [accept_iff]
    constructor
    · intro h
      exact h.2 inc rfl
    · rintro h
      refine ⟨hfeasible, ?_⟩
      rintro b ⟨⟩
      exact h

/-! ## The multiplier 0 -/

theorem foldl_min_mul {w : Int} (hw : 0 ≤ w) (xs : List Int) (x : Int) :
    (xs.map fun y => w * y).foldl min (w * x) = w * xs.foldl min x := by
  induction xs generalizing x with
  | nil => rfl
  | cons y xs ih =>
      rw [List.map_cons, List.foldl_cons, List.foldl_cons, ← ih, mul_min_of_nonneg _ _ hw]

theorem score_zero (w : Int) : score w scale threshold 0 = fun c => w * c.cost := by
  funext c
  simp [score]

theorem rowBest_score_zero {w : Int} (hw : 0 ≤ w) (row : CostRow Int) :
    rowBest min (score w scale threshold 0) row = w * rowBest min Choice.cost row := by
  unfold rowBest
  rw [score_zero]
  cases options row with
  | nil => simp [best]
  | cons c cs =>
      have hfold := foldl_min_mul hw (cs.map Choice.cost) c.cost
      rw [List.map_map] at hfold
      exact hfold

/-- With the multiplier 0 the lower bound is the weighted cost bound. -/
theorem lower_zero (scale threshold : Int) {w : Int} (hw : 0 ≤ w) (path : List (Choice Int))
    (rest : List (CostRow Int)) :
    sumOf (score w scale threshold 0) path + suffix min (score w scale threshold 0) rest =
      w * (total path + suffix min Choice.cost rest) := by
  have hsuffix : suffix min (score w scale threshold 0) rest = w * suffix min Choice.cost rest := by
    induction rest with
    | nil => simp
    | cons row rest ih => rw [suffix_cons, suffix_cons, ih, rowBest_score_zero hw, mul_add]
  rw [sumOf_score, hsuffix]
  ring

theorem lowers_currentSuffix (path : List (Choice Int)) (rest : List (CostRow Int)) :
    currentSuffix.lowers scale threshold path rest =
      [total path + suffix min Choice.cost rest] := by
  have hzero := lower_zero scale threshold (w := 1) (by decide) path rest
  rw [one_mul] at hzero
  simp only [lowers, multipliers, List.map_cons, List.map_nil]
  rw [← hzero]
  rfl

/-- A grid that contains 0 cuts wherever the suffix bound cuts. -/
theorem lagrangian_prunes {q : Int} {mu : List Int} (hq : 0 < q) (hzero : 0 ∈ mu)
    {inc : Option (List (Choice Int))} {path : List (Choice Int)} {rest : List (CostRow Int)}
    (h : (currentSuffix.decisions scale threshold).prune inc path rest = true) :
    ((lagrangian q mu).decisions scale threshold).prune inc path rest = true := by
  rw [prune_iff] at h ⊢
  rcases h with ⟨hrest, hupper | ⟨b, hinc, lower, hmem, hcut⟩⟩
  · exact ⟨hrest, Or.inl hupper⟩
  · rw [lowers_currentSuffix, List.mem_singleton] at hmem
    subst hmem
    refine ⟨hrest, Or.inr ⟨b, hinc, _, List.mem_map_of_mem hzero, ?_⟩⟩
    have hcost : total b < total path + suffix min Choice.cost rest := by
      simpa [weight] using hcut
    calc
      q * total b < q * (total path + suffix min Choice.cost rest) :=
        mul_lt_mul_of_pos_left hcost hq
      _ = _ := (lower_zero scale threshold hq.le path rest).symm

/-- The grid `{0}` decides like the suffix bound. -/
theorem lagrangian_zero_prune {q : Int} (hq : 0 < q) (inc : Option (List (Choice Int)))
    (path : List (Choice Int)) (rest : List (CostRow Int)) :
    ((lagrangian q [0]).decisions scale threshold).prune inc path rest =
      (currentSuffix.decisions scale threshold).prune inc path rest := by
  rw [Bool.eq_iff_iff]
  constructor
  · intro h
    rw [prune_iff] at h ⊢
    rcases h with ⟨hrest, hupper | ⟨b, hinc, lower, hmem, hcut⟩⟩
    · exact ⟨hrest, Or.inl hupper⟩
    · have hlower : lower = q * (total path + suffix min Choice.cost rest) := by
        rw [← lower_zero scale threshold hq.le]
        exact List.mem_singleton.1 hmem
      rw [hlower] at hcut
      have hcost : total b < total path + suffix min Choice.cost rest :=
        lt_of_mul_lt_mul_left hcut hq.le
      refine ⟨hrest, Or.inr ⟨b, hinc, total path + suffix min Choice.cost rest, ?_, ?_⟩⟩
      · rw [lowers_currentSuffix]
        exact List.mem_singleton_self _
      · simpa [weight] using hcost
  · exact lagrangian_prunes hq (List.mem_singleton_self 0)

/-! ## What the plain search finds -/

/-- The plain search keeps the optimal assignment, or nothing if there is no feasible one. -/
theorem explore_optimal (scale threshold : Int) (hvalid : bound.Valid) (rows : List (CostRow Int)) :
    match (explore options (bound.decisions scale threshold) rows [] {}).incumbent with
    | none => ∀ leaf, IsAssignment rows leaf → ¬ Feasible scale threshold leaf
    | some leaf => IsOptimal scale threshold rows leaf := by
  have hsound : Sound options (bound.decisions scale threshold) := decisions_sound hvalid
  have h := describes_explore hsound decisions_improves rows
  cases hinc : (explore options (bound.decisions scale threshold) rows [] {}).incumbent with
  | none =>
      rw [hinc] at h
      intro leaf hleaf
      exact h leaf (mem_leaves_iff.2 hleaf)
  | some leaf =>
      rw [hinc] at h
      exact isOptimal_of_firstLeast h

end CostBound
end Optimization
end SociSgx

import SociSgx.Optimizer.Bounds
import SociSgx.Optimizer.EncryptedSolver

/-!
# Preprocess — what the solver's tables decrypt to

Over an exact backend the tables of `preprocess` are ciphertexts of the plain bounds of
`Bounds.lean`.  A vector with an entry per multiplier is related to the list of multipliers, which
is `[0]` for the suffix bound.
-/

namespace SociSgx
namespace Optimization

open Exec Secure

variable {W C : Type} [CiphertextLike C]

/-- The bound that a grid stands for. -/
def boundOf : Option LagrangianGrid → CostBound
  | none => .currentSuffix
  | some grid => .lagrangian grid.q grid.mu

/-- The plaintexts that enter a secure comparison or multiplication are admissible, and so are the
batches. -/
structure OperandsFit (Fits : Int → Prop) (Batch : Nat → Prop) (bound : CostBound)
    (scale threshold : Int) (rows : List (CostRow Int)) : Prop where
  bits : Fits 0 ∧ Fits 1
  contributions : ∀ row ∈ rows, ∀ c ∈ options row, ∀ d ∈ options row,
    Fits (contribution scale threshold c) ∧
      Fits (contribution scale threshold c - contribution scale threshold d)
  scores : ∀ mu ∈ bound.multipliers, ∀ row ∈ rows, ∀ c ∈ options row, ∀ d ∈ options row,
    Fits (CostBound.score bound.weight scale threshold mu c) ∧
      Fits (CostBound.score bound.weight scale threshold mu c -
        CostBound.score bound.weight scale threshold mu d)
  uppers : ∀ done rest path, rows = done ++ rest → IsAssignment done path →
    Fits (linear scale threshold path + suffix max (contribution scale threshold) rest)
  lowers : ∀ done rest path, rows = done ++ rest → IsAssignment done path →
    ∀ x ∈ bound.lowers scale threshold path rest, Fits x
  results : ∀ leaf, IsAssignment rows leaf → Fits (bound.weight * total leaf) ∧
    Fits (total leaf) ∧ Fits (c12 leaf) ∧ Fits (c3 leaf) ∧ Fits (linear scale threshold leaf)
  batch : ∀ k, 1 ≤ k → k ≤ 5 ∨ k ≤ bound.multipliers.length + 1 → Batch k

/-! ## Rows of ciphertexts -/

def ChoiceHolds (D : C → Int → Prop) (c : Choice C) (d : Choice Int) : Prop :=
  c.method = d.method ∧ D c.cost d.cost

/-- The same methods are available, and the costs are ciphertexts of the plain ones. -/
def RowHolds (D : C → Int → Prop) (row : CostRow C) (plain : CostRow Int) : Prop :=
  ∀ m, Option.Rel D (row m) (plain m)

omit [CiphertextLike C] in
theorem options_hold {D : C → Int → Prop} {row : CostRow C} {plain : CostRow Int}
    (h : RowHolds D row plain) :
    List.Forall₂ (ChoiceHolds D) (options row) (options plain) :=
  options_rel h

/-! ## The best value of a row -/

/-- The best value so far: absent before the first method. -/
def BestHolds (D : C → Int → Prop) (op : Int → Int → Int) (xs : List Int) (current : Option C) :
    Prop :=
  (xs = [] ∧ current = none) ∨ (xs ≠ [] ∧ ∃ c, current = some c ∧ D c (best op xs))

section Tables

variable {ops : SecureOps W C} {D : C → Int → Prop} {Fits : Int → Prop} {Batch : Nat → Prop}
  {I : W → Prop}

omit [CiphertextLike C] in
theorem keepBest_spec {op : Int → Int → Int} (hop : Selective op) {call : C → C → SecureM W C}
    (hcall : ∀ {a b x y}, D a x → D b y → Fits x → Fits y → Fits (x - y) →
      Yields I (call a b) (fun c => D c (op x y)) Never)
    {xs : List Int} {y : Int} (hfit : ∀ u ∈ xs ++ [y], ∀ v ∈ xs ++ [y], Fits u ∧ Fits (u - v))
    {current : Option C} (hcurrent : BestHolds D op xs current) {value : C} (hvalue : D value y) :
    Yields I (keepBest call current value) (fun c => BestHolds D op (xs ++ [y]) (some c))
      Never := by
  rcases hcurrent with ⟨rfl, rfl⟩ | ⟨hne, c, rfl, hc⟩
  · exact Yields.pure (Or.inr ⟨by simp, value, rfl, hvalue⟩)
  · have hbest : best op xs ∈ xs ++ [y] := List.mem_append_left _ (best_mem hop hne)
    have hy : y ∈ xs ++ [y] := by simp
    refine (hcall hc hvalue (hfit _ hbest _ hy).1 (hfit _ hy _ hy).1 (hfit _ hbest _ hy).2).post
      fun d hd => ?_
    refine Or.inr ⟨by simp, d, rfl, ?_⟩
    rwa [best_append op hne]

omit [CiphertextLike C] in
theorem BestHolds.getD [Inhabited C] {op : Int → Int → Int} {xs : List Int} {current : Option C}
    (h : BestHolds D op xs current) (hne : xs ≠ []) : D (current.getD default) (best op xs) := by
  rcases h with ⟨hnil, _⟩ | ⟨_, c, rfl, hc⟩
  · exact absurd hnil hne
  · exact hc

/-- Sums of two vectors with an entry per member of `is`. -/
theorem zipAdd_spec (h : ExactOps ops D Fits Batch I) {ι : Type} {is : List ι} {a b : ι → Int}
    {cs ds : List C} (hcs : List.Forall₂ (fun c i => D c (a i)) cs is)
    (hds : List.Forall₂ (fun d i => D d (b i)) ds is) :
    Yields I ((cs.zip ds).mapM fun item => ops.add item.1 item.2)
      (fun sums => List.Forall₂ (fun c i => D c (a i + b i)) sums is) Never := by
  have hzip : List.Forall₂ (fun (item : C × C) i => D item.1 (a i) ∧ D item.2 (b i))
      (cs.zip ds) is := by
    induction hcs generalizing ds with
    | nil => simp
    | cons hc _ ih =>
        cases hds with
        | cons hd hds => exact List.Forall₂.cons ⟨hc, hd⟩ (ih hds)
  exact Yields.mapM hzip fun item i _ _ hitem => h.add hitem.1 hitem.2

/-! ## Tables and levels -/

variable {scale threshold : Int} {grid : Option LagrangianGrid}

/-- The objective of a multiplier. -/
abbrev objective (grid : Option LagrangianGrid) (scale threshold mu : Int) : Choice Int → Int :=
  CostBound.score (boundOf grid).weight scale threshold mu

structure EntryHolds (D : C → Int → Prop) (grid : Option LagrangianGrid)
    (scale threshold : Int) (entry : MethodEntry C) (c : Choice Int) : Prop where
  method : entry.method = c.method
  cost : D entry.cost c.cost
  linear : D entry.linear (contribution scale threshold c)
  scores : grid.isSome = true → List.Forall₂
    (fun s mu => D s (objective grid scale threshold mu c)) entry.scores (boundOf grid).multipliers

structure TableHolds (D : C → Int → Prop) (grid : Option LagrangianGrid)
    (scale threshold : Int) (table : RowTables C) (row : CostRow Int) : Prop where
  entries : List.Forall₂ (EntryHolds D grid scale threshold) table.entries (options row)
  maxLinear : D table.maxLinear (rowBest max (contribution scale threshold) row)
  lower : List.Forall₂ (fun c mu => D c (rowBest min (objective grid scale threshold mu) row))
    table.lower (boundOf grid).multipliers

structure LevelHolds (D : C → Int → Prop) (grid : Option LagrangianGrid)
    (scale threshold : Int) (level : Level C) (row : CostRow Int) (rest : List (CostRow Int)) :
    Prop where
  entries : List.Forall₂ (EntryHolds D grid scale threshold) level.entries (options row)
  maxLinearSuffix : D level.maxLinearSuffix
    (suffix max (contribution scale threshold) (row :: rest))
  lowerSuffix : List.Forall₂
    (fun c mu => D c (suffix min (objective grid scale threshold mu) (row :: rest)))
    level.lowerSuffix (boundOf grid).multipliers

/-- The levels of the rows from some depth on. -/
def LevelsHold (D : C → Int → Prop) (grid : Option LagrangianGrid) (scale threshold : Int) :
    List (Level C) → List (CostRow Int) → Prop
  | [], rows => rows = []
  | level :: levels, rows => ∃ row rest, rows = row :: rest ∧
      LevelHolds D grid scale threshold level row rest ∧
      LevelsHold D grid scale threshold levels rest

/-- A scan that has seen the options `done`. -/
structure ScanHolds (D : C → Int → Prop) (grid : Option LagrangianGrid)
    (scale threshold : Int) (done : List (Choice Int)) (scan : RowScan C) : Prop where
  entries : List.Forall₂ (EntryHolds D grid scale threshold) scan.entries done
  maximum : BestHolds D max (done.map (contribution scale threshold)) scan.maximum
  minimum : grid = none → BestHolds D min (done.map Choice.cost) scan.minimum

/-- The operands of a row are admissible, also among the options seen so far. -/
theorem fits_of_subset {f : Choice Int → Int} {row : CostRow Int}
    (hfit : ∀ c ∈ options row, ∀ d ∈ options row, Fits (f c) ∧ Fits (f c - f d))
    {part : List (Choice Int)} (hpart : part ⊆ options row) :
    ∀ u ∈ part.map f, ∀ v ∈ part.map f, Fits u ∧ Fits (u - v) := by
  intro u hu v hv
  rcases List.mem_map.1 hu with ⟨c, hc, rfl⟩
  rcases List.mem_map.1 hv with ⟨d, hd, rfl⟩
  exact hfit c (hpart hc) d (hpart hd)

theorem scores_spec (h : ExactOps ops D Fits Batch I) {g : LagrangianGrid} {c : Choice Int}
    {contributionC scaledCost : C}
    (hcontribution : D contributionC (contribution scale threshold c))
    (hscaled : D scaledCost (g.q * c.cost)) :
    Yields I (g.mu.mapM fun mu =>
        if mu = 0 then pure scaledCost
        else do
          let product ← ops.scalarMul contributionC mu
          ops.sub scaledCost product)
      (fun scores => List.Forall₂
        (fun s mu => D s (CostBound.score g.q scale threshold mu c)) scores g.mu) Never := by
  refine Yields.mapM (A := fun a mu => a = mu) (List.forall₂_same.2 fun _ _ => rfl) ?_
  rintro a mu _ _ rfl
  by_cases hzero : a = 0
  · rw [if_pos hzero]
    subst hzero
    exact Yields.pure (by simpa [CostBound.score] using hscaled)
  · rw [if_neg hzero]
    refine (h.scalarMul a hcontribution).bind fun product hproduct => ?_
    exact h.sub hscaled hproduct

theorem scanMethod_spec (h : ExactOps ops D Fits Batch I) {rows : List (CostRow Int)}
    (hfit : OperandsFit Fits Batch (boundOf grid) scale threshold rows) {row : CostRow Int}
    (hrow : row ∈ rows) {done rest : List (Choice Int)} {c : Choice Int}
    (hsplit : options row = done ++ c :: rest) {entry : Choice C} (hentry : ChoiceHolds D entry c)
    {scan : RowScan C} (hscan : ScanHolds D grid scale threshold done scan) :
    Yields I (scanMethod ops grid (scale - threshold) (-threshold) scan entry)
      (ScanHolds D grid scale threshold (done ++ [c])) Never := by
  have hpart : done ++ [c] ⊆ options row := by
    rw [hsplit]
    intro x hx
    simp only [List.mem_append, List.mem_cons] at hx ⊢
    tauto
  have h0 := hfit.bits.1
  have h1 := hfit.bits.2
  have hlinear := fits_of_subset (hfit.contributions row hrow) hpart
  unfold scanMethod
  refine (h.scalarMul (if entry.method < 2 then scale - threshold else -threshold)
    hentry.2).bind fun contributionC hcontribution => ?_
  rw [hentry.1] at hcontribution
  change D contributionC (contribution scale threshold c) at hcontribution
  rw [List.map_append] at hlinear
  refine (keepBest_spec selective_max (fun ha hb hx hy hxy => h.max ha hb h0 h1 hx hy hxy)
    hlinear hscan.maximum hcontribution).bind fun maximum hmaximum => ?_
  cases grid with
  -- Without a grid the lower bound is of the costs themselves.
  | none =>
      have hrowCosts : ∀ d ∈ options row, ∀ e ∈ options row,
          Fits d.cost ∧ Fits (d.cost - e.cost) := by
        intro d hd e he
        have hscore := hfit.scores 0 (List.mem_singleton_self 0) row hrow d hd e he
        simpa [boundOf, CostBound.score, CostBound.weight] using hscore
      have hcosts := fits_of_subset hrowCosts hpart
      rw [List.map_append] at hcosts
      refine (keepBest_spec selective_min (fun ha hb hx hy hxy => h.min ha hb h0 h1 hx hy hxy)
        hcosts (hscan.minimum rfl) hentry.2).bind fun minimum hminimum => ?_
      refine Yields.pure ⟨?_, ?_, fun _ => ?_⟩
      · exact List.rel_append hscan.entries (List.Forall₂.cons
          ⟨hentry.1, hentry.2, hcontribution, by simp⟩ List.Forall₂.nil)
      · rwa [List.map_append]
      · rwa [List.map_append]
  -- With one there is a score for each multiplier.
  | some g =>
      refine (h.scalarMul g.q hentry.2).bind fun scaledCost hscaled => ?_
      refine (scores_spec h hcontribution hscaled).bind fun scores hscores => ?_
      refine Yields.pure ⟨?_, ?_, by simp⟩
      · exact List.rel_append hscan.entries (List.Forall₂.cons
          ⟨hentry.1, hentry.2, hcontribution, fun _ => hscores⟩ List.Forall₂.nil)
      · rwa [List.map_append]

/-- The scores of one multiplier over the entries seen so far. -/
theorem lagrangianLower_spec (h : ExactOps ops D Fits Batch I) {rows : List (CostRow Int)}
    {g : LagrangianGrid} (hfit : OperandsFit Fits Batch (boundOf (some g)) scale threshold rows)
    {row : CostRow Int} (hrow : row ∈ rows) (hne : options row ≠ [])
    {entries : List (MethodEntry C)}
    (hentries : List.Forall₂ (EntryHolds D (some g) scale threshold) entries (options row))
    {k : Nat} (hk : k < g.mu.length) :
    Yields I (lagrangianLower ops entries k)
      (fun c => D c (rowBest min (objective (some g) scale threshold (g.mu.get ⟨k, hk⟩)) row))
      Never := by
  have h0 := hfit.bits.1
  have h1 := hfit.bits.2
  have hmu : g.mu.get ⟨k, hk⟩ ∈ (boundOf (some g)).multipliers := List.get_mem _ _
  unfold lagrangianLower
  refine Triple.bind (Yields.foldlM
    (fun done lower => BestHolds D min
      (done.map (objective (some g) scale threshold (g.mu.get ⟨k, hk⟩))) lower) hentries
    ?_ (Or.inl ⟨rfl, rfl⟩)) ?_
  · intro done c rest entry lower hsplit hentry hlower
    have hpart : done ++ [c] ⊆ options row := by
      rw [hsplit]
      intro x hx
      simp only [List.mem_append, List.mem_cons] at hx ⊢
      tauto
    have hscore := fits_of_subset (hfit.scores _ hmu row hrow) hpart
    rw [List.map_append] at hscore
    -- Score `k` of an entry belongs to multiplier `k` of the grid.
    have hvalue : D (entry.scores.getD k default)
        (objective (some g) scale threshold (g.mu.get ⟨k, hk⟩) c) := by
      have hscores := hentry.scores rfl
      have hlen : k < entry.scores.length := by
        rw [hscores.length_eq]
        exact hk
      have hget : entry.scores.getD k default = entry.scores.get ⟨k, hlen⟩ := by
        simp [List.getD, hlen]
      rw [hget]
      exact hscores.get hlen hk
    refine (keepBest_spec selective_min (fun ha hb hx hy hxy => h.min ha hb h0 h1 hx hy hxy)
      hscore hlower hvalue).bind fun next hnext => ?_
    exact Yields.pure (by rwa [List.map_append])
  · intro lower
    refine Triple.assuming fun hlower => ?_
    exact Yields.pure (hlower.getD (by simpa using hne))

theorem preprocessRow_spec (h : ExactOps ops D Fits Batch I) {rows : List (CostRow Int)}
    (hfit : OperandsFit Fits Batch (boundOf grid) scale threshold rows) {plain : CostRow Int}
    (hrow : plain ∈ rows) (hne : options plain ≠ []) {row : CostRow C}
    (hholds : RowHolds D row plain) :
    Yields I (preprocessRow ops grid (scale - threshold) (-threshold) row)
      (fun table => TableHolds D grid scale threshold table plain) Never := by
  unfold preprocessRow
  refine Triple.bind (Yields.foldlM (ScanHolds D grid scale threshold) (options_hold hholds)
    (fun done c rest entry scan hsplit hentry hscan =>
      scanMethod_spec h hfit hrow hsplit hentry hscan)
    ⟨List.Forall₂.nil, Or.inl ⟨rfl, rfl⟩, fun _ => Or.inl ⟨rfl, rfl⟩⟩) fun scan => ?_
  refine Triple.assuming fun hscan => ?_
  have hmax := hscan.maximum.getD (by simpa using hne)
  cases grid with
  | none =>
      have hmin := (hscan.minimum rfl).getD (by simpa using hne)
      refine Triple.bind (Yields.pure (R := fun lower => lower = [scan.minimum.getD default]) rfl)
        fun lower => Triple.assuming fun hlower => ?_
      subst hlower
      refine Yields.pure ⟨hscan.entries, hmax, List.Forall₂.cons ?_ List.Forall₂.nil⟩
      have hcost : objective none scale threshold 0 = Choice.cost := by
        funext c
        simp [objective, CostBound.score, boundOf, CostBound.weight]
      rwa [hcost]
  | some g =>
      -- The loop over the indices of the grid is one over its multipliers.
      have hindices : List.Forall₂ (fun k mu => ∃ hk : k < g.mu.length, mu = g.mu.get ⟨k, hk⟩)
          (List.range g.mu.length) g.mu := by
        rw [List.forall₂_iff_get]
        refine ⟨by simp, fun i hi hi' => ⟨by simpa using hi', by simp⟩⟩
      refine Triple.bind (Yields.mapM
        (S := fun c mu => D c (rowBest min (objective (some g) scale threshold mu) plain))
        hindices ?_) fun lower => Triple.assuming fun hlower => ?_
      · rintro k mu _ _ ⟨hk, rfl⟩
        exact lagrangianLower_spec h hfit hrow hne hscan.entries hk
      · exact Yields.pure ⟨hscan.entries, hmax, hlower⟩

/-- The suffix sums of vectors with an entry per member of `is`. -/
def SuffixesHold (D : C → Int → Prop) {ι : Type} (is : List ι) (op : Int → Int → Int)
    (f : ι → Choice Int → Int) : List (List C) → List (CostRow Int) → Prop
  | [], rows => rows = []
  | cs :: rest, rows => ∃ row rows', rows = row :: rows' ∧
      List.Forall₂ (fun c i => D c (suffix op (f i) (row :: rows'))) cs is ∧
      SuffixesHold D is op f rest rows'

theorem suffixSums_spec (h : ExactOps ops D Fits Batch I) {ι : Type} {is : List ι}
    {op : Int → Int → Int} {f : ι → Choice Int → Int} {zeros : List C}
    (hzeros : List.Forall₂ (fun c _ => D c 0) zeros is) {values : List (List C)}
    {rows : List (CostRow Int)}
    (hvalues : List.Forall₂ (fun cs row =>
      List.Forall₂ (fun c i => D c (rowBest op (f i) row)) cs is) values rows) :
    Yields I (suffixSums ops zeros values) (fun sums => SuffixesHold D is op f sums rows)
      Never := by
  induction hvalues with
  | nil => exact Yields.pure rfl
  | @cons cs row css rows hcs _ ih =>
      refine Yields.bind ih fun suffixes hsuffixes => ?_
      have hnext : List.Forall₂ (fun c i => D c (suffix op (f i) rows))
          (suffixes.headD zeros) is := by
        cases suffixes with
        | nil =>
            have hrows : rows = [] := hsuffixes
            subst hrows
            exact hzeros
        | cons next suffixes =>
            rcases hsuffixes with ⟨row', rows', rfl, hnext, _⟩
            exact hnext
      refine (zipAdd_spec h hcs hnext).bind fun sums hsums => ?_
      refine Yields.pure ⟨row, rows, rfl, ?_, hsuffixes⟩
      simpa using hsums

/-- The levels assembled from the tables and the suffix sums. -/
theorem levels_hold {tables : List (RowTables C)} {rows : List (CostRow Int)}
    (htables : List.Forall₂ (TableHolds D grid scale threshold) tables rows) :
    ∀ {linearSuffix lowerSuffix : List (List C)},
      SuffixesHold D [()] max (fun _ => contribution scale threshold) linearSuffix rows →
      SuffixesHold D (boundOf grid).multipliers min (objective grid scale threshold)
        lowerSuffix rows →
      LevelsHold D grid scale threshold
        ((tables.zip (linearSuffix.zip lowerSuffix)).map fun entry =>
          ⟨entry.1.entries, entry.2.1.headD default, entry.2.2⟩) rows := by
  induction htables with
  | nil =>
      intro linearSuffix lowerSuffix _ _
      exact rfl
  | cons htable _ ih =>
      intro linearSuffix lowerSuffix hlinear hlower
      cases linearSuffix with
      | nil => cases hlinear
      | cons linear linearSuffix =>
          cases lowerSuffix with
          | nil => cases hlower
          | cons lower lowerSuffix =>
              rcases hlinear with ⟨row, rest, heq, hl, hlrest⟩
              rcases hlower with ⟨row', rest', heq', hb, hbrest⟩
              cases heq
              cases heq'
              refine ⟨_, _, rfl, ⟨htable.entries, ?_, hb⟩, ih hlrest hbrest⟩
              cases hl with
              | cons hhead _ => exact hhead

theorem length_multipliers : (boundOf grid).multipliers.length = gridSize grid := by
  cases grid <;> rfl

/-- The levels of the search are ciphertexts of the plain bounds. -/
theorem preprocess_spec (h : ExactOps ops D Fits Batch I) {rows : List (CostRow Int)}
    (hfit : OperandsFit Fits Batch (boundOf grid) scale threshold rows)
    (hne : ∀ row ∈ rows, options row ≠ []) {costs : List (CostRow C)}
    (hcosts : List.Forall₂ (RowHolds D) costs rows) {zero : C} (hzero : D zero 0) :
    Yields I (preprocess ops grid (scale - threshold) (-threshold) zero costs)
      (fun levels => LevelsHold D grid scale threshold levels rows) Never := by
  unfold preprocess
  refine Triple.bind (Yields.mapM (S := TableHolds D grid scale threshold) hcosts
    fun row plain _ hplain hholds => preprocessRow_spec h hfit hplain (hne plain hplain) hholds)
    fun tables => Triple.assuming fun htables => ?_
  have hzeros : List.Forall₂ (fun c (_ : Int) => D c 0)
      (List.replicate (gridSize grid) zero) (boundOf grid).multipliers := by
    rw [← length_multipliers]
    induction (boundOf grid).multipliers with
    | nil => exact List.Forall₂.nil
    | cons mu mus ih => exact List.Forall₂.cons hzero ih
  have hlower : List.Forall₂ (fun cs row => List.Forall₂
      (fun c mu => D c (rowBest min (objective grid scale threshold mu) row)) cs
      (boundOf grid).multipliers) (tables.map RowTables.lower) rows := by
    rw [List.forall₂_map_left_iff]
    exact htables.imp fun _ _ htable => htable.lower
  have hmax : List.Forall₂ (fun cs row => List.Forall₂
      (fun c (_ : Unit) => D c (rowBest max (contribution scale threshold) row)) cs [()])
      (tables.map fun table => [table.maxLinear]) rows := by
    rw [List.forall₂_map_left_iff]
    exact htables.imp fun _ _ htable => List.Forall₂.cons htable.maxLinear List.Forall₂.nil
  refine (suffixSums_spec h hzeros hlower).bind fun lowerSuffix hlowerSuffix => ?_
  refine (suffixSums_spec h (f := fun _ => contribution scale threshold)
    (List.Forall₂.cons hzero List.Forall₂.nil) hmax).bind fun linearSuffix hlinearSuffix => ?_
  exact Yields.pure (levels_hold htables hlinearSuffix hlowerSuffix)

end Tables
end Optimization
end SociSgx

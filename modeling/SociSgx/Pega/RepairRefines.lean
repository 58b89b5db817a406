import SociSgx.Pega.Repair
import SociSgx.Pega.OrderRefines
import SociSgx.Scalable.Repair

/-!
# RepairRefines — the masked rounds replay the greedy repair

With positive costs a round of PEGA's `repair` makes the change that a pass of the plaintext repair
makes: the cheapest change to method 3 while there is none, and the change of the least ratio after
that.  Where the plaintext repair has ended, the remaining rounds change nothing.
-/

namespace SociSgx
namespace Optimization

open Exec Secure CountedOps Scalable Scalable.Evaluator

namespace Plain

/-- The available costs are positive. -/
def Positive (p : Plain) : Prop :=
  ∀ row ∈ p.costs, ∀ c ∈ options row, 0 < c.cost

variable {p : Plain}

/-! ## Targets -/

/-- A change that a scan looks at. -/
abbrev Target := RowGene × Choice Int

/-- The order in which a scan meets the targets. -/
def Target.key (target : Target) : Nat ×ₗ Method :=
  toLex (target.1.2, target.2.method)

variable (p) in
def targets (genes : List Method) : List Target :=
  (p.rowGenes genes).flatMap fun item => (options item.1.1).map fun c => (item, c)

theorem mem_targets {genes : List Method} {target : Target} (h : target ∈ p.targets genes) :
    target.1 ∈ p.rowGenes genes ∧ target.2 ∈ options target.1.1.1 := by
  rcases List.mem_flatMap.1 h with ⟨item, hitem, hmem⟩
  rcases List.mem_map.1 hmem with ⟨c, hc, rfl⟩
  exact ⟨hitem, hc⟩

/-- A scan over the rows and their options is a scan over the targets. -/
theorem foldl_targets {β : Type} (f : β → Target → β) (genes : List Method) (b : β) :
    (p.targets genes).foldl f b = (p.rowGenes genes).foldl
      (fun b item => (options item.1.1).foldl (fun b c => f b (item, c)) b) b := by
  rw [targets, List.foldl_flatMap]
  refine congrArg (fun step => List.foldl step b _) (funext fun b => funext fun item => ?_)
  rw [List.foldl_map]

/-- Rows come in their order, and the methods of a row as well. -/
theorem targets_sorted (genes : List Method) :
    (p.targets genes).Pairwise fun s t => s.key < t.key := by
  have hnumbers : (p.rowGenes genes).Pairwise fun item item' => item.2 < item'.2 := by
    rw [← List.pairwise_map (f := Prod.snd) (R := (· < ·)), rowGenes, List.zipIdx_map_snd]
    exact List.pairwise_lt_range'
  refine List.pairwise_flatMap.2
    ⟨fun item _ => ?_, hnumbers.imp fun {item item'} hless s hs t ht => ?_⟩
  · rw [List.pairwise_map]
    refine List.Pairwise.imp ?_ (options_sorted item.1.1)
    intro c d hless
    exact Prod.Lex.toLex_lt_toLex.2 (Or.inr ⟨rfl, hless⟩)
  · rcases List.mem_map.1 hs with ⟨c, _, rfl⟩
    rcases List.mem_map.1 ht with ⟨d, _, rfl⟩
    exact Prod.Lex.toLex_lt_toLex.2 (Or.inl hless)

/-! ## The least ratio -/

variable (p) in
/-- The move of the plaintext repair behind a target. -/
def moveOf (target : Target) : Move ℚ where
  ratio := exact.div (exact.ofInt (deltaCost target.1 target.2))
    (exact.ofInt (p.deltaLinear target.1 target.2))
  row := target.1.2
  method := target.2.method
  costDelta := deltaCost target.1 target.2
  linearDelta := p.deltaLinear target.1 target.2

/-- The better one of two moves. -/
def offer (best : Option (Move ℚ)) (move : Move ℚ) : Option (Move ℚ) :=
  match best with
  | none => some move
  | some found => if move.precedes found then some move else best

theorem deltaLinear_self {item : RowGene} {c : Choice Int} (hc : c ∈ options item.1.1)
    (hmethod : c.method = item.1.2) : p.deltaLinear item c = 0 := by
  have hchosen : chosen item.1.1 item.1.2 = c := by
    rw [← hmethod]
    exact chosen_method hc
  rw [deltaLinear, hchosen, sub_self]

/-- With a method 3 in place both scans look at the same targets. -/
theorem considerMove_eq {count : Nat} (hcount : 0 < count) {target : Target}
    (hc : target.2 ∈ options target.1.1.1) (best : Option (Move ℚ)) :
    p.reference.considerMove count target.1.2 (chosen target.1.1.1 target.1.1.2) best target.2 =
      if p.validTarget false count target.1 target.2 = true then offer best (p.moveOf target)
      else best := by
  rcases target with ⟨item, c⟩
  -- The encrypted test is the negation of the three reasons to skip a move.
  have hvalid : p.validTarget false count item c = true ↔ ¬ c.method = item.1.2 ∧
      ¬ (item.1.2 = 2 ∧ c.method ≠ 2 ∧ count = 1) ∧ ¬ p.deltaLinear item c ≤ 0 := by
    have hself := deltaLinear_self (p := p) hc
    unfold validTarget
    rw [Bool.and_eq_true, decide_eq_true_iff]
    by_cases hthree : c.method = 2
    · simp only [hthree, ne_eq, not_true_eq_false, if_false, Bool.not_false, and_true, false_and,
        and_false, not_false_eq_true, true_and, not_le]
      refine ⟨fun hpositive => ⟨fun hgene => ?_, hpositive⟩, fun h => h.2⟩
      exact absurd (hself (hthree.trans hgene)) hpositive.ne'
    · simp only [hthree, ne_eq, not_false_eq_true, if_true, true_and, decide_eq_true_iff, not_le]
      by_cases hgene : item.1.2 = 2
      · simp only [hgene, if_true, hthree, not_false_eq_true, true_and]
        omega
      · have hgene' : ¬ 2 = item.1.2 := fun heq => hgene heq.symm
        simp only [hgene, hgene', if_false, false_and, not_false_eq_true, true_and, sub_zero,
          Nat.cast_pos, hcount, and_true]
        refine ⟨fun hpositive => ⟨fun hmethod => ?_, hpositive⟩, fun h => h.2⟩
        exact absurd (hself hmethod) hpositive.ne'
  have hconsider : p.reference.considerMove count item.2 (chosen item.1.1 item.1.2) best c =
      if c.method = item.1.2 then best else if item.1.2 = 2 ∧ c.method ≠ 2 ∧ count = 1 then best
      else if p.deltaLinear item c ≤ 0 then best else offer best (p.moveOf (item, c)) := by
    cases best <;> rfl
  refine hconsider.trans ?_
  by_cases hmethod : c.method = item.1.2
  · rw [if_pos hmethod, if_neg fun hv => (hvalid.1 hv).1 hmethod]
  rw [if_neg hmethod]
  by_cases hlast : item.1.2 = 2 ∧ c.method ≠ 2 ∧ count = 1
  · rw [if_pos hlast, if_neg fun hv => (hvalid.1 hv).2.1 hlast]
  rw [if_neg hlast]
  by_cases hgain : p.deltaLinear item c ≤ 0
  · rw [if_pos hgain, if_neg fun hv => (hvalid.1 hv).2.2 hgain]
  · rw [if_neg hgain, if_pos (hvalid.2 ⟨hmethod, hlast, hgain⟩)]

/-- What the encrypted scan keeps of the best move. -/
structure KeepsMove (s : Scan) (move : Move ℚ) : Prop where
  haveSelected : s.haveSelected = true
  cost : s.selectedCost = move.costDelta
  linear : s.selectedLinear = move.linearDelta
  id : s.selectedId = Pega.targetId move.row move.method
  gains : 0 < move.linearDelta
  ratio : move.ratio = (move.costDelta : ℚ) / (move.linearDelta : ℚ)

def Keeps (s : Scan) : Option (Move ℚ) → Prop
  | none => s.haveSelected = false
  | some move => KeepsMove s move

/-- The candidates for a method 3 are kept apart. -/
theorem Keeps.keepMethod3 {s : Scan} {best : Option (Move ℚ)} (h : Keeps s best) (item : RowGene)
    (c : Choice Int) : Keeps (p.keepMethod3 item c s) best := by
  cases best with
  | none => exact h
  | some move => exact ⟨h.haveSelected, h.cost, h.linear, h.id, h.gains, h.ratio⟩

/-- Cross products compare the ratios. -/
theorem ratio_lt_iff {move found : Move ℚ} (hmove : 0 < move.linearDelta)
    (hfound : 0 < found.linearDelta)
    (hmoveRatio : move.ratio = (move.costDelta : ℚ) / (move.linearDelta : ℚ))
    (hfoundRatio : found.ratio = (found.costDelta : ℚ) / (found.linearDelta : ℚ)) :
    move.ratio < found.ratio ↔
      move.costDelta * found.linearDelta < found.costDelta * move.linearDelta := by
  have hmove : (0 : ℚ) < move.linearDelta := by exact_mod_cast hmove
  have hfound : (0 : ℚ) < found.linearDelta := by exact_mod_cast hfound
  rw [hmoveRatio, hfoundRatio, div_lt_div_iff₀ hmove hfound]
  exact_mod_cast Iff.rfl

/-- A later move wins by its ratio only. -/
theorem precedes_eq {move found : Move ℚ}
    (hlater : toLex (found.row, found.method) < toLex (move.row, move.method)) :
    move.precedes found = decide (move.ratio < found.ratio) := by
  have hfirst : (decide (move.row < found.row) ||
      (decide (move.row = found.row) && decide (move.method < found.method))) = false := by
    rw [← Bool.not_eq_true, Bool.or_eq_true, Bool.and_eq_true, decide_eq_true_iff,
      decide_eq_true_iff, decide_eq_true_iff]
    exact fun hless => lt_asymm hlater (Prod.Lex.toLex_lt_toLex.2 hless)
  rw [Move.precedes, hfirst, Bool.and_false, Bool.or_false]

/-- One target of the scan for the least ratio. -/
theorem Keeps.scanTarget {count : Nat} (hcount : 0 < count) {target : Target}
    (hc : target.2 ∈ options target.1.1.1) {s : Scan} {best : Option (Move ℚ)} (h : Keeps s best)
    (hlater : ∀ move, best = some move → toLex (move.row, move.method) < target.key) :
    Keeps (p.scanTarget false count target.1 s target.2)
      (p.reference.considerMove count target.1.2 (chosen target.1.1.1 target.1.1.2) best
        target.2) := by
  rw [considerMove_eq hcount hc]
  have hkept : Keeps (if target.2.method ≠ 2 then s else p.keepMethod3 target.1 target.2 s)
      best := by
    split
    · exact h
    · exact h.keepMethod3 target.1 target.2
  unfold Plain.scanTarget
  generalize (if target.2.method ≠ 2 then s else p.keepMethod3 target.1 target.2 s) = s at hkept
  cases hvalid : p.validTarget false count target.1 target.2 with
  | false =>
      rw [if_neg Bool.false_ne_true]
      cases best with
      | none =>
          change (s.haveSelected || false) = false
          rw [Bool.or_false]
          exact hkept
      | some move =>
          refine ⟨?_, hkept.cost, hkept.linear, hkept.id, hkept.gains, hkept.ratio⟩
          change (s.haveSelected || false) = true
          rw [Bool.or_false]
          exact hkept.haveSelected
  | true =>
      rw [if_pos rfl]
      have hgains : 0 < (p.moveOf target).linearDelta := by
        unfold validTarget at hvalid
        exact of_decide_eq_true (Bool.and_eq_true _ _ ▸ hvalid).1
      have hnew : Keeps { s with
          selectedCost := deltaCost target.1 target.2
          selectedLinear := p.deltaLinear target.1 target.2
          selectedId := Pega.targetId target.1.2 target.2.method
          haveSelected := true } (some (p.moveOf target)) :=
        KeepsMove.mk rfl rfl rfl rfl hgains rfl
      cases best with
      | none =>
          have hnone : s.haveSelected = false := hkept
          simpa [keepSelected, offer, hnone] using hnew
      | some found =>
          -- The products are compared as the ratios are, and a later target must be strictly
          -- better.
          have hsmaller : decide (deltaCost target.1 target.2 * s.selectedLinear <
              s.selectedCost * p.deltaLinear target.1 target.2) =
              (p.moveOf target).precedes found := by
            rw [precedes_eq (hlater found rfl), decide_eq_decide,
              ratio_lt_iff hgains hkept.gains rfl hkept.ratio, hkept.linear, hkept.cost]
            rfl
          unfold keepSelected offer
          dsimp only
          rw [hsmaller]
          cases hprecedes : (p.moveOf target).precedes found with
          | true => simpa using hnew
          | false =>
              simp only [hkept.haveSelected, Bool.not_true, Bool.or_self, Bool.and_false,
                Bool.false_eq_true, if_false]
              exact ⟨rfl, hkept.cost, hkept.linear, hkept.id, hkept.gains, hkept.ratio⟩

/-- The moves that a scan keeps come from its targets. -/
theorem considerMove_key {count : Nat} {target : Target} {best : Option (Move ℚ)} {move : Move ℚ}
    (hcount : 0 < count) (hc : target.2 ∈ options target.1.1.1)
    (h : p.reference.considerMove count target.1.2 (chosen target.1.1.1 target.1.1.2) best
      target.2 = some move) :
    best = some move ∨ toLex (move.row, move.method) = target.key := by
  rw [considerMove_eq hcount hc] at h
  split at h
  · cases best with
    | none =>
        cases h
        exact Or.inr rfl
    | some found =>
        unfold offer at h
        dsimp only at h
        split at h
        · cases h
          exact Or.inr rfl
        · exact Or.inl h
  · exact Or.inl h

/-- With a method 3 in place the encrypted scan finds the move of the plaintext scan. -/
theorem scanRows_keeps {genes : List Method} (hcount : 0 < method3Count genes) :
    Keeps (p.scanRows false genes) (p.reference.bestMove genes) := by
  have hscan : p.scanRows false genes = (p.targets genes).foldl
      (fun s target => p.scanTarget false (method3Count genes) target.1 s target.2) {} := by
    rw [foldl_targets]
    rfl
  have hbest : p.reference.bestMove genes = (p.targets genes).foldl
      (fun best target => p.reference.considerMove (method3Count genes) target.1.2
        (chosen target.1.1.1 target.1.1.2) best target.2) none := by
    rw [foldl_targets]
    rfl
  rw [hscan, hbest]
  have hmem : ∀ target ∈ p.targets genes, target.2 ∈ options target.1.1.1 :=
    fun _ h => (mem_targets h).2
  have hsorted := targets_sorted (p := p) genes
  have hstart : ∀ move : Move ℚ, (none : Option (Move ℚ)) = some move →
      ∀ target ∈ p.targets genes, toLex (move.row, move.method) < target.key := by
    intro move hmove
    cases hmove
  have hempty : Keeps {} none := rfl
  -- By induction on the targets, which come in the order of their keys.
  revert hempty hstart
  generalize ({} : Scan) = s
  generalize (none : Option (Move ℚ)) = best
  generalize p.targets genes = targets at hmem hsorted ⊢
  induction targets generalizing s best with
  | nil => exact fun _ h => h
  | cons target rest ih =>
      intro hlater h
      rw [List.pairwise_cons] at hsorted
      refine ih _ _ (fun t ht => hmem t (List.mem_cons_of_mem _ ht)) hsorted.2 ?_ ?_
      · intro move hmove t ht
        rcases considerMove_key hcount (hmem target (List.mem_cons_self ..)) hmove with hold | hnew
        · exact hlater move hold t (List.mem_cons_of_mem _ ht)
        · rw [hnew]
          exact hsorted.1 t ht
      · exact h.scanTarget hcount (hmem target (List.mem_cons_self ..))
          fun move hmove => hlater move hmove target (List.mem_cons_self ..)

/-! ## The cheapest method 3 -/

/-- The cheaper one of two changes to method 3. -/
def cheaper (best : Option (Nat × Int)) (change : Nat × Int) : Option (Nat × Int) :=
  match best with
  | none => some change
  | some found => if change.2 < found.2 then some change else best

theorem foldl_method3 {β : Type} (f : β → Int → β) (row : CostRow Int) (b : β) :
    (options row).foldl (fun b c => if c.method = 2 then f b c.cost else b) b =
      match row 2 with
      | none => b
      | some cost => f b cost := by
  have hrange : List.finRange 3 = [0, 1, 2] := rfl
  unfold options
  rw [hrange]
  cases hfirst : row 0 <;> cases hsecond : row 1 <;> cases hthird : row 2 <;>
    simp [hfirst, hsecond, hthird]

theorem cheapestMethod3_eq (genes : List Method) :
    p.reference.cheapestMethod3 genes = (p.targets genes).foldl
      (fun best target => if target.2.method = 2 then
        cheaper best (target.1.2, deltaCost target.1 target.2) else best) none := by
  rw [foldl_targets]
  refine congrArg (fun step => List.foldl step none _) (funext fun best => funext fun item => ?_)
  have hrow := foldl_method3 (fun best cost =>
    cheaper best (item.2, cost - (chosen item.1.1 item.1.2).cost)) item.1.1 best
  refine Eq.trans ?_ hrow.symm
  cases best <;> rfl

/-- What the encrypted scan keeps of the cheapest change to method 3. -/
def KeepsMethod3 (s : Scan) : Option (Nat × Int) → Prop
  | none => s.have3 = false
  | some found => s.have3 = true ∧ s.best3Cost = found.2 ∧ s.best3Id = Pega.targetId found.1 2

/-- Without a method 3 no target is valid. -/
theorem validTarget_missing (item : RowGene) (c : Choice Int) :
    p.validTarget true 0 item c = false := by
  unfold validTarget
  rw [Bool.and_eq_false_iff]
  refine Or.inr ?_
  split
  · rw [decide_eq_false_iff_not]
    split <;> omega
  · rfl

theorem keepSelected_invalid (item : RowGene) (c : Choice Int) (s : Scan) :
    p.keepSelected false item c s = s := by
  simp [keepSelected]

/-- One target of the scan for a method 3. -/
theorem KeepsMethod3.scanTarget {s : Scan} {best : Option (Nat × Int)} (h : KeepsMethod3 s best)
    (target : Target) :
    KeepsMethod3 (p.scanTarget true 0 target.1 s target.2)
      (if target.2.method = 2 then cheaper best (target.1.2, deltaCost target.1 target.2)
        else best) := by
  rw [Plain.scanTarget, validTarget_missing, keepSelected_invalid]
  by_cases hthree : target.2.method = 2
  · rw [if_pos hthree, if_neg fun hne => hne hthree]
    unfold keepMethod3
    dsimp only
    rw [hthree]
    cases best with
    | none =>
        have hnone : s.have3 = false := h
        simp [KeepsMethod3, cheaper, hnone]
    | some found =>
        rcases h with ⟨hhave, hcost, hid⟩
        unfold cheaper
        dsimp only
        rw [hhave, hcost, hid, Bool.not_true, Bool.false_or, Bool.true_or]
        by_cases hless : deltaCost target.1 target.2 < found.2
        · simp [KeepsMethod3, hless]
        · simp [KeepsMethod3, hless]
  · rw [if_neg hthree, if_pos hthree]
    exact h

theorem haveSelected_missing {s : Scan} (h : s.haveSelected = false) (target : Target) :
    (p.scanTarget true 0 target.1 s target.2).haveSelected = false := by
  rw [Plain.scanTarget, validTarget_missing, keepSelected_invalid]
  split
  · exact h
  · exact h

/-- Without a method 3 the encrypted scan finds the cheapest change to it, and nothing else. -/
theorem scanRows_method3 {genes : List Method} (hcount : genes.count 2 = 0) :
    (p.scanRows true genes).haveSelected = false ∧
      KeepsMethod3 (p.scanRows true genes) (p.reference.cheapestMethod3 genes) := by
  have hscan : p.scanRows true genes = (p.targets genes).foldl
      (fun s target => p.scanTarget true 0 target.1 s target.2) {} := by
    rw [foldl_targets, scanRows, hcount]
    rfl
  rw [hscan, cheapestMethod3_eq]
  have hempty : KeepsMethod3 {} none := rfl
  have hunselected : ({} : Scan).haveSelected = false := rfl
  revert hempty hunselected
  generalize ({} : Scan) = s
  generalize (none : Option (Nat × Int)) = best
  induction p.targets genes generalizing s best with
  | nil => exact fun h hselected => ⟨hselected, h⟩
  | cons target rest ih =>
      exact fun h hselected => ih _ _ (h.scanTarget target) (haveSelected_missing hselected target)

/-! ## The second scan -/

theorem targetId_inj {i j : Nat} {m k : Method} :
    Pega.targetId i m = Pega.targetId j k ↔ i = j ∧ m = k := by
  have hm := m.isLt
  have hk := k.isLt
  rw [Fin.ext_iff]
  unfold Pega.targetId
  omega

theorem map_gene_rowGenes {genes : List Method} (hgenes : Available p.model genes) :
    (p.rowGenes genes).map (fun item => item.1.2) = genes := by
  rw [map_rowGenes genes Prod.snd, List.map_snd_zip]
  exact hgenes.length_eq.ge

/-- Nothing is applied. -/
theorem applyTargets_idle {genes : List Method} (hgenes : Available p.model genes) (v : Int) :
    p.applyTargets (v, false) genes = genes := by
  conv_rhs => rw [← map_gene_rowGenes hgenes]
  refine List.map_congr_left fun item _ => ?_
  generalize item.1.2 = gene
  induction options item.1.1 with
  | nil => rfl
  | cons c cs ih => exact ih

theorem applyRow_eq (i : Nat) (method : Method) (item : RowGene) :
    applyRow (Pega.targetId i method, true) item =
      if i = item.2 ∧ method ∈ (options item.1.1).map Choice.method then method
      else item.1.2 := by
  unfold applyRow
  generalize item.1.2 = gene
  induction options item.1.1 generalizing gene with
  | nil => simp
  | cons c cs ih =>
      have hstep : applyTarget (Pega.targetId i method) true item.2 gene c =
          if i = item.2 ∧ method = c.method then method else gene := by
        unfold applyTarget
        simp only [Bool.true_and, decide_eq_true_eq, targetId_inj]
        split
        · exact (‹i = item.2 ∧ method = c.method›.2).symm
        · rfl
      rw [List.foldl_cons, hstep, ih]
      by_cases hi : i = item.2
      · by_cases hmethod : method = c.method
        · simp [hi, hmethod]
        · simp [hi, hmethod]
      · simp [hi]

/-- One target is applied. -/
theorem applyTargets_set {genes : List Method} (hgenes : Available p.model genes) {i : Nat}
    {row : CostRow Int} {gene method : Method} (hentry : (p.costs.zip genes)[i]? = some (row, gene))
    (hmethod : (row method).isSome = true) :
    p.applyTargets (Pega.targetId i method, true) genes = genes.set i method := by
  have hcosts := (List.getElem?_zip_eq_some.1 hentry).1
  have hlength : p.costs.length = genes.length := hgenes.length_eq
  have hrows : (p.rowGenes genes).length = genes.length := by
    rw [rowGenes, List.length_zipIdx, List.length_zip, hlength]
    exact min_self _
  refine List.ext_getElem ?_ fun j hj hj' => ?_
  · rw [applyTargets, List.length_map, hrows, List.length_set]
  · have hgene : j < genes.length := by rwa [List.length_set] at hj'
    have hcost : j < p.costs.length := by rwa [hlength]
    have hitem : (p.applyTargets (Pega.targetId i method, true) genes)[j] =
        applyRow (Pega.targetId i method, true) ((p.costs[j], genes[j]), j) := by
      simp [applyTargets, applyRow, rowGenes]
    rw [hitem, applyRow_eq, List.getElem_set]
    by_cases hij : i = j
    · have hrow : p.costs[j] = row := by
        rw [hij, List.getElem?_eq_some_iff] at hcosts
        exact hcosts.2
      have hmem : method ∈ (options row).map Choice.method := by
        rcases Option.isSome_iff_exists.1 hmethod with ⟨cost, hcost⟩
        exact List.mem_map.2 ⟨⟨method, cost⟩, mem_options.2 hcost, rfl⟩
      rw [if_pos hij, hrow, if_pos ⟨hij, hmem⟩]
    · rw [if_neg hij, if_neg fun h => hij h.1]

/-! ## Positive costs -/

section Positive

variable (hpositive : p.Positive)
include hpositive

theorem Positive.nonNegative : p.NonNegative :=
  fun row hrow c hc => (hpositive row hrow c hc).le

/-- The cost of the rows with method 3 is positive when there are such rows. -/
theorem c3_pos_iff {genes : List Method} (hgenes : Available p.model genes) :
    0 < (p.sums genes).c3 ↔ 0 < method3Count genes := by
  change 0 < c3 (choices p.model genes) ↔ 0 < genes.count 2
  unfold Positive at hpositive
  unfold Available at hgenes
  unfold choices
  change List.Forall₂ _ p.costs genes at hgenes
  change 0 < c3 (List.zipWith chosen p.costs genes) ↔ _
  generalize p.costs = rows at hpositive hgenes
  -- A row adds its cost, which is positive, exactly when it counts.
  induction hgenes with
  | nil => simp [c3]
  | @cons row method rows genes hmethod hrest ih =>
      have hcost : 0 < (chosen row method).cost :=
        hpositive row (List.mem_cons_self ..) _ (mem_options.2 (chosen_of_available hmethod))
      have hiff := ih fun row hrow => hpositive row (List.mem_cons_of_mem _ hrow)
      have hchosen : (chosen row method).method = method := rfl
      have hnonneg : 0 ≤ c3 (List.zipWith chosen rows genes) := by
        refine List.sum_nonneg fun x hx => ?_
        rcases List.mem_map.1 hx with ⟨c, hc, rfl⟩
        have hassignment : IsAssignment rows (List.zipWith chosen rows genes) :=
          @choices_assignment ⟨rows, 0, 0, 0⟩ genes hrest
        rcases mem_right_of_forall₂ hassignment hc with ⟨row', hrow', hc'⟩
        have hc := hpositive row' (List.mem_cons_of_mem _ hrow') c (mem_options.2 hc')
        split
        · exact le_rfl
        · exact hc.le
      have hcons : c3 (List.zipWith chosen (row :: rows) (method :: genes)) =
          (if method < 2 then 0 else (chosen row method).cost) +
            c3 (List.zipWith chosen rows genes) := sumOf_cons _ _ _
      rw [hcons, List.count_cons]
      by_cases hthree : method < 2
      · have hne : ¬ method = 2 := fun heq => method3_iff.1 heq hthree
        simp only [hthree, if_true, zero_add, beq_iff_eq, hne, if_false, add_zero]
        exact hiff
      · have heq : method = 2 := method3_iff.2 hthree
        rw [if_neg hthree, if_pos (beq_iff_eq.2 heq)]
        omega

theorem total_pos (hnonempty : p.costs ≠ []) {genes : List Method}
    (hgenes : Available p.model genes) : 0 < (p.sums genes).total := by
  have hleaf : IsAssignment p.costs (choices p.model genes) := choices_assignment hgenes
  refine List.sum_pos _ (fun x hx => ?_) ?_
  · rcases List.mem_map.1 hx with ⟨c, hc, rfl⟩
    rcases mem_right_of_forall₂ hleaf hc with ⟨row, hrow, hcost⟩
    exact hpositive row hrow c (mem_options.2 hcost)
  · intro hnil
    rw [List.map_eq_nil_iff] at hnil
    have hlength : p.costs.length = (choices p.model genes).length := hleaf.length_eq
    rw [hnil] at hlength
    exact hnonempty (List.length_eq_zero_iff.1 hlength)

end Positive

/-! ## Rounds and passes -/

section Rounds

variable {genes : List Method} (hgenes : Available p.model genes)
include hgenes

theorem repairRound_idle (h : (p.findTarget (p.individual genes)).2 = false) :
    p.repairRound (p.individual genes) = p.individual genes := by
  have htarget : p.findTarget (p.individual genes) =
      ((p.findTarget (p.individual genes)).1, false) := Prod.ext rfl h
  rw [repairRound, htarget]
  exact congrArg p.individual (applyTargets_idle hgenes _)

theorem repairRound_set {i : Nat} {row : CostRow Int} {gene method : Method}
    (hentry : (p.costs.zip genes)[i]? = some (row, gene)) (hmethod : (row method).isSome = true)
    (h : p.findTarget (p.individual genes) = (Pega.targetId i method, true)) :
    p.repairRound (p.individual genes) = p.individual (genes.set i method) := by
  rw [repairRound, h]
  exact congrArg p.individual (applyTargets_set hgenes hentry hmethod)

/-- A feasible individual is left alone. -/
theorem repairRound_feasible (hfeasible : (p.individual genes).feasible = true) :
    p.repairRound (p.individual genes) = p.individual genes := by
  refine repairRound_idle hgenes ?_
  unfold findTarget
  dsimp only
  rw [hfeasible]
  rfl

variable (hpositive : p.Positive)
include hpositive

theorem missing_eq : missing (p.sums genes) = decide (method3Count genes = 0) := by
  rw [missing, ← decide_not, decide_eq_decide, c3_pos_iff hpositive hgenes]
  omega

/-- What a round looks for while there is no method 3. -/
theorem findTarget_missing (hcount : method3Count genes = 0) :
    p.findTarget (p.individual genes) =
      ((p.scanRows true genes).best3Id, (p.scanRows true genes).have3) := by
  have hmissing : missing (p.individual genes).toSums = true := by
    refine (missing_eq hgenes hpositive).trans (decide_eq_true hcount)
  have hinfeasible : (p.individual genes).feasible = false := by
    refine decide_eq_false fun h => ?_
    have hpos := (c3_pos_iff hpositive hgenes).1 h.2.1
    omega
  unfold findTarget
  dsimp only
  rw [hmissing, hinfeasible]
  change ((p.scanRows true genes).best3Id, !false && ((p.scanRows true genes).haveSelected ||
    (true && (p.scanRows true genes).have3))) = _
  rw [(scanRows_method3 hcount).1, Bool.true_and, Bool.false_or, Bool.not_false, Bool.true_and]

/-- Without a method 3 a round obtains one where it costs least. -/
theorem repairRound_method3 (hcount : method3Count genes = 0) :
    p.repairRound (p.individual genes) =
      match p.reference.cheapestMethod3 genes with
      | none => p.individual genes
      | some found => p.individual (genes.set found.1 2) := by
  have htarget := findTarget_missing hgenes hpositive hcount
  have hkeeps := (scanRows_method3 (p := p) hcount).2
  cases hfound : p.reference.cheapestMethod3 genes with
  | none =>
      rw [hfound] at hkeeps
      refine repairRound_idle hgenes ?_
      rw [htarget]
      exact hkeeps
  | some found =>
      rw [hfound] at hkeeps
      rcases p.reference.cheapestMethod3_entry hfound with ⟨row, gene, hentry, hrow⟩
      refine repairRound_set hgenes hentry hrow ?_
      rw [htarget, hkeeps.1, hkeeps.2.2]

/-- What a round looks for once there is a method 3. -/
theorem findTarget_present (hcount : 0 < method3Count genes) (hlinear : (p.sums genes).linear < 0) :
    p.findTarget (p.individual genes) =
      ((p.scanRows false genes).selectedId, (p.scanRows false genes).haveSelected) := by
  have hmissing : missing (p.individual genes).toSums = false :=
    (missing_eq hgenes hpositive).trans (decide_eq_false hcount.ne')
  have hinfeasible : (p.individual genes).feasible = false :=
    decide_eq_false fun h => absurd h.1 (not_le.2 hlinear)
  unfold findTarget
  dsimp only
  rw [hmissing, hinfeasible]
  change ((p.scanRows false genes).selectedId, !false && ((p.scanRows false genes).haveSelected ||
    (false && (p.scanRows false genes).have3))) = _
  rw [Bool.false_and, Bool.or_false, Bool.not_false, Bool.true_and]

/-- A round makes the change of a pass. -/
theorem repairRound_pass (hcount : 0 < method3Count genes) (hlinear : (p.sums genes).linear < 0) :
    p.repairRound (p.individual genes) =
      match p.reference.bestMove genes with
      | none => p.individual genes
      | some move => p.individual (genes.set move.row move.method) := by
  have htarget := findTarget_present hgenes hpositive hcount hlinear
  have hkeeps := scanRows_keeps (p := p) hcount
  cases hmove : p.reference.bestMove genes with
  | none =>
      rw [hmove] at hkeeps
      refine repairRound_idle hgenes ?_
      rw [htarget]
      exact hkeeps
  | some move =>
      rw [hmove] at hkeeps
      rcases p.reference.bestMove_candidate hmove with ⟨row, gene, hcandidate⟩
      refine repairRound_set hgenes hcandidate.entry hcandidate.available ?_
      rw [htarget, hkeeps.haveSelected, hkeeps.id]

end Rounds

variable (hpositive : p.Positive) (hnonempty : p.costs ≠ [])
include hpositive hnonempty

/-- Nonnegative `linear` and a method 3 are feasible. -/
theorem feasible_of_linear {genes : List Method} (hgenes : Available p.model genes)
    (hcount : 0 < method3Count genes) (hlinear : 0 ≤ (p.sums genes).linear) :
    (p.individual genes).feasible = true :=
  decide_eq_true ⟨hlinear, (c3_pos_iff hpositive hgenes).2 hcount,
    total_pos hpositive hnonempty hgenes⟩

/-- Where the loop ends the rounds change nothing. -/
theorem rounds_ended {y : Scalable.Individual ℚ} (hy : p.reference.Consistent y)
    (hcount : 0 < method3Count y.genes)
    (hended : ¬ y.linear < 0 ∨ p.reference.bestMove y.genes = none) (rounds : Nat) :
    p.repairRound^[rounds] (p.individual y.genes) = p.individual y.genes := by
  have hlinear : y.linear = (p.sums y.genes).linear := by
    rw [← hy.evaluated]
    exact congrArg Scalable.Sums.linear (p.reference.evaluate_sums y)
  rw [hlinear] at hended
  refine Function.iterate_fixed ?_ rounds
  by_cases hnegative : (p.sums y.genes).linear < 0
  · have hround := repairRound_pass hy.available hpositive hcount hnegative
    rwa [hended.resolve_left fun h => h hnegative] at hround
  · exact repairRound_feasible hy.available
      (feasible_of_linear hpositive hnonempty hy.available hcount (not_lt.1 hnegative))

/-- Where the loop stops at once the rounds stay. -/
theorem rounds_stopped {y : Scalable.Individual ℚ} (hy : p.reference.Consistent y)
    (hcount : 0 < method3Count y.genes)
    (hstops : ¬ y.linear < 0 ∨ p.reference.bestMove y.genes = none) {fuel : Nat}
    {run : List (Scalable.Individual ℚ) × Bool}
    (hrun : p.reference.repairLoop fuel y = some run) (rounds : Nat) :
    p.repairRound^[rounds] (p.individual y.genes) = p.individual (run.1.getLastD y).genes := by
  have hended := rounds_ended hpositive hnonempty hy hcount hstops rounds
  by_cases hlinear : y.linear < 0
  · rw [repairLoop_givesUp hlinear (hstops.resolve_left fun hno => hno hlinear)] at hrun
    cases hrun
    exact hended
  · rw [repairLoop_stops hlinear] at hrun
    cases hrun
    exact hended

/-- The rounds follow the loop, and stay where it ends. -/
theorem rounds_loop {fuel : Nat} : ∀ {y : Scalable.Individual ℚ}
    {run : List (Scalable.Individual ℚ) × Bool}, p.reference.Consistent y →
    0 < method3Count y.genes → p.reference.repairLoop fuel y = some run →
    ∀ {rounds : Nat}, run.1.length ≤ rounds →
      p.repairRound^[rounds] (p.individual y.genes) = p.individual (run.1.getLastD y).genes := by
  have hstopped := fun {y : Scalable.Individual ℚ} =>
    rounds_stopped (y := y) hpositive hnonempty
  induction fuel with
  | zero =>
      intro y run hy hcount hrun rounds _
      by_cases hlinear : y.linear < 0
      · cases hbest : p.reference.bestMove y.genes with
        | none => exact hstopped hy hcount (Or.inr hbest) hrun rounds
        | some move =>
            -- There is no fuel for a pass.
            rw [repairLoop, if_pos hlinear, hbest] at hrun
            cases hrun
      · exact hstopped hy hcount (Or.inl hlinear) hrun rounds
  | succ fuel ih =>
      intro y run hy hcount hrun rounds hrounds
      by_cases hlinear : y.linear < 0
      · cases hbest : p.reference.bestMove y.genes with
        | none => exact hstopped hy hcount (Or.inr hbest) hrun rounds
        | some move =>
            rw [repairLoop_pass hlinear hbest, Option.map_eq_some_iff] at hrun
            rcases hrun with ⟨rest, hrest, rfl⟩
            rcases applyMove_spec hy hbest with ⟨hnext, hchanges, _, _⟩
            rcases Nat.exists_eq_succ_of_ne_zero
              (Nat.ne_of_gt (lt_of_lt_of_le (Nat.succ_pos _) hrounds)) with ⟨rounds, rfl⟩
            -- One round makes the pass; the others are those of the rest of the loop.
            have hnegative := hlinear
            rw [← hy.evaluated, p.reference.evaluate_sums y] at hnegative
            have hround := repairRound_pass hy.available hpositive hcount hnegative
            rw [hbest] at hround
            rw [Function.iterate_succ_apply, hround, List.getLastD_cons]
            exact ih hnext (hchanges.method3 hcount) hrest (Nat.le_of_succ_le_succ hrounds)
      · exact hstopped hy hcount (Or.inl hlinear) hrun rounds

/-- With rounds enough the encrypted repair ends where the plaintext one does. -/
theorem rounds_repair {genes : List Method} (hgenes : Available p.model genes) {rounds : Nat}
    (hrounds : 2 * p.costs.length + 1 ≤ rounds) :
    p.repairRound^[rounds] (p.individual genes) =
      p.individual (p.reference.repair (p.reference.fresh genes)).1.genes := by
  have hfresh : Available p.reference.model (p.reference.fresh genes).genes := hgenes
  -- The plaintext repair ends within the rounds, and further rounds change nothing.
  rcases repairRun_terminates le_rfl hfresh with ⟨rest, answer, hrun, hrepairs⟩
  have hbounded : rest.length ≤ rounds := hrepairs.bounded.trans hrounds
  rw [repair_eq hrun]
  have hfirst : p.reference.Consistent (p.plaintext genes) := .ofGenes hfresh
  have hc3 : (p.plaintext genes).c3 = (p.sums genes).c3 :=
    congrArg Scalable.Sums.c3 (plaintext_sums genes)
  have hsums := c3_pos_iff hpositive hgenes
  have hnonneg := c3_nonneg hpositive.nonNegative hgenes
  -- Without a method 3 the first round puts one in place.
  by_cases hzero : (p.plaintext genes).c3 = 0
  · have hcount : method3Count genes = 0 := by omega
    have hround := repairRound_method3 hgenes hpositive hcount
    have hzero : (p.reference.evaluate (p.reference.fresh genes)).c3 = 0 := hzero
    rw [repairRun] at hrun
    dsimp only at hrun
    rw [if_pos hzero] at hrun
    cases hfound : p.reference.cheapestMethod3 genes with
    | none =>
        have hfound' : p.reference.cheapestMethod3
            (p.reference.evaluate (p.reference.fresh genes)).genes = none := hfound
        rw [hfound'] at hrun
        rw [hfound] at hround
        cases hrun
        exact Function.iterate_fixed hround rounds
    | some found =>
        have hfound' : p.reference.cheapestMethod3
            (p.reference.evaluate (p.reference.fresh genes)).genes = some found := hfound
        rw [hfound'] at hrun
        rw [hfound] at hround
        rcases Option.map_eq_some_iff.1 hrun with ⟨run, hloop, heq⟩
        cases heq
        rcases p.reference.cheapestMethod3_entry hfound with ⟨row, gene, hentry, hrow⟩
        have hlt := (List.getElem?_eq_some_iff.1 (List.getElem?_zip_eq_some.1 hentry).2).1
        have hcount : 0 < method3Count (genes.set found.1 2) :=
          List.count_pos_iff.2 (List.mem_set hlt 2)
        have hnext : p.reference.Consistent (p.plaintext (genes.set found.1 2)) :=
          .ofGenes (forall₂_set hgenes hentry hrow)
        rcases Nat.exists_eq_succ_of_ne_zero
          (Nat.ne_of_gt (lt_of_lt_of_le (Nat.succ_pos _) hrounds)) with ⟨rounds, rfl⟩
        rw [Function.iterate_succ_apply, hround, List.getLastD_cons]
        exact rounds_loop hpositive hnonempty hnext hcount hloop
          (Nat.le_of_succ_le_succ hbounded)
  · have hcount : 0 < method3Count genes := by omega
    have hrun : (p.reference.repairLoop (2 * p.costs.length) (p.plaintext genes)).map
        (fun run => (p.plaintext genes :: run.1, run.2)) =
        some (p.plaintext genes :: rest, answer) := by
      refine Eq.trans ?_ hrun
      exact (if_neg hzero).symm
    rcases Option.map_eq_some_iff.1 hrun with ⟨run, hloop, heq⟩
    cases heq
    exact rounds_loop hpositive hnonempty hfirst hcount hloop hbounded

/-- The default number of rounds is enough. -/
theorem repair_individual (hdefault : p.config.repairRounds = 0) {genes : List Method}
    (hgenes : Available p.model genes) :
    p.repair (p.individual genes) =
      p.individual (p.reference.repair (p.reference.fresh genes)).1.genes := by
  have hlength : 0 < p.costs.length := List.length_pos_iff.2 hnonempty
  refine rounds_repair hpositive hnonempty hgenes ?_
  rw [Plain.rounds, if_pos hdefault]
  omega

/-- A feasible assignment comes back. -/
theorem repair_feasible (hdefault : p.config.repairRounds = 0) {genes : List Method}
    (hgenes : Available p.model genes) (hfeasible : (p.plaintext genes).feasible = true) :
    (p.reference.repair (p.reference.fresh genes)).1.genes = genes := by
  have hrepair := repair_individual hpositive hnonempty hdefault hgenes
  rw [plaintext_feasible] at hfeasible
  rw [Plain.repair, Function.iterate_fixed (repairRound_feasible hgenes hfeasible)] at hrepair
  exact (congrArg Scalable.Individual.genes hrepair).symm

end Plain

/-! ## The repair -/

/-- With positive costs and the default number of rounds, `repair` ends with the assignment that the
plaintext repair ends with, whether that one succeeds or gives up, and with its sums. -/
theorem repair_refines_greedy {σ C : Type} [CiphertextLike C] {D : C → Int → Prop} {I : σ → Prop}
    {ops : SecureOps σ C} (h : ExactOps ops D (fun _ => True) (fun _ => True) I)
    {config : ConfidentialScalableOptimizerConfig} {request : EncryptedOptimizationRequest C}
    (haccepted : validate ops.domain config request = .ok ⟨⟩) (hdefault : config.repairRounds = 0)
    {rows : List (CostRow Int)} (hcosts : List.Forall₂ (RowHolds D) request.costs rows)
    (hpositive : (plainOf ops.domain config request rows).Positive) (draws : Nat → UInt64)
    {genes : List Method}
    (hgenes : Available (plainOf ops.domain config request rows).model genes) :
    let p := plainOf ops.domain config request rows
    let repaired := (p.reference.repair (p.reference.fresh genes)).1
    let Repaired := fun value : Individual C => GenesHold D value.genes repaired.genes ∧
      TotalsHold D value.totals repaired.toSums ∧ RowsHold D p value.rows repaired.genes
    (∀ {value : Individual C}, GenesHold D value.genes genes → ∀ drawn, Yields (Kept I drawn)
      (constructPega ops config request draws >>= fun pega => pega.evaluate value >>= pega.repair)
      Repaired Never) ∧
    (∀ {value : Individual C}, Holds D value (p.individual genes) →
      RowsHold D p value.rows genes → ∀ drawn, Yields (Kept I drawn)
      (constructPega ops config request draws >>= fun pega => pega.repair value)
      Repaired Never) ∧
    repaired.toSums = p.sums repaired.genes ∧
    ((p.plaintext genes).feasible = true → repaired.genes = genes) := by
  intro p repaired Repaired
  have haccepted := validate_ok haccepted
  rcases haccepted.capacity rows with ⟨bound, hcapacity⟩
  have hnonempty : p.costs ≠ [] := by
    intro hnil
    have hlength : request.costs.length = rows.length := hcosts.length_eq
    have hrows : rows = [] := hnil
    rw [hrows] at hlength
    exact haccepted.nonempty (List.length_eq_zero_iff.1 hlength)
  have hsums : repaired.toSums = p.sums repaired.genes := by
    have hfresh : Available p.reference.model (p.reference.fresh genes).genes := hgenes
    have hconsistent := (repair_spec hfresh).1
    have hevaluated := congrArg Scalable.Individual.toSums hconsistent.evaluated
    rw [p.reference.evaluate_sums] at hevaluated
    exact hevaluated.symm
  -- Only the plain counterpart of `repair` is compared with the greedy one.
  have hrepair : p.repair (p.individual genes) = p.individual repaired.genes :=
    Plain.repair_individual hpositive hnonempty hdefault hgenes
  have hconstruct : ∀ drawn, Yields (Kept I drawn) (constructPega ops config request draws)
      (fun pega => Runs D (fun _ => True) (fun _ => True) I pega p bound ∧ pega.draws = draws)
      Never :=
    fun drawn => constructPega_runs h (fun _ _ => trivial) haccepted hcosts hcapacity draws
  have hvalue : ∀ {pega : Pega σ C}, Runs D (fun _ => True) (fun _ => True) I pega p bound →
      ∀ {value : Individual C}, Holds D value (p.individual genes) →
      RowsHold D p value.rows genes → ∀ drawn,
      Yields (Kept I drawn) (pega.repair value) Repaired Never := by
    intro pega hpega value hholds hrows drawn
    refine (repair_yields hpega ⟨⟨.ofGenes hgenes, hholds⟩, hrows⟩).post fun value hvalue => ?_
    rw [hrepair] at hvalue
    refine ⟨hvalue.holds.genes, ?_, hvalue.rows⟩
    rw [hsums]
    exact hvalue.holds.totals
  refine ⟨fun {value} hencrypted drawn => ?_, fun {value} hholds hrows drawn => ?_, hsums,
    Plain.repair_feasible hpositive hnonempty hdefault hgenes⟩
  · refine (hconstruct drawn).bind fun pega hpega => ?_
    exact (evaluate_yields hpega.1 hencrypted hgenes).bind fun value hevaluated =>
      hvalue hpega.1 hevaluated.1 hevaluated.2 drawn
  · exact (hconstruct drawn).bind fun pega hpega => hvalue hpega.1 hholds hrows drawn

/-- Both rows with method 3 are too much of it; the second one is changed. -/
theorem repair_refines_greedy_pairRows :
    let p := plainOf pairDomain pairConfig (clearRequest pairRows 20 "two-rows") pairRows
    ∀ drawn, Yields (Kept (fun _ => True) drawn)
      (constructPega (clearOps pairDomain) pairConfig (clearRequest pairRows 20 "two-rows")
        (fun _ => 0) >>= fun pega => pega.evaluate (clearIndividual p [2, 2]) >>= pega.repair)
      (fun value => GenesHold (fun c x => c = some x) value.genes [2, 0] ∧
        value.totals.total = some 3) Never := by
  intro p
  have hrepaired : (p.reference.repair (p.reference.fresh [2, 2])).1.genes = [2, 0] ∧
      (p.reference.repair (p.reference.fresh [2, 2])).1.total = 3 := by
    decide +kernel
  have hpositive : p.Positive := by
    unfold Plain.Positive
    decide
  have hgenes : Available p.model [2, 2] := .cons rfl (.cons rfl .nil)
  have hrepair := repair_refines_greedy (clearOps_exact pairDomain _ _) pairRows_accepted rfl
    (clearRequest_holds pairRows 20 "two-rows") hpositive (fun _ => 0) hgenes
  generalize constructPega (clearOps pairDomain) pairConfig
    (clearRequest pairRows 20 "two-rows") (fun _ => 0) = construct at hrepair ⊢
  intro drawn
  refine (hrepair.1 (clearIndividual_holds p [2, 2]).genes drawn).post fun value hvalue => ?_
  have hgenes : GenesHold (fun c x => c = some x) value.genes
      (p.reference.repair (p.reference.fresh [2, 2])).1.genes := hvalue.1
  have htotal : value.totals.total =
      some (p.reference.repair (p.reference.fresh [2, 2])).1.total := hvalue.2.1.total
  rw [hrepaired.1] at hgenes
  rw [hrepaired.2] at htotal
  exact ⟨hgenes, htotal⟩

end Optimization
end SociSgx

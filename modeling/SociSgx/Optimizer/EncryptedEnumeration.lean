import SociSgx.Optimizer.RuntimeOptimizer
import SociSgx.Lib.Folds

/-!
# EncryptedEnumeration — `Optimizer::optimize_encrypted`

The older search on ciphertexts meets every assignment and keeps the cheaper one by encrypted
selection.  It cannot see whether `C3` is positive, and takes any assignment that uses method 3; and
of several cheapest ones it keeps the first.  The plain solver wants a positive `C3` and the nearest
ratio, so the two agree where these differences do not matter.
-/

namespace SociSgx
namespace Optimization

open Exec BranchBound Paillier Protocol

/-! ## The search -/

/-- `EncryptedOptimizationResult`, and the number of assignments met so far. -/
structure Selection where
  best : Nat
  best12 : Nat
  best3 : Nat
  bestChoice : List Nat
  met : Nat := 0

/-- The draws for one entry of the method vector. -/
structure ChoiceDraw (n : Nat) where
  number : Nonce n
  select : Runtime.MulDraw n

/-- The draws for one assignment. -/
structure AssignmentDraw (n : Nat) where
  invalid : Runtime.LessDraw n
  sentinel : Nonce n
  effective : Runtime.MulDraw n
  better : Runtime.LessDraw n
  best : Runtime.MulDraw n
  best12 : Runtime.MulDraw n
  best3 : Runtime.MulDraw n
  choice : Nat → ChoiceDraw n

/-- What `optimize_encrypted` draws. -/
structure EnumerationDraw (n : Nat) where
  zero : Nonce n
  one : Nonce n
  sentinel : Nonce n
  assignments : Nat → AssignmentDraw n

namespace OpenRuntime

variable (rt : OpenRuntime)

/-- `no + bit * (yes - no)` -/
def select (bit yes no : Nat) (draw : Runtime.MulDraw rt.key.pub.n) : Except Error Nat := do
  let minusNo ← rt.scalarMul no (-1)
  let delta := rt.add yes minusNo
  let product ← rt.secureMul bit delta draw
  return rt.add no product

/-- The sums after one row. -/
def addChoice (sums : EncryptedSums) (c : Choice Nat) : EncryptedSums :=
  if c.method < 2 then
    { sums with total := rt.add sums.total c.cost, c12 := rt.add sums.c12 c.cost }
  else
    { sums with total := rt.add sums.total c.cost, c3 := rt.add sums.c3 c.cost }

/-- The loop over `best_choice`, from entry `i` on. -/
def selectChoices (better : Nat) (draw : Nat → ChoiceDraw rt.key.pub.n) :
    Nat → List (Choice Nat) → List Nat → Except Error (List Nat)
  | i, c :: choice, old :: bestChoice => do
      let number := rt.encrypt (methodNumber c.method) (draw i).number
      let kept ← rt.select better number old (draw i).select
      let rest ← selectChoices better draw (i + 1) choice bestChoice
      return kept :: rest
  | _, _, bestChoice => .ok bestChoice

/-- What `visit` does with a complete assignment; one without method 3 is left out. -/
def consider (threshold : Int) (encZero encOne : Nat) (draw : AssignmentDraw rt.key.pub.n)
    (choice : List (Choice Nat)) (s : Selection) : Except Error Selection :=
  if choice.all (fun c => decide (c.method < 2)) = true then
    .ok { s with met := s.met + 1 }
  else do
    let sums := choice.foldl rt.addChoice ⟨encZero, encZero, encZero⟩
    let lhs ← rt.scalarMul sums.c12 (kScale - threshold)
    let rhs ← rt.scalarMul sums.c3 threshold
    -- The constraint holds when the right side is not greater.
    let invalid ← rt.secureCompare rhs lhs draw.invalid
    let minusInvalid ← rt.scalarMul invalid (-1)
    let feasible := rt.add encOne minusInvalid
    let effective ← rt.select feasible sums.total (rt.encrypt kFixedSafe draw.sentinel)
      draw.effective
    let better ← rt.secureCompare s.best effective draw.better
    let best ← rt.select better effective s.best draw.best
    let best12 ← rt.select better sums.c12 s.best12 draw.best12
    let best3 ← rt.select better sums.c3 s.best3 draw.best3
    let bestChoice ← rt.selectChoices better draw.choice 0 choice s.bestChoice
    return {
      best := best
      best12 := best12
      best3 := best3
      bestChoice := bestChoice
      met := s.met + 1 }

/-- `visit(row)`; the rows from there on and the choices before are the arguments. -/
def visit (threshold : Int) (encZero encOne : Nat) (draws : Nat → AssignmentDraw rt.key.pub.n) :
    List (CostRow Nat) → List (Choice Nat) → Selection → Except Error Selection
  | [], choice, s => rt.consider threshold encZero encOne (draws s.met) choice s
  | row :: rest, choice, s =>
      (options row).foldlM
        (fun s c => visit threshold encZero encOne draws rest (choice ++ [c]) s) s

def optimizeEncrypted (costs : List (CostRow Nat)) (thresholdText : Bytes)
    (draw : EnumerationDraw rt.key.pub.n) : Except Error Selection := do
  ensure (rt.off = true) (.backend ("legacy Optimizer::optimize_encrypted is restricted to OFF " ++
    "mode; use ThresholdConfidentialRuntime for SIM/HW"))
  ensure (costs ≠ []) (Error.invalid "encrypted cost matrix must not be empty")
  let threshold ← parseFixedPoint thresholdText true
  ensure (∀ row ∈ costs, options row ≠ [])
    (.optimization .noFeasibleSolution "each material needs an available method")
  let encZero := rt.encrypt 0 draw.zero
  let encOne := rt.encrypt 1 draw.one
  rt.visit threshold encZero encOne draw.assignments costs []
    ⟨rt.encrypt kFixedSafe draw.sentinel, encZero, encZero, List.replicate costs.length encZero, 0⟩

end OpenRuntime

/-! ## What the search looks for -/

/-- The assignments that the search takes: method 3 is used somewhere, perhaps at no cost. -/
def Qualifies (threshold : Int) (leaf : List (Choice Int)) : Prop :=
  0 ≤ linear kScale threshold leaf ∧ 2 ∈ methods leaf

instance (threshold : Int) (leaf : List (Choice Int)) : Decidable (Qualifies threshold leaf) :=
  inferInstanceAs (Decidable (_ ∧ _))

/-- The first one, in the order of the methods, of the cheapest assignments that qualify. -/
structure IsFirstCheapest (threshold : Int) (rows : List (CostRow Int))
    (leaf : List (Choice Int)) : Prop where
  assignment : IsAssignment rows leaf
  qualifies : Qualifies threshold leaf
  least : ∀ other, IsAssignment rows other → Qualifies threshold other →
    total leaf ≤ total other
  first : ∀ other, IsAssignment rows other → Qualifies threshold other →
    total other = total leaf → methods leaf ≤ methods other

/-- The first cheapest assignment has a positive `C3`, and no feasible assignment of its total has a
smaller `C12`. -/
def FirstIsNearest (model : Encoded) : Prop :=
  ∀ leaf, IsFirstCheapest model.threshold model.costs leaf → 0 < c3 leaf ∧
    ∀ other, IsAssignment model.costs other → Feasible kScale model.threshold other →
      total other = total leaf → c12 leaf ≤ c12 other

/-- The ciphertexts decrypt to the method vector and the sums of the plain result. -/
def DecryptsTo (rt : OpenRuntime) (s : Selection) (result : Solver) : Prop :=
  rt.decrypt s.best = .ok result.bestCost ∧ rt.decrypt s.best12 = .ok result.bestC12 ∧
    rt.decrypt s.best3 = .ok result.bestC3 ∧
    List.Forall₂ (fun c number => rt.decrypt c = .ok number) s.bestChoice result.best

/-- The rule of the search on plain integers. -/
def cheaper (threshold : Int) (inc : Option (List (Choice Int))) (leaf : List (Choice Int)) :
    Bool :=
  decide (Qualifies threshold leaf) && inc.all fun b => decide (total leaf < total b)

theorem cheaper_improves (threshold : Int) :
    Improves (Qualifies threshold) total (cheaper threshold) where
  infeasible := by
    intro inc leaf hno
    simp [cheaper, hno]
  none := by
    intro leaf hqualifies
    simp [cheaper, hqualifies]
  some := by
    intro inc leaf _ hqualifies
    simp [cheaper, hqualifies]

theorem isFirstCheapest_of_firstLeast {threshold : Int} {rows : List (CostRow Int)}
    {leaf : List (Choice Int)}
    (h : FirstLeast (Qualifies threshold) total (leaves options rows []) leaf) :
    IsFirstCheapest threshold rows leaf where
  assignment := mem_leaves_iff.1 h.mem
  qualifies := h.holds
  least := fun other hother hqualifies => h.least other (mem_leaves_iff.2 hother) hqualifies
  first := by
    intro other hother hqualifies htotal
    rcases h.first with ⟨before, after, hsplit, hbefore⟩
    have hmem := mem_leaves_iff.2 hother
    have hsorted := leaves_sorted rows []
    rw [hsplit] at hmem hsorted
    rcases List.mem_append.1 hmem with hin | hin
    · exact absurd htotal (hbefore other hin hqualifies).ne'
    · rcases List.mem_cons.1 hin with rfl | hin
      · exact le_rfl
      · have hafter := (List.pairwise_append.1 hsorted).2.1
        exact ((List.pairwise_cons.1 hafter).1 other hin).le

theorem isFirstCheapest_unique {threshold : Int} {rows : List (CostRow Int)}
    {a b : List (Choice Int)} (ha : IsFirstCheapest threshold rows a)
    (hb : IsFirstCheapest threshold rows b) : a = b := by
  have htotal := le_antisymm (ha.least b hb.assignment hb.qualifies)
    (hb.least a ha.assignment ha.qualifies)
  have hmethods := le_antisymm (ha.first b hb.assignment hb.qualifies htotal.symm)
    (hb.first a ha.assignment ha.qualifies htotal)
  refine assignment_ext ha.assignment hb.assignment ?_
  rw [solutionOf_eq, solutionOf_eq, hmethods]

/-! ## One assignment -/

/-- A choice and its ciphertext. -/
abbrev ChoiceEncrypts (n : Nat) : Choice Int → Choice Nat → Prop :=
  Choice.Rel fun v c => Encrypts n c v

/-- A matrix of ciphertexts with the same available methods. -/
abbrev MatrixEncrypts (n : Nat) (rows : List (CostRow Int)) (costs : List (CostRow Nat)) : Prop :=
  List.Forall₂ (fun row cells => ∀ m, Option.Rel (fun v c => Encrypts n c v) (row m) (cells m))
    rows costs

/-- The values behind the selection: those of the incumbent, or the start values. -/
structure SelectionHolds (n count : Nat) (inc : Option (List (Choice Int))) (s : Selection) :
    Prop where
  best : Encrypts n s.best (inc.elim kFixedSafe total)
  best12 : Encrypts n s.best12 (inc.elim 0 c12)
  best3 : Encrypts n s.best3 (inc.elim 0 c3)
  bestChoice : List.Forall₂ (Encrypts n) s.bestChoice
    (inc.elim (List.replicate count 0) solutionOf)

theorem all_lt_two {n : Nat} {leaf : List (Choice Int)} {choice : List (Choice Nat)}
    (h : List.Forall₂ (ChoiceEncrypts n) leaf choice) :
    choice.all (fun c => decide (c.method < 2)) = true ↔ 2 ∉ methods leaf := by
  have hlast : ∀ m : Method, m < 2 ↔ ¬ (2 = m) := by decide
  induction h with
  | nil => simp [methods]
  | @cons c d leaf choice hcd _ ih =>
      rw [List.all_cons, Bool.and_eq_true]
      refine (and_congr decide_eq_true_iff ih).trans ?_
      rw [← hcd.1, hlast]
      simp only [methods, List.map_cons, List.mem_cons, not_or]

theorem one_sub_lessBit (a b : Int) :
    1 + -1 * Runtime.lessBit a b = if b ≤ a then 1 else 0 := by
  unfold Runtime.lessBit
  split <;> split <;> omega

/-- The two sides of the ratio constraint. -/
theorem linear_nonneg_iff (threshold : Int) (leaf : List (Choice Int)) :
    0 ≤ linear kScale threshold leaf ↔
      threshold * c3 leaf ≤ (kScale - threshold) * c12 leaf := by
  rw [linear_eq, sub_nonneg]

theorem cheaper_sides {threshold : Int} {inc : Option (List (Choice Int))}
    {leaf : List (Choice Int)} (h : cheaper threshold inc leaf = true) :
    threshold * c3 leaf ≤ (kScale - threshold) * c12 leaf := by
  have hqualifies := of_decide_eq_true (Bool.and_eq_true_iff.1 h).1
  exact (linear_nonneg_iff _ _).1 hqualifies.1

/-- The total of an assignment, or the sentinel when the ratio constraint is broken. -/
abbrev effectiveTotal (threshold : Int) (leaf : List (Choice Int)) : Int :=
  if threshold * c3 leaf ≤ (kScale - threshold) * c12 leaf then total leaf else kFixedSafe

theorem incumbent_length {rows : List (CostRow Int)} {leaf : List (Choice Int)}
    {inc : Option (List (Choice Int))} (hleaf : IsAssignment rows leaf)
    (hinc : ∀ b, inc = some b → IsAssignment rows b) :
    (inc.elim (List.replicate rows.length 0) solutionOf).length = leaf.length := by
  cases inc with
  | none => rw [Option.elim_none, List.length_replicate, hleaf.length_eq]
  | some b =>
      rw [Option.elim_some, solutionOf, List.length_map, ← (hinc b rfl).length_eq, hleaf.length_eq]

namespace Encoded.Accepted

variable {model : Encoded} (h : model.Accepted) {leaf : List (Choice Int)}
  {inc : Option (List (Choice Int))}
include h

theorem total_lt_sentinel (hleaf : IsAssignment model.costs leaf) :
    0 ≤ total leaf ∧ total leaf < kFixedSafe := by
  have hrange := h.total_range hleaf
  unfold kScale kFixedSafe int64Max at hrange
  unfold kFixedSafe int64Max
  omega

theorem sides_comparable (hleaf : IsAssignment model.costs leaf) :
    |(kScale - model.threshold) * c12 leaf - model.threshold * c3 leaf| ≤ 2 ^ 100 := by
  rcases h.sides_range hleaf with ⟨hleft, hright⟩
  unfold kFixedSafe int64Max at hleft hright
  rw [abs_le]
  omega

theorem incumbent_range (hinc : ∀ b, inc = some b → IsAssignment model.costs b) :
    0 ≤ inc.elim kFixedSafe total ∧ inc.elim kFixedSafe total ≤ kFixedSafe := by
  cases inc with
  | none => decide
  | some b =>
      have hrange := h.total_lt_sentinel (hinc b rfl)
      exact ⟨hrange.1, hrange.2.le⟩

theorem effective_range (hleaf : IsAssignment model.costs leaf) :
    0 ≤ effectiveTotal model.threshold leaf ∧
      effectiveTotal model.threshold leaf ≤ kFixedSafe := by
  have hrange := h.total_lt_sentinel hleaf
  unfold effectiveTotal
  split
  · exact ⟨hrange.1, hrange.2.le⟩
  · decide

theorem effective_comparable (hleaf : IsAssignment model.costs leaf)
    (hinc : ∀ b, inc = some b → IsAssignment model.costs b) :
    |effectiveTotal model.threshold leaf - inc.elim kFixedSafe total| ≤ 2 ^ 100 := by
  have hleft := h.effective_range hleaf
  have hright := h.incumbent_range hinc
  have hsafe : kFixedSafe ≤ 2 ^ 100 := by decide
  rw [abs_le]
  omega

/-- The encrypted comparison with the incumbent is the rule of the plain search. -/
theorem effective_lt (hleaf : IsAssignment model.costs leaf) (hmethod3 : 2 ∈ methods leaf)
    (hinc : ∀ b, inc = some b → IsAssignment model.costs b) :
    Runtime.lessBit (effectiveTotal model.threshold leaf) (inc.elim kFixedSafe total) =
      if cheaper model.threshold inc leaf = true then 1 else 0 := by
  have hsentinel := h.incumbent_range hinc
  refine if_congr ?_ rfl rfl
  unfold effectiveTotal
  by_cases hside : model.threshold * c3 leaf ≤ (kScale - model.threshold) * c12 leaf
  · have hqualifies : Qualifies model.threshold leaf :=
      ⟨(linear_nonneg_iff _ _).2 hside, hmethod3⟩
    rw [if_pos hside]
    cases inc with
    | none =>
        refine iff_of_true (h.total_lt_sentinel hleaf).2 ?_
        exact (cheaper_improves _).none leaf hqualifies
    | some b => simp [cheaper, hqualifies]
  · have hno : ¬ Qualifies model.threshold leaf := fun hq =>
      hside ((linear_nonneg_iff _ _).1 hq.1)
    rw [if_neg hside, (cheaper_improves _).infeasible inc leaf hno]
    exact iff_of_false (not_lt.2 hsentinel.2) (by decide)

end Encoded.Accepted

namespace WideKey

variable {p q : Nat} {rt : OpenRuntime} (h : WideKey p q rt.key)
include h

/-- A selection by an encrypted bit. -/
theorem select_spec (hon : rt.experimental = true) {bit yes no : Nat} {x y : Int} {c : Prop}
    [Decidable c] (hbit : Encrypts rt.key.pub.n bit (if c then 1 else 0))
    (hyes : Encrypts rt.key.pub.n yes x) (hno : Encrypts rt.key.pub.n no y)
    (draw : Runtime.MulDraw rt.key.pub.n) :
    ∃ z, rt.select bit yes no draw = .ok z ∧ Encrypts rt.key.pub.n z (if c then x else y) := by
  rcases h.scalarMul hno (-1) with ⟨minusNo, hminus, hencMinus⟩
  rcases h.secureMul hon hbit (h.add hyes hencMinus) draw with ⟨product, hproduct, hencProduct⟩
  have hvalue : y + (if c then 1 else 0) * (x + -1 * y) = if c then x else y := by
    split <;> ring
  refine ⟨_, bind_eq_ok.2 ⟨minusNo, hminus, bind_eq_ok.2 ⟨product, hproduct, rfl⟩⟩, ?_⟩
  rw [← hvalue]
  exact h.add hno hencProduct

theorem foldl_addChoice {leaf : List (Choice Int)} {choice : List (Choice Nat)}
    (hchoice : List.Forall₂ (ChoiceEncrypts rt.key.pub.n) leaf choice) :
    ∀ {sums : OpenRuntime.EncryptedSums} {t a b : Int}, SumsEncrypt rt.key.pub.n sums t a b →
      SumsEncrypt rt.key.pub.n (choice.foldl rt.addChoice sums) (t + total leaf) (a + c12 leaf)
        (b + c3 leaf) := by
  induction hchoice with
  | nil =>
      intro sums t a b hsums
      simpa [total, c12, c3] using hsums
  | @cons c d leaf choice hcd _ ih =>
      intro sums t a b hsums
      have hstep : SumsEncrypt rt.key.pub.n (rt.addChoice sums d) (t + c.cost)
          (a + if c.method < 2 then c.cost else 0) (b + if c.method < 2 then 0 else c.cost) := by
        unfold OpenRuntime.addChoice
        rw [← hcd.1]
        exact h.add_sums hsums hcd.2 (c.method < 2)
      rw [List.foldl_cons]
      simpa only [total, c12, c3, sumOf_cons, add_assoc] using ih hstep

/-- The method vector is replaced as a whole or kept as a whole. -/
theorem selectChoices_spec (hon : rt.experimental = true) {better : Nat} {c : Prop} [Decidable c]
    (hbit : Encrypts rt.key.pub.n better (if c then 1 else 0))
    (draw : Nat → ChoiceDraw rt.key.pub.n) {leaf : List (Choice Int)} {choice : List (Choice Nat)}
    (hchoice : List.Forall₂ (ChoiceEncrypts rt.key.pub.n) leaf choice) :
    ∀ {i : Nat} {olds : List Nat} {values : List Int},
      List.Forall₂ (Encrypts rt.key.pub.n) olds values → values.length = leaf.length →
      ∃ news, rt.selectChoices better draw i choice olds = .ok news ∧
        List.Forall₂ (Encrypts rt.key.pub.n) news (if c then solutionOf leaf else values) := by
  induction hchoice with
  | nil =>
      intro i olds values holds hlength
      obtain rfl : values = [] := List.length_eq_zero_iff.1 hlength
      cases holds
      refine ⟨[], rfl, ?_⟩
      split <;> exact List.Forall₂.nil
  | @cons d e leaf choice hde _ ih =>
      intro i olds values holds hlength
      cases holds with
      | nil => cases hlength
      | @cons old value olds values hold hrest =>
          rcases h.select_spec hon hbit (h.encrypts (methodNumber e.method) (draw i).number) hold
            (draw i).select with ⟨kept, hkept, hencKept⟩
          rcases ih (i := i + 1) hrest (Nat.succ.inj hlength) with ⟨news, hnews, hencNews⟩
          refine ⟨kept :: news, bind_eq_ok.2 ⟨kept, hkept, bind_eq_ok.2 ⟨news, hnews, rfl⟩⟩, ?_⟩
          rw [← hde.1] at hencKept
          by_cases hc : c
          · rw [if_pos hc] at hencKept hencNews ⊢
            exact List.Forall₂.cons hencKept hencNews
          · rw [if_neg hc] at hencKept hencNews ⊢
            exact List.Forall₂.cons hencKept hencNews

/-- A complete assignment is kept when it qualifies and is cheaper. -/
theorem consider_spec (hon : rt.experimental = true) {model : Encoded}
    (haccepted : model.Accepted) {encZero encOne : Nat} (hzero : Encrypts rt.key.pub.n encZero 0)
    (hone : Encrypts rt.key.pub.n encOne 1) (draw : AssignmentDraw rt.key.pub.n)
    {leaf : List (Choice Int)} {choice : List (Choice Nat)} {inc : Option (List (Choice Int))}
    {s : Selection} (hleaf : IsAssignment model.costs leaf)
    (hchoice : List.Forall₂ (ChoiceEncrypts rt.key.pub.n) leaf choice)
    (hinc : ∀ b, inc = some b → IsAssignment model.costs b)
    (hs : SelectionHolds rt.key.pub.n model.costs.length inc s) :
    ∃ s', rt.consider model.threshold encZero encOne draw choice s = .ok s' ∧
      SelectionHolds rt.key.pub.n model.costs.length (keep (cheaper model.threshold) inc leaf)
        s' := by
  unfold OpenRuntime.consider
  by_cases hmethod3 : 2 ∈ methods leaf
  -- An infeasible assignment takes part with the sentinel as its cost.
  · rw [if_neg (fun hall => (all_lt_two hchoice).1 hall hmethod3)]
    have hstart : SumsEncrypt rt.key.pub.n ⟨encZero, encZero, encZero⟩ 0 0 0 :=
      ⟨hzero, hzero, hzero⟩
    have hsums := h.foldl_addChoice hchoice hstart
    rw [zero_add, zero_add, zero_add] at hsums
    rcases h.scalarMul hsums.c12 (kScale - model.threshold) with ⟨lhs, hlhs, hencLhs⟩
    rcases h.scalarMul hsums.c3 model.threshold with ⟨rhs, hrhs, hencRhs⟩
    rcases h.secureCompare hon hencRhs hencLhs (haccepted.sides_comparable hleaf) draw.invalid with
      ⟨invalid, hinvalid, hencInvalid⟩
    rcases h.scalarMul hencInvalid (-1) with ⟨minus, hminus, hencMinus⟩
    have hencFeasible := h.add hone hencMinus
    rw [one_sub_lessBit] at hencFeasible
    rcases h.select_spec hon hencFeasible hsums.total (h.encrypts kFixedSafe draw.sentinel)
      draw.effective with ⟨effective, heffective, hencEffective⟩
    rcases h.secureCompare hon hs.best hencEffective (haccepted.effective_comparable hleaf hinc)
      draw.better with ⟨better, hbetter, hencBetter⟩
    rw [haccepted.effective_lt hleaf hmethod3 hinc] at hencBetter
    rcases h.select_spec hon hencBetter hencEffective hs.best draw.best with ⟨best, hbest, hencBest⟩
    rcases h.select_spec hon hencBetter hsums.c12 hs.best12 draw.best12 with
      ⟨best12, hbest12, hencBest12⟩
    rcases h.select_spec hon hencBetter hsums.c3 hs.best3 draw.best3 with
      ⟨best3, hbest3, hencBest3⟩
    rcases h.selectChoices_spec hon hencBetter draw.choice hchoice hs.bestChoice
      (incumbent_length hleaf hinc) with ⟨bestChoice, hbestChoice, hencChoice⟩
    refine ⟨_, bind_eq_ok.2 ⟨lhs, hlhs, bind_eq_ok.2 ⟨rhs, hrhs, bind_eq_ok.2 ⟨invalid, hinvalid,
      bind_eq_ok.2 ⟨minus, hminus, bind_eq_ok.2 ⟨effective, heffective, bind_eq_ok.2 ⟨better,
      hbetter, bind_eq_ok.2 ⟨best, hbest, bind_eq_ok.2 ⟨best12, hbest12, bind_eq_ok.2 ⟨best3,
      hbest3, bind_eq_ok.2 ⟨bestChoice, hbestChoice, rfl⟩⟩⟩⟩⟩⟩⟩⟩⟩⟩, ?_⟩
    unfold keep
    by_cases haccept : cheaper model.threshold inc leaf = true
    -- What is cheaper than the incumbent is feasible, so its own cost is kept.
    · have hside := (cheaper_sides haccept)
      rw [if_pos haccept] at hencBest hencBest12 hencBest3 hencChoice ⊢
      rw [if_pos hside] at hencBest
      exact ⟨hencBest, hencBest12, hencBest3, hencChoice⟩
    · rw [if_neg haccept] at hencBest hencBest12 hencBest3 hencChoice ⊢
      exact ⟨hencBest, hencBest12, hencBest3, hencChoice⟩
  -- Without method 3 the source skips the assignment, which does not qualify.
  · have hno : ¬ Qualifies model.threshold leaf := fun hq => hmethod3 hq.2
    rw [if_pos ((all_lt_two hchoice).2 hmethod3), keep, (cheaper_improves _).infeasible _ _ hno,
      if_neg (by decide)]
    exact ⟨_, rfl, hs.best, hs.best12, hs.best3, hs.bestChoice⟩

end WideKey

/-! ## All assignments -/

/-- The recursion is a loop over the assignments. -/
theorem visit_eq_foldlM (rt : OpenRuntime) (threshold : Int) (encZero encOne : Nat)
    (draws : Nat → AssignmentDraw rt.key.pub.n) (costs : List (CostRow Nat)) :
    ∀ (choice : List (Choice Nat)) (s : Selection),
      rt.visit threshold encZero encOne draws costs choice s =
        (leaves options costs choice).foldlM
          (fun s choice => rt.consider threshold encZero encOne (draws s.met) choice s) s := by
  induction costs with
  | nil =>
      intro choice s
      exact (bind_pure _).symm
  | cons row rest ih =>
      intro choice s
      rw [OpenRuntime.visit, leaves]
      generalize options row = cs
      induction cs generalizing s with
      | nil => rfl
      | cons c cs ihcs =>
          rw [List.foldlM_cons, List.flatMap_cons, List.foldlM_append, ih]
          exact congrArg _ (funext ihcs)

theorem leaves_rel {n : Nat} {rows : List (CostRow Int)} {costs : List (CostRow Nat)}
    (h : MatrixEncrypts n rows costs) :
    ∀ {path : List (Choice Int)} {choice : List (Choice Nat)},
      List.Forall₂ (ChoiceEncrypts n) path choice →
      List.Forall₂ (List.Forall₂ (ChoiceEncrypts n)) (leaves options rows path)
        (leaves options costs choice) := by
  induction h with
  | nil => exact fun hpath => List.Forall₂.cons hpath List.Forall₂.nil
  | @cons row cells rows costs hrow _ ih =>
      intro path choice hpath
      have hoptions := options_rel hrow
      rw [leaves, leaves]
      generalize options row = cs at hoptions ⊢
      generalize options cells = ds at hoptions ⊢
      induction hoptions with
      | nil => exact List.Forall₂.nil
      | cons hc _ ihcs =>
          rw [List.flatMap_cons, List.flatMap_cons]
          refine List.rel_append (ih ?_) ihcs
          exact List.rel_append hpath (List.Forall₂.cons hc List.Forall₂.nil)

/-- What the selection holds, and that it is an assignment. -/
structure Selected (model : Encoded) (n : Nat) (inc : Option (List (Choice Int)))
    (s : Selection) : Prop where
  assignment : ∀ b, inc = some b → IsAssignment model.costs b
  holds : SelectionHolds n model.costs.length inc s

theorem WideKey.visit_spec {p q : Nat} {rt : OpenRuntime} (h : WideKey p q rt.key)
    (hon : rt.experimental = true) {model : Encoded} (haccepted : model.Accepted)
    {encZero encOne : Nat} (hzero : Encrypts rt.key.pub.n encZero 0)
    (hone : Encrypts rt.key.pub.n encOne 1)
    (draws : Nat → AssignmentDraw rt.key.pub.n) {costs : List (CostRow Nat)}
    (hcosts : MatrixEncrypts rt.key.pub.n model.costs costs) {s : Selection}
    (hs : Selected model rt.key.pub.n none s) :
    ∃ s', rt.visit model.threshold encZero encOne draws costs [] s = .ok s' ∧
      Selected model rt.key.pub.n
        ((leaves options model.costs []).foldl (keep (cheaper model.threshold)) none) s' := by
  rw [visit_eq_foldlM]
  refine foldlM_related (leaves_rel hcosts List.Forall₂.nil) ?_ hs
  intro leaf hmem choice inc s hchoice hsel
  have hleaf := mem_leaves_iff.1 hmem
  rcases h.consider_spec hon haccepted hzero hone (draws s.met) hleaf hchoice hsel.assignment
    hsel.holds with ⟨s', hrun, hholds⟩
  refine ⟨s', hrun, fun b hb => ?_, hholds⟩
  unfold keep at hb
  split at hb
  · cases hb
    exact hleaf
  · exact hsel.assignment b hb

/-- Without the protocols an assignment with method 3 stops the search. -/
theorem visit_disabled {rt : OpenRuntime} (hoff : rt.experimental = false) {n : Nat}
    {threshold : Int} {encZero encOne : Nat} {draws : Nat → AssignmentDraw rt.key.pub.n}
    {rows : List (CostRow Int)} {costs : List (CostRow Nat)} (hcosts : MatrixEncrypts n rows costs)
    {leaf : List (Choice Int)} (hleaf : IsAssignment rows leaf) (hmethod3 : 2 ∈ methods leaf)
    (s s' : Selection) : rt.visit threshold encZero encOne draws costs [] s ≠ .ok s' := by
  rw [visit_eq_foldlM]
  have hrel := leaves_rel hcosts (List.Forall₂.nil (R := ChoiceEncrypts n))
  have hpartner : ∃ choice ∈ leaves options costs [],
      List.Forall₂ (ChoiceEncrypts n) leaf choice :=
    mem_right_of_forall₂ (List.Forall₂.flip hrel) (mem_leaves_iff.2 hleaf)
  rcases hpartner with ⟨choice, hchoice, hpair⟩
  refine foldlM_throws hchoice (fun s s' hrun => ?_) s s'
  unfold OpenRuntime.consider at hrun
  rw [if_neg (fun hall => (all_lt_two hpair).1 hall hmethod3)] at hrun
  rcases bind_eq_ok.1 hrun with ⟨lhs, _, hrun⟩
  rcases bind_eq_ok.1 hrun with ⟨rhs, _, hrun⟩
  rcases bind_eq_ok.1 hrun with ⟨invalid, hinvalid, _⟩
  unfold OpenRuntime.secureCompare OpenRuntime.whenEnabled at hinvalid
  rw [if_neg (by rw [hoff]; decide)] at hinvalid
  cases hinvalid

theorem methodNumber_range (m : Method) : 0 ≤ methodNumber m ∧ methodNumber m ≤ 2 ^ 100 := by
  revert m
  decide

/-- Rows that are encrypted have the available methods of the plain ones. -/
theorem MatrixEncrypts.available {n : Nat} {rows : List (CostRow Int)} {costs : List (CostRow Nat)}
    (h : MatrixEncrypts n rows costs) (hrows : ∀ row ∈ rows, options row ≠ []) :
    ∀ cells ∈ costs, options cells ≠ [] := by
  intro cells hcells hnil
  rcases mem_right_of_forall₂ h hcells with ⟨row, hrow, hrel⟩
  have hlength := (options_rel hrel).length_eq
  rw [hnil] at hlength
  exact hrows row hrow (List.length_eq_zero_iff.1 hlength)

/-- What an accepted input gives the search. -/
theorem optimizeEncrypted_eq {rt : OpenRuntime} (hoff : rt.off = true) {n : Nat}
    {matrix : CostMatrix} {threshold : Bytes} {model : Encoded}
    (hencode : encode matrix threshold = .ok model) {costs : List (CostRow Nat)}
    (hcosts : MatrixEncrypts n model.costs costs) (draw : EnumerationDraw rt.key.pub.n) :
    rt.optimizeEncrypted costs threshold draw =
      rt.visit model.threshold (rt.encrypt 0 draw.zero) (rt.encrypt 1 draw.one) draw.assignments
        costs [] ⟨rt.encrypt kFixedSafe draw.sentinel, rt.encrypt 0 draw.zero,
          rt.encrypt 0 draw.zero, List.replicate costs.length (rt.encrypt 0 draw.zero), 0⟩ := by
  have haccepted := encode_accepted hencode
  rcases bind_eq_ok.1 hencode with ⟨_, _, hrest⟩
  rcases bind_eq_ok.1 hrest with ⟨thresholdValue, hparse, hrest⟩
  rcases bind_eq_ok.1 hrest with ⟨rows, _, hrest⟩
  rcases bind_eq_ok.1 hrest with ⟨_, _, hmodel⟩
  have hthreshold : model.threshold = thresholdValue := by
    cases hmodel
    rfl
  have hne : costs ≠ [] := by
    rintro rfl
    exact haccepted.nonempty (List.length_eq_zero_iff.1 hcosts.length_eq)
  have havailable := MatrixEncrypts.available hcosts haccepted.available
  unfold OpenRuntime.optimizeEncrypted
  rw [ok_bind (a := ⟨⟩) (ensure_eq_ok.2 hoff), ok_bind (a := ⟨⟩) (ensure_eq_ok.2 hne),
    ok_bind hparse, ok_bind (a := ⟨⟩) (ensure_eq_ok.2 havailable), hthreshold]

/-- The search returns the first cheapest assignment in encrypted form. -/
theorem optimizeEncrypted_spec {p q : Nat} {rt : OpenRuntime} (h : WideKey p q rt.key)
    (hon : rt.experimental = true) (hoff : rt.off = true) {matrix : CostMatrix}
    {threshold : Bytes} {model : Encoded} (hencode : encode matrix threshold = .ok model)
    {costs : List (CostRow Nat)} (hcosts : MatrixEncrypts rt.key.pub.n model.costs costs)
    (hexists : ∃ leaf, IsAssignment model.costs leaf ∧ Qualifies model.threshold leaf)
    (draw : EnumerationDraw rt.key.pub.n) :
    ∃ s leaf, rt.optimizeEncrypted costs threshold draw = .ok s ∧
      IsFirstCheapest model.threshold model.costs leaf ∧ rt.decrypt s.best = .ok (total leaf) ∧
      rt.decrypt s.best12 = .ok (c12 leaf) ∧ rt.decrypt s.best3 = .ok (c3 leaf) ∧
      List.Forall₂ (fun c number => rt.decrypt c = .ok number) s.bestChoice (solutionOf leaf) := by
  have haccepted := encode_accepted hencode
  have hzero := h.encrypts 0 draw.zero
  have hstart : Selected model rt.key.pub.n none ⟨rt.encrypt kFixedSafe draw.sentinel,
      rt.encrypt 0 draw.zero, rt.encrypt 0 draw.zero,
      List.replicate costs.length (rt.encrypt 0 draw.zero), 0⟩ := by
    refine ⟨fun b hb => (by cases hb), ⟨h.encrypts kFixedSafe draw.sentinel, hzero, hzero, ?_⟩⟩
    rw [hcosts.length_eq]
    exact forall₂_replicate hzero _
  rcases h.visit_spec hon haccepted hzero (h.encrypts 1 draw.one) draw.assignments hcosts hstart
    with ⟨s, hrun, hselected⟩
  rw [← optimizeEncrypted_eq hoff hencode hcosts draw] at hrun
  have hfound := describes_foldl (cheaper_improves model.threshold)
    (leaves options model.costs [])
  -- The fold over all leaves keeps the first cheapest one.
  cases hinc : (leaves options model.costs []).foldl (keep (cheaper model.threshold)) none with
  | none =>
      rw [hinc] at hfound
      rcases hexists with ⟨leaf, hleaf, hqualifies⟩
      exact absurd hqualifies (hfound leaf (mem_leaves_iff.2 hleaf))
  | some leaf =>
      rw [hinc] at hfound hselected
      have hfirst := isFirstCheapest_of_firstLeast hfound
      have hc12 := haccepted.c12_nonneg hfirst.assignment
      have hc3 := haccepted.c3_nonneg hfirst.assignment
      have hrange := haccepted.total_lt_sentinel hfirst.assignment
      have hsum := total_eq leaf
      have hsafe : kFixedSafe ≤ 2 ^ 100 := by decide
      rcases hselected.holds with ⟨hbest, hbest12, hbest3, hchoice⟩
      refine ⟨s, leaf, hrun, hfirst, h.decrypt hbest hrange.1 ?_, h.decrypt hbest12 hc12 ?_,
        h.decrypt hbest3 hc3 ?_, ?_⟩
      · exact hrange.2.le.trans hsafe
      · exact le_trans (by omega) (hrange.2.le.trans hsafe)
      · exact le_trans (by omega) (hrange.2.le.trans hsafe)
      · refine List.forall₂_map_right_iff.2 ((List.forall₂_map_right_iff.1 hchoice).imp ?_)
        intro c d hc
        exact h.decrypt hc (methodNumber_range d.method).1 (methodNumber_range d.method).2

/-! ## When the two searches agree -/

theorem qualifies_of_feasible {model : Encoded} {leaf : List (Choice Int)}
    (h : Feasible kScale model.threshold leaf) : Qualifies model.threshold leaf := by
  refine ⟨h.1, ?_⟩
  by_contra hno
  -- Without method 3 every contribution to `C3` is zero.
  have hzero : c3 leaf = 0 := by
    refine List.sum_eq_zero fun x hx => ?_
    rcases List.mem_map.1 hx with ⟨c, hc, rfl⟩
    have hlast : ∀ m : Method, ¬ m < 2 → m = 2 := by decide
    by_cases hmethod : c.method < 2
    · exact if_pos hmethod
    · exact absurd (hlast _ hmethod ▸ List.mem_map_of_mem hc) hno
  exact absurd h.2 (by omega)

/-- Of two feasible assignments of one total the nearer one has the smaller `C12`. -/
theorem gap_lt_iff_c12 {model : Encoded} (haccepted : model.Accepted) {a b : List (Choice Int)}
    (ha : IsAssignment model.costs a) (hfa : Feasible kScale model.threshold a)
    (hb : IsAssignment model.costs b) (hfb : Feasible kScale model.threshold b)
    (htotal : total a = total b) :
    gap model.threshold a < gap model.threshold b ↔ c12 a < c12 b := by
  have hpa := haccepted.total_pos ha hfa
  have hpb := haccepted.total_pos hb hfb
  have hscale : (0 : Int) < kScale := by decide
  rw [gap_lt_iff ⟨hfa.1, hpa⟩ ⟨hfb.1, hpb⟩, htotal, mul_lt_mul_iff_left₀ hpb,
    ← crossGap_eq, ← crossGap_eq, htotal, sub_lt_sub_iff_right, mul_lt_mul_iff_left₀ hscale]

/-- What the key of a nearest assignment says about a feasible one of the same total. -/
theorem nearest_le {threshold : Int} {rows : List (CostRow Int)} {a b : List (Choice Int)}
    (hb : IsNearest threshold rows b) (ha : IsAssignment rows a)
    (hfa : Feasible kScale threshold a) (htotal : total a = total b) :
    ¬ gap threshold a < gap threshold b ∧
      (gap threshold a = gap threshold b → solutionOf b ≤ solutionOf a) := by
  have hkey := Prod.Lex.toLex_le_toLex.1 (hb.best a ha hfa)
  have hinner : toLex (gap threshold b, solutionOf b) ≤ toLex (gap threshold a, solutionOf a) := by
    rcases hkey with hlt | ⟨_, hle⟩
    · exact absurd htotal hlt.ne'
    · exact hle
  rcases Prod.Lex.toLex_le_toLex.1 hinner with hlt | ⟨heq, hle⟩
  · exact ⟨hlt.not_gt, fun hsame => absurd hsame hlt.ne'⟩
  · exact ⟨heq.not_gt, fun _ => hle⟩

/-- The nearest assignment is the first cheapest one exactly under the condition. -/
theorem firstCheapest_eq_nearest_iff {model : Encoded} (haccepted : model.Accepted)
    {a b : List (Choice Int)} (ha : IsFirstCheapest model.threshold model.costs a)
    (hb : IsNearest model.threshold model.costs b) :
    a = b ↔ FirstIsNearest model := by
  constructor
  · rintro rfl leaf hleaf
    obtain rfl := isFirstCheapest_unique hleaf ha
    refine ⟨hb.feasible.2, fun other hother hfeasible htotal => ?_⟩
    have hnear := (nearest_le hb hother hfeasible htotal).1
    by_contra hlt
    exact hnear ((gap_lt_iff_c12 haccepted hother hfeasible hb.assignment hb.feasible htotal).2
      (not_le.1 hlt))
  · intro hfirst
    rcases hfirst a ha with ⟨hpos, hleast⟩
    have hfa : Feasible kScale model.threshold a := ⟨ha.qualifies.1, hpos⟩
    have hle := ha.least b hb.assignment (qualifies_of_feasible hb.feasible)
    have hge : total b ≤ total a := by
      rcases Prod.Lex.toLex_le_toLex.1 (hb.best a ha.assignment hfa) with hlt | ⟨heq, _⟩
      · exact hlt.le
      · exact heq.le
    have htotal := le_antisymm hle hge
    have hsmaller := hleast b hb.assignment hb.feasible htotal.symm
    have hnot : ¬ gap model.threshold b < gap model.threshold a := fun hlt =>
      hsmaller.not_gt ((gap_lt_iff_c12 haccepted hb.assignment hb.feasible ha.assignment hfa
        htotal.symm).1 hlt)
    rcases nearest_le hb ha.assignment hfa htotal with ⟨hnear, hsolution⟩
    have hgap := le_antisymm (not_lt.1 hnot) (not_lt.1 hnear)
    refine assignment_ext ha.assignment hb.assignment ?_
    rcases (ha.first b hb.assignment (qualifies_of_feasible hb.feasible) htotal.symm).lt_or_eq
      with hlt | heq
    · exact absurd (solutionOf_lt hlt) (not_lt.2 (hsolution hgap))
    · rw [solutionOf_eq, solutionOf_eq, heq]

/-- A ciphertext decrypts to one number. -/
theorem decrypts_unique {rt : OpenRuntime} {cs : List Nat} {a b : List Int}
    (ha : List.Forall₂ (fun c number => rt.decrypt c = .ok number) cs a)
    (hb : List.Forall₂ (fun c number => rt.decrypt c = .ok number) cs b) : a = b := by
  refine List.right_unique_forall₂' (fun c x y hx hy => ?_) ha hb
  exact Except.ok.inj (hx.symm.trans hy)

/-- A run that returns is one with the experimental protocols in OFF mode. -/
theorem optimizeEncrypted_enabled {rt : OpenRuntime} {n : Nat} {matrix : CostMatrix}
    {threshold : Bytes} {model : Encoded} (hencode : encode matrix threshold = .ok model)
    {costs : List (CostRow Nat)} (hcosts : MatrixEncrypts n model.costs costs)
    {leaf : List (Choice Int)} (hleaf : IsAssignment model.costs leaf)
    (hmethod3 : 2 ∈ methods leaf) {draw : EnumerationDraw rt.key.pub.n} {s : Selection}
    (hrun : rt.optimizeEncrypted costs threshold draw = .ok s) :
    rt.experimental = true ∧ rt.off = true := by
  have hoff : rt.off = true := by
    rcases bind_eq_ok.1 hrun with ⟨_, hmode, _⟩
    exact ensure_eq_ok.1 hmode
  refine ⟨?_, hoff⟩
  by_contra hon
  rw [optimizeEncrypted_eq hoff hencode hcosts draw] at hrun
  exact visit_disabled (Bool.eq_false_iff.2 hon) hcosts hleaf hmethod3 _ _ hrun

/-- The ciphertexts decrypt to the plain result exactly when the search can run and the first
cheapest assignment is the nearest one. -/
theorem optimizeEncrypted_agrees_iff {rt : OpenRuntime} {bits p q : Nat} (hprimes : KeyPrimes p q)
    (hsize : sizeInBase2 p = bits / 2) (hkey : Runtime.keygen bits p q = .ok rt.key)
    {matrix : CostMatrix} {threshold : Bytes} {model : Encoded} {result : Solver}
    (hencode : encode matrix threshold = .ok model)
    (hplain : optimizePlain matrix threshold = .ok result) {costs : List (CostRow Nat)}
    (hcosts : MatrixEncrypts rt.key.pub.n model.costs costs)
    (draw : EnumerationDraw rt.key.pub.n) :
    (∃ s, rt.optimizeEncrypted costs threshold draw = .ok s ∧ DecryptsTo rt s result) ↔
      rt.experimental = true ∧ rt.off = true ∧ FirstIsNearest model := by
  have hwide := wideKey_of_keygen hprimes hsize hkey
  have haccepted := encode_accepted hencode
  rcases bind_eq_ok.1 hplain with ⟨model', hencode', hsolve⟩
  obtain rfl : model' = model := Except.ok.inj (hencode'.symm.trans hencode)
  rcases bind_eq_ok.1 hsolve with ⟨_, hfound, hreturn⟩
  obtain rfl : Solver.run model' = result := Except.ok.inj hreturn
  rcases run_describes haccepted with ⟨hnil, _⟩ | ⟨b, hb, hbest, hcost, hbest12, hbest3⟩
  · exact absurd hnil (ensure_eq_ok.1 hfound)
  have hqualifies := qualifies_of_feasible hb.feasible
  have hspec := fun hon hoff => optimizeEncrypted_spec hwide hon hoff hencode hcosts
    ⟨b, hb.assignment, hqualifies⟩ draw
  constructor
  · rintro ⟨s, hrun, hdecrypts⟩
    rcases optimizeEncrypted_enabled hencode hcosts hb.assignment hqualifies.2 hrun with
      ⟨hon, hoff⟩
    refine ⟨hon, hoff, ?_⟩
    rcases hspec hon hoff with ⟨s', a, hrun', ha, _, _, _, hchoice⟩
    obtain rfl : s' = s := Except.ok.inj (hrun'.symm.trans hrun)
    -- Both assignments are read from the same decrypted method vector.
    refine (firstCheapest_eq_nearest_iff haccepted ha hb).1 ?_
    refine assignment_ext ha.assignment hb.assignment ?_
    rw [← hbest]
    exact decrypts_unique hchoice hdecrypts.2.2.2
  · rintro ⟨hon, hoff, hfirst⟩
    rcases hspec hon hoff with ⟨s, a, hrun, ha, hsums⟩
    obtain rfl := (firstCheapest_eq_nearest_iff haccepted ha hb).2 hfirst
    refine ⟨s, hrun, ?_⟩
    unfold DecryptsTo
    rw [hbest, hcost, hbest12, hbest3]
    exact hsums

/-! ## Two rows of equal costs -/

theorem WideKey.encryptRows_matrix {p q : Nat} {rt : OpenRuntime} (h : WideKey p q rt.key)
    (nonces : Nat → Method → Nonce rt.key.pub.n) (i : Nat) (rows : List (CostRow Int)) :
    MatrixEncrypts rt.key.pub.n rows (rt.encryptRows nonces i rows) := by
  induction rows generalizing i with
  | nil => exact List.Forall₂.nil
  | cons row rows ih =>
      refine List.Forall₂.cons (fun m => ?_) (ih (i + 1))
      unfold OpenRuntime.encryptRow
      cases row m with
      | none => exact Option.Rel.none
      | some v => exact Option.Rel.some (h.encrypts v (nonces i m))

/-- The first assignment with method 3. -/
def evenFirst : List (Choice Int) :=
  [⟨0, 1000000⟩, ⟨2, 1000000⟩]

theorem evenFirst_isFirstCheapest :
    IsFirstCheapest evenModel.threshold evenModel.costs evenFirst := by
  have hfold : (leaves options evenModel.costs []).foldl (keep (cheaper evenModel.threshold)) none =
      some evenFirst := by
    decide +kernel
  have hfound := describes_foldl (cheaper_improves evenModel.threshold)
    (leaves options evenModel.costs [])
  rw [hfold] at hfound
  exact isFirstCheapest_of_firstLeast hfound

theorem run_evenModel_best : (Solver.run evenModel).best = [3, 3] := by
  decide +kernel

theorem keygen_3072 : ∃ key, Runtime.keygen 3072 leftPrime rightPrime = .ok key := by
  rcases Runtime.deriveKey_spec keyPrimes_3072 with ⟨key, hkey, _⟩
  exact ⟨key, bind_eq_ok.2 ⟨⟨⟩, ensure_eq_ok.2 (by decide), hkey⟩⟩

/-- The plain solver takes method 3 twice, the encrypted search takes it once. -/
theorem optimizeEncrypted_evenRows_differs :
    ∃ key, Runtime.keygen 3072 leftPrime rightPrime = .ok key ∧
      optimizePlain [![some [49], some [49], some [49]], ![some [49], some [49], some [49]]] [48] =
        .ok (Solver.run evenModel) ∧ (Solver.run evenModel).best = [3, 3] ∧
      ∀ (nonces : Nat → Method → Nonce key.pub.n) (draw : EnumerationDraw key.pub.n),
        ∃ s, OpenRuntime.optimizeEncrypted ⟨key, true, true⟩
            (OpenRuntime.encryptRows ⟨key, true, true⟩ nonces 0 evenModel.costs) [48] draw =
              .ok s ∧
          List.Forall₂ (fun c number => OpenRuntime.decrypt ⟨key, true, true⟩ c = .ok number)
            s.bestChoice [1, 3] ∧
          ¬ DecryptsTo ⟨key, true, true⟩ s (Solver.run evenModel) := by
  rcases keygen_3072 with ⟨key, hkey⟩
  have hsize : sizeInBase2 leftPrime = 3072 / 2 := by decide +kernel
  refine ⟨key, hkey, optimizePlain_evenRows, run_evenModel_best, fun nonces draw => ?_⟩
  have hrt : Runtime.keygen 3072 leftPrime rightPrime = .ok (OpenRuntime.mk key true true).key :=
    hkey
  have hwide := wideKey_of_keygen keyPrimes_3072 hsize hrt
  have hqualifies := evenFirst_isFirstCheapest
  rcases optimizeEncrypted_spec hwide rfl rfl encode_evenRows
    (hwide.encryptRows_matrix nonces 0 evenModel.costs)
    ⟨evenFirst, hqualifies.assignment, hqualifies.qualifies⟩ draw with
    ⟨s, leaf, hrun, hleaf, _, _, _, hchoice⟩
  obtain rfl := isFirstCheapest_unique hleaf hqualifies
  refine ⟨s, hrun, hchoice, fun hdecrypts => ?_⟩
  have hsame := decrypts_unique hchoice hdecrypts.2.2.2
  rw [run_evenModel_best] at hsame
  exact absurd hsame (by decide)

theorem optimizeEncrypted_agrees_iff_evenRows :
    ∃ key, Runtime.keygen 3072 leftPrime rightPrime = .ok key ∧
      ∀ (experimental off : Bool) (nonces : Nat → Method → Nonce key.pub.n)
        (draw : EnumerationDraw key.pub.n),
        (∃ s, OpenRuntime.optimizeEncrypted ⟨key, experimental, off⟩
            (OpenRuntime.encryptRows ⟨key, experimental, off⟩ nonces 0 evenModel.costs) [48] draw =
              .ok s ∧ DecryptsTo ⟨key, experimental, off⟩ s (Solver.run evenModel)) ↔
          experimental = true ∧ off = true ∧ FirstIsNearest evenModel := by
  rcases keygen_3072 with ⟨key, hkey⟩
  have hsize : sizeInBase2 leftPrime = 3072 / 2 := by decide +kernel
  refine ⟨key, hkey, fun experimental off nonces draw => ?_⟩
  have hrt : Runtime.keygen 3072 leftPrime rightPrime =
      .ok (OpenRuntime.mk key experimental off).key := hkey
  exact optimizeEncrypted_agrees_iff keyPrimes_3072 hsize hrt encode_evenRows
    optimizePlain_evenRows
    ((wideKey_of_keygen keyPrimes_3072 hsize hrt).encryptRows_matrix nonces 0 evenModel.costs) draw

end Optimization
end SociSgx

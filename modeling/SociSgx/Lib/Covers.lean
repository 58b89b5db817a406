import Mathlib

/-!
# Covers — sets of items that reach a sum

A search takes items of a list, in order, until their gains reach `r`.  `covers gain r l` are the
sets it can end with: all that reach `r`, and whose last item is needed for it.  A Lagrangian sum
bounds the cost of every cover from below.
-/

namespace SociSgx
namespace Covers

variable {α : Type}

def sumOf (f : α → Int) (l : List α) : Int :=
  (l.map f).sum

@[simp]
theorem sumOf_nil (f : α → Int) : sumOf f [] = 0 :=
  rfl

@[simp]
theorem sumOf_cons (f : α → Int) (d : α) (l : List α) : sumOf f (d :: l) = f d + sumOf f l := by
  simp [sumOf]

theorem sumOf_nonneg {f : α → Int} {l : List α} (h : ∀ d ∈ l, 0 ≤ f d) : 0 ≤ sumOf f l := by
  refine List.sum_nonneg fun x hx => ?_
  rcases List.mem_map.1 hx with ⟨d, hd, rfl⟩
  exact h d hd

/-- The sets that the search ends with, in its order. -/
def covers (gain : α → Int) : Int → List α → List (List α)
  | r, [] => if r ≤ 0 then [[]] else []
  | r, d :: rest =>
      if r ≤ 0 then [[]]
      else (covers gain (r - gain d) rest).map (d :: ·) ++ covers gain r rest

variable {gain : α → Int}

theorem covers_of_nonpos (gain : α → Int) {r : Int} (h : r ≤ 0) (l : List α) :
    covers gain r l = [[]] := by
  cases l <;> simp [covers, h]

/-- What the search can take from the rest of the items. -/
theorem mem_covers_cons {r : Int} (hr : ¬ r ≤ 0) {d : α} {rest : List α} {U : List α} :
    U ∈ covers gain r (d :: rest) ↔
      (∃ V ∈ covers gain (r - gain d) rest, U = d :: V) ∨ U ∈ covers gain r rest := by
  simp only [covers, if_neg hr, List.mem_append, List.mem_map]
  constructor
  · rintro (⟨V, hV, rfl⟩ | hU)
    · exact Or.inl ⟨V, hV, rfl⟩
    · exact Or.inr hU
  · rintro (⟨V, hV, rfl⟩ | hU)
    · exact Or.inl ⟨V, hV, rfl⟩
    · exact Or.inr hU

/-- A cover is a set of the items that reaches the sum. -/
theorem mem_covers {l : List α} : ∀ {r : Int} {U : List α}, U ∈ covers gain r l →
    U.Sublist l ∧ r ≤ sumOf gain U := by
  induction l with
  | nil =>
      intro r U hU
      by_cases hr : r ≤ 0
      · simp only [covers, if_pos hr, List.mem_singleton] at hU
        subst hU
        exact ⟨List.Sublist.refl _, hr⟩
      · simp [covers, hr] at hU
  | cons d rest ih =>
      intro r U hU
      by_cases hr : r ≤ 0
      · rw [covers_of_nonpos gain hr, List.mem_singleton] at hU
        subst hU
        exact ⟨List.nil_sublist _, hr⟩
      · rcases (mem_covers_cons hr).1 hU with ⟨V, hV, rfl⟩ | hU
        · rcases ih hV with ⟨hsub, hsum⟩
          refine ⟨hsub.cons_cons d, ?_⟩
          rw [sumOf_cons]
          linarith
        · rcases ih hU with ⟨hsub, hsum⟩
          exact ⟨hsub.cons d, hsum⟩

/-- Weak duality: the negative parts of all items bound the sum over any set of them. -/
theorem sumOf_min_le (f : α → Int) {U l : List α} (h : U.Sublist l) :
    sumOf (fun d => min 0 (f d)) l ≤ sumOf f U := by
  induction h with
  | slnil => exact le_refl _
  | cons d _ ih =>
      rw [sumOf_cons]
      have hmin : min 0 (f d) ≤ 0 := min_le_left ..
      linarith
  | cons_cons d _ ih =>
      rw [sumOf_cons, sumOf_cons]
      have hmin : min 0 (f d) ≤ f d := min_le_right ..
      linarith

theorem sumOf_linear (f g : α → Int) (a p : Int) (l : List α) :
    sumOf (fun d => f d * a - p * g d) l = sumOf f l * a - p * sumOf g l := by
  induction l with
  | nil => simp
  | cons d l ih =>
      rw [sumOf_cons, sumOf_cons, sumOf_cons, ih]
      ring

/-- The Lagrangian bound of a cover. -/
theorem lagrangian_le {cost : α → Int} {l U : List α} {r p a : Int} (hp : 0 ≤ p)
    (hU : U.Sublist l) (hr : r ≤ sumOf gain U) :
    p * r + sumOf (fun d => min 0 (cost d * a - p * gain d)) l ≤ sumOf cost U * a := by
  have hscaled : p * r ≤ p * sumOf gain U := mul_le_mul_of_nonneg_left hr hp
  calc
    p * r + sumOf (fun d => min 0 (cost d * a - p * gain d)) l
        ≤ p * sumOf gain U + sumOf (fun d => cost d * a - p * gain d) U :=
      add_le_add hscaled (sumOf_min_le _ hU)
    _ = sumOf cost U * a := by
      rw [sumOf_linear]
      ring

/-! ## The best bound of a grid -/

/-- The bound of the multiplier `p / a`, rounded down. -/
def quotient (cost gain : α → Int) (p a r : Int) (l : List α) : Int :=
  (p * r + sumOf (fun d => min 0 (cost d * a - p * gain d)) l) / a

/-- The best bound of a grid of multipliers; zero is a bound, too. -/
def gridBound (cost gain : α → Int) (grid : List (Int × Int)) (r : Int) (l : List α) : Int :=
  (grid.map fun x => quotient cost gain x.1 x.2 r l).foldl max 0

theorem foldl_max_le_iff {l : List Int} : ∀ {start b : Int},
    l.foldl max start ≤ b ↔ start ≤ b ∧ ∀ x ∈ l, x ≤ b := by
  induction l with
  | nil =>
      intro start b
      simp
  | cons x l ih =>
      intro start b
      rw [List.foldl_cons, ih, max_le_iff, List.forall_mem_cons, and_assoc]

theorem gridBound_le_iff {cost : α → Int} {grid : List (Int × Int)} {r b : Int} {l : List α} :
    gridBound cost gain grid r l ≤ b ↔
      0 ≤ b ∧ ∀ x ∈ grid, quotient cost gain x.1 x.2 r l ≤ b := by
  rw [gridBound, foldl_max_le_iff, List.forall_mem_map]

theorem gridBound_nonneg (cost gain : α → Int) (grid : List (Int × Int)) (r : Int) (l : List α) :
    0 ≤ gridBound cost gain grid r l :=
  (gridBound_le_iff.1 (le_refl _)).1

/-- No cover is cheaper than the bound. -/
theorem gridBound_le {cost : α → Int} {grid : List (Int × Int)} {r : Int} {l U : List α}
    (hcost : ∀ d ∈ l, 0 ≤ cost d) (hgrid : ∀ x ∈ grid, 0 ≤ x.1 ∧ 0 < x.2) (hU : U.Sublist l)
    (hr : r ≤ sumOf gain U) : gridBound cost gain grid r l ≤ sumOf cost U := by
  refine gridBound_le_iff.2 ⟨sumOf_nonneg fun d hd => hcost d (hU.subset hd), fun x hx => ?_⟩
  exact Int.ediv_le_of_le_mul (hgrid x hx).2 (lagrangian_le (hgrid x hx).1 hU hr)

/-- Nothing is to be covered. -/
theorem gridBound_of_nonpos {cost : α → Int} {grid : List (Int × Int)} {r : Int} {l : List α}
    (hgrid : ∀ x ∈ grid, 0 ≤ x.1 ∧ 0 < x.2) (hr : r ≤ 0) : gridBound cost gain grid r l = 0 := by
  refine le_antisymm (gridBound_le_iff.2 ⟨le_refl _, fun x hx => ?_⟩) (gridBound_nonneg ..)
  have hproduct : x.1 * r ≤ 0 := mul_nonpos_of_nonneg_of_nonpos (hgrid x hx).1 hr
  have hterms := sumOf_min_le (fun d => cost d * x.2 - x.1 * gain d) (List.nil_sublist l)
  refine Int.ediv_le_of_le_mul (hgrid x hx).2 ?_
  rw [zero_mul]
  exact add_nonpos hproduct hterms

/-- The items enter by their costs and gains only. -/
theorem gridBound_map {β : Type} (f : β → α) (cost gain : α → Int) (grid : List (Int × Int))
    (r : Int) (l : List β) :
    gridBound cost gain grid r (l.map f) =
      gridBound (fun d => cost (f d)) (fun d => gain (f d)) grid r l := by
  simp only [gridBound, quotient, sumOf, List.map_map, Function.comp_def]

end Covers
end SociSgx

import SociSgx.Scalable.Repair

/-!
# Order — the order of the individuals

`order` compares ranks: a feasible individual comes before an infeasible one, the feasible ones are
compared by cost, linear value and genes, and the infeasible ones by fitness and genes.  On
consistent individuals it is a strict total order of the method vectors.
-/

namespace SociSgx
namespace Optimization
namespace Scalable

/-- Cost and linear value of a feasible solution, or the fitness of an infeasible one; then the
genes. -/
abbrev Rank (F : Type) := ((ℤ ×ₗ ℤ) ⊕ₗ F) ×ₗ List Method

def Individual.rank {F : Type} (x : Individual F) : Rank F :=
  toLex (toLex (if x.feasible then .inl (toLex (x.total, x.linear)) else .inr x.fitness), x.genes)

namespace Evaluator

variable {F : Type} [LinearOrder F]

/-- The cross products compare linear values where the costs are equal and positive. -/
theorem order_feasible {a b : Individual F} (ha : a.feasible = true) (hb : b.feasible = true)
    (hpos : 0 < b.total) : order a b = true ↔ a.rank < b.rank := by
  have hrank : a.rank < b.rank ↔ (a.total < b.total ∨ a.total = b.total ∧ a.linear < b.linear) ∨
      (a.total = b.total ∧ a.linear = b.linear) ∧ a.genes < b.genes := by
    simp only [Individual.rank, ha, hb, if_true, Prod.Lex.toLex_lt_toLex,
      Sum.Lex.inl_lt_inl_iff, EmbeddingLike.apply_eq_iff_eq, Sum.inl.injEq, Prod.mk.injEq]
  rw [hrank]
  unfold order
  rw [if_neg (by rw [ha, hb]; simp), if_pos ha]
  by_cases htotal : a.total = b.total
  · have hcross : a.linear * b.total < b.linear * a.total ↔ a.linear < b.linear := by
      rw [htotal]
      exact mul_lt_mul_iff_left₀ hpos
    have hequal : a.linear * b.total = b.linear * a.total ↔ a.linear = b.linear := by
      rw [htotal]
      exact mul_left_inj' hpos.ne'
    rw [if_neg (not_not.2 htotal)]
    by_cases hlinear : a.linear = b.linear
    · rw [if_neg (not_not.2 (hequal.2 hlinear)), decide_eq_true_iff]
      simp [htotal, hlinear]
    · rw [if_pos (mt hequal.1 hlinear), decide_eq_true_iff, hcross]
      simp [htotal, hlinear]
  · simp [htotal]

/-- What `order` compares. -/
theorem order_iff {a b : Individual F} (hb : b.feasible = true → 0 < b.total) :
    order a b = true ↔ a.rank < b.rank := by
  cases hfa : a.feasible <;> cases hfb : b.feasible
  · have hrank : a.rank < b.rank ↔ a.fitness < b.fitness ∨
        a.fitness = b.fitness ∧ a.genes < b.genes := by
      simp [Individual.rank, hfa, hfb, Prod.Lex.toLex_lt_toLex]
    rw [hrank]
    unfold order
    by_cases hfitness : a.fitness = b.fitness
    · simp [hfa, hfb, hfitness]
    · simp [hfa, hfb, hfitness]
  · have hrank : ¬ a.rank < b.rank := by
      simp [Individual.rank, hfa, hfb, Prod.Lex.toLex_lt_toLex]
    simp [order, hfa, hfb, hrank]
  · have hrank : a.rank < b.rank := by
      simp [Individual.rank, hfa, hfb, Prod.Lex.toLex_lt_toLex]
    simp [order, hfa, hfb, hrank]
  · exact order_feasible hfa hfb (hb hfb)

variable {ev : Evaluator F}

omit [LinearOrder F] in
theorem Consistent.total_pos {x : Individual F} (h : ev.Consistent x) (hx : x.feasible = true) :
    0 < x.total :=
  (h.feasible_iff.1 hx).2.2

theorem Consistent.order_iff {a b : Individual F} (hb : ev.Consistent b) :
    order a b = true ↔ a.rank < b.rank :=
  Evaluator.order_iff hb.total_pos

theorem Consistent.order_false_iff {a b : Individual F} (hb : ev.Consistent b) :
    order a b = false ↔ b.rank ≤ a.rank := by
  rw [← not_lt, ← hb.order_iff, Bool.not_eq_true]

omit [LinearOrder F] in
theorem rank_injective {a b : Individual F} (h : a.rank = b.rank) : a.genes = b.genes := by
  have hpair := toLex_inj.1 h
  exact (Prod.mk.inj hpair).2

theorem total_le_of_rank_le {a b : Individual F} (ha : a.feasible = true)
    (hb : b.feasible = true) (h : a.rank ≤ b.rank) : a.total ≤ b.total := by
  simp only [Individual.rank, ha, hb, if_true, Prod.Lex.toLex_le_toLex, Sum.Lex.inl_lt_inl_iff,
    Prod.Lex.toLex_lt_toLex, EmbeddingLike.apply_eq_iff_eq, Sum.inl.injEq, Prod.mk.injEq] at h
  rcases h with (hless | hequal) | hequal
  · exact hless.le
  · exact hequal.1.le
  · exact hequal.1.1.le

end Evaluator
end Scalable
end Optimization
end SociSgx

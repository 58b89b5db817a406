import Mathlib

/-!
# RestoringDivision — binary division with a bounded quotient

The multiples `y * 2 ^ k` are tried from the largest one down, and each one that fits is taken away.
With `k` steps the quotient has `k` bits, so it saturates at `2 ^ k - 1`, and what it does not cover
stays in the remainder.
-/

namespace SociSgx
namespace Restoring

variable {y : Nat}

/-- Take `y * 2 ^ k` away when it fits; the state is the quotient and the remainder. -/
def step (y k : Nat) (state : Nat × Nat) : Nat × Nat :=
  if state.2 < y * 2 ^ k then state else (state.1 + 2 ^ k, state.2 - y * 2 ^ k)

def divide (y : Nat) : Nat → Nat × Nat → Nat × Nat
  | 0, state => state
  | k + 1, state => divide y k (step y k state)

theorem step_snd_le (y k : Nat) (state : Nat × Nat) : (step y k state).2 ≤ state.2 := by
  unfold step
  split
  · exact le_rfl
  · exact Nat.sub_le _ _

theorem step_total (y k : Nat) (state : Nat × Nat) :
    (step y k state).1 * y + (step y k state).2 = state.1 * y + state.2 := by
  unfold step
  split
  · rfl
  · rename_i hfits
    have hsplit := Nat.add_sub_of_le (Nat.not_lt.1 hfits)
    calc
      (state.1 + 2 ^ k) * y + (state.2 - y * 2 ^ k)
        = state.1 * y + (y * 2 ^ k + (state.2 - y * 2 ^ k)) := by ring
      _ = state.1 * y + state.2 := by rw [hsplit]

theorem divide_total (y k : Nat) (state : Nat × Nat) :
    (divide y k state).1 * y + (divide y k state).2 = state.1 * y + state.2 := by
  induction k generalizing state with
  | zero => rfl
  | succ k ih =>
      calc
        (divide y (k + 1) state).1 * y + (divide y (k + 1) state).2
          = (step y k state).1 * y + (step y k state).2 := ih _
        _ = state.1 * y + state.2 := step_total y k state

/-- The quotient grows by the true one, as far as `k` bits reach. -/
theorem divide_quotient (hy : 0 < y) (k : Nat) (state : Nat × Nat) :
    (divide y k state).1 = state.1 + min (state.2 / y) (2 ^ k - 1) := by
  induction k generalizing state with
  | zero => simp [divide]
  | succ k ih =>
      have hpow : 0 < 2 ^ k := by positivity
      have hdouble : 2 ^ (k + 1) = 2 ^ k + 2 ^ k := by ring
      rw [divide, ih, step]
      by_cases hless : state.2 < y * 2 ^ k
      · have hquot : state.2 / y < 2 ^ k := Nat.div_lt_of_lt_mul hless
        rw [if_pos hless]
        omega
      · have hquot : (state.2 - y * 2 ^ k) / y = state.2 / y - 2 ^ k :=
          Nat.sub_mul_div _ _ _
        have hge : 2 ^ k ≤ state.2 / y := by
          rw [Nat.le_div_iff_mul_le hy, mul_comm]
          exact Nat.not_lt.1 hless
        rw [if_neg hless]
        dsimp only
        rw [hquot]
        omega

/-- Division from the beginning. -/
theorem divide_spec (hy : 0 < y) (k x : Nat) :
    (divide y k (0, x)).1 = min (x / y) (2 ^ k - 1) ∧
      x = (divide y k (0, x)).1 * y + (divide y k (0, x)).2 := by
  have hquot := divide_quotient hy k (0, x)
  have htotal := divide_total y k (0, x)
  rw [Nat.zero_add] at hquot
  rw [Nat.zero_mul, Nat.zero_add] at htotal
  exact ⟨hquot, htotal.symm⟩

/-- When the quotient fits into `k` bits, the remainder is below the divisor. -/
theorem divide_remainder_lt {k x : Nat} (h : x < y * 2 ^ k) : (divide y k (0, x)).2 < y := by
  have hy : 0 < y := Nat.pos_of_ne_zero fun hzero => by simp [hzero] at h
  have hquot : x / y < 2 ^ k := Nat.div_lt_of_lt_mul h
  rcases divide_spec hy k x with ⟨hq, htotal⟩
  have hexact : (divide y k (0, x)).1 = x / y := by omega
  have hdiv := Nat.div_add_mod x y
  have hmod := Nat.mod_lt x hy
  rw [hexact, mul_comm] at htotal
  omega

end Restoring
end SociSgx

import Mathlib

/-!
# Bisect — the largest integer with a property that is lost only once

`bisect p fuel low high` halves an interval whose lower end has the property `p`, rounding the
midpoint up.  When `p` passes from every number to the smaller ones, what is left is the largest
number of the interval with `p`.
-/

namespace SociSgx
namespace Bisect

variable (p : Int → Bool)

/-- Every round halves the interval, so that `fuel` bounds the logarithm of its width. -/
def bisect : Nat → Int → Int → Int
  | 0, low, _ => low
  | fuel + 1, low, high =>
      if low < high then
        if p (low + (high - low + 1) / 2) then
          bisect fuel (low + (high - low + 1) / 2) high
        else
          bisect fuel low (low + (high - low + 1) / 2 - 1)
      else
        low

variable {p}

/-- What `p` holds of, it holds of every smaller number from `low` on. -/
def Descends (p : Int → Bool) (low : Int) : Prop :=
  ∀ ⦃x y⦄, low ≤ x → x ≤ y → p y = true → p x = true

theorem Descends.mono {low low' : Int} (h : Descends p low) (hle : low ≤ low') :
    Descends p low' :=
  fun _ _ hx hxy hy => h (hle.trans hx) hxy hy

/-- The interval keeps the largest number with `p`. -/
theorem bisect_isGreatest (fuel : Nat) : ∀ {low high : Int}, Descends p low → p low = true →
    low ≤ high → high - low < 2 ^ fuel →
    IsGreatest {x | low ≤ x ∧ x ≤ high ∧ p x = true} (bisect p fuel low high) := by
  induction fuel with
  | zero =>
      intro low high _ hlow hle hwidth
      have heq : high = low := by
        rw [pow_zero] at hwidth
        omega
      subst heq
      exact ⟨⟨le_rfl, le_rfl, hlow⟩, fun x hx => hx.2.1⟩
  | succ fuel ih =>
      intro low high hp hlow hle hwidth
      rw [pow_succ] at hwidth
      rw [bisect]
      split
      · rename_i hlt
        -- the midpoint lies strictly above `low` and not above `high`
        have habove : low < low + (high - low + 1) / 2 := by omega
        have hbelow : low + (high - low + 1) / 2 ≤ high := by omega
        generalize hmid : low + (high - low + 1) / 2 = mid at habove hbelow
        split
        · rename_i hpmid
          have hrest := ih (hp.mono habove.le) hpmid hbelow (by omega)
          refine ⟨⟨habove.le.trans hrest.1.1, hrest.1.2⟩, fun x hx => ?_⟩
          rcases le_total mid x with hge | hlt
          · exact hrest.2 ⟨hge, hx.2⟩
          · exact hlt.trans hrest.1.1
        · rename_i hpmid
          have hrest := ih hp hlow (by omega) (by omega : mid - 1 - low < 2 ^ fuel)
          refine ⟨⟨hrest.1.1, hrest.1.2.1.trans (by omega), hrest.1.2.2⟩, fun x hx => ?_⟩
          refine hrest.2 ⟨hx.1, ?_, hx.2.2⟩
          by_contra hge
          exact hpmid (hp habove.le (by omega) hx.2.2)
      · rename_i hnlt
        have heq : high = low := by omega
        subst heq
        exact ⟨⟨le_rfl, le_rfl, hlow⟩, fun x hx => hx.2.1⟩

end Bisect
end SociSgx

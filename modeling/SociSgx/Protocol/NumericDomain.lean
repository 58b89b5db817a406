import SociSgx.Secure.Ops
import SociSgx.Lib.Exec

/-!
# NumericDomain — the domains that `ThresholdSecureOps` accepts

The constructor derives how many bits a sum of costs and a linear value can have, and rejects a
domain that declares fewer bits, or more than the secure multiplication allows.
-/

namespace SociSgx
namespace Protocol

open Exec Secure

/-- The loop counts the binary digits of `value - 1`. -/
def ceilLog2 (value : Nat) : Nat :=
  if value ≤ 1 then 0 else (value - 1).size

def checkedBitSum (left right : Nat) (message : String) : Except Error Nat := do
  ensure (left + right < 2 ^ 32) (Error.backend message)
  return left + right

/-- The checks of the `ThresholdSecureOps` constructor. -/
def checkNumericDomain (domain : NumericDomain) : Except Error Unit := do
  ensure (0 < domain.scale ∧ domain.maxRows ≠ 0 ∧ domain.maxCostBits ≠ 0 ∧
      domain.maxTotalBits ≠ 0 ∧ domain.maxLinearBits ≠ 0 ∧ domain.compareOperandBits ≠ 0)
    (Error.backend "ThresholdSecureOps requires a complete NumericDomain")
  let requiredTotalBits ← checkedBitSum domain.maxCostBits (ceilLog2 domain.maxRows)
    "NumericDomain total bit calculation overflowed"
  let scaledBits ← checkedBitSum requiredTotalBits (ceilLog2 domain.scale.toNat)
    "NumericDomain linear bit calculation overflowed"
  -- `kLinearSignMargin`
  let requiredLinearBits ← checkedBitSum scaledBits 1
    "NumericDomain linear bit calculation overflowed"
  let requiredCompareBits := max requiredTotalBits requiredLinearBits
  ensure (requiredTotalBits ≤ domain.maxTotalBits ∧ requiredLinearBits ≤ domain.maxLinearBits ∧
      requiredCompareBits ≤ domain.compareOperandBits)
    (Error.backend "NumericDomain declared bounds are smaller than derived bounds")
  ensure (domain.maxCostBits ≤ 127 ∧ domain.maxTotalBits ≤ 127 ∧ domain.maxLinearBits ≤ 127 ∧
      domain.compareOperandBits ≤ 127)
    (Error.backend "NumericDomain violates the SMUL invariant |x| < 2^127")

theorem le_two_pow_ceilLog2 (value : Nat) : value ≤ 2 ^ ceilLog2 value := by
  unfold ceilLog2
  split
  · simpa using ‹value ≤ 1›
  · have hsize := Nat.lt_size_self (value - 1)
    omega

theorem checkedBitSum_ok {left right sum : Nat} {message : String}
    (h : checkedBitSum left right message = .ok sum) : sum = left + right := by
  rcases bind_eq_ok.1 h with ⟨_, _, hsum⟩
  cases hsum
  rfl

/-- An accepted domain has room for the rows, the scale and a sign. -/
theorem checkNumericDomain_ok {domain : NumericDomain}
    (h : checkNumericDomain domain = .ok ()) : 0 < domain.scale ∧
      ∃ r s : Nat, (domain.maxRows : Int) ≤ 2 ^ r ∧ domain.scale ≤ 2 ^ s ∧
        domain.maxCostBits + r + s + 1 ≤ 127 := by
  rcases bind_eq_ok.1 h with ⟨_, hcomplete, h⟩
  rcases bind_eq_ok.1 h with ⟨total, htotal, h⟩
  rcases bind_eq_ok.1 h with ⟨scaled, hscaled, h⟩
  rcases bind_eq_ok.1 h with ⟨required, hrequired, h⟩
  rcases bind_eq_ok.1 h with ⟨_, hdeclared, h⟩
  rw [ensure_eq_ok] at hcomplete hdeclared h
  have htotal' := checkedBitSum_ok htotal
  have hscaled' := checkedBitSum_ok hscaled
  have hrequired' := checkedBitSum_ok hrequired
  have hrows := le_two_pow_ceilLog2 domain.maxRows
  have hscale := le_two_pow_ceilLog2 domain.scale.toNat
  refine ⟨hcomplete.1, ceilLog2 domain.maxRows, ceilLog2 domain.scale.toNat, ?_, ?_, ?_⟩
  · exact_mod_cast hrows
  · have hcast : ((domain.scale.toNat : Nat) : Int) = domain.scale :=
      Int.toNat_of_nonneg hcomplete.1.le
    rw [← hcast]
    exact_mod_cast hscale
  · omega

/-- The bits of a total cover the costs of all rows. -/
theorem checkNumericDomain_total {domain : NumericDomain}
    (h : checkNumericDomain domain = .ok ()) :
    domain.maxCostBits + ceilLog2 domain.maxRows ≤ domain.maxTotalBits := by
  rcases bind_eq_ok.1 h with ⟨_, _, h⟩
  rcases bind_eq_ok.1 h with ⟨total, htotal, h⟩
  rcases bind_eq_ok.1 h with ⟨_, _, h⟩
  rcases bind_eq_ok.1 h with ⟨_, _, h⟩
  rcases bind_eq_ok.1 h with ⟨_, hdeclared, _⟩
  rw [ensure_eq_ok] at hdeclared
  rw [← checkedBitSum_ok htotal]
  exact hdeclared.1

end Protocol
end SociSgx

import Mathlib

/-!
# ModularPower — powers, inverses and roots of unity modulo a number

Square-and-multiply and the extended Euclidean inverse as computable functions, primality by
Lucas's test over them, and the exponents that fix every residue of a product of two primes.
-/

namespace SociSgx
namespace Modular

/-! ## Powers -/

/-- Right-to-left square-and-multiply; `fuel` bounds the bits of the exponent. -/
def powLoop (modulus : Nat) : Nat → Nat → Nat → Nat
  | 0, _, _ => 1 % modulus
  | fuel + 1, base, exponent =>
      let rest := powLoop modulus fuel (base * base % modulus) (exponent / 2)
      if exponent % 2 = 1 then base * rest % modulus else rest

/-- `base ^ exponent` modulo `modulus`. -/
def powMod (base exponent modulus : Nat) : Nat :=
  powLoop modulus (exponent.log2 + 1) base exponent

theorem powLoop_eq {modulus : Nat} (fuel : Nat) : ∀ {base exponent : Nat},
    exponent < 2 ^ fuel → powLoop modulus fuel base exponent = base ^ exponent % modulus := by
  induction fuel with
  | zero =>
      intro base exponent h
      have hzero : exponent = 0 := by simpa using h
      simp [powLoop, hzero]
  | succ fuel ih =>
      intro base exponent h
      have hhalf : exponent / 2 < 2 ^ fuel := by
        rw [pow_succ] at h
        omega
      have hsquare : (base * base % modulus) ^ (exponent / 2) % modulus =
          base ^ (2 * (exponent / 2)) % modulus := by
        rw [← Nat.pow_mod, pow_mul, pow_two]
      simp only [powLoop, ih hhalf, hsquare]
      have hsplit := Nat.div_add_mod exponent 2
      split
      · rename_i hodd
        calc
          base * (base ^ (2 * (exponent / 2)) % modulus) % modulus
            = base ^ (2 * (exponent / 2) + 1) % modulus := by
                rw [Nat.mul_mod_mod, pow_succ, mul_comm]
          _ = base ^ exponent % modulus := by rw [hodd] at hsplit; rw [hsplit]
      · have heven : 2 * (exponent / 2) = exponent := by omega
        rw [heven]

theorem powMod_eq (base exponent modulus : Nat) :
    powMod base exponent modulus = base ^ exponent % modulus :=
  powLoop_eq _ Nat.lt_log2_self

theorem powMod_lt {base exponent modulus : Nat} (h : 0 < modulus) :
    powMod base exponent modulus < modulus := by
  rw [powMod_eq]
  exact Nat.mod_lt _ h

@[simp]
theorem natCast_powMod (base exponent modulus : Nat) :
    ((powMod base exponent modulus : Nat) : ZMod modulus) = (base : ZMod modulus) ^ exponent := by
  rw [powMod_eq, ZMod.natCast_mod, Nat.cast_pow]

/-! ## Inverses -/

/-- The inverse of `a` modulo `m`, when there is one. -/
def invMod (a m : Nat) : Option Nat :=
  if a.Coprime m then some ((Nat.gcdA a m % m).toNat) else none

theorem invMod_lt {a m b : Nat} (hm : 0 < m) (h : invMod a m = some b) : b < m := by
  have hpos : (0 : Int) < m := by exact_mod_cast hm
  have hlt := Int.emod_lt_of_pos (Nat.gcdA a m) hpos
  unfold invMod at h
  split at h
  · cases h
    omega
  · cases h

theorem invMod_of_coprime {a m : Nat} (hm : 0 < m) (h : a.Coprime m) :
    ∃ b, invMod a m = some b ∧ b < m ∧ (a : ZMod m) * b = 1 := by
  have hpos : (0 : Int) < m := by exact_mod_cast hm
  have hnonneg := Int.emod_nonneg (Nat.gcdA a m) hpos.ne'
  have hlt := Int.emod_lt_of_pos (Nat.gcdA a m) hpos
  refine ⟨_, if_pos h, by omega, ?_⟩
  have hcast : (((Nat.gcdA a m % m).toNat : Nat) : ZMod m) = (Nat.gcdA a m : ZMod m) := by
    rw [← Int.cast_natCast, Int.toNat_of_nonneg hnonneg]
    simp
  have hbezout := congrArg (fun z : Int => (z : ZMod m)) (Nat.gcd_eq_gcd_ab a m)
  simp only [h.gcd_eq_one, Int.cast_add, Int.cast_mul, Int.cast_natCast, Nat.cast_one,
    Int.cast_one, ZMod.natCast_self, zero_mul, add_zero] at hbezout
  rw [hcast]
  exact hbezout.symm

/-! ## Primality -/

/-- Lucas's test for a number whose predecessor is a prime times a power of two. -/
theorem prime_of_powMod {p k m a : Nat} (hk : k.Prime) (hp : p = k * 2 ^ (m + 1) + 1)
    (hone : powMod a (k * 2 ^ (m + 1)) p = 1) (htwo : powMod a (k * 2 ^ m) p ≠ 1)
    (hodd : powMod a (2 ^ (m + 1)) p ≠ 1) : p.Prime := by
  have hpred : p - 1 = k * 2 ^ (m + 1) := by omega
  have hlarge : 1 < p := by
    have hpos : 0 < k * 2 ^ (m + 1) := Nat.mul_pos hk.pos (by positivity)
    omega
  have hiff : ∀ e, ((a : ZMod p) ^ e = 1) ↔ powMod a e p = 1 := by
    intro e
    rw [powMod_eq, ← Nat.cast_pow, ← Nat.cast_one, ZMod.natCast_eq_natCast_iff',
      Nat.mod_eq_of_lt hlarge]
  refine lucas_primality p (a : ZMod p) ?_ ?_
  · rw [hpred, hiff]
    exact hone
  · intro q hq hdvd
    rw [hpred] at hdvd
    rw [hpred, Ne, hiff]
    rcases (Nat.Prime.dvd_mul hq).1 hdvd with hleft | hright
    · have hqk : q = k := (Nat.prime_dvd_prime_iff_eq hq hk).1 hleft
      rw [hqk, Nat.mul_div_cancel_left _ hk.pos]
      exact hodd
    · have hq2 : q = 2 := (Nat.prime_dvd_prime_iff_eq hq Nat.prime_two).1 (hq.dvd_of_dvd_pow hright)
      have hhalf : k * 2 ^ (m + 1) / 2 = k * 2 ^ m := by
        rw [pow_succ, ← mul_assoc]
        exact Nat.mul_div_cancel _ (by decide)
      rw [hq2, hhalf]
      exact htwo

/-! ## Exponents modulo a product of two primes -/

/-- Fermat: an exponent that is `1` modulo `p - 1` fixes every residue. -/
theorem pow_modEq_self_prime {p e : Nat} (hp : p.Prime) (hpos : 0 < e)
    (he : e ≡ 1 [MOD p - 1]) (x : Nat) : x ^ e ≡ x [MOD p] := by
  have hfact : Fact p.Prime := ⟨hp⟩
  rw [← ZMod.natCast_eq_natCast_iff, Nat.cast_pow]
  by_cases hx : (x : ZMod p) = 0
  · rw [hx, zero_pow hpos.ne']
  · rcases (Nat.modEq_iff_dvd' hpos).1 he.symm with ⟨k, hk⟩
    have hsplit : e = (p - 1) * k + 1 := by omega
    rw [hsplit, pow_succ, pow_mul, ZMod.pow_card_sub_one_eq_one hx, one_pow, one_mul]

/-- What makes RSA decryption the inverse of encryption. -/
theorem pow_modEq_self {p q e : Nat} (hp : p.Prime) (hq : q.Prime) (hne : p ≠ q) (hpos : 0 < e)
    (hep : e ≡ 1 [MOD p - 1]) (heq : e ≡ 1 [MOD q - 1]) (x : Nat) : x ^ e ≡ x [MOD p * q] :=
  (Nat.modEq_and_modEq_iff_modEq_mul ((Nat.coprime_primes hp hq).2 hne)).1
    ⟨pow_modEq_self_prime hp hpos hep x, pow_modEq_self_prime hq hpos heq x⟩

/-- A common multiple of `p - 1` and `q - 1` annihilates the units of `p * q`. -/
theorem pow_modEq_one {p q e x : Nat} (hp : p.Prime) (hq : q.Prime) (hne : p ≠ q)
    (hep : p - 1 ∣ e) (heq : q - 1 ∣ e) (hx : x.Coprime (p * q)) : x ^ e ≡ 1 [MOD p * q] := by
  have hprime : ∀ {r : Nat}, r.Prime → r - 1 ∣ e → x.Coprime r → x ^ e ≡ 1 [MOD r] := by
    intro r hr hdvd hcop
    rcases hdvd with ⟨k, rfl⟩
    have hfact : Fact r.Prime := ⟨hr⟩
    have hnz : (x : ZMod r) ≠ 0 := by
      intro hzero
      have hd := (ZMod.natCast_eq_zero_iff x r).1 hzero
      exact hr.one_lt.ne' (Nat.Coprime.eq_one_of_dvd hcop.symm hd)
    rw [← ZMod.natCast_eq_natCast_iff, Nat.cast_pow, pow_mul, ZMod.pow_card_sub_one_eq_one hnz,
      one_pow, Nat.cast_one]
  exact (Nat.modEq_and_modEq_iff_modEq_mul ((Nat.coprime_primes hp hq).2 hne)).1
    ⟨hprime hp hep (Nat.Coprime.coprime_mul_right_right hx),
      hprime hq heq (Nat.Coprime.coprime_mul_left_right hx)⟩

end Modular
end SociSgx

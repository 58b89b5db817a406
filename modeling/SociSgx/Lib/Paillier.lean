import SociSgx.Lib.ModularPower

/-!
# Paillier — what a ciphertext says

`Encrypts n c m` says that `c` is a ciphertext of the integer `m` under the modulus `n`: modulo
`n * n` it is `(1 + m n) xⁿ` for a unit `x`.  The relation is closed under products, powers and
inverses, and an exponent that annihilates the units modulo `n` removes the factor `xⁿ`.
-/

namespace SociSgx
namespace Paillier

open SociSgx.Modular

/-! ## Multiples of a nilpotent -/

section Nilpotent

variable {R : Type*} [CommRing R] {t : R}

theorem one_add_mul_one_add (ht : t * t = 0) (a b : R) :
    (1 + a * t) * (1 + b * t) = 1 + (a + b) * t := by
  linear_combination a * b * ht

theorem one_add_pow (ht : t * t = 0) (a : R) (k : Nat) :
    (1 + a * t) ^ k = 1 + k * a * t := by
  induction k with
  | zero => simp
  | succ k ih =>
      calc
        (1 + a * t) ^ (k + 1) = (1 + k * a * t) * (1 + a * t) := by rw [pow_succ, ih]
        _ = 1 + (k * a + a) * t := one_add_mul_one_add ht _ _
        _ = 1 + ((k + 1 : Nat) : R) * a * t := by push_cast; ring

end Nilpotent

variable {n c c' : Nat} {m m' : Int}

/-- The ring that ciphertexts live in. -/
abbrev Residues (n : Nat) : Type :=
  ZMod (n * n)

theorem modulus_nilpotent (n : Nat) : (n : Residues n) * n = 0 := by
  rw [← Nat.cast_mul]
  exact ZMod.natCast_self _

/-! ## Ciphertexts -/

def Encrypts (n c : Nat) (m : Int) : Prop :=
  c < n * n ∧ ∃ x : (Residues n)ˣ,
    (c : Residues n) = (1 + (m : Residues n) * n) * (x : Residues n) ^ n

namespace Encrypts

theorem lt (h : Encrypts n c m) : c < n * n :=
  h.1

/-- Only the residue of the plaintext matters. -/
theorem congr (h : Encrypts n c m) (hm : m ≡ m' [ZMOD n]) : Encrypts n c m' := by
  rcases h with ⟨hlt, x, hx⟩
  refine ⟨hlt, x, ?_⟩
  rcases hm.dvd with ⟨k, hk⟩
  have hsum : m' = m + n * k := by omega
  have hsame : ((m' : Int) : Residues n) * n = (m : Residues n) * n := by
    rw [hsum]
    push_cast
    linear_combination (k : Residues n) * modulus_nilpotent n
  rw [hx, hsame]

theorem mul (h : Encrypts n c m) (h' : Encrypts n c' m') :
    Encrypts n (c * c' % (n * n)) (m + m') := by
  rcases h with ⟨hlt, x, hx⟩
  rcases h' with ⟨_, y, hy⟩
  refine ⟨Nat.mod_lt _ (by omega), x * y, ?_⟩
  calc
    ((c * c' % (n * n) : Nat) : Residues n)
      = (c : Residues n) * c' := by rw [ZMod.natCast_mod, Nat.cast_mul]
    _ = (1 + (m : Residues n) * n) * (1 + (m' : Residues n) * n) *
          ((x : Residues n) * y) ^ n := by rw [hx, hy, mul_pow]; ring
    _ = (1 + ((m + m' : Int) : Residues n) * n) * ((x * y : (Residues n)ˣ) : Residues n) ^ n := by
          rw [one_add_mul_one_add (modulus_nilpotent n), Units.val_mul]
          push_cast
          rfl

theorem powMod (h : Encrypts n c m) (k : Nat) :
    Encrypts n (powMod c k (n * n)) (k * m) := by
  rcases h with ⟨hlt, x, hx⟩
  refine ⟨powMod_lt (by omega), x ^ k, ?_⟩
  calc
    ((Modular.powMod c k (n * n) : Nat) : Residues n)
      = ((1 + (m : Residues n) * n) * (x : Residues n) ^ n) ^ k := by rw [natCast_powMod, hx]
    _ = (1 + k * (m : Residues n) * n) * ((x : Residues n) ^ k) ^ n := by
          rw [mul_pow, one_add_pow (modulus_nilpotent n)]
          ring
    _ = (1 + ((k * m : Int) : Residues n) * n) * ((x ^ k : (Residues n)ˣ) : Residues n) ^ n := by
          push_cast
          rfl

/-- The inverse of a ciphertext is a ciphertext of the negated plaintext. -/
theorem inverse (h : Encrypts n c m) (hlt : c' < n * n) (hinv : (c : Residues n) * c' = 1) :
    Encrypts n c' (-m) := by
  rcases h with ⟨_, x, hx⟩
  refine ⟨hlt, x⁻¹, ?_⟩
  have hcancel : (x : Residues n) ^ n * ((x⁻¹ : (Residues n)ˣ) : Residues n) ^ n = 1 := by
    rw [← mul_pow, Units.mul_inv, one_pow]
  have hone := one_add_mul_one_add (modulus_nilpotent n) (m : Residues n) (-m)
  have hright : (c : Residues n) *
      ((1 + ((-m : Int) : Residues n) * n) * ((x⁻¹ : (Residues n)ˣ) : Residues n) ^ n) = 1 := by
    rw [hx]
    push_cast
    linear_combination hcancel + ((x : Residues n) ^ n *
      ((x⁻¹ : (Residues n)ˣ) : Residues n) ^ n) * hone
  calc
    (c' : Residues n)
      = c' * (c * ((1 + ((-m : Int) : Residues n) * n) *
          ((x⁻¹ : (Residues n)ˣ) : Residues n) ^ n)) := by rw [hright, mul_one]
    _ = (c * c') * ((1 + ((-m : Int) : Residues n) * n) *
          ((x⁻¹ : (Residues n)ˣ) : Residues n) ^ n) := by ring
    _ = _ := by rw [hinv, one_mul]

/-- A ciphertext is invertible. -/
theorem coprime (h : Encrypts n c m) : c.Coprime (n * n) := by
  rcases h with ⟨_, x, hx⟩
  have hone := one_add_mul_one_add (modulus_nilpotent n) (m : Residues n) (-m)
  have hunit : IsUnit (1 + (m : Residues n) * n) := by
    refine IsUnit.of_mul_eq_one (1 + (-(m : Residues n)) * n) ?_
    rw [hone]
    ring
  rw [← ZMod.isUnit_iff_coprime, hx]
  exact hunit.mul (x.isUnit.pow n)

theorem pos (hn : 1 < n) (h : Encrypts n c m) : 0 < c := by
  rcases Nat.eq_zero_or_pos c with hzero | hpos
  · have hcop := h.coprime
    rw [hzero, Nat.coprime_zero_left] at hcop
    exact absurd (Nat.eq_one_of_mul_eq_one_right hcop) hn.ne'
  · exact hpos

theorem coprime_modulus (h : Encrypts n c m) : c.Coprime n :=
  Nat.Coprime.coprime_mul_right_right h.coprime

end Encrypts

/-- Encryption with a randomizer. -/
theorem encrypts_randomized {r x : Nat} (hn : 0 < n) (hx : x.Coprime n)
    (hr : (r : Int) ≡ m [ZMOD n]) :
    Encrypts n ((r * n + 1) * powMod x n (n * n) % (n * n)) m := by
  have hunit : x.Coprime (n * n) := Nat.Coprime.mul_right hx hx
  refine Encrypts.congr (m := r)
    ⟨Nat.mod_lt _ (Nat.mul_pos hn hn), ZMod.unitOfCoprime x hunit, ?_⟩ hr
  rw [ZMod.natCast_mod, Nat.cast_mul, natCast_powMod, ZMod.coe_unitOfCoprime]
  push_cast
  ring

/-! ## Decryption -/

/-- An exponent of the units modulo `n` gives one of the units modulo `n * n`. -/
theorem unit_pow_eq_one {k : Nat} (hn : 0 < n) (hk : ∀ x : Nat, x.Coprime n → x ^ k ≡ 1 [MOD n])
    (x : (Residues n)ˣ) : (x : Residues n) ^ (n * k) = 1 := by
  have hne : NeZero (n * n) := ⟨(Nat.mul_pos hn hn).ne'⟩
  have hcop : (x : Residues n).val.Coprime n :=
    Nat.Coprime.coprime_mul_right_right (ZMod.val_coe_unit_coprime x)
  have hval : (((x : Residues n).val : Nat) : Residues n) = x := ZMod.natCast_zmod_val _
  rcases (Nat.modEq_iff_dvd.1 (hk _ hcop).symm) with ⟨j, hj⟩
  have hpow : (x : Residues n) ^ k = 1 + (j : Residues n) * n := by
    have hcast := congrArg (fun z : Int => (z : Residues n)) hj
    push_cast at hcast
    rw [hval] at hcast
    linear_combination hcast
  calc
    (x : Residues n) ^ (n * k) = (1 + (j : Residues n) * n) ^ n := by
      rw [mul_comm n k, pow_mul, hpow]
    _ = 1 + n * (j : Residues n) * n := one_add_pow (modulus_nilpotent n) _ _
    _ = 1 := by linear_combination (j : Residues n) * modulus_nilpotent n

/-- Such an exponent leaves `1 + k m n` of a ciphertext of `m`. -/
theorem Encrypts.pow_exponent {k : Nat} (hk : ∀ x : Nat, x.Coprime n → x ^ k ≡ 1 [MOD n])
    (h : Encrypts n c m) : (c : Residues n) ^ k = 1 + k * (m : Residues n) * n := by
  rcases h with ⟨hlt, x, hx⟩
  have hn : 0 < n := Nat.pos_of_mul_pos_left (by omega : 0 < n * n)
  rw [hx, mul_pow, ← pow_mul, unit_pow_eq_one hn hk, mul_one, one_add_pow (modulus_nilpotent n)]

/-- The function `L`: a residue `1 + a n` modulo `n * n` determines `a` modulo `n`. -/
theorem residue_quotient {u : Nat} {a : Int} (hn : 1 < n) (hu : (u : Residues n) = 1 + a * n) :
    (n : Int) ∣ (u : Int) - 1 ∧ ((u : Int) - 1) / n ≡ a [ZMOD n] := by
  have hpos : (0 : Int) < n := by omega
  have hdvd : ((n * n : Nat) : Int) ∣ (u : Int) - (1 + a * n) := by
    rw [← ZMod.intCast_zmod_eq_zero_iff_dvd]
    push_cast
    rw [hu]
    ring
  rcases hdvd with ⟨j, hj⟩
  push_cast at hj
  have hval : (u : Int) - 1 = n * (a + n * j) := by linear_combination hj
  refine ⟨⟨_, hval⟩, ?_⟩
  rw [hval, Int.mul_ediv_cancel_left _ hpos.ne']
  exact Int.modEq_iff_dvd.2 ⟨-j, by ring⟩

/-- Decryption: `L` times the inverse of the exponent is the plaintext. -/
theorem decoded {u k mu : Nat} {m : Int} (hn : 1 < n)
    (hu : (u : Residues n) = 1 + ((k * m : Int) : Residues n) * n)
    (hmu : (k : Int) * mu ≡ 1 [ZMOD n]) :
    (n : Int) ∣ (u : Int) - 1 ∧ ((u : Int) - 1) / n * mu % n = m % n := by
  rcases residue_quotient hn hu with ⟨hdvd, hquot⟩
  refine ⟨hdvd, ?_⟩
  have hresult := calc
    ((u : Int) - 1) / n * mu ≡ k * m * mu [ZMOD n] := hquot.mul_right _
    _ = m * (k * mu) := by ring
    _ ≡ m * 1 [ZMOD n] := hmu.mul_left m
    _ = m := mul_one m
  exact hresult

/-- A residue that is one modulo `n` is not zero. -/
theorem residue_pos {u : Nat} (hn : 1 < n) (hdvd : (n : Int) ∣ (u : Int) - 1) : 0 < u := by
  rcases Nat.eq_zero_or_pos u with rfl | hpos
  · have hle := Int.le_of_dvd (by decide) (Int.dvd_neg.2 hdvd)
    push_cast at hle
    omega
  · exact hpos

/-! ## Keys -/

/-- Primes of one bit length do not divide each other's predecessor. -/
theorem not_dvd_pred {p q : Nat} (hp : p.Prime) (hq : q.Prime) (hodd : Odd p) (hodd' : Odd q)
    (hsize : q < 2 * p) : ¬ p ∣ q - 1 := by
  rintro ⟨k, hk⟩
  have hq2 := hq.two_le
  rcases k with _ | _ | k
  · omega
  · rcases hodd with ⟨i, hi⟩
    rcases hodd' with ⟨j, hj⟩
    omega
  · have hge : p * (k + 1 + 1) = p * k + 2 * p := by ring
    have := hp.pos
    omega

theorem coprime_lcm {p q : Nat} (hp : p.Prime) (hq : q.Prime) (hodd : Odd p) (hodd' : Odd q)
    (hpq : p < 2 * q) (hqp : q < 2 * p) : (Nat.lcm (p - 1) (q - 1)).Coprime (p * q) := by
  have hself : ∀ {r : Nat}, r.Prime → ¬ r ∣ r - 1 := by
    intro r hr hdvd
    have hle := Nat.le_of_dvd (by have := hr.two_le; omega) hdvd
    have := hr.pos
    omega
  have hprime : ∀ {r : Nat}, r.Prime → ¬ r ∣ p - 1 → ¬ r ∣ q - 1 →
      (Nat.lcm (p - 1) (q - 1)).Coprime r := by
    intro r hr hleft hright
    refine (hr.coprime_iff_not_dvd.2 fun hdvd => ?_).symm
    rcases (Nat.Prime.dvd_mul hr).1 (hdvd.trans (Nat.lcm_dvd_mul _ _)) with h | h
    · exact hleft h
    · exact hright h
  exact Nat.Coprime.mul_right (hprime hp (hself hp) (not_dvd_pred hp hq hodd hodd' hqp))
    (hprime hq (not_dvd_pred hq hp hodd' hodd hpq) (hself hq))

end Paillier
end SociSgx

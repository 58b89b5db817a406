import SociSgx.Basic
import SociSgx.Lib.Exec
import SociSgx.Lib.Paillier

/-!
# Paillier — the operations of the two hosts

The CP and the CSP run the same public-key operations on GMP integers: encryption under a fresh
nonce, the sum of two ciphertexts, and the product of a ciphertext and a signed scalar.
-/

namespace SociSgx
namespace Protocol

open Exec SociSgx.Modular Paillier

/-- `mpz_sizeinbase(z, 2)`: the bits of `z`, and one for zero. -/
def sizeInBase2 (z : Nat) : Nat :=
  z.log2 + 1

/-- What the loop of `paillierEncrypt` accepts from `randomBelow`. -/
structure Nonce (modulus : Nat) where
  value : Nat
  pos : 0 < value
  lt : value < modulus
  coprime : value.Coprime modulus

/-- `paillierEncrypt`: `%` truncates, so a negative remainder is moved up by the modulus. -/
def paillierEncrypt (plaintext : Int) (modulus : Nat) (nonce : Nonce modulus) : Nat :=
  let nonceN := powMod nonce.value modulus (modulus * modulus)
  let remainder := plaintext.tmod modulus
  let normalized := if remainder < 0 then remainder + modulus else remainder
  let messageFactor := normalized.toNat * modulus + 1
  messageFactor * nonceN % (modulus * modulus)

/-- `paillierEncryptBatch`: one nonce for each index, whichever thread encrypts it. -/
def paillierEncryptBatch (plaintexts : List Int) (modulus : Nat) (nonces : Nat → Nonce modulus) :
    List Nat :=
  plaintexts.mapIdx fun i plaintext => paillierEncrypt plaintext modulus (nonces i)

def ciphertextPower (ciphertext : Nat) (exponent : Int) (modulusSquared : Nat) :
    Except Error Nat :=
  if exponent < 0 then
    match invMod ciphertext modulusSquared with
    | none => .error (.backend "ciphertext inverse failed")
    | some inverse => .ok (powMod inverse (-exponent).toNat modulusSquared)
  else
    .ok (powMod ciphertext exponent.toNat modulusSquared)

/-- `ThresholdProtocolClient::add` -/
def add (modulus a b : Nat) : Nat :=
  a * b % (modulus * modulus)

/-- `ThresholdProtocolClient::scalarMultiply` -/
def scalarMultiply (modulus value : Nat) (scalar : Int) : Except Error Nat :=
  ciphertextPower value scalar (modulus * modulus)

/-! ## What they return -/

variable {modulus a b : Nat} {x y : Int}

theorem normalized_modEq (hn : 0 < modulus) (x : Int) :
    (((if x.tmod modulus < 0 then x.tmod modulus + modulus else x.tmod modulus).toNat : Nat) : Int)
      ≡ x [ZMOD modulus] := by
  have hpos : (0 : Int) < modulus := by exact_mod_cast hn
  have hgt : -(modulus : Int) < x.tmod modulus := Int.lt_tmod_of_pos x hpos
  have hmod : x.tmod modulus ≡ x [ZMOD modulus] := by
    have hsplit := Int.mul_tdiv_add_tmod x modulus
    exact Int.modEq_iff_dvd.2 ⟨x.tdiv modulus, by omega⟩
  split
  · rw [Int.toNat_of_nonneg (by omega)]
    exact (Int.add_modEq_right).trans hmod
  · rw [Int.toNat_of_nonneg (by omega)]
    exact hmod

theorem encrypts_paillierEncrypt (x : Int) (nonce : Nonce modulus) :
    Encrypts modulus (paillierEncrypt x modulus nonce) x := by
  have hn : 0 < modulus := nonce.pos.trans nonce.lt
  exact encrypts_randomized hn nonce.coprime (normalized_modEq hn x)

@[simp]
theorem length_paillierEncryptBatch (xs : List Int) (nonces : Nat → Nonce modulus) :
    (paillierEncryptBatch xs modulus nonces).length = xs.length := by
  simp [paillierEncryptBatch]

theorem encrypts_add (ha : Encrypts modulus a x) (hb : Encrypts modulus b y) :
    Encrypts modulus (add modulus a b) (x + y) :=
  ha.mul hb

theorem scalarMultiply_spec (ha : Encrypts modulus a x) (scalar : Int) :
    ∃ c, scalarMultiply modulus a scalar = .ok c ∧ Encrypts modulus c (scalar * x) := by
  unfold scalarMultiply ciphertextPower
  split
  · rename_i hneg
    have hpos : 0 < modulus * modulus := Nat.zero_lt_of_lt ha.lt
    rcases invMod_of_coprime hpos ha.coprime with ⟨inverse, hinv, hlt, hone⟩
    have hpow := (ha.inverse hlt hone).powMod (-scalar).toNat
    rw [hinv]
    refine ⟨_, rfl, ?_⟩
    rw [Int.toNat_of_nonneg (by omega)] at hpow
    simpa using hpow
  · rename_i hnonneg
    have hpow := ha.powMod scalar.toNat
    rw [Int.toNat_of_nonneg (by omega)] at hpow
    exact ⟨_, rfl, hpow⟩

end Protocol
end SociSgx

import SociSgx.Protocol.Client

/-!
# ThresholdKeys — generated keys decrypt

For two odd primes of one bit length `ecall_threshold_keygen` succeeds, and the two shares together
decrypt every ciphertext that the hosts can compute, however the exponent is split.
-/

namespace SociSgx
namespace Protocol

open Exec SociSgx.Modular Paillier

/-! ## What the hosts compute without a protocol -/

/-- An expression over `encrypt`, `add` and `scalarMultiply`. -/
inductive Expression (modulus : Nat) where
  | encrypt (plaintext : Int) (nonce : Nonce modulus)
  | add (left right : Expression modulus)
  | scalarMultiply (operand : Expression modulus) (scalar : Int)

namespace Expression

variable {modulus : Nat}

def eval : Expression modulus → Except Error Nat
  | encrypt plaintext nonce => .ok (paillierEncrypt plaintext modulus nonce)
  | add left right => do
      let a ← left.eval
      let b ← right.eval
      return Protocol.add modulus a b
  | scalarMultiply operand scalar => do
      let a ← operand.eval
      Protocol.scalarMultiply modulus a scalar

def value : Expression modulus → Int
  | encrypt plaintext _ => plaintext
  | add left right => left.value + right.value
  | scalarMultiply operand scalar => scalar * operand.value

/-- No operation fails, and the result is a ciphertext of the value. -/
theorem eval_spec (e : Expression modulus) :
    ∃ c, e.eval = .ok c ∧ Encrypts modulus c e.value := by
  induction e with
  | encrypt plaintext nonce => exact ⟨_, rfl, encrypts_paillierEncrypt plaintext nonce⟩
  | add left right ihl ihr =>
      rcases ihl with ⟨a, ha, hencA⟩
      rcases ihr with ⟨b, hb, hencB⟩
      exact ⟨_, bind_eq_ok.2 ⟨a, ha, bind_eq_ok.2 ⟨b, hb, rfl⟩⟩, encrypts_add hencA hencB⟩
  | scalarMultiply operand scalar ih =>
      rcases ih with ⟨a, ha, henc⟩
      rcases scalarMultiply_spec henc scalar with ⟨c, hc, hencC⟩
      exact ⟨c, bind_eq_ok.2 ⟨a, ha, hc⟩, hencC⟩

end Expression

/-! ## The generated key -/

/-- The primes that `prime` can return for one key: odd, distinct and of one bit length. -/
structure KeyPrimes (p q : Nat) : Prop where
  left : p.Prime
  right : q.Prime
  distinct : p ≠ q
  leftOdd : Odd p
  rightOdd : Odd q
  size : sizeInBase2 p = sizeInBase2 q

namespace KeyPrimes

variable {p q : Nat}

/-- A number of the same bit length is less than twice as large. -/
theorem lt_double (h : KeyPrimes p q) : p < 2 * q ∧ q < 2 * p := by
  have hbound : ∀ {a b : Nat}, sizeInBase2 a = sizeInBase2 b → 0 < b → a < 2 * b := by
    intro a b hab hb
    calc
      a < 2 ^ sizeInBase2 a := Nat.lt_log2_self
      _ = 2 * 2 ^ b.log2 := by rw [hab, sizeInBase2, pow_succ']
      _ ≤ 2 * b := Nat.mul_le_mul_left 2 (Nat.log2_self_le hb.ne')
  exact ⟨hbound h.size h.right.pos, hbound h.size.symm h.left.pos⟩

theorem one_lt (h : KeyPrimes p q) : 1 < p * q :=
  lt_of_lt_of_le h.left.one_lt (Nat.le_mul_of_pos_right p h.right.pos)

theorem lcm_coprime (h : KeyPrimes p q) : (Nat.lcm (p - 1) (q - 1)).Coprime (p * q) :=
  coprime_lcm h.left h.right h.leftOdd h.rightOdd h.lt_double.1 h.lt_double.2

theorem one_lt_lcm (h : KeyPrimes p q) : 1 < Nat.lcm (p - 1) (q - 1) := by
  have hp := h.left.two_le
  have hq := h.right.two_le
  have hpos : 0 < Nat.lcm (p - 1) (q - 1) := Nat.lcm_pos (by omega) (by omega)
  have hle := Nat.le_of_dvd hpos (Nat.dvd_lcm_left (p - 1) (q - 1))
  rcases h.leftOdd with ⟨k, hk⟩
  omega

theorem annihilates (h : KeyPrimes p q) (x : Nat) (hx : x.Coprime (p * q)) :
    x ^ Nat.lcm (p - 1) (q - 1) ≡ 1 [MOD p * q] :=
  pow_modEq_one h.left h.right h.distinct (Nat.dvd_lcm_left _ _) (Nat.dvd_lcm_right _ _) hx

end KeyPrimes

theorem randomBelow_range {limit : Nat} (h : 1 < limit) (z : Nat) :
    0 < randomBelow z limit ∧ randomBelow z limit < limit := by
  have hlt := Nat.mod_lt z (by omega : limit > 0)
  unfold randomBelow
  split
  · exact ⟨Nat.one_pos, h⟩
  · exact ⟨by omega, hlt⟩

/-- What a generated key is: two shares of `lcm (p - 1) (q - 1)`, and its inverse. -/
structure SplitKey (p q : Nat) (keys : ThresholdKeys) : Prop where
  modulus : keys.n = p * q
  split : keys.lambda1 + keys.lambda2 = Nat.lcm (p - 1) (q - 1)
  lambda1_pos : 0 < keys.lambda1
  lambda2_pos : 0 < keys.lambda2
  inverse : (Nat.lcm (p - 1) (q - 1) : ZMod (p * q)) * keys.mu = 1

variable {p q : Nat} {keys : ThresholdKeys}

/-- `L` of `(n + 1) ^ lambda` is `lambda` modulo `n`. -/
theorem keygen_quotient (h : KeyPrimes p q) :
    ((powMod (p * q + 1) (Nat.lcm (p - 1) (q - 1)) (p * q * (p * q)) - 1) / (p * q) : Nat) ≡
      Nat.lcm (p - 1) (q - 1) [MOD p * q] := by
  have hpower : ((powMod (p * q + 1) (Nat.lcm (p - 1) (q - 1)) (p * q * (p * q)) : Nat) :
      Residues (p * q)) = 1 + ((Nat.lcm (p - 1) (q - 1) : Int) : Residues (p * q)) *
        ((p * q : Nat) : Residues (p * q)) := by
    have hone := one_add_pow (modulus_nilpotent (p * q)) 1 (Nat.lcm (p - 1) (q - 1))
    rw [natCast_powMod]
    push_cast at hone ⊢
    linear_combination hone
  have hn := h.one_lt
  rcases residue_quotient hn hpower with ⟨hdvd, hquot⟩
  -- the subtraction of one is exact
  have hpos := residue_pos hn hdvd
  rw [← Int.natCast_modEq_iff, Int.natCast_ediv, Nat.cast_sub hpos]
  exact hquot

theorem keygen_spec (h : KeyPrimes p q) (z : Nat) :
    ∃ keys, ecallThresholdKeygen p q z = .ok keys ∧ SplitKey p q keys := by
  have hrange := randomBelow_range h.one_lt_lcm z
  have hquot := keygen_quotient h
  have hcop := h.lcm_coprime
  have hn : 0 < p * q := Nat.lt_trans Nat.one_pos h.one_lt
  have hl : ((powMod (p * q + 1) (Nat.lcm (p - 1) (q - 1)) (p * q * (p * q)) - 1) / (p * q)).Coprime
      (p * q) := by
    rw [Nat.Coprime, Nat.ModEq.gcd_eq hquot]
    exact hcop
  rcases invMod_of_coprime hn hl with ⟨mu, hmu, _, hone⟩
  refine ⟨⟨p * q, randomBelow z (Nat.lcm (p - 1) (q - 1)),
    Nat.lcm (p - 1) (q - 1) - randomBelow z (Nat.lcm (p - 1) (q - 1)), mu⟩, ?_, ?_⟩
  · simp only [ecallThresholdKeygen, hmu, if_pos hrange.2]
  · refine ⟨rfl, by simp only; omega, hrange.1, by simp only; omega, ?_⟩
    rw [← (ZMod.natCast_eq_natCast_iff _ _ _).2 hquot]
    exact hone

/-! ## The shares decrypt -/

/-- The exponents of the two shares add up, so the combination sees `1 + lambda m n`. -/
theorem combine_spec (h : KeyPrimes p q) (hk : SplitKey p q keys) {c : Nat} {m : Int}
    (hc : Encrypts keys.n c m) :
    keys.csp.ecallCombineDecrypt (powMod c keys.lambda1 (keys.n * keys.n))
      (powMod c keys.lambda2 (keys.n * keys.n)) = .ok (m % keys.n).toNat := by
  have hmod := hk.modulus
  have hannihilates : ∀ x : Nat, x.Coprime keys.n → x ^ (keys.lambda1 + keys.lambda2) ≡ 1
      [MOD keys.n] := by
    rw [hk.split, hmod]
    exact h.annihilates
  have hn : 1 < keys.n := hmod ▸ h.one_lt
  have hproduct : ((powMod c keys.lambda1 (keys.n * keys.n) *
      powMod c keys.lambda2 (keys.n * keys.n) % (keys.n * keys.n) : Nat) : Residues keys.n) =
        1 + (((keys.lambda1 + keys.lambda2 : Nat) * m : Int) : Residues keys.n) * keys.n := by
    rw [ZMod.natCast_mod, Nat.cast_mul, natCast_powMod, natCast_powMod, ← pow_add,
      hc.pow_exponent hannihilates]
    push_cast
    rfl
  have hinv : ((keys.lambda1 + keys.lambda2 : Nat) : Int) * keys.mu ≡ 1 [ZMOD keys.n] := by
    rw [← ZMod.intCast_eq_intCast_iff, hk.split, hmod]
    push_cast
    exact hk.inverse
  rcases decoded hn hproduct hinv with ⟨hdvd, hvalue⟩
  refine bind_eq_ok.2 ⟨(), ensure_eq_ok.2 hdvd, ?_⟩
  exact congrArg (fun r : Int => Except.ok (α := Nat) r.toNat) hvalue

/-- The client and the CSP that hold the two sealed shares. -/
def Parties.ofKeys (keys : ThresholdKeys) : Parties :=
  { cp := keys.cp, csp := { modulus := keys.n, key := keys.csp } }

theorem ofKeys_decryptsCorrectly (h : KeyPrimes p q) (hk : SplitKey p q keys) :
    (Parties.ofKeys keys).DecryptsCorrectly := by
  have hn : 1 < keys.n := hk.modulus ▸ h.one_lt
  refine ⟨rfl, rfl, fun {c m} hc => ⟨_, _, ?_, ?_, combine_spec h hk hc⟩⟩
  · exact ecallPartialDecrypt_eq_ok.2 ⟨⟨hc.pos hn, hc.lt⟩, rfl⟩
  · exact ecallPartialDecrypt_eq_ok.2 ⟨⟨hc.pos hn, hc.lt⟩, rfl⟩

/-- Reading a residue as a signed integer undoes the reduction of a small integer. -/
theorem signedPlaintext_of_small {parties : Parties} {m : Int}
    (hm : |m| ≤ ((parties.modulus : Int) - 1) / 2) :
    parties.signedPlaintext (m % parties.modulus).toNat = m := by
  have habs := abs_le.1 hm
  unfold Parties.signedPlaintext
  rcases lt_or_ge m 0 with hneg | hnonneg
  · have hmod : m % (parties.modulus : Int) = m + parties.modulus := by
      rw [← Int.add_emod_right, Int.emod_eq_of_lt (by omega) (by omega)]
    rw [hmod, if_pos (by omega)]
    omega
  · rw [Int.emod_eq_of_lt hnonneg (by omega), if_neg (by omega)]
    omega

/-- Key generation succeeds, and the shares decrypt every expression. -/
theorem keygen_decrypts (h : KeyPrimes p q) (z : Nat) :
    ∃ keys, ecallThresholdKeygen p q z = .ok keys ∧ keys.n = p * q ∧
      keys.lambda1 + keys.lambda2 = Nat.lcm (p - 1) (q - 1) ∧
      ∀ e : Expression keys.n, ∃ c s1 s2 m, e.eval = .ok c ∧
        keys.cp.ecallPartialDecrypt c = .ok s1 ∧ keys.csp.ecallPartialDecrypt c = .ok s2 ∧
        keys.csp.ecallCombineDecrypt s1 s2 = .ok m ∧ (m : Int) = e.value % keys.n ∧
        (|e.value| ≤ ((keys.n : Int) - 1) / 2 →
          (Parties.ofKeys keys).decryptForTesting c = .ok e.value) := by
  rcases keygen_spec h z with ⟨keys, hkeys, hk⟩
  have hcorrect := ofKeys_decryptsCorrectly h hk
  have hn : 1 < keys.n := hk.modulus ▸ h.one_lt
  refine ⟨keys, hkeys, hk.modulus, hk.split, fun e => ?_⟩
  rcases e.eval_spec with ⟨c, hc, henc⟩
  rcases hcorrect.decrypts henc with ⟨s1, s2, hs1, hs2, hm⟩
  refine ⟨c, s1, s2, _, hc, hs1, hs2, hm, ?_, fun hsmall => ?_⟩
  · have hne : (keys.n : Int) ≠ 0 := by omega
    exact Int.toNat_of_nonneg (Int.emod_nonneg _ hne)
  · refine bind_eq_ok.2 ⟨_, hcorrect.partialDecrypt_cp henc, ?_⟩
    have hanswer := congrArg answered (hcorrect.decrypt_csp henc)
    exact bind_eq_ok.2 ⟨_, hanswer, congrArg Except.ok (signedPlaintext_of_small hsmall)⟩

/-- Such primes exist: 35 is a modulus. -/
theorem keyPrimes_five_seven : KeyPrimes 5 7 :=
  ⟨by decide, by decide, by decide, by decide, by decide, by decide⟩

theorem keygen_decrypts_five_seven :
    ∃ keys, ecallThresholdKeygen 5 7 3 = .ok keys ∧ keys.n = 5 * 7 ∧
      keys.lambda1 + keys.lambda2 = 12 ∧
      ∀ e : Expression keys.n, ∃ c s1 s2 m, e.eval = .ok c ∧
        keys.cp.ecallPartialDecrypt c = .ok s1 ∧ keys.csp.ecallPartialDecrypt c = .ok s2 ∧
        keys.csp.ecallCombineDecrypt s1 s2 = .ok m ∧ (m : Int) = e.value % keys.n ∧
        (|e.value| ≤ ((keys.n : Int) - 1) / 2 →
          (Parties.ofKeys keys).decryptForTesting c = .ok e.value) :=
  keygen_decrypts keyPrimes_five_seven 3

/-! ## A key of 3072 bits -/

def leftPrime : Nat := 193 * 2 ^ 1528 + 1

def rightPrime : Nat := 4051 * 2 ^ 1524 + 1

theorem keyPrimes_3072 : KeyPrimes leftPrime rightPrime where
  left := prime_of_powMod (k := 193) (m := 1527) (a := 3) (by norm_num) (by decide +kernel)
    (by decide +kernel) (by decide +kernel) (by decide +kernel)
  right := prime_of_powMod (k := 4051) (m := 1523) (a := 3) (by norm_num) (by decide +kernel)
    (by decide +kernel) (by decide +kernel) (by decide +kernel)
  distinct := by decide +kernel
  leftOdd := by decide +kernel
  rightOdd := by decide +kernel
  size := by decide +kernel

/-- A key that `ecall_threshold_keygen` derives from these primes, and its two holders. -/
theorem exists_parties_3072 :
    ∃ parties : Parties, parties.DecryptsCorrectly ∧ sizeInBase2 parties.modulus = 3072 := by
  rcases keygen_spec keyPrimes_3072 1 with ⟨keys, _, hk⟩
  refine ⟨Parties.ofKeys keys, ofKeys_decryptsCorrectly keyPrimes_3072 hk, ?_⟩
  have hmod : (Parties.ofKeys keys).modulus = leftPrime * rightPrime := hk.modulus
  rw [hmod]
  decide +kernel

end Protocol
end SociSgx

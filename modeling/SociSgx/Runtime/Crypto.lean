import SociSgx.Protocol.ThresholdKeys

/-!
# Crypto — the keys of the `OFF` mode

`crypto.cpp` has its own key generation, encryption and decryption, with the whole secret key in one
process.  Its decryption reads the upper half of the residues as negative numbers; the threshold
client does the same with another test at the middle.
-/

namespace SociSgx
namespace Runtime

open Exec SociSgx.Modular Paillier Protocol

/-- What the code throws, by the class that a handler catches. -/
inductive Thrown where
  | invalidArgument (what : String)
  | logicError (what : String)
  | filesystemError (what : String)
  | other (what : String)
  deriving DecidableEq, Repr

structure PublicKey where
  n : Nat
  nsq : Nat
  deriving DecidableEq, Repr

structure SecretKey where
  lambda : Nat
  mu : Nat
  deriving DecidableEq, Repr

/-- The numbers of a `Key`. -/
structure KeyNumbers where
  pub : PublicKey
  sec : SecretKey
  deriving DecidableEq, Repr

/-- `keygen` from the two primes on. -/
def deriveKey (p q : Nat) : Except Thrown KeyNumbers :=
  let n := p * q
  let nsq := n * n
  let lambda := Nat.lcm (p - 1) (q - 1)
  let g := n + 1
  let u := powMod g lambda nsq
  let l := (u - 1) / n
  match invMod l n with
  | none => .error (.other "mu inverse failed")
  | some mu => .ok { pub := { n := n, nsq := nsq }, sec := { lambda := lambda, mu := mu } }

/-- `keygen`: the primes are of half the size that is asked for. -/
def keygen (bits p q : Nat) : Except Thrown KeyNumbers := do
  ensure (3072 ≤ bits ∧ bits ≤ 8192 ∧ bits % 2 = 0) (Thrown.invalidArgument
    "128-bit security profile requires an even modulus size in [3072,8192]")
  deriveKey p q

def encrypt (k : PublicKey) (m0 : Int) (x : Nonce k.n) : Nat :=
  let remainder := m0.tmod k.n
  let m := if remainder < 0 then remainder + k.n else remainder
  let rn := powMod x.value k.n k.nsq
  (1 + m.toNat * k.n) * rn % k.nsq

/-- The sign that `decrypt` gives a residue. -/
def signedResidue (n : Nat) (m : Int) : Int :=
  if m ≥ ((n / 2 : Nat) : Int) then m - n else m

def decrypt (k : KeyNumbers) (c : Nat) : Except Thrown Int := do
  ensure (0 < c ∧ c < k.pub.nsq ∧ c.Coprime k.pub.nsq)
    (Thrown.invalidArgument "invalid ciphertext")
  let u := powMod c k.sec.lambda k.pub.nsq
  let m := ((((u : Int) - 1).tdiv k.pub.n) * k.sec.mu).tmod k.pub.n
  return signedResidue k.pub.n m

/-! ## Decryption up to the sign -/

variable {p q : Nat} {key : KeyNumbers}

/-- What `deriveKey` leaves for primes of one size. -/
structure OffKey (p q : Nat) (key : KeyNumbers) : Prop where
  modulus : key.pub.n = p * q
  square : key.pub.nsq = key.pub.n * key.pub.n
  lambda : key.sec.lambda = Nat.lcm (p - 1) (q - 1)
  inverse : (key.sec.lambda : Int) * key.sec.mu ≡ 1 [ZMOD key.pub.n]

theorem deriveKey_spec (h : KeyPrimes p q) : ∃ key, deriveKey p q = .ok key ∧ OffKey p q key := by
  have hquot := keygen_quotient h
  have hn : 0 < p * q := Nat.lt_trans Nat.one_pos h.one_lt
  have hl : ((powMod (p * q + 1) (Nat.lcm (p - 1) (q - 1)) (p * q * (p * q)) - 1) / (p * q)).Coprime
      (p * q) := by
    rw [Nat.Coprime, Nat.ModEq.gcd_eq hquot]
    exact h.lcm_coprime
  rcases invMod_of_coprime hn hl with ⟨mu, hmu, _, hone⟩
  refine ⟨⟨⟨p * q, p * q * (p * q)⟩, ⟨Nat.lcm (p - 1) (q - 1), mu⟩⟩, ?_, rfl, rfl, rfl, ?_⟩
  · simp only [deriveKey, hmu]
  · rw [← ZMod.intCast_eq_intCast_iff]
    push_cast
    rw [← (ZMod.natCast_eq_natCast_iff _ _ _).2 hquot]
    exact hone

theorem encrypts_encrypt (hk : OffKey p q key) (m : Int) (x : Nonce key.pub.n) :
    Encrypts key.pub.n (encrypt key.pub m x) m := by
  have hn : 0 < key.pub.n := x.pos.trans x.lt
  have hrand := encrypts_randomized hn x.coprime (normalized_modEq hn m)
  simp only [encrypt, hk.square, add_comm 1]
  exact hrand

/-- A ciphertext decrypts to its plaintext modulo `n`, with the sign of the residue. -/
theorem decrypt_spec (h : KeyPrimes p q) (hk : OffKey p q key) {c : Nat} {m : Int}
    (hc : Encrypts key.pub.n c m) :
    decrypt key c = .ok (signedResidue key.pub.n (m % key.pub.n)) := by
  have hn : 1 < key.pub.n := hk.modulus ▸ h.one_lt
  have hannihilates : ∀ x : Nat, x.Coprime key.pub.n → x ^ key.sec.lambda ≡ 1
      [MOD key.pub.n] := by
    rw [hk.lambda, hk.modulus]
    exact h.annihilates
  have hpower : ((powMod c key.sec.lambda (key.pub.n * key.pub.n) : Nat) : Residues key.pub.n) =
      1 + ((key.sec.lambda * m : Int) : Residues key.pub.n) * key.pub.n := by
    rw [natCast_powMod, hc.pow_exponent hannihilates]
    push_cast
    rfl
  rcases decoded hn hpower hk.inverse with ⟨hdvd, hvalue⟩
  have hpos := residue_pos hn hdvd
  have hvalid : 0 < c ∧ c < key.pub.nsq ∧ c.Coprime key.pub.nsq := by
    rw [hk.square]
    exact ⟨hc.pos hn, hc.lt, hc.coprime⟩
  refine bind_eq_ok.2 ⟨(), ensure_eq_ok.2 hvalid, ?_⟩
  have hquot : ((powMod c key.sec.lambda (key.pub.n * key.pub.n) : Int) - 1).tdiv key.pub.n =
      ((powMod c key.sec.lambda (key.pub.n * key.pub.n) : Int) - 1) / key.pub.n :=
    Int.tdiv_eq_ediv_of_nonneg (by omega)
  have hnonneg : 0 ≤ ((powMod c key.sec.lambda (key.pub.n * key.pub.n) : Int) - 1) /
      key.pub.n * key.sec.mu :=
    mul_nonneg (Int.ediv_nonneg (by omega) (by omega)) (by omega)
  simp only [hk.square, hquot, Int.tmod_eq_emod_of_nonneg hnonneg, hvalue]
  rfl

/-! ## The sign -/

/-- The two readings of a residue differ in the middle only. -/
theorem signedResidue_eq_iff {parties : Parties} (hodd : Odd parties.modulus) (r : Nat) :
    signedResidue parties.modulus r = parties.signedPlaintext r ↔ r ≠ parties.modulus / 2 := by
  unfold signedResidue Parties.signedPlaintext
  rcases hodd with ⟨k, hk⟩
  split <;> split <;> omega

/-- The largest plaintext is the one that comes back negative. -/
theorem signedResidue_emod {n : Nat} (hodd : Odd n) {m : Int}
    (hlo : -(((n : Int) - 1) / 2) ≤ m) (hhi : m ≤ ((n : Int) - 1) / 2) :
    signedResidue n (m % n) = m ↔ m ≠ ((n : Int) - 1) / 2 := by
  rcases hodd with ⟨k, hk⟩
  unfold signedResidue
  rcases lt_or_ge m 0 with hneg | hnonneg
  · have hmod : m % (n : Int) = m + n := by
      rw [← Int.add_emod_right, Int.emod_eq_of_lt (by omega) (by omega)]
    rw [hmod, if_pos (by omega)]
    omega
  · rw [Int.emod_eq_of_lt hnonneg (by omega)]
    split <;> omega

theorem odd_modulus (h : KeyPrimes p q) : Odd (p * q) :=
  h.leftOdd.mul h.rightOdd

/-- Encryption and decryption are inverse, and the two signed readings agree, everywhere except at
half the modulus. -/
theorem decrypt_encrypt_iff (h : KeyPrimes p q) :
    ∃ key, deriveKey p q = .ok key ∧ key.pub.n = p * q ∧
      (∀ (m : Int) (x : Nonce key.pub.n), -(((key.pub.n : Int) - 1) / 2) ≤ m →
        m ≤ ((key.pub.n : Int) - 1) / 2 →
        (decrypt key (encrypt key.pub m x) = .ok m ↔ m ≠ ((key.pub.n : Int) - 1) / 2)) ∧
      ∀ (parties : Parties) (r : Nat), parties.modulus = key.pub.n → r < key.pub.n →
        (signedResidue key.pub.n r = parties.signedPlaintext r ↔ r ≠ key.pub.n / 2) := by
  rcases deriveKey_spec h with ⟨key, hkey, hk⟩
  have hodd : Odd key.pub.n := hk.modulus ▸ odd_modulus h
  refine ⟨key, hkey, hk.modulus, fun m x hlo hhi => ?_, fun parties r hmod _ => ?_⟩
  · rw [decrypt_spec h hk (encrypts_encrypt hk m x), Except.ok.injEq]
    exact signedResidue_emod hodd hlo hhi
  · rw [← hmod] at hodd ⊢
    exact signedResidue_eq_iff hodd r

theorem decrypt_encrypt_iff_3072 :
    ∃ key, deriveKey leftPrime rightPrime = .ok key ∧ key.pub.n = leftPrime * rightPrime ∧
      (∀ (m : Int) (x : Nonce key.pub.n), -(((key.pub.n : Int) - 1) / 2) ≤ m →
        m ≤ ((key.pub.n : Int) - 1) / 2 →
        (decrypt key (encrypt key.pub m x) = .ok m ↔ m ≠ ((key.pub.n : Int) - 1) / 2)) ∧
      ∀ (parties : Parties) (r : Nat), parties.modulus = key.pub.n → r < key.pub.n →
        (signedResidue key.pub.n r = parties.signedPlaintext r ↔ r ≠ key.pub.n / 2) :=
  decrypt_encrypt_iff keyPrimes_3072

/-- `(n - 1) / 2` decrypts to `-(n + 1) / 2` under a key of 3072 bits. -/
theorem decrypt_largest_negative :
    ∃ (key : KeyNumbers) (x : Nonce key.pub.n), keygen 3072 leftPrime rightPrime = .ok key ∧
      decrypt key (encrypt key.pub (((key.pub.n : Int) - 1) / 2) x) =
        .ok (-(((key.pub.n : Int) + 1) / 2)) ∧
      decrypt key (encrypt key.pub (((key.pub.n : Int) - 1) / 2) x) ≠
        .ok (((key.pub.n : Int) - 1) / 2) := by
  rcases deriveKey_spec keyPrimes_3072 with ⟨key, hkey, hk⟩
  have hn : 1 < key.pub.n := hk.modulus ▸ keyPrimes_3072.one_lt
  have hodd : Odd key.pub.n := hk.modulus ▸ odd_modulus keyPrimes_3072
  have hgen : keygen 3072 leftPrime rightPrime = .ok key :=
    bind_eq_ok.2 ⟨(), ensure_eq_ok.2 (by decide), hkey⟩
  refine ⟨key, ⟨1, Nat.one_pos, hn, Nat.coprime_one_left _⟩, hgen, ?_⟩
  rw [decrypt_spec keyPrimes_3072 hk (encrypts_encrypt hk _ _)]
  rcases hodd with ⟨k, hodd⟩
  have hmod : (((key.pub.n : Int) - 1) / 2) % (key.pub.n : Int) = ((key.pub.n : Int) - 1) / 2 :=
    Int.emod_eq_of_lt (by omega) (by omega)
  have hsign : signedResidue key.pub.n ((((key.pub.n : Int) - 1) / 2) % key.pub.n) =
      -(((key.pub.n : Int) + 1) / 2) := by
    rw [hmod, signedResidue, if_pos (by omega)]
    omega
  rw [hsign]
  refine ⟨rfl, fun heq => ?_⟩
  have hval := Except.ok.inj heq
  omega

end Runtime
end SociSgx

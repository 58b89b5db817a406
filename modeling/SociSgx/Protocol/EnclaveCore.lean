import SociSgx.Protocol.Paillier

/-!
# EnclaveCore — the threshold key and its shares

The integer part of `enclave_core.c`: key generation from two primes, partial decryption under a
share, and the combination of two partial decryptions at the CSP.
-/

namespace SociSgx
namespace Protocol

open Exec SociSgx.Modular Paillier

/-- The result codes of the enclave other than `OK`. -/
inductive EnclaveFault where
  | invalid
  | crypto
  deriving DecidableEq, Repr

/-- `SOCI_THRESHOLD_MAX_BATCH_SIZE` -/
def thresholdMaxBatchSize : Nat := 32

/-- The globals `n`, `lambda_z` and `mu` of an enclave that holds a share. -/
structure EnclaveKey where
  n : Nat
  lambdaZ : Nat
  mu : Nat
  deriving DecidableEq, Repr

namespace EnclaveKey

def nsq (key : EnclaveKey) : Nat :=
  key.n * key.n

/-- `ecall_partial_decrypt` -/
def ecallPartialDecrypt (key : EnclaveKey) (c : Nat) : Except EnclaveFault Nat := do
  ensure (0 < c ∧ c < key.nsq) EnclaveFault.invalid
  return powMod c key.lambdaZ key.nsq

/-- The loop of `ecall_partial_decrypt_batch`. -/
def ecallPartialDecryptBatch (key : EnclaveKey) (cs : List Nat) :
    Except EnclaveFault (List Nat) := do
  ensure (1 ≤ cs.length ∧ cs.length ≤ thresholdMaxBatchSize) EnclaveFault.invalid
  cs.mapM key.ecallPartialDecrypt

/-- `ecall_combine_decrypt`: `u - 1` may be negative. -/
def ecallCombineDecrypt (key : EnclaveKey) (u1 u2 : Nat) : Except EnclaveFault Nat := do
  let u : Int := ((u1 * u2 % key.nsq : Nat) : Int) - 1
  ensure ((key.n : Int) ∣ u) EnclaveFault.invalid
  return (u / key.n * key.mu % key.n).toNat

/-- `ecall_threshold_decrypt_batch`: every pair is checked before the first is decrypted. -/
def ecallThresholdDecryptBatch (key : EnclaveKey) (items : List (Nat × Nat)) :
    Except EnclaveFault (List Nat) := do
  ensure (1 ≤ items.length ∧ items.length ≤ thresholdMaxBatchSize) EnclaveFault.invalid
  ensure (∀ item ∈ items, (0 < item.1 ∧ item.1 < key.nsq) ∧ 0 < item.2 ∧ item.2 < key.nsq)
    EnclaveFault.invalid
  items.mapM fun item => key.ecallCombineDecrypt item.2 (powMod item.1 key.lambdaZ key.nsq)

end EnclaveKey

/-! ## Key generation -/

/-- What `ecall_threshold_keygen` seals for the two parties. -/
structure ThresholdKeys where
  n : Nat
  lambda1 : Nat
  lambda2 : Nat
  mu : Nat
  deriving DecidableEq, Repr

/-- The share of role 1 carries no `mu`. -/
def ThresholdKeys.cp (keys : ThresholdKeys) : EnclaveKey :=
  { n := keys.n, lambdaZ := keys.lambda1, mu := 0 }

def ThresholdKeys.csp (keys : ThresholdKeys) : EnclaveKey :=
  { n := keys.n, lambdaZ := keys.lambda2, mu := keys.mu }

/-- `random_below` of the enclave, from the integer `z` that it reads. -/
def randomBelow (z limit : Nat) : Nat :=
  if z % limit = 0 then 1 else z % limit

/-- `ecall_threshold_keygen` from the primes and the random integer `z` on. -/
def ecallThresholdKeygen (p q z : Nat) : Except EnclaveFault ThresholdKeys :=
  let n := p * q
  let lambdaZ := Nat.lcm (p - 1) (q - 1)
  let u := powMod (n + 1) lambdaZ (n * n)
  let l := (u - 1) / n
  match invMod l n with
  | none => .error .crypto
  | some mu =>
      let lambda1 := randomBelow z lambdaZ
      if lambda1 < lambdaZ then
        .ok { n := n, lambda1 := lambda1, lambda2 := lambdaZ - lambda1, mu := mu }
      else
        .error .crypto

/-! ## Decryption with a batch is decryption one by one -/

variable {key : EnclaveKey} {c u1 u2 m : Nat}

theorem ecallPartialDecrypt_eq_ok {s : Nat} :
    key.ecallPartialDecrypt c = .ok s ↔
      (0 < c ∧ c < key.nsq) ∧ s = powMod c key.lambdaZ key.nsq := by
  constructor
  · intro h
    rcases bind_eq_ok.1 h with ⟨_, hrange, hs⟩
    cases hs
    exact ⟨ensure_eq_ok.1 hrange, rfl⟩
  · rintro ⟨hrange, rfl⟩
    exact bind_eq_ok.2 ⟨(), ensure_eq_ok.2 hrange, rfl⟩

/-- Only a share that is not zero can be combined. -/
theorem pos_of_combine (hn : 1 < key.n) (h : key.ecallCombineDecrypt u1 u2 = .ok m) : 0 < u1 := by
  rcases bind_eq_ok.1 h with ⟨_, hdvd, _⟩
  rw [ensure_eq_ok] at hdvd
  rcases Nat.eq_zero_or_pos u1 with hzero | hpos
  · rw [hzero, Nat.zero_mul, Nat.zero_mod] at hdvd
    have hone : (key.n : Int) ∣ 1 := by simpa using hdvd
    have hle := Int.le_of_dvd (by decide) hone
    omega
  · exact hpos

end Protocol
end SociSgx

import SociSgx.Protocol.EnclaveDecrypt
import SociSgx.Protocol.ThresholdKeys

/-!
# EnclaveKeygen — key generation in the provisioning enclave

The random numbers of the enclave, the search for primes, and the two calls that make a key.  What
`sgx_read_rand` returns is an argument, one buffer for each call of it.
-/

namespace SociSgx
namespace Protocol

open Exec SociSgx.Modular Paillier BigEndian OffsetCodec

/-! ## Random numbers -/

/-- `random_odd` on the bytes that were read: the first and the last bit are set. -/
def oddNumber (buf : Bytes) : Nat :=
  let buf := buf.set 0 (buf.getD 0 0 ||| 0x80)
  ofBytes (buf.set (buf.length - 1) (buf.getD (buf.length - 1) 0 ||| 1))

section Primes

variable (probabPrime : Nat → Bool)

/-- The loop of `prime`: every second number from `p` on, as long as they have `bits` bits. -/
def primeFrom (bits p : Nat) : Option Nat :=
  if sizeInBase2 p = bits then
    if probabPrime p then some p else primeFrom bits (p + 2)
  else
    none
termination_by 2 ^ bits - p
decreasing_by
  rename_i hsize _
  have hlt : p < 2 ^ bits := hsize ▸ Nat.lt_log2_self
  omega

/-- `prime`, with the buffers that are left.  A read fails when the next buffer is not as long as
was asked, and there is none after the last one. -/
def prime (bits : Nat) : List Bytes → Option (Nat × List Bytes)
  | [] => none
  | buf :: random =>
      if buf.length = (bits + 7) / 8 then
        match primeFrom probabPrime bits (oddNumber buf) with
        | some p => some (p, random)
        | none => prime bits random
      else
        none

theorem length_of_prime {bits p : Nat} : ∀ {random rest : List Bytes},
    prime probabPrime bits random = some (p, rest) → rest.length < random.length := by
  intro random
  induction random with
  | nil =>
      intro rest h
      cases h
  | cons buf random ih =>
      intro rest h
      unfold prime at h
      split at h
      · split at h
        · cases h
          exact Nat.lt_succ_self _
        · exact (ih h).trans (Nat.lt_succ_self _)
      · cases h

/-- `do { prime(q, bits); } while (p == q);` -/
def otherPrime (bits p : Nat) (random : List Bytes) : Option (Nat × List Bytes) :=
  match _h : prime probabPrime bits random with
  | none => none
  | some (q, rest) => if p = q then otherPrime bits p rest else some (q, rest)
termination_by random.length
decreasing_by exact length_of_prime probabPrime _h

/-- The two primes of a modulus of `bits` bits. -/
def drawPrimes (bits : Nat) (random : List Bytes) : Option ((Nat × Nat) × List Bytes) := do
  let (p, random) ← prime probabPrime (bits / 2) random
  let (q, random) ← otherPrime probabPrime (bits / 2) p random
  return ((p, q), random)

end Primes

/-- `random_below` of the enclave. -/
def drawBelow (limit : Nat) : List Bytes → Option Nat
  | [] => none
  | buf :: _ =>
      if buf.length = (sizeInBase2 limit + 7) / 8 then some (randomBelow (ofBytes buf) limit)
      else none

/-! ## Keys -/

/-- The numbers of a full key; there are none when `L` has no inverse. -/
def keyNumbers (p q : Nat) : Option EnclaveNumbers :=
  let n := p * q
  let lambdaZ := Nat.lcm (p - 1) (q - 1)
  let u := powMod (n + 1) lambdaZ (n * n)
  let l := (u - 1) / n
  (invMod l n).map fun mu => { n := n, nsq := n * n, lambdaZ := lambdaZ, mu := mu }

/-- A full key with the two shares of its exponent. -/
def drawShares (probabPrime : Nat → Bool) (bits : Nat) (random : List Bytes) :
    Option (EnclaveNumbers × ThresholdKeys) := do
  let ((p, q), random) ← drawPrimes probabPrime bits random
  let k ← keyNumbers p q
  let lambda1 ← drawBelow k.lambdaZ random
  if lambda1 < k.lambdaZ then
    return (k, { n := k.n, lambda1 := lambda1, lambda2 := k.lambdaZ - lambda1, mu := k.mu })
  else
    none

namespace Enclave

/-- What the enclave has from the SDK and from GMP. -/
structure Platform where
  sealer : Sealer
  /-- `sgx_seal_data` into a buffer of the given size. -/
  sealData : Bytes → Nat → Option Bytes
  /-- `mpz_probab_prime_p(p, 32) > 0` -/
  probabPrime : Nat → Bool

/-- The checks that both calls begin with; what is returned is the number of bits. -/
def checkKeygen (e : Enclave) (built : UInt8) (input : Bytes) : Except EnclaveCode Nat := do
  ensure (e.initialized = true ∧ built = 0) EnclaveCode.state
  ensure (e.Header input (ascii "SKGN") ∧ input.length = 12) EnclaveCode.invalid
  let bits := readU32 input 8
  ensure (3072 ≤ bits ∧ bits ≤ 8192 ∧ bits % 2 = 0) EnclaveCode.invalid
  return bits

/-- `secret_cap` -/
def secretSize (k : EnclaveNumbers) : Nat :=
  24 + exportedSize k.n + exportedSize k.lambdaZ + exportedSize k.mu

/-- The first twelve bytes of a secret. -/
def secretHeader (mode role : UInt8) (bits : Nat) : Bytes :=
  ascii "SKEY" ++ [1, mode, role, 0] ++ writeU32 bits

/-- The plaintext of a full key, in a buffer of `secret_cap` bytes. -/
def secretPlain (mode role : UInt8) (k : EnclaveNumbers) (bits : Nat) :
    Except Unit (Bytes × Nat) := do
  let secret := List.replicate (secretSize k) 0
  let secret := overwrite secret 0 (secretHeader mode role bits)
  exportIntegers secret 12 [k.n, k.lambdaZ, k.mu]

variable (platform : Platform) (built : UInt8)

/-- `ecall_keygen` of an enclave that is built for the role `built`. -/
def ecallKeygen (random : List Bytes) (input : Bytes) (cap : Nat) :
    EStateM EnclaveCode Enclave Bytes := do
  let e ← get
  let bits ← Exec.lift (e.checkKeygen built input)
  -- `clear_key`: what fails from here on leaves the enclave without a key
  set { e with key := none }
  let numbers := (drawPrimes platform.probabPrime bits random).bind fun drawn =>
    keyNumbers drawn.1.1 drawn.1.2
  match numbers with
  | none => throw EnclaveCode.crypto
  | some k =>
      match secretPlain e.runtimeMode e.role k bits with
      | .error _ => throw EnclaveCode.crypto
      | .ok (secret, sp) => do
          let sealedLen := platform.sealer.calcSealedDataSize sp
          require (sealedLen ≠ uint32Max) EnclaveCode.crypto
          let nlen := exportedSize k.n
          require (20 + nlen + sealedLen ≤ cap) EnclaveCode.buffer
          match platform.sealData (secret.take sp) sealedLen with
          | none => throw EnclaveCode.crypto
          | some blob => do
              set { e with key := some k }
              return e.replyHeader (ascii "SKGO") e.role ++ writeU32 bits ++ writeU32 nlen ++
                writeU32 sealedLen ++ mpzExport k.n ++ blob

/-- `ecall_threshold_keygen` -/
def ecallThresholdKeygen (random : List Bytes) (input : Bytes) (cap : Nat) :
    EStateM EnclaveCode Enclave Bytes := do
  let e ← get
  let bits ← Exec.lift (e.checkKeygen built input)
  set { e with key := none }
  match drawShares platform.probabPrime bits random with
  | none => throw EnclaveCode.crypto
  | some (k, keys) => do
      let cpLen := platform.sealer.calcSealedDataSize
        (20 + exportedSize k.n + exportedSize keys.lambda1)
      let cspLen := platform.sealer.calcSealedDataSize
        (24 + exportedSize k.n + exportedSize keys.lambda2 + exportedSize k.mu)
      let nlen := exportedSize k.n
      require (cpLen ≠ uint32Max ∧ cspLen ≠ uint32Max) EnclaveCode.crypto
      require (24 + nlen + cpLen + cspLen ≤ cap) EnclaveCode.buffer
      let wrote := mpzExport k.n
      require (wrote.length = nlen) EnclaveCode.crypto
      let cp := sealShare platform.sealer e.runtimeMode cpRole k.n keys.lambda1 k.mu
        (UInt32.ofNat bits) cpLen
      let csp := sealShare platform.sealer e.runtimeMode cspRole k.n keys.lambda2 k.mu
        (UInt32.ofNat bits) cspLen
      match cp, csp with
      | some cp, some csp => do
          set { e with key := some k }
          return e.replyHeader (ascii "STKO") 0 ++ writeU32 bits ++ writeU32 nlen ++
            writeU32 cpLen ++ writeU32 cspLen ++ wrote ++ cp ++ csp
      | _, _ => throw EnclaveCode.crypto

end Enclave

/-! ## What the search for primes finds -/

theorem high_bit (b : UInt8) : 128 ≤ (b ||| 0x80).toNat := by
  rw [UInt8.toNat_or]
  exact Nat.right_le_or

theorem low_bit (b : UInt8) : (b ||| 1).toNat % 2 = 1 := by
  rw [UInt8.toNat_or]
  exact Nat.or_mod_two_eq_one.2 (Or.inr rfl)

/-- A number whose first bit is set has as many bits as it has bytes for. -/
theorem sizeInBase2_ofBytes {b : UInt8} (bytes : Bytes) (h : 128 ≤ b.toNat) :
    sizeInBase2 (ofBytes (b :: bytes)) = 8 * (bytes.length + 1) := by
  have hpow : (256 : Nat) ^ bytes.length = 2 ^ (8 * bytes.length) := by
    rw [pow_mul]
    rfl
  have hlow : 2 ^ (8 * bytes.length + 7) ≤ ofBytes (b :: bytes) := by
    calc
      2 ^ (8 * bytes.length + 7) = 128 * 256 ^ bytes.length := by rw [hpow, pow_add]; ring
      _ ≤ b.toNat * 256 ^ bytes.length := Nat.mul_le_mul_right _ h
      _ ≤ ofBytes (b :: bytes) := by rw [ofBytes_cons]; exact Nat.le_add_right _ _
  have hhigh : ofBytes (b :: bytes) < 2 ^ (8 * (bytes.length + 1)) := by
    calc
      ofBytes (b :: bytes) < 256 ^ (b :: bytes).length := ofBytes_lt _
      _ = 2 ^ (8 * (bytes.length + 1)) := by rw [List.length_cons, pow_mul]; rfl
  have hne : ofBytes (b :: bytes) ≠ 0 := by
    have hpos := Nat.two_pow_pos (8 * bytes.length + 7)
    omega
  have hle := (Nat.le_log2 hne).2 hlow
  have hlt := (Nat.log2_lt hne).2 hhigh
  unfold sizeInBase2
  omega

theorem odd_ofBytes (bytes : Bytes) {b : UInt8} (h : b.toNat % 2 = 1) :
    Odd (ofBytes (bytes ++ [b])) := by
  rw [ofBytes_concat, Nat.odd_iff]
  omega

theorem oddNumber_spec {buf : Bytes} (h : buf ≠ []) :
    Odd (oddNumber buf) ∧ sizeInBase2 (oddNumber buf) = 8 * buf.length := by
  obtain ⟨a, rest, rfl⟩ := List.exists_cons_of_ne_nil h
  rcases List.eq_nil_or_concat rest with rfl | ⟨middle, b, rfl⟩
  · have hvalue : oddNumber [a] = ofBytes [(a ||| 0x80) ||| 1] := rfl
    have hhigh : 128 ≤ ((a ||| 0x80) ||| 1).toNat := by
      rw [UInt8.toNat_or]
      exact (high_bit a).trans Nat.left_le_or
    rw [hvalue]
    exact ⟨odd_ofBytes [] (low_bit _), sizeInBase2_ofBytes [] hhigh⟩
  · have hvalue : oddNumber (a :: (middle ++ [b])) =
        ofBytes ((a ||| 0x80) :: (middle ++ [b ||| 1])) := by
      simp [oddNumber]
    rw [List.concat_eq_append, hvalue]
    refine ⟨odd_ofBytes ((a ||| 0x80) :: middle) (low_bit b), ?_⟩
    rw [sizeInBase2_ofBytes _ (high_bit a)]
    simp

section Primes

variable {probabPrime : Nat → Bool} {bits p q : Nat} {random rest : List Bytes}

theorem primeFrom_spec (h : primeFrom probabPrime bits p = some q) :
    probabPrime q = true ∧ sizeInBase2 p = bits ∧ sizeInBase2 q = bits ∧ (Odd p → Odd q) := by
  induction p using primeFrom.induct probabPrime bits with
  | case1 p hsize hprime =>
      rw [primeFrom, if_pos hsize, if_pos hprime] at h
      cases h
      exact ⟨hprime, hsize, hsize, id⟩
  | case2 p hsize hcomposite ih =>
      rw [primeFrom, if_pos hsize, if_neg hcomposite] at h
      rcases ih h with ⟨hprime, _, hq, hodd⟩
      refine ⟨hprime, hsize, hq, fun hp => hodd ?_⟩
      exact hp.add_even even_two
  | case3 p hsize =>
      rw [primeFrom, if_neg hsize] at h
      cases h

/-- What `prime` returns was accepted by the test, is odd and has the bits that were asked for;
their number is one of whole bytes. -/
structure Drawn (probabPrime : Nat → Bool) (bits p : Nat) : Prop where
  accepted : probabPrime p = true
  size : sizeInBase2 p = bits
  odd : Odd p
  bytes : 8 ∣ bits

theorem prime_spec : ∀ {random rest : List Bytes},
    prime probabPrime bits random = some (p, rest) → Drawn probabPrime bits p := by
  intro random
  induction random with
  | nil =>
      intro rest h
      cases h
  | cons buf random ih =>
      intro rest h
      unfold prime at h
      split at h
      · rename_i hlen
        split at h
        · rename_i p' hp'
          cases h
          rcases primeFrom_spec hp' with ⟨haccepted, hstart, hsize, hodd⟩
          -- an empty buffer is the number zero, which has one bit
          have hne : buf ≠ [] := by
            rintro rfl
            have hone : (1 : Nat) = bits := hstart
            subst hone
            exact absurd hlen (by decide)
          rcases oddNumber_spec hne with ⟨hoddBuf, hbuf⟩
          exact ⟨haccepted, hsize, hodd hoddBuf, buf.length, hstart ▸ hbuf⟩
        · exact ih h
      · cases h

theorem otherPrime_spec (h : otherPrime probabPrime bits p random = some (q, rest)) :
    Drawn probabPrime bits q ∧ p ≠ q := by
  induction random using otherPrime.induct probabPrime bits p with
  | case1 random hnone =>
      rw [otherPrime] at h
      split at h
      · cases h
      · rename_i hsome
        rw [hnone] at hsome
        cases hsome
  | case2 random rest' hdrawn ih =>
      rw [otherPrime] at h
      split at h
      · cases h
      · rename_i q' rest'' hsome
        rw [hdrawn] at hsome
        cases hsome
        rw [if_pos rfl] at h
        exact ih h
  | case3 random q' rest' hdrawn hne =>
      rw [otherPrime] at h
      split at h
      · cases h
      · rename_i q'' rest'' hsome
        rw [hdrawn] at hsome
        cases hsome
        rw [if_neg hne] at h
        cases h
        exact ⟨prime_spec hdrawn, hne⟩

/-- The test accepts primes only. -/
def Certain (probabPrime : Nat → Bool) : Prop :=
  ∀ p, probabPrime p = true → p.Prime

theorem drawPrimes_spec (hcertain : Certain probabPrime)
    (h : drawPrimes probabPrime bits random = some ((p, q), rest)) :
    KeyPrimes p q ∧ sizeInBase2 p = bits / 2 ∧ 8 ∣ bits / 2 := by
  obtain ⟨⟨p', random'⟩, hp, h⟩ := Option.bind_eq_some_iff.1 h
  obtain ⟨⟨q', rest'⟩, hq, h⟩ := Option.bind_eq_some_iff.1 h
  cases h
  have hleft := prime_spec hp
  rcases otherPrime_spec hq with ⟨hright, hne⟩
  refine ⟨⟨hcertain _ hleft.accepted, hcertain _ hright.accepted, hne, hleft.odd, hright.odd, ?_⟩,
    hleft.size, hleft.bytes⟩
  rw [hleft.size, hright.size]

end Primes

/-! ## Keys that were made -/

section Keys

variable {probabPrime : Nat → Bool} {bits p q : Nat} {random : List Bytes}
  {k : EnclaveNumbers} {keys : ThresholdKeys}

/-- A full key: the exponent of the group, and its inverse. -/
structure FullKey (p q : Nat) (k : EnclaveNumbers) : Prop where
  modulus : k.n = p * q
  square : k.nsq = k.n * k.n
  exponent : k.lambdaZ = Nat.lcm (p - 1) (q - 1)
  inverse : (Nat.lcm (p - 1) (q - 1) : ZMod (p * q)) * k.mu = 1

/-- What the shares have to do with the numbers: they are shares of the same key. -/
structure SharesOf (k : EnclaveNumbers) (keys : ThresholdKeys) : Prop where
  n : keys.n = k.n
  lambda : keys.lambda1 + keys.lambda2 = k.lambdaZ
  mu : keys.mu = k.mu

theorem drawBelow_eq_some {limit r : Nat} (h : drawBelow limit random = some r) :
    ∃ z, r = randomBelow z limit := by
  cases random with
  | nil => cases h
  | cons buf random =>
      by_cases hlen : buf.length = (sizeInBase2 limit + 7) / 8
      · rw [drawBelow, if_pos hlen] at h
        exact ⟨_, (Option.some.inj h).symm⟩
      · rw [drawBelow, if_neg hlen] at h
        cases h

theorem keyNumbers_eq_some (h : keyNumbers p q = some k) :
    ∃ mu, invMod ((powMod (p * q + 1) (Nat.lcm (p - 1) (q - 1)) (p * q * (p * q)) - 1) / (p * q))
        (p * q) = some mu ∧ k = ⟨p * q, p * q * (p * q), Nat.lcm (p - 1) (q - 1), mu⟩ := by
  obtain ⟨mu, hmu, hk⟩ := Option.map_eq_some_iff.1 h
  exact ⟨mu, hmu, hk.symm⟩

theorem keyNumbers_full (hkp : KeyPrimes p q) (h : keyNumbers p q = some k) : FullKey p q k := by
  obtain ⟨mu, hmu, rfl⟩ := keyNumbers_eq_some h
  -- the shares of any split have the same inverse
  rcases keygen_spec hkp 0 with ⟨keys, hkeys, hsplit⟩
  simp only [ecallThresholdKeygen, hmu] at hkeys
  split at hkeys
  · cases hkeys
    exact ⟨rfl, rfl, rfl, hsplit.inverse⟩
  · cases hkeys

/-- The shares are the ones that the numbers of the threshold key generation consist of. -/
theorem drawShares_eq_some (h : drawShares probabPrime bits random = some (k, keys)) :
    ∃ p q z rest, drawPrimes probabPrime bits random = some ((p, q), rest) ∧
      keyNumbers p q = some k ∧ ecallThresholdKeygen p q z = .ok keys ∧ SharesOf k keys := by
  obtain ⟨⟨⟨p, q⟩, rest⟩, hprimes, h⟩ := Option.bind_eq_some_iff.1 h
  obtain ⟨k', hk, h⟩ := Option.bind_eq_some_iff.1 h
  obtain ⟨lambda1, hlambda, h⟩ := Option.bind_eq_some_iff.1 h
  obtain ⟨z, rfl⟩ := drawBelow_eq_some hlambda
  obtain ⟨mu, hmu, rfl⟩ := keyNumbers_eq_some hk
  dsimp only at h
  split at h
  · rename_i hlt
    cases h
    refine ⟨p, q, z, rest, hprimes, hk, ?_, ⟨rfl, ?_, rfl⟩⟩
    · simp only [ecallThresholdKeygen, hmu, if_pos hlt]
    · exact Nat.add_sub_cancel' hlt.le
  · cases h

/-- For a key of two primes all numbers are what they are called. -/
theorem drawShares_spec (hcertain : Certain probabPrime)
    (h : drawShares probabPrime bits random = some (k, keys)) :
    ∃ p q, KeyPrimes p q ∧ sizeInBase2 p = bits / 2 ∧ 8 ∣ bits / 2 ∧ SplitKey p q keys ∧
      FullKey p q k ∧ SharesOf k keys := by
  rcases drawShares_eq_some h with ⟨p, q, z, rest, hprimes, hk, hkeys, hshares⟩
  rcases drawPrimes_spec hcertain hprimes with ⟨hkp, hsize, hbytes⟩
  rcases keygen_spec hkp z with ⟨keys', hkeys', hsplit⟩
  rw [hkeys] at hkeys'
  cases hkeys'
  exact ⟨p, q, hkp, hsize, hbytes, hsplit, keyNumbers_full hkp hk, hshares⟩

/-- The modulus has as many bits as were asked for, or one less. -/
theorem modulus_size (hkp : KeyPrimes p q) (hsize : sizeInBase2 p = bits / 2) :
    bits / 2 + bits / 2 - 1 ≤ sizeInBase2 (p * q) ∧ sizeInBase2 (p * q) ≤ bits / 2 + bits / 2 := by
  have hbounds : ∀ {a : Nat}, 0 < a → 2 ^ (sizeInBase2 a - 1) ≤ a ∧ a < 2 ^ sizeInBase2 a :=
    fun ha => ⟨Nat.log2_self_le ha.ne', Nat.lt_log2_self⟩
  have hp := hbounds hkp.left.pos
  have hq := hbounds hkp.right.pos
  have hpos : 1 ≤ sizeInBase2 p := Nat.le_add_left _ _
  rw [← hkp.size] at hq
  have hlow : 2 ^ (sizeInBase2 p - 1 + (sizeInBase2 p - 1)) ≤ p * q := by
    rw [pow_add]
    exact Nat.mul_le_mul hp.1 hq.1
  have hhigh : p * q < 2 ^ (sizeInBase2 p + sizeInBase2 p) := by
    rw [pow_add]
    exact Nat.mul_lt_mul'' hp.2 hq.2
  have hne : p * q ≠ 0 := (Nat.mul_pos hkp.left.pos hkp.right.pos).ne'
  have hle := (Nat.le_log2 hne).2 hlow
  have hlt := (Nat.log2_lt hne).2 hhigh
  rw [← hsize]
  unfold sizeInBase2 at *
  omega

/-- No number of a key is larger than its modulus. -/
structure WithinModulus (k : EnclaveNumbers) : Prop where
  lambda : k.lambdaZ ≤ k.n
  mu : k.mu ≤ k.n

theorem keyNumbers_within (hkp : KeyPrimes p q) (h : keyNumbers p q = some k) :
    WithinModulus k := by
  obtain ⟨mu, hmu, rfl⟩ := keyNumbers_eq_some h
  have hpos : 0 < p * q := Nat.mul_pos hkp.left.pos hkp.right.pos
  refine ⟨?_, (invMod_lt hpos hmu).le⟩
  calc
    Nat.lcm (p - 1) (q - 1) ≤ (p - 1) * (q - 1) := by
      refine Nat.le_of_dvd ?_ (Nat.lcm_dvd_mul _ _)
      exact Nat.mul_pos (Nat.sub_pos_of_lt hkp.left.one_lt) (Nat.sub_pos_of_lt hkp.right.one_lt)
    _ ≤ p * q := Nat.mul_le_mul (Nat.sub_le _ _) (Nat.sub_le _ _)

/-- The shares of a key of at most 8192 bits. -/
structure SmallShares (k : EnclaveNumbers) (keys : ThresholdKeys) : Prop where
  size : sizeInBase2 k.n ≤ 8192
  lambda1 : keys.lambda1 ≤ k.n
  lambda2 : keys.lambda2 ≤ k.n
  mu : k.mu ≤ k.n

theorem drawPrimes_small (hcertain : Certain probabPrime) (hbits : bits ≤ 8192)
    {rest : List Bytes} (h : drawPrimes probabPrime bits random = some ((p, q), rest)) :
    sizeInBase2 (p * q) ≤ 8192 := by
  rcases drawPrimes_spec hcertain h with ⟨hkp, hsize, _⟩
  have hle := (modulus_size hkp hsize).2
  omega

theorem drawShares_small (hcertain : Certain probabPrime) (hbits : bits ≤ 8192)
    (h : drawShares probabPrime bits random = some (k, keys)) : SmallShares k keys := by
  rcases drawShares_eq_some h with ⟨p, q, z, rest, hprimes, hk, _, hshares⟩
  have hwithin := keyNumbers_within (drawPrimes_spec hcertain hprimes).1 hk
  have hsize := drawPrimes_small hcertain hbits hprimes
  have hsum := hshares.lambda
  have hlambda := hwithin.lambda
  refine ⟨?_, by omega, by omega, hwithin.mu⟩
  obtain ⟨mu, _, rfl⟩ := keyNumbers_eq_some hk
  exact hsize

/-- A number of a key of at most 8192 bits takes at most 1024 bytes. -/
theorem exportedSize_le {n z : Nat} (hn : sizeInBase2 n ≤ 8192) (hz : z ≤ n) :
    exportedSize z ≤ 1024 := by
  have hmono := exportedSize_mono hz
  have hsize : exportedSize n = (sizeInBase2 n + 7) / 8 := rfl
  omega

end Keys

/-! ## A run of the search -/

/-- The test that makes no mistakes. -/
def isPrime (p : Nat) : Bool :=
  decide p.Prime

theorem isPrime_certain : Certain isPrime :=
  fun _ h => of_decide_eq_true h

/-- Random bytes that are two primes, and a one for the first share. -/
def sampleRandom : List Bytes :=
  [toBytes 192 leftPrime, toBytes 192 rightPrime, toBytes 194 1]

theorem prime_of_bytes {bits p : Nat} (rest : List Bytes) (hp : p.Prime)
    (hsize : sizeInBase2 p = bits) (hbytes : oddNumber (toBytes ((bits + 7) / 8) p) = p) :
    prime isPrime bits (toBytes ((bits + 7) / 8) p :: rest) = some (p, rest) := by
  have hfrom : primeFrom isPrime bits p = some p := by
    rw [primeFrom, if_pos hsize]
    exact if_pos (decide_eq_true hp)
  rw [prime, if_pos (length_toBytes _ _), hbytes, hfrom]

theorem drawPrimes_of {bits p q : Nat} {random middle rest : List Bytes}
    (hleft : prime isPrime (bits / 2) random = some (p, middle))
    (hright : prime isPrime (bits / 2) middle = some (q, rest)) (hne : p ≠ q) :
    drawPrimes isPrime bits random = some ((p, q), rest) := by
  have hother : otherPrime isPrime (bits / 2) p middle = some (q, rest) := by
    rw [otherPrime]
    split
    · rename_i hnone
      rw [hright] at hnone
      cases hnone
    · rename_i hsome
      rw [hright] at hsome
      cases hsome
      exact if_neg hne
  exact Option.bind_eq_some_iff.2 ⟨_, hleft, Option.bind_eq_some_iff.2 ⟨_, hother, rfl⟩⟩

theorem exists_keyNumbers {p q : Nat} (hkp : KeyPrimes p q) : ∃ k, keyNumbers p q = some k := by
  rcases keygen_spec hkp 0 with ⟨keys, hkeys, _⟩
  unfold ecallThresholdKeygen at hkeys
  unfold keyNumbers
  dsimp only at hkeys ⊢
  split at hkeys
  · cases hkeys
  · rename_i mu hmu
    exact ⟨_, by rw [hmu]; rfl⟩

theorem drawShares_of {bits p q : Nat} {random : List Bytes} {buf : Bytes} {k : EnclaveNumbers}
    (hkp : KeyPrimes p q) (hprimes : drawPrimes isPrime bits random = some ((p, q), [buf]))
    (hk : keyNumbers p q = some k) (hbuf : buf.length = (sizeInBase2 k.lambdaZ + 7) / 8) :
    ∃ keys, drawShares isPrime bits random = some (k, keys) := by
  have hbelow : drawBelow k.lambdaZ [buf] = some (randomBelow (ofBytes buf) k.lambdaZ) :=
    if_pos hbuf
  have hlt : randomBelow (ofBytes buf) k.lambdaZ < k.lambdaZ := by
    rw [(keyNumbers_full hkp hk).exponent]
    exact (randomBelow_range hkp.one_lt_lcm _).2
  let lambda1 := randomBelow (ofBytes buf) k.lambdaZ
  refine ⟨⟨k.n, lambda1, k.lambdaZ - lambda1, k.mu⟩, ?_⟩
  refine Option.bind_eq_some_iff.2 ⟨_, hprimes, Option.bind_eq_some_iff.2 ⟨_, hk, ?_⟩⟩
  exact Option.bind_eq_some_iff.2 ⟨_, hbelow, if_pos hlt⟩

/-- A full key of 3072 bits and its shares can be drawn. -/
theorem drawShares_sample : ∃ k keys, drawShares isPrime 3072 sampleRandom = some (k, keys) ∧
    sizeInBase2 k.n = 3072 := by
  have hleft : prime isPrime (3072 / 2) sampleRandom =
      some (leftPrime, [toBytes 192 rightPrime, toBytes 194 1]) :=
    prime_of_bytes _ keyPrimes_3072.left (by decide +kernel) (by decide +kernel)
  have hright : prime isPrime (3072 / 2) [toBytes 192 rightPrime, toBytes 194 1] =
      some (rightPrime, [toBytes 194 1]) :=
    prime_of_bytes _ keyPrimes_3072.right (by decide +kernel) (by decide +kernel)
  have hprimes := drawPrimes_of hleft hright keyPrimes_3072.distinct
  rcases exists_keyNumbers keyPrimes_3072 with ⟨k, hk⟩
  have hfull := keyNumbers_full keyPrimes_3072 hk
  rcases drawShares_of keyPrimes_3072 hprimes hk
    (by rw [hfull.exponent, length_toBytes]; decide +kernel) with ⟨keys, hkeys⟩
  refine ⟨k, keys, hkeys, ?_⟩
  rw [hfull.modulus]
  decide +kernel

/-! ## What the two calls do -/

namespace Enclave

/-- The bytes of a secret: its header and its integers. -/
def secretBytes (mode role : UInt8) (k : EnclaveNumbers) (bits : Nat) : Bytes :=
  secretHeader mode role bits ++ [k.n, k.lambdaZ, k.mu].flatMap integerBytes

theorem length_secretBytes (mode role : UInt8) (k : EnclaveNumbers) (bits : Nat) :
    (secretBytes mode role k bits).length = secretSize k := by
  simp [secretBytes, secretHeader, secretSize, ascii]
  omega

/-- The secret fills its buffer. -/
theorem secretPlain_eq (mode role : UInt8) (k : EnclaveNumbers) (bits : Nat) : ∃ secret,
    secretPlain mode role k bits = .ok (secret, secretSize k) ∧
      secret.take (secretSize k) = secretBytes mode role k bits := by
  have hheader : (secretHeader mode role bits).length = 12 := by simp [secretHeader, ascii]
  have hsize : 12 + ([k.n, k.lambdaZ, k.mu].flatMap integerBytes).length = secretSize k := by
    rw [← length_secretBytes mode role k bits, secretBytes, List.length_append, hheader]
  let blank : Bytes := List.replicate (secretSize k) 0
  have hblank : blank.length = secretSize k := List.length_replicate
  have hfits : 0 + (secretHeader mode role bits).length ≤ blank.length := by omega
  have htake := take_overwrite blank _ 0 hfits
  rcases exportIntegers_spec [k.n, k.lambdaZ, k.mu]
    (overwrite blank 0 (secretHeader mode role bits)) 12
    (by rw [length_overwrite hfits, hblank, hsize]) with ⟨secret, hsecret, _, hbytes⟩
  rw [hsize] at hsecret hbytes
  refine ⟨secret, hsecret, ?_⟩
  rw [hheader, Nat.zero_add] at htake
  rw [hbytes, htake]
  rfl

variable {platform : Platform} {built : UInt8} {random : List Bytes} {input : Bytes} {cap : Nat}
  {e : Enclave}

/-- The key generation passes its checks in a provisioning enclave that has been initialized. -/
structure Checked (e : Enclave) (built : UInt8) (input : Bytes) (bits : Nat) : Prop where
  initialized : e.initialized = true
  provisioning : built = 0
  header : e.Header input (ascii "SKGN")
  length : input.length = 12
  asked : bits = readU32 input 8
  range : 3072 ≤ bits ∧ bits ≤ 8192 ∧ bits % 2 = 0

theorem checkKeygen_eq_ok {bits : Nat} :
    e.checkKeygen built input = .ok bits ↔ e.Checked built input bits := by
  constructor
  · intro h
    rcases bind_eq_ok.1 h with ⟨_, hstate, h⟩
    rcases bind_eq_ok.1 h with ⟨_, hinput, h⟩
    rcases bind_eq_ok.1 h with ⟨_, hbits, h⟩
    rw [ensure_eq_ok] at hstate hinput hbits
    cases h
    exact ⟨hstate.1, hstate.2, hinput.1, hinput.2, rfl, hbits⟩
  · intro h
    have hbits := h.asked
    subst hbits
    refine bind_eq_ok.2 ⟨(), ensure_of ⟨h.initialized, h.provisioning⟩, ?_⟩
    refine bind_eq_ok.2 ⟨(), ensure_of ⟨h.header, h.length⟩, ?_⟩
    exact bind_eq_ok.2 ⟨(), ensure_of h.range, rfl⟩

/-- `ecall_keygen` returned `out` and installed `k`. -/
structure MadeKey (platform : Platform) (built : UInt8) (random : List Bytes) (input : Bytes)
    (e : Enclave) (bits : Nat) (k : EnclaveNumbers) (blob out : Bytes) : Prop where
  checked : e.Checked built input bits
  drawn : ∃ p q rest, drawPrimes platform.probabPrime bits random = some ((p, q), rest) ∧
    keyNumbers p q = some k
  sealed : platform.sealData (secretBytes e.runtimeMode e.role k bits)
    (platform.sealer.calcSealedDataSize (secretSize k)) = some blob
  out : out = e.replyHeader (ascii "SKGO") e.role ++ writeU32 bits ++ writeU32 (exportedSize k.n) ++
    writeU32 (platform.sealer.calcSealedDataSize (secretSize k)) ++ mpzExport k.n ++ blob

/-- A call that fails leaves the enclave as it was or without its key. -/
def Cleared (e e' : Enclave) : Prop :=
  e' = e ∨ e' = { e with key := none }

theorem ecallKeygen_spec : Triple (fun t => t = e) (ecallKeygen platform built random input cap)
    (fun out e' => ∃ bits k blob, MadeKey platform built random input e bits k blob out ∧
      e' = { e with key := some k }) fun _ e' => e.Cleared e' := by
  refine get_at (lift_at (fun bits hbits => set_at ?_) fun _ _ => Or.inl rfl)
  have hcleared : e.Cleared { e with key := none } := Or.inr rfl
  dsimp only
  split
  · exact throw_at hcleared
  · rename_i k hk
    obtain ⟨⟨⟨p, q⟩, rest⟩, hdrawn, hk⟩ := Option.bind_eq_some_iff.1 hk
    rcases secretPlain_eq e.runtimeMode e.role k bits with ⟨secret, hsecret, htake⟩
    rw [hsecret]
    refine require_at (fun _ => require_at (fun _ => ?_) fun _ => hcleared) fun _ => hcleared
    rw [htake]
    split
    · exact throw_at hcleared
    · rename_i blob hblob
      refine set_at (pure_at ⟨bits, k, blob, ?_, rfl⟩)
      exact ⟨checkKeygen_eq_ok.1 hbits, ⟨p, q, rest, hdrawn, hk⟩, hblob, rfl⟩

/-- The first twenty-four bytes of the package of the two shares. -/
def packageHeader (e : Enclave) (bits nlen cpLen cspLen : Nat) : Bytes :=
  e.replyHeader (ascii "STKO") 0 ++ writeU32 bits ++ writeU32 nlen ++ writeU32 cpLen ++
    writeU32 cspLen

/-- `sgx_calc_sealed_data_size` for a share of this role. -/
def sealedSize (sealer : Sealer) (role : UInt8) (n share combiner : Nat) : Nat :=
  sealer.calcSealedDataSize (shareSize role n share combiner)

/-- `ecall_threshold_keygen` returned the package `out` and installed `k`. -/
structure MadeShares (platform : Platform) (built : UInt8) (random : List Bytes) (input : Bytes)
    (e : Enclave) (bits : Nat) (k : EnclaveNumbers) (keys : ThresholdKeys)
    (cp csp out : Bytes) : Prop where
  checked : e.Checked built input bits
  drawn : drawShares platform.probabPrime bits random = some (k, keys)
  sealedCp : sealShare platform.sealer e.runtimeMode cpRole k.n keys.lambda1 k.mu
    (UInt32.ofNat bits) (sealedSize platform.sealer cpRole k.n keys.lambda1 k.mu) = some cp
  sealedCsp : sealShare platform.sealer e.runtimeMode cspRole k.n keys.lambda2 k.mu
    (UInt32.ofNat bits) (sealedSize platform.sealer cspRole k.n keys.lambda2 k.mu) = some csp
  package : out = e.packageHeader bits (exportedSize k.n)
      (sealedSize platform.sealer cpRole k.n keys.lambda1 k.mu)
      (sealedSize platform.sealer cspRole k.n keys.lambda2 k.mu) ++ magnitude k.n ++ cp ++ csp

/-- The sizes that the source adds up are those of the two shares. -/
theorem shareSize_sum (n share combiner : Nat) :
    20 + exportedSize n + exportedSize share = shareSize cpRole n share combiner ∧
      24 + exportedSize n + exportedSize share + exportedSize combiner =
        shareSize cspRole n share combiner := by
  constructor
  · exact (Nat.add_zero _).symm
  · rw [shareSize, if_pos rfl]
    omega

theorem ecallThresholdKeygen_spec :
    Triple (fun t => t = e) (ecallThresholdKeygen platform built random input cap)
      (fun out e' => ∃ bits k keys cp csp,
        MadeShares platform built random input e bits k keys cp csp out ∧
          e' = { e with key := some k }) fun _ e' => e.Cleared e' := by
  refine get_at (lift_at (fun bits hbits => set_at ?_) fun _ _ => Or.inl rfl)
  have hcleared : e.Cleared { e with key := none } := Or.inr rfl
  dsimp only
  split
  · exact throw_at hcleared
  · rename_i k keys hdrawn
    refine require_at (fun _ => require_at (fun _ => require_at (fun hwrote => ?_)
      fun _ => hcleared) fun _ => hcleared) fun _ => hcleared
    have hsizes := shareSize_sum k.n
    rw [(hsizes keys.lambda1 k.mu).1, (hsizes keys.lambda2 k.mu).2]
    -- the modulus was written in full, so it is not zero
    have hnumber : mpzExport k.n = magnitude k.n := by
      unfold mpzExport at hwrote ⊢
      split at hwrote
      · exact absurd hwrote.symm (exportedSize_pos k.n).ne'
      · rename_i hne
        exact if_neg hne
    rw [hnumber]
    split
    · rename_i cp csp hcp hcsp
      refine set_at (pure_at ⟨bits, k, keys, cp, csp, ?_, rfl⟩)
      exact ⟨checkKeygen_eq_ok.1 hbits, hdrawn, hcp, hcsp, rfl⟩
    · exact throw_at hcleared

end Enclave

end Protocol
end SociSgx

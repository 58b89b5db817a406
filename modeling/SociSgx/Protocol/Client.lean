import SociSgx.Protocol.Csp

/-!
# Client — `ThresholdProtocolClient`

The CP masks the operands, sends them to the CSP, and unmasks the answer.  What the client draws is
an argument: masks, orientations and nonces.  The batched calls draw for every index `i`.
-/

namespace SociSgx
namespace Protocol

open Exec SociSgx.Modular Paillier

/-- `randomMask`: `2^127` plus 127 random bits. -/
structure Mask where
  value : Nat
  ge : 2 ^ 127 ≤ value
  lt : value < 2 ^ 128

/-- What `greaterThan` draws for one comparison; `r` is drawn again until it is below `r3`. -/
structure CompareDraw where
  r3 : Mask
  r : Mask
  below : r.value < r3.value
  orientation : Bool

/-- The two parties of the protocol: the client with its enclave, and the CSP. -/
structure Parties where
  cp : EnclaveKey
  csp : Csp

namespace Parties

variable (parties : Parties)

/-- Both hosts load `public.bin`. -/
def modulus : Nat :=
  parties.csp.modulus

def packingBase : Nat := 2 ^ 130

/-! ## Multiplication -/

/-- What `secureMultiply` draws. -/
structure MultiplyDraw where
  r1 : Mask
  r2 : Mask

def packedOperands (a b encryptedR1 encryptedR2 : Nat) : Except Error Nat := do
  let maskedA := add parties.modulus a encryptedR1
  let maskedB := add parties.modulus b encryptedR2
  let shifted ← scalarMultiply parties.modulus maskedA packingBase
  return add parties.modulus shifted maskedB

/-- The three corrections of the masked product. -/
def unmaskProduct (product a b : Nat) (draw : MultiplyDraw) (encryptedCorrection : Nat) :
    Except Error Nat := do
  let corrA ← scalarMultiply parties.modulus a (-draw.r2.value)
  let product := add parties.modulus product corrA
  let corrB ← scalarMultiply parties.modulus b (-draw.r1.value)
  let product := add parties.modulus product corrB
  return add parties.modulus product encryptedCorrection

/-- The nonces of `secureMultiply`, with the one that the CSP draws. -/
structure MultiplyNonces where
  mask1 : Nonce parties.modulus
  mask2 : Nonce parties.modulus
  correction : Nonce parties.modulus
  csp : Nonce parties.modulus

def secureMultiply (a b : Nat) (draw : MultiplyDraw) (nonces : parties.MultiplyNonces) :
    Except Error Nat := do
  let encryptedR1 := paillierEncrypt draw.r1.value parties.modulus nonces.mask1
  let encryptedR2 := paillierEncrypt draw.r2.value parties.modulus nonces.mask2
  let packed ← parties.packedOperands a b encryptedR1 encryptedR2
  let share ← partialDecrypt parties.cp packed
  let product ← answered (parties.csp.multiply packed share packingBase nonces.csp)
  parties.unmaskProduct product a b draw
    (paillierEncrypt (-draw.r1.value * draw.r2.value) parties.modulus nonces.correction)

/-- The nonces of a batched call: of the masks, of the last encryptions, and of the CSP. -/
structure BatchNonces where
  masks : Nat → Nonce parties.modulus
  last : Nat → Nonce parties.modulus
  csp : Nat → Nonce parties.modulus

/-- `mask_plaintexts`: the two masks of an item stand at `2 * i` and `2 * i + 1`. -/
def maskPlaintexts (draws : Nat → MultiplyDraw) (n : Nat) : List Int :=
  (List.range n).flatMap fun i => [((draws i).r1.value : Int), ((draws i).r2.value : Int)]

def secureMultiplyBatch (items : List (Nat × Nat)) (draws : Nat → MultiplyDraw)
    (nonces : parties.BatchNonces) : Except Error (List Nat) := do
  ensure (1 ≤ items.length ∧ items.length ≤ thresholdMaxBatchSize)
    (Error.backend "invalid SMUL batch size")
  let item := fun i => items.getD i (0, 0)
  let encryptedMasks :=
    paillierEncryptBatch (maskPlaintexts draws items.length) parties.modulus nonces.masks
  let packed ← tabulateM items.length fun i =>
    parties.packedOperands (item i).1 (item i).2 (encryptedMasks.getD (2 * i) 0)
      (encryptedMasks.getD (2 * i + 1) 0)
  let shares ← partialDecryptBatch parties.cp packed
  let request := tabulate items.length fun i =>
    { ciphertext := packed.getD i 0, cpShare := shares.getD i 0, base := packingBase }
  let products ← answered (parties.csp.batch .multiply request nonces.csp)
  ensure (products.length = items.length) (Error.backend "bad SMUL batch response")
  -- `(x + r1) * (y + r2)` exceeds `x * y` by `r2 * x + r1 * y + r1 * r2`
  let corrections := tabulate items.length fun i =>
    -((draws i).r1.value : Int) * (draws i).r2.value
  let encryptedCorrections := paillierEncryptBatch corrections parties.modulus nonces.last
  tabulateM items.length fun i =>
    parties.unmaskProduct (products.getD i 0) (item i).1 (item i).2 (draws i)
      (encryptedCorrections.getD i 0)

/-! ## Comparison -/

/-- `r4 + r3` or `r4`, where `r4` is half the modulus less `r`. -/
def compareMask (draw : CompareDraw) : Int :=
  let r4 : Int := ((parties.modulus / 2 : Nat) : Int) - draw.r.value
  if draw.orientation then r4 else draw.r3.value + r4

/-- `right - left` or `left - right`, as the orientation says; `modulus - 1` is another `-1`. -/
def orientedDifference (left right : Nat) (draw : CompareDraw) : Except Error Nat :=
  if draw.orientation then
    add parties.modulus right <$> scalarMultiply parties.modulus left (-1)
  else
    add parties.modulus left <$> scalarMultiply parties.modulus right (parties.modulus - 1)

/-- The masked difference of `left := b` and `right := a`. -/
def maskedDifference (message : String) (a b : Nat) (draw : CompareDraw) (encryptedMask : Nat) :
    Except Error Nat := do
  let difference ← parties.orientedDifference b a draw
  let scaled ← scalarMultiply parties.modulus difference draw.r3.value
  let difference := add parties.modulus scaled encryptedMask
  ensure (0 < difference ∧ difference < parties.modulus * parties.modulus ∧
      difference.Coprime parties.modulus) (Error.backend message)
  return difference

/-- `1 - bit` when the orientation was reversed. -/
def orientBit (draw : CompareDraw) (bit : Nat) (nonce : Nonce parties.modulus) :
    Except Error Nat :=
  if draw.orientation then
    add parties.modulus (paillierEncrypt 1 parties.modulus nonce) <$>
      scalarMultiply parties.modulus bit (-1)
  else
    .ok bit

/-- The nonces of `greaterThan`, with the one that the CSP draws. -/
structure CompareNonces where
  mask : Nonce parties.modulus
  orient : Nonce parties.modulus
  csp : Nonce parties.modulus

def greaterThan (a b : Nat) (draw : CompareDraw) (nonces : parties.CompareNonces) :
    Except Error Nat := do
  let encryptedMask := paillierEncrypt (parties.compareMask draw) parties.modulus nonces.mask
  let difference ←
    parties.maskedDifference "SCMP produced invalid ciphertext" a b draw encryptedMask
  let share ← partialDecrypt parties.cp difference
  let bit ← answered (parties.csp.compare difference share nonces.csp)
  parties.orientBit draw bit nonces.orient

/-- The masked differences of all items, and the CP's partial decryptions of them. -/
def maskedDifferences (message : String) (items : List (Nat × Nat)) (draws : Nat → CompareDraw)
    (nonces : Nat → Nonce parties.modulus) : Except Error (List Nat × List Nat) := do
  let masks := tabulate items.length fun i => parties.compareMask (draws i)
  let encryptedMasks := paillierEncryptBatch masks parties.modulus nonces
  let differences ← tabulateM items.length fun i =>
    parties.maskedDifference message (items.getD i (0, 0)).1 (items.getD i (0, 0)).2 (draws i)
      (encryptedMasks.getD i 0)
  let shares ← partialDecryptBatch parties.cp differences
  return (differences, shares)

def greaterThanBatch (items : List (Nat × Nat)) (draws : Nat → CompareDraw)
    (nonces : parties.BatchNonces) : Except Error (List Nat) := do
  ensure (1 ≤ items.length ∧ items.length ≤ thresholdMaxBatchSize)
    (Error.backend "invalid SCMP batch size")
  let (differences, shares) ←
    parties.maskedDifferences "SCMP produced invalid ciphertext" items draws nonces.masks
  let request := tabulate items.length fun i =>
    { ciphertext := differences.getD i 0, cpShare := shares.getD i 0 }
  let bits ← answered (parties.csp.batch .compare request nonces.csp)
  ensure (bits.length = items.length) (Error.backend "bad SCMP batch response")
  tabulateM items.length fun i => parties.orientBit (draws i) (bits.getD i 0) (nonces.last i)

/-! ## Decryption -/

/-- The signed reading of a residue. -/
def signedPlaintext (plaintext : Nat) : Int :=
  if plaintext > parties.modulus / 2 then (plaintext : Int) - parties.modulus else plaintext

def decryptForTesting (ciphertext : Nat) : Except Error Int := do
  let share ← partialDecrypt parties.cp ciphertext
  let plaintext ← answered (parties.csp.decrypt ciphertext share)
  return parties.signedPlaintext plaintext

/-! ## Correct decryption -/

/-- The share that the CP sends with a ciphertext. -/
def cpShare (ciphertext : Nat) : Nat :=
  powMod ciphertext parties.cp.lambdaZ parties.cp.nsq

/-- The two enclaves hold shares of one key: every ciphertext decrypts to its plaintext modulo the
modulus. -/
structure DecryptsCorrectly : Prop where
  cp_modulus : parties.cp.n = parties.modulus
  csp_modulus : parties.csp.key.n = parties.modulus
  decrypts : ∀ {c : Nat} {m : Int}, Encrypts parties.modulus c m → ∃ s1 s2,
    parties.cp.ecallPartialDecrypt c = .ok s1 ∧ parties.csp.key.ecallPartialDecrypt c = .ok s2 ∧
      parties.csp.key.ecallCombineDecrypt s1 s2 = .ok (m % parties.modulus).toNat

variable {parties} {c : Nat} {m : Int}

namespace DecryptsCorrectly

theorem partialDecrypt_cp (h : parties.DecryptsCorrectly) (hc : Encrypts parties.modulus c m) :
    partialDecrypt parties.cp c = .ok (parties.cpShare c) := by
  rcases h.decrypts hc with ⟨s1, s2, hs1, _, _⟩
  rw [partialDecrypt, hs1, hosted_ok, (ecallPartialDecrypt_eq_ok.1 hs1).2]
  rfl

theorem decrypt_csp (h : parties.DecryptsCorrectly) (hc : Encrypts parties.modulus c m) :
    parties.csp.decrypt c (parties.cpShare c) = .ok (m % parties.modulus).toNat := by
  rcases h.decrypts hc with ⟨s1, s2, hs1, hs2, hcombine⟩
  have hshare : s1 = parties.cpShare c := (ecallPartialDecrypt_eq_ok.1 hs1).2
  subst hshare
  refine bind_eq_ok.2 ⟨s2, ?_, ?_⟩
  · rw [partialDecrypt, hs2, hosted_ok]
  · rw [combineDecrypt, hcombine, hosted_ok]

theorem partialDecryptBatch_cp {n : Nat} {cs : List Nat} {ms : Nat → Int}
    (h : parties.DecryptsCorrectly) (hn : 1 ≤ n ∧ n ≤ thresholdMaxBatchSize)
    (hcs : Entries n cs fun i c => Encrypts parties.modulus c (ms i)) :
    ∃ shares, partialDecryptBatch parties.cp cs = .ok shares ∧
      Entries n shares fun i s => s = parties.cpShare (cs.getD i 0) := by
  have hself : Entries n cs fun i c => c = cs.getD i 0 ∧ Encrypts parties.modulus c (ms i) := by
    refine ⟨hcs.length, fun i hi => ⟨?_, hcs.entry i hi⟩⟩
    rw [List.getD_eq_getElem _ _ hi]
  rcases mapM_entries (R := fun i s => s = parties.cpShare (cs.getD i 0)) hself
    (f := parties.cp.ecallPartialDecrypt) (by
      rintro i c hi ⟨hget, hc⟩
      rcases h.decrypts hc with ⟨s1, s2, hs1, _, _⟩
      refine ⟨s1, hs1, ?_⟩
      rw [(ecallPartialDecrypt_eq_ok.1 hs1).2, ← hget]
      rfl) with ⟨shares, hshares, hentries⟩
  refine ⟨shares, ?_, hentries⟩
  have hlen : 1 ≤ cs.length ∧ cs.length ≤ thresholdMaxBatchSize := hcs.length ▸ hn
  refine bind_eq_ok.2 ⟨(), ensure_eq_ok.2 hlen, ?_⟩
  have hecall : parties.cp.ecallPartialDecryptBatch cs = .ok shares :=
    bind_eq_ok.2 ⟨(), ensure_eq_ok.2 hlen, hshares⟩
  rw [hecall, hosted_ok]

/-- The batch call of the CSP enclave decrypts as the single calls do. -/
theorem thresholdDecryptBatch_csp {n : Nat} {cs shares : List Nat} {ms : Nat → Int}
    (h : parties.DecryptsCorrectly) (hmod : 1 < parties.modulus)
    (hn : 1 ≤ n ∧ n ≤ thresholdMaxBatchSize)
    (hcs : Entries n cs fun i c => Encrypts parties.modulus c (ms i))
    (hshares : Entries n shares fun i s => s = parties.cpShare (cs.getD i 0)) :
    ∃ plain, thresholdDecryptBatch parties.csp.key cs shares = .ok plain ∧
      Entries n plain fun i p => p = (ms i % parties.modulus).toNat := by
  have hitems : Entries n (cs.zip shares) fun i item =>
      Encrypts parties.modulus item.1 (ms i) ∧ item.2 = parties.cpShare item.1 := by
    refine ⟨by simp [hcs.length, hshares.length], fun i hi => ?_⟩
    have hi' : i < cs.length ∧ i < shares.length := Nat.lt_min.1 (by simpa using hi)
    have hshare := hshares.entry i hi'.2
    rw [List.getD_eq_getElem _ _ hi'.1] at hshare
    simpa using ⟨hcs.entry i hi'.1, hshare⟩
  have hcspMod : 1 < parties.csp.key.n := by rw [h.csp_modulus]; exact hmod
  have hnsq : parties.csp.key.nsq = parties.modulus * parties.modulus := by
    rw [EnclaveKey.nsq, h.csp_modulus]
  rcases mapM_entries (R := fun i p => p = (ms i % parties.modulus).toNat) hitems
    (f := fun item => parties.csp.key.ecallCombineDecrypt item.2
      (powMod item.1 parties.csp.key.lambdaZ parties.csp.key.nsq)) (by
      rintro i ⟨c, s⟩ hi ⟨hc, hs⟩
      rcases h.decrypts hc with ⟨s1, s2, hs1, hs2, hcombine⟩
      rw [(ecallPartialDecrypt_eq_ok.1 hs1).2, (ecallPartialDecrypt_eq_ok.1 hs2).2] at hcombine
      refine ⟨_, ?_, rfl⟩
      simp only at hs
      rw [hs]
      exact hcombine) with ⟨plain, hplain, hentries⟩
  refine ⟨plain, ?_, hentries⟩
  -- every pair passes the range checks of the enclave
  have hrange : ∀ item ∈ cs.zip shares,
      (0 < item.1 ∧ item.1 < parties.csp.key.nsq) ∧ 0 < item.2 ∧ item.2 < parties.csp.key.nsq := by
    intro item hitem
    rcases hitems.mem hitem with ⟨i, _, hc, hs⟩
    rcases h.decrypts hc with ⟨s1, s2, hs1, _, hcombine⟩
    have hs1' : s1 = item.2 := (ecallPartialDecrypt_eq_ok.1 hs1).2.trans hs.symm
    have hlt : item.2 < parties.csp.key.nsq := by
      rw [hs, hnsq, Parties.cpShare, EnclaveKey.nsq, h.cp_modulus]
      exact powMod_lt (Nat.mul_pos (by omega) (by omega))
    rw [hs1'] at hcombine
    refine ⟨⟨hc.pos hmod, ?_⟩, pos_of_combine hcspMod hcombine, hlt⟩
    rw [hnsq]
    exact hc.lt
  have hlen : (cs.zip shares).length = n := hitems.length
  have hecall : parties.csp.key.ecallThresholdDecryptBatch (cs.zip shares) = .ok plain := by
    refine bind_eq_ok.2 ⟨(), ensure_eq_ok.2 (by rw [hlen]; exact hn), ?_⟩
    exact bind_eq_ok.2 ⟨(), ensure_eq_ok.2 hrange, hplain⟩
  refine bind_eq_ok.2 ⟨(), ensure_eq_ok.2 ?_, ?_⟩
  · rw [hcs.length, hshares.length]
    exact ⟨hn.1, rfl, hn.2⟩
  · rw [hecall, hosted_ok]

end DecryptsCorrectly
end Parties
end Protocol
end SociSgx

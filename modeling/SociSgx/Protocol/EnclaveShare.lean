import SociSgx.Protocol.EnclaveCore
import SociSgx.Protocol.Wire

/-!
# EnclaveShare — the sealed share of a party

Provisioning writes the modulus and a share into a plaintext and seals it for one mode and one role;
the enclave of that party unseals it and takes the numbers out again.  What the SDK does is a
parameter, and memory is always allocated.
-/

namespace SociSgx
namespace Protocol

open Exec BigEndian OffsetCodec

/-- The result codes other than `OK`. -/
inductive EnclaveCode where
  | invalid
  | state
  | crypto
  | buffer
  deriving DecidableEq, Repr

def maxInput : Nat := 1024 * 1024

/-- The globals `n`, `nsq`, `lambda_z` and `mu`. -/
structure EnclaveNumbers where
  n : Nat
  nsq : Nat
  lambdaZ : Nat
  mu : Nat
  deriving DecidableEq, Repr

/-- The other globals; the enclave is `keyed` when there are numbers. -/
structure Enclave where
  initialized : Bool
  runtimeMode : UInt8
  role : UInt8
  key : Option EnclaveNumbers
  deriving DecidableEq, Repr

/-- What a failed check in a chain of `good = good && ...` ends in. -/
def orInvalid {α : Type} (x : Except Unit α) : Except EnclaveCode α :=
  x.mapError fun _ => .invalid

/-- `ecall_initialize` of an enclave that is built for `enclaveRole`. -/
def ecallInitialize (enclaveRole : UInt8) (p : Bytes) : Except EnclaveCode Enclave := do
  ensure (p.length = 8 ∧ p.take 4 = ascii "SOCI" ∧ p.getD 4 0 = 1 ∧ 1 ≤ p.getD 5 0 ∧
    p.getD 5 0 ≤ 2 ∧ p.getD 6 0 = enclaveRole) EnclaveCode.invalid
  return { initialized := true, runtimeMode := p.getD 5 0, role := p.getD 6 0, key := none }

/-! ## Sealed shares -/

/-- The sealing functions of the SDK. -/
structure Sealer where
  /-- `sizeof(sgx_sealed_data_t)` -/
  headerSize : Nat
  calcSealedDataSize : Nat → Nat
  /-- `sgx_seal_data_ex` into a buffer of the given size. -/
  sealDataEx : Bytes → Nat → Option Bytes
  getEncryptTxtLen : Bytes → Nat
  unsealData : Bytes → Option Bytes

/-- Unsealing inverts sealing, for plaintexts whose sealed size is a 32-bit number. -/
structure Sealer.Inverts (sealer : Sealer) : Prop where
  size : ∀ k, sealer.headerSize + k < uint32Max →
    sealer.calcSealedDataSize k = sealer.headerSize + k
  seals : ∀ plain : Bytes, sealer.headerSize + plain.length < uint32Max →
    ∃ blob : Bytes, sealer.sealDataEx plain (sealer.calcSealedDataSize plain.length) = some blob ∧
      blob.length = sealer.headerSize + plain.length ∧
      sealer.getEncryptTxtLen blob = plain.length ∧ sealer.unsealData blob = some plain

def cpRole : UInt8 := 1

def cspRole : UInt8 := 2

/-- `plain_cap` of `seal_share`. -/
def shareSize (shareRole : UInt8) (n share combiner : Nat) : Nat :=
  20 + exportedSize n + exportedSize share +
    if shareRole = cspRole then exportedSize combiner + 4 else 0

/-- The first twelve bytes of a share. -/
def shareHeader (mode shareRole : UInt8) (bits : UInt32) : Bytes :=
  ascii "TSHR" ++ [1, mode, shareRole, 0] ++ writeU32 bits.toNat

/-- The plaintext that `seal_share` builds, in a buffer of `plain_cap` bytes. -/
def sharePlain (mode shareRole : UInt8) (n share combiner : Nat) (bits : UInt32) :
    Except Unit (Bytes × Nat) := do
  let plain := List.replicate (shareSize shareRole n share combiner) 0
  let plain := overwrite plain 0 (shareHeader mode shareRole bits)
  let (plain, pos) ← exportAt plain 12 n
  let (plain, pos) ← exportAt plain pos share
  if shareRole = cspRole then exportAt plain pos combiner else return (plain, pos)

/-- `seal_share` in a provisioning enclave with the modulus `n`; `none` is `false`. -/
def sealShare (sealer : Sealer) (mode shareRole : UInt8) (n share combiner : Nat) (bits : UInt32)
    (outLen : Nat) : Option Bytes :=
  match sharePlain mode shareRole n share combiner bits with
  | .error _ => none
  | .ok (plain, pos) => sealer.sealDataEx (plain.take pos) outLen

/-- The integers of a plaintext from offset 12 on, and where they end. -/
def readNumbers (p : Bytes) (threshold : Bool) (role : UInt8) :
    Except Unit (EnclaveNumbers × Nat) := do
  let (n, pos) ← importAt p 12
  let (lambdaZ, pos) ← importAt p pos
  if !threshold || role == cspRole then
    let (mu, pos) ← importAt p pos
    return ({ n := n, nsq := n * n, lambdaZ := lambdaZ, mu := mu }, pos)
  else
    return ({ n := n, nsq := n * n, lambdaZ := lambdaZ, mu := 0 }, pos)

/-- `ecall_load_sealed_key`: from `clear_key` on a failure leaves the enclave without a key. -/
def ecallLoadSealedKey (sealer : Sealer) (input : Bytes) : EStateM EnclaveCode Enclave Unit := do
  let e ← get
  require (e.initialized = true ∧ sealer.headerSize ≤ input.length ∧ input.length ≤ maxInput)
    EnclaveCode.invalid
  let plainLen := sealer.getEncryptTxtLen input
  require (24 ≤ plainLen ∧ plainLen ≤ maxInput) EnclaveCode.invalid
  match sealer.unsealData input with
  | none => throw EnclaveCode.invalid
  | some p => do
      let threshold := decide (20 ≤ p.length ∧ p.take 4 = ascii "TSHR")
      let full := decide (24 ≤ p.length ∧ p.take 4 = ascii "SKEY")
      require (p.length = plainLen ∧ (threshold || full) = true ∧ p.getD 4 0 = 1 ∧
        p.getD 5 0 = e.runtimeMode ∧ p.getD 6 0 = e.role) EnclaveCode.invalid
      -- `clear_key`: no failure below brings the old key back
      set { e with key := none }
      match readNumbers p threshold e.role with
      | .error _ => throw EnclaveCode.invalid
      | .ok (numbers, pos) => do
          require (pos = p.length) EnclaveCode.invalid
          set { e with key := some numbers }

/-! ## What a share consists of -/

/-- The bytes of a share: its header and its integers. -/
def shareBytes (mode shareRole : UInt8) (n share combiner : Nat) (bits : UInt32) : Bytes :=
  shareHeader mode shareRole bits ++
    (integerBytes n ++ (integerBytes share ++
      if shareRole = cspRole then integerBytes combiner else []))

variable (mode shareRole : UInt8) (n share combiner : Nat) (bits : UInt32)

@[simp]
theorem length_shareHeader : (shareHeader mode shareRole bits).length = 12 := by
  simp [shareHeader, ascii]

theorem length_shareBytes : (shareBytes mode shareRole n share combiner bits).length =
    shareSize shareRole n share combiner := by
  unfold shareBytes shareSize
  split <;> simp <;> omega

/-- The buffer is exactly as large as what is written into it. -/
theorem sharePlain_eq : ∃ plain,
    sharePlain mode shareRole n share combiner bits =
      .ok (plain, shareSize shareRole n share combiner) ∧
    plain.take (shareSize shareRole n share combiner) =
      shareBytes mode shareRole n share combiner bits := by
  let cap := shareSize shareRole n share combiner
  have hcap : cap = 20 + exportedSize n + exportedSize share +
      if shareRole = cspRole then exportedSize combiner + 4 else 0 := rfl
  let blank : Bytes := List.replicate cap 0
  have hblank : blank.length = cap := List.length_replicate
  have hfits : 0 + (shareHeader mode shareRole bits).length ≤ blank.length := by
    rw [length_shareHeader, hblank]
    omega
  have hlen0 := length_overwrite hfits
  have htake0 := take_overwrite _ _ _ hfits
  rw [length_shareHeader, List.take_zero, List.nil_append, Nat.zero_add] at htake0
  -- The header and the integers follow each other; the buffer holds them all.
  rcases exportAt_spec (overwrite blank 0 (shareHeader mode shareRole bits)) 12 n
    (by rw [length_integerBytes, hlen0, hblank]; omega) with ⟨p1, h1, hlen1, htake1⟩
  rcases exportAt_spec p1 (12 + (integerBytes n).length) share
    (by rw [length_integerBytes, length_integerBytes, hlen1, hlen0, hblank]; omega) with
    ⟨p2, h2, hlen2, htake2⟩
  rw [htake1, htake0] at htake2
  by_cases hcsp : shareRole = cspRole
  · rw [if_pos hcsp] at hcap
    rcases exportAt_spec p2 (12 + (integerBytes n).length + (integerBytes share).length) combiner
      (by simp only [length_integerBytes, hlen2, hlen1, hlen0, hblank]; omega) with
      ⟨p3, h3, _, htake3⟩
    have hend : 12 + (integerBytes n).length + (integerBytes share).length +
        (integerBytes combiner).length = cap := by
      simp only [length_integerBytes]
      omega
    rw [htake2] at htake3
    rw [hend] at h3 htake3
    refine ⟨p3, ?_, ?_⟩
    · refine bind_eq_ok.2 ⟨_, h1, bind_eq_ok.2 ⟨_, h2, ?_⟩⟩
      dsimp only
      rw [if_pos hcsp]
      exact h3
    · rw [htake3, shareBytes, if_pos hcsp]
      simp only [List.append_assoc]
  · rw [if_neg hcsp] at hcap
    have hend : 12 + (integerBytes n).length + (integerBytes share).length = cap := by
      simp only [length_integerBytes]
      omega
    rw [hend] at h2 htake2
    refine ⟨p2, ?_, ?_⟩
    · refine bind_eq_ok.2 ⟨_, h1, bind_eq_ok.2 ⟨_, h2, ?_⟩⟩
      dsimp only
      rw [if_neg hcsp]
      rfl
    · rw [htake2, shareBytes, if_neg hcsp]
      simp only [List.append_assoc, List.append_nil]

/-- What a share makes of an enclave of its role. -/
def installed (shareRole : UInt8) (n share combiner : Nat) : EnclaveNumbers :=
  { n := n, nsq := n * n, lambdaZ := share, mu := if shareRole = cspRole then combiner else 0 }

variable {shareRole n share combiner} in
/-- The reader ends at the end of a share, with the numbers that were written. -/
theorem readNumbers_shareBytes (hsmall : shareSize shareRole n share combiner < 2 ^ 32) :
    readNumbers (shareBytes mode shareRole n share combiner bits) true shareRole =
      .ok (installed shareRole n share combiner,
        (shareBytes mode shareRole n share combiner bits).length) := by
  have hsize : shareSize shareRole n share combiner = 20 + exportedSize n + exportedSize share +
      if shareRole = cspRole then exportedSize combiner + 4 else 0 := rfl
  have hn : Writable n := by
    unfold Writable
    omega
  have hshare : Writable share := by
    unfold Writable
    omega
  let before := shareHeader mode shareRole bits
  have hbefore : before.length = 12 := length_shareHeader _ _ _
  unfold shareBytes
  by_cases hcsp : shareRole = cspRole
  · rw [if_pos hcsp] at hsize
    have hcombiner : Writable combiner := by
      unfold Writable
      omega
    -- Each number is read back behind the ones before it.
    have hread1 := importAt_readsBack n hn before (integerBytes share ++ integerBytes combiner)
    have hread2 := importAt_readsBack share hshare (before ++ integerBytes n)
      (integerBytes combiner)
    have hread3 := importAt_readsBack combiner hcombiner
      (before ++ integerBytes n ++ integerBytes share) []
    rw [if_pos hcsp]
    simp only [List.append_assoc, List.length_append, hbefore] at hread1 hread2
    simp only [List.append_assoc, List.append_nil, List.length_append, hbefore] at hread3
    rw [Nat.add_assoc] at hread2
    refine bind_eq_ok.2 ⟨_, hread1, bind_eq_ok.2 ⟨_, hread2, ?_⟩⟩
    have hreads : (!true || shareRole == cspRole) = true := by simp [hcsp]
    dsimp only
    rw [if_pos hreads]
    refine bind_eq_ok.2 ⟨_, hread3, ?_⟩
    simp [installed, if_pos hcsp, Nat.add_assoc]
    rfl
  · have hread1 := importAt_readsBack n hn before (integerBytes share ++ [])
    have hread2 := importAt_readsBack share hshare (before ++ integerBytes n) []
    rw [if_neg hcsp]
    simp only [List.append_assoc, List.length_append, hbefore] at hread1 hread2
    refine bind_eq_ok.2 ⟨_, hread1, bind_eq_ok.2 ⟨_, hread2, ?_⟩⟩
    have hreads : ¬ (!true || shareRole == cspRole) = true := by simp [hcsp]
    dsimp only
    rw [if_neg hreads]
    simp [installed, if_neg hcsp, Nat.add_assoc]
    rfl

/-! ## Sealing and loading -/

section Loading

variable {sealer : Sealer} {blob : Bytes} {e : Enclave}
variable {mode shareRole : UInt8} {n share combiner : Nat} {bits : UInt32}

/-- A blob that holds a share with these numbers. -/
structure HoldsShare (sealer : Sealer) (blob : Bytes) (mode shareRole : UInt8)
    (n share combiner : Nat) (bits : UInt32) : Prop where
  length : blob.length = sealer.headerSize + shareSize shareRole n share combiner
  txtLen : sealer.getEncryptTxtLen blob = shareSize shareRole n share combiner
  unseals : sealer.unsealData blob = some (shareBytes mode shareRole n share combiner bits)

variable (mode shareRole n share combiner bits) in
theorem sealShare_spec (hsealer : sealer.Inverts)
    (hsize : sealer.headerSize + shareSize shareRole n share combiner < uint32Max) :
    ∃ blob, sealShare sealer mode shareRole n share combiner bits
        (sealer.calcSealedDataSize (shareSize shareRole n share combiner)) = some blob ∧
      HoldsShare sealer blob mode shareRole n share combiner bits := by
  obtain ⟨plain, hplain, htake⟩ := sharePlain_eq mode shareRole n share combiner bits
  have hlen := length_shareBytes mode shareRole n share combiner bits
  obtain ⟨blob, hblob, hbloblen, htxt, hunseal⟩ :=
    hsealer.seals (shareBytes mode shareRole n share combiner bits) (by rw [hlen]; exact hsize)
  rw [hlen] at hblob hbloblen htxt
  refine ⟨blob, ?_, hbloblen, htxt, hunseal⟩
  rw [sealShare, hplain]
  dsimp only
  rw [htake]
  exact hblob

/-- The checks on a blob before its header is looked at. -/
theorem HoldsShare.passes (h : HoldsShare sealer blob mode shareRole n share combiner bits)
    (hmin : 4 ≤ exportedSize n + exportedSize share) (hmax : blob.length ≤ maxInput) :
    (sealer.headerSize ≤ blob.length ∧ blob.length ≤ maxInput) ∧
      24 ≤ sealer.getEncryptTxtLen blob ∧ sealer.getEncryptTxtLen blob ≤ maxInput := by
  have hlen := h.length
  have htxt := h.txtLen
  have hsize : 20 + exportedSize n + exportedSize share ≤ shareSize shareRole n share combiner :=
    Nat.le_add_right _ _
  omega

variable (mode shareRole combiner bits) in
/-- The header of a share, as the loading call reads it. -/
theorem shareBytes_header (hmin : 4 ≤ exportedSize n + exportedSize share) :
    24 ≤ (shareBytes mode shareRole n share combiner bits).length ∧
      (shareBytes mode shareRole n share combiner bits).take 4 = ascii "TSHR" ∧
      (shareBytes mode shareRole n share combiner bits).getD 4 0 = 1 ∧
      (shareBytes mode shareRole n share combiner bits).getD 5 0 = mode ∧
      (shareBytes mode shareRole n share combiner bits).getD 6 0 = shareRole := by
  have hsize : 20 + exportedSize n + exportedSize share ≤ shareSize shareRole n share combiner :=
    Nat.le_add_right _ _
  refine ⟨?_, rfl, rfl, rfl, rfl⟩
  rw [length_shareBytes]
  omega

/-- In the enclave that the share is for, exactly its numbers are installed. -/
theorem HoldsShare.loads (h : HoldsShare sealer blob mode shareRole n share combiner bits)
    (hmin : 4 ≤ exportedSize n + exportedSize share) (hmax : blob.length ≤ maxInput)
    (hinit : e.initialized = true) (hmode : e.runtimeMode = mode) (hrole : e.role = shareRole) :
    ecallLoadSealedKey sealer blob e =
      .ok () { e with key := some (installed shareRole n share combiner) } := by
  obtain ⟨hblob, htxt⟩ := h.passes hmin hmax
  obtain ⟨h24, hmagic, h4, h5, h6⟩ := shareBytes_header mode shareRole combiner bits hmin
  have hsmall : shareSize shareRole n share combiner < 2 ^ 32 := by
    rw [← h.txtLen]
    exact Nat.lt_of_le_of_lt htxt.2 (by decide)
  have hread := readNumbers_shareBytes mode bits hsmall
  have hthreshold : decide (20 ≤ (shareBytes mode shareRole n share combiner bits).length ∧
      (shareBytes mode shareRole n share combiner bits).take 4 = ascii "TSHR") = true :=
    decide_eq_true ⟨by omega, hmagic⟩
  have htext : (shareBytes mode shareRole n share combiner bits).length =
      sealer.getEncryptTxtLen blob := by
    rw [length_shareBytes, h.txtLen]
  unfold ecallLoadSealedKey
  rw [bind_of_ok (show (get : EStateM EnclaveCode Enclave Enclave) e = .ok e e from rfl),
    bind_of_ok (require_of_pos ⟨hinit, hblob⟩)]
  dsimp only
  rw [bind_of_ok (require_of_pos htxt), h.unseals]
  dsimp only
  rw [hthreshold, Bool.true_or, bind_of_ok (require_of_pos ⟨htext, rfl, h4, by rw [h5, hmode],
    by rw [h6, hrole]⟩), bind_of_ok (show (set _ : EStateM EnclaveCode Enclave PUnit) e = .ok _ _
      from rfl), hrole, hread]
  dsimp only
  rw [bind_of_ok (require_of_pos rfl)]
  rfl

/-- A blob above the bound is not looked into. -/
theorem load_too_large (hlarge : maxInput < blob.length) :
    ecallLoadSealedKey sealer blob e = .error .invalid e := by
  unfold ecallLoadSealedKey
  rw [bind_of_ok (show (get : EStateM EnclaveCode Enclave Enclave) e = .ok e e from rfl)]
  exact require_bind_of_neg fun hpass => absurd hpass.2.2 (Nat.not_le.2 hlarge)

/-- Another mode or another role is rejected, and the enclave is as it was. -/
theorem HoldsShare.rejected (h : HoldsShare sealer blob mode shareRole n share combiner bits)
    (hmin : 4 ≤ exportedSize n + exportedSize share) (hmax : blob.length ≤ maxInput)
    (hother : e.runtimeMode ≠ mode ∨ e.role ≠ shareRole) :
    ecallLoadSealedKey sealer blob e = .error .invalid e := by
  obtain ⟨hblob, htxt⟩ := h.passes hmin hmax
  obtain ⟨_, _, _, h5, h6⟩ := shareBytes_header mode shareRole combiner bits hmin
  unfold ecallLoadSealedKey
  rw [bind_of_ok (show (get : EStateM EnclaveCode Enclave Enclave) e = .ok e e from rfl)]
  cases hinit : e.initialized with
  | false => exact require_bind_of_neg fun hpass => absurd hpass.1 (by decide)
  | true =>
      rw [bind_of_ok (require_of_pos ⟨rfl, hblob⟩)]
      dsimp only
      rw [bind_of_ok (require_of_pos htxt), h.unseals]
      refine require_bind_of_neg fun hpass => ?_
      rw [h5, h6] at hpass
      rcases hother with hmode | hrole
      · exact hmode hpass.2.2.2.1.symm
      · exact hrole hpass.2.2.2.2.symm

end Loading

/-- A sealed share of at most `MAX_INPUT` bytes loads in the enclave it is for: the reader consumes
the plaintext, and exactly the sealed numbers are installed.  Every other enclave rejects it. -/
theorem sealed_share_loads (sealer : Sealer) (hsealer : sealer.Inverts) (mode role : UInt8)
    (n share combiner : Nat) (bits : UInt32)
    (hmin : 4 ≤ exportedSize n + exportedSize share)
    (hmax : sealer.headerSize + shareSize role n share combiner ≤ maxInput) :
    ∃ blob, sealShare sealer mode role n share combiner bits
        (sealer.calcSealedDataSize (shareSize role n share combiner)) = some blob ∧
      (∃ plain, sealer.unsealData blob = some plain ∧
        readNumbers plain true role = .ok (installed role n share combiner, plain.length)) ∧
      (∀ e : Enclave, e.initialized = true → e.runtimeMode = mode → e.role = role →
        ecallLoadSealedKey sealer blob e =
          .ok () { e with key := some (installed role n share combiner) }) ∧
      (∀ e : Enclave, e.runtimeMode ≠ mode ∨ e.role ≠ role →
        ecallLoadSealedKey sealer blob e = .error .invalid e) := by
  have hsize : sealer.headerSize + shareSize role n share combiner < uint32Max :=
    Nat.lt_of_le_of_lt hmax (by decide)
  have hsmall : shareSize role n share combiner < 2 ^ 32 := by
    unfold uint32Max at hsize
    omega
  obtain ⟨blob, hblob, hholds⟩ := sealShare_spec mode role n share combiner bits hsealer hsize
  have hlen : blob.length ≤ maxInput := by
    rw [hholds.length]
    exact hmax
  refine ⟨blob, hblob, ⟨_, hholds.unseals, readNumbers_shareBytes mode bits hsmall⟩, ?_, ?_⟩
  · intro e hinit hmode hrole
    exact hholds.loads hmin hlen hinit hmode hrole
  · intro e hother
    exact hholds.rejected hmin hlen hother

/-! ## A sealer in the clear -/

def blankHeader : Bytes :=
  List.replicate 560 0

theorem length_blankHeader : blankHeader.length = 560 :=
  List.length_replicate

/-- The layout of the SDK, with the plaintext left as it is behind the header. -/
def copySealer : Sealer where
  headerSize := 560
  calcSealedDataSize := fun k => 560 + k
  sealDataEx := fun plain outLen =>
    if outLen = 560 + plain.length then some (blankHeader ++ plain) else none
  getEncryptTxtLen := fun blob => blob.length - 560
  unsealData := fun blob => if 560 ≤ blob.length then some (blob.drop 560) else none

theorem copySealer_inverts : copySealer.Inverts := by
  refine ⟨fun k _ => rfl, fun plain _ => ?_⟩
  have hlen : (blankHeader ++ plain).length = 560 + plain.length := by
    rw [List.length_append, length_blankHeader]
  refine ⟨blankHeader ++ plain, if_pos rfl, hlen, ?_, ?_⟩
  · simp only [copySealer, hlen, Nat.add_sub_cancel_left]
  · have hroom : 560 ≤ (blankHeader ++ plain).length := hlen ▸ Nat.le_add_right _ _
    simp only [copySealer, if_pos hroom, List.drop_left' length_blankHeader]

/-- A share of role 2 with the modulus `2 ^ 32`, sealed for mode 1. -/
theorem sealed_share_loads_csp :
    ∃ blob, sealShare copySealer 1 cspRole (2 ^ 32) 7 11 3072
        (copySealer.calcSealedDataSize (shareSize cspRole (2 ^ 32) 7 11)) = some blob ∧
      (∃ plain, copySealer.unsealData blob = some plain ∧
        readNumbers plain true cspRole = .ok (installed cspRole (2 ^ 32) 7 11, plain.length)) ∧
      (∀ e : Enclave, e.initialized = true → e.runtimeMode = 1 → e.role = cspRole →
        ecallLoadSealedKey copySealer blob e =
          .ok () { e with key := some (installed cspRole (2 ^ 32) 7 11) }) ∧
      (∀ e : Enclave, e.runtimeMode ≠ 1 ∨ e.role ≠ cspRole →
        ecallLoadSealedKey copySealer blob e = .error .invalid e) :=
  sealed_share_loads copySealer copySealer_inverts 1 cspRole (2 ^ 32) 7 11 3072
    (by decide) (by decide)

theorem exportedSize_pow (k : Nat) : exportedSize (256 ^ k) = k + 1 := by
  have hpow : (256 : Nat) ^ k = 2 ^ (8 * k) := by
    rw [pow_mul]
    rfl
  rw [exportedSize, sizeInBase2, hpow, Nat.log2_two_pow]
  omega

/-- A modulus of one byte more than `MAX_INPUT` is sealed, but the enclave it is sealed for does not
load the blob. -/
theorem large_share_rejected :
    ∃ (n : Nat) (blob : Bytes) (e : Enclave), n = 256 ^ maxInput ∧ copySealer.Inverts ∧
      4 ≤ exportedSize n + exportedSize 1 ∧ e.initialized = true ∧ e.runtimeMode = 1 ∧
      e.role = cpRole ∧
      sealShare copySealer 1 cpRole n 1 1 3072
        (copySealer.calcSealedDataSize (shareSize cpRole n 1 1)) = some blob ∧
      ecallLoadSealedKey copySealer blob e = .error .invalid e := by
  have hn : exportedSize (256 ^ maxInput) = maxInput + 1 := exportedSize_pow maxInput
  have hone : exportedSize 1 = 1 := by decide
  have hsize : shareSize cpRole (256 ^ maxInput) 1 1 = maxInput + 22 := by
    rw [shareSize, hn, hone, if_neg (by decide)]
    omega
  obtain ⟨blob, hblob, hholds⟩ := sealShare_spec 1 cpRole (256 ^ maxInput) 1 1 3072
    copySealer_inverts (by rw [hsize]; decide)
  refine ⟨_, blob, ⟨true, 1, cpRole, none⟩, rfl, copySealer_inverts, ?_, rfl, rfl, rfl, hblob, ?_⟩
  · rw [hn]
    exact Nat.le_trans (by decide) (Nat.le_add_right _ _)
  · refine load_too_large ?_
    rw [hholds.length, hsize]
    exact Nat.lt_of_lt_of_le (Nat.lt_add_of_pos_right (by decide)) (Nat.le_add_left _ _)

end Protocol
end SociSgx

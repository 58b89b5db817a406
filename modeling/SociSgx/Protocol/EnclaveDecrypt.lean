import SociSgx.Protocol.EnclaveShare

/-!
# EnclaveDecrypt — the decryption calls of the enclave

The two single calls and the batched one, from the bytes of a request to the bytes of the reply.
The batched call has its own parser and its own arithmetic; on every request it does what the single
calls do with the same numbers.
-/

namespace SociSgx
namespace Protocol

open Exec SociSgx.Modular BigEndian OffsetCodec

namespace Enclave

variable (e : Enclave)

/-- `header` -/
def Header (p magic : Bytes) : Prop :=
  8 ≤ p.length ∧ p.length ≤ maxInput ∧ p.take 4 = magic ∧ p.getD 4 0 = 1 ∧
    p.getD 5 0 = e.runtimeMode

instance (p magic : Bytes) : Decidable (e.Header p magic) :=
  inferInstanceAs (Decidable (_ ∧ _ ∧ _ ∧ _ ∧ _))

/-- The numbers of an enclave that has been initialized and has a key. -/
def loaded : Except EnclaveCode EnclaveNumbers :=
  match e.initialized, e.key with
  | true, some k => .ok k
  | _, _ => .error .state

/-- The first eight bytes of a reply. -/
def replyHeader (magic : Bytes) (role : UInt8) : Bytes :=
  magic ++ [1, e.runtimeMode, role, 0]

/-! ## Single calls -/

def ecallPartialDecrypt (input : Bytes) (cap : Nat) : Except EnclaveCode Bytes := do
  let k ← e.loaded
  ensure (e.role = cpRole ∨ e.role = cspRole) EnclaveCode.state
  ensure (e.Header input (ascii "SPDC") ∧ 12 ≤ input.length) EnclaveCode.invalid
  let (c, pos) ← orInvalid (importAt input 8)
  ensure (pos = input.length ∧ 0 < c ∧ c < k.nsq) EnclaveCode.invalid
  let u := powMod c k.lambdaZ k.nsq
  let len := exportedSize u
  ensure (12 + len ≤ cap) EnclaveCode.buffer
  let wrote := mpzExport u
  -- a zero has no digits here
  ensure (wrote.length = len) EnclaveCode.crypto
  return e.replyHeader (ascii "SPAR") e.role ++ writeU32 len ++ wrote

/-- `u - 1` may be negative. -/
def ecallCombineDecrypt (input : Bytes) (cap : Nat) : Except EnclaveCode Bytes := do
  let k ← e.loaded
  ensure (e.role = cspRole) EnclaveCode.state
  ensure (e.Header input (ascii "SCMB") ∧ 16 ≤ input.length) EnclaveCode.invalid
  let (u1, pos) ← orInvalid (importAt input 8)
  let (u2, pos) ← orInvalid (importAt input pos)
  ensure (pos = input.length) EnclaveCode.invalid
  let u : Int := ((u1 * u2 % k.nsq : Nat) : Int) - 1
  -- `L` is defined on the multiples of `n`
  ensure ((k.n : Int) ∣ u) EnclaveCode.invalid
  let m := (u / k.n * k.mu % k.n).toNat
  let len := exportedSize m
  ensure (12 + len ≤ cap) EnclaveCode.buffer
  let wrote := mpzExport m
  let wrote := if wrote.length = 0 ∧ m = 0 then [0] else wrote
  ensure (wrote.length = len) EnclaveCode.crypto
  return e.replyHeader (ascii "SPLN") 3 ++ writeU32 len ++ wrote

/-! ## The batched call -/

/-- The two integers of a batch item. -/
def importPair (input : Bytes) (pos : Nat) : Except Unit ((Nat × Nat) × Nat) := do
  let (c, pos) ← importAt input pos
  let (u1, pos) ← importAt input pos
  return ((c, u1), pos)

/-- The body of the first loop: a pair and its ranges. -/
def importItem (nsq : Nat) (input : Bytes) (pos : Nat) : Except Unit ((Nat × Nat) × Nat) := do
  let ((c, u1), pos) ← importPair input pos
  ensure (0 < c ∧ c < nsq ∧ 0 < u1 ∧ u1 < nsq) ()
  return ((c, u1), pos)

/-- The body of the second loop; the state is the buffer and the position in it. -/
def exportItem (k : EnclaveNumbers) (state : Bytes × Nat) (item : Nat × Nat) :
    Except Unit (Bytes × Nat) := do
  let u2 := powMod item.1 k.lambdaZ k.nsq
  let u : Int := ((item.2 * u2 % k.nsq : Nat) : Int) - 1
  ensure ((k.n : Int) ∣ u) ()
  let m := (u / k.n * k.mu % k.n).toNat
  exportAt state.1 state.2 m

def ecallThresholdDecryptBatch (input : Bytes) (cap : Nat) : Except EnclaveCode Bytes := do
  let k ← e.loaded
  ensure (e.role = cspRole) EnclaveCode.state
  ensure (e.Header input (ascii "STDB") ∧ 12 ≤ input.length ∧ input.getD 6 0 = 0 ∧
    input.getD 7 0 = 0) EnclaveCode.invalid
  let count := readU32 input 8
  ensure (count ≠ 0 ∧ count ≤ thresholdMaxBatchSize) EnclaveCode.invalid
  let (items, pos) ← orInvalid (readMany (importItem k.nsq) count input 12)
  ensure (pos = input.length) EnclaveCode.invalid
  let (out, outPos) ← orInvalid (items.foldlM (exportItem k) (List.replicate cap 0, 12))
  return (overwrite out 0 (e.replyHeader (ascii "STDR") 3 ++ writeU32 count)).take outPos

/-! ## The single path -/

/-- The integer that a reply of a single call carries. -/
def replyValue (reply : Bytes) : Except EnclaveCode Nat := do
  let (value, _) ← orInvalid (importAt reply 8)
  return value

/-- What the host asks for one pair: a partial decryption, and its combination with the share. -/
def singlePath (cap ciphertext share : Nat) : Except EnclaveCode Nat := do
  let reply ← e.ecallPartialDecrypt
    (ascii "SPDC" ++ [1, e.runtimeMode, 0, 0] ++ integerBytes ciphertext) cap
  let partialShare ← replyValue reply
  let reply ← e.ecallCombineDecrypt
    (ascii "SCMB" ++ [1, e.runtimeMode, 0, 0] ++ integerBytes share ++ integerBytes partialShare)
    cap
  replyValue reply

theorem orInvalid_eq_ok {α : Type} {x : Except Unit α} {a : α} :
    orInvalid x = .ok a ↔ x = .ok a := by
  cases x <;> simp [orInvalid, Except.mapError]

/-! ## What a loaded key is -/

/-- An initialized CSP enclave with a key that `ecall_threshold_keygen` made: it refuses to make a
modulus of more than 8192 bits. -/
structure LoadedCsp (k : EnclaveNumbers) : Prop where
  loaded : e.loaded = .ok k
  role : e.role = cspRole
  square : k.nsq = k.n * k.n
  size : sizeInBase2 k.n ≤ 8192

variable {e} {k : EnclaveNumbers}

theorem LoadedCsp.exported_nsq (h : e.LoadedCsp k) : exportedSize k.nsq ≤ 2048 := by
  rw [h.square]
  exact exportedSize_square h.size

/-- The numbers below the square of the modulus fit into a request. -/
theorem LoadedCsp.small (h : e.LoadedCsp k) {c : Nat} (hc : c < k.nsq) :
    exportedSize c ≤ 2048 ∧ Writable c := by
  have hle := (exportedSize_mono hc.le).trans h.exported_nsq
  refine ⟨hle, ?_⟩
  unfold Writable
  omega

/-! ## The single path on the numbers -/

/-- The plaintext of a combination, if there is one. -/
def combined (k : EnclaveNumbers) (u1 u2 : Nat) : Except Unit Nat := do
  let u : Int := ((u1 * u2 % k.nsq : Nat) : Int) - 1
  ensure ((k.n : Int) ∣ u) ()
  return (u / k.n * k.mu % k.n).toNat

theorem combined_lt {u1 u2 m : Nat} (hn : 0 < k.n) (h : combined k u1 u2 = .ok m) : m < k.n := by
  rcases bind_eq_ok.1 h with ⟨_, _, h⟩
  cases h
  have hpos : (0 : Int) < k.n := by exact_mod_cast hn
  have hlt := Int.emod_lt_of_pos
    ((((u1 * u2 % k.nsq : Nat) : Int) - 1) / k.n * k.mu) hpos
  have hnonneg := Int.emod_nonneg
    ((((u1 * u2 % k.nsq : Nat) : Int) - 1) / k.n * k.mu) hpos.ne'
  omega

/-- A partial decryption that is zero combines with nothing. -/
theorem combined_zero {u1 : Nat} (hn : 1 < k.n) (m : Nat) : combined k u1 0 ≠ .ok m := by
  intro h
  rcases bind_eq_ok.1 h with ⟨_, hdvd, _⟩
  rw [ensure_eq_ok, Nat.mul_zero, Nat.zero_mod] at hdvd
  have hone : (k.n : Int) ∣ 1 := by simpa using hdvd
  have hone' : k.n ∣ 1 := by exact_mod_cast hone
  exact absurd (Nat.le_of_dvd Nat.one_pos hone') (Nat.not_le.2 hn)

theorem replyValue_eq {head : Bytes} (hhead : head.length = 8) {v : Nat} (hv : Writable v) :
    replyValue (head ++ integerBytes v) = .ok v := by
  have hread := importAt_readsBack v hv head []
  rw [List.append_nil, hhead] at hread
  unfold replyValue
  rw [hread]
  rfl

/-- A reply ends with an integer, whether its digits were patched or are never missing. -/
theorem reply_integer (head : Bytes) (v : Nat) :
    head ++ writeU32 (exportedSize v) ++ magnitude v = head ++ integerBytes v := by
  rw [integerBytes, List.append_assoc]

theorem header_request (magic : Bytes) (hmagic : magic.length = 4) (body : Bytes)
    (hbody : body.length ≤ 2 ^ 16) :
    e.Header (magic ++ [1, e.runtimeMode, 0, 0] ++ body) magic := by
  rcases List.length_eq_four.1 hmagic with ⟨a, b, c, d, rfl⟩
  refine ⟨by simp, ?_, rfl, rfl, rfl⟩
  unfold maxInput
  simp
  omega

/-- The integer behind the header of a request. -/
theorem importAt_request (magic : Bytes) (hmagic : magic.length = 4) (mode : UInt8) {z : Nat}
    (hz : Writable z) (after : Bytes) :
    importAt (magic ++ [1, mode, 0, 0] ++ (integerBytes z ++ after)) 8 =
      .ok (z, 8 + (4 + exportedSize z)) := by
  have hread := importAt_readsBack z hz (magic ++ [1, mode, 0, 0]) after
  have hlen : (magic ++ [1, mode, 0, 0]).length = 8 := by simp [hmagic]
  rwa [hlen, length_integerBytes] at hread

/-- A partial decryption of a number in range succeeds unless it is zero. -/
theorem ecallPartialDecrypt_eq_ok (h : e.LoadedCsp k) {c cap : Nat} (hc : 0 < c ∧ c < k.nsq)
    (hcap : 12 + exportedSize k.nsq ≤ cap) {reply : Bytes} :
    e.ecallPartialDecrypt (ascii "SPDC" ++ [1, e.runtimeMode, 0, 0] ++ integerBytes c) cap =
        .ok reply ↔
      powMod c k.lambdaZ k.nsq ≠ 0 ∧
        reply = e.replyHeader (ascii "SPAR") e.role ++ integerBytes (powMod c k.lambdaZ k.nsq) := by
  have hpos : 0 < k.nsq := hc.1.trans hc.2
  have hsmall := h.small hc.2
  have hread := importAt_request (ascii "SPDC") rfl e.runtimeMode hsmall.2 []
  rw [List.append_nil] at hread
  have hlen : (ascii "SPDC" ++ [1, e.runtimeMode, 0, 0] ++ integerBytes c).length =
      8 + (4 + exportedSize c) := by simp [ascii]; omega
  have hsize := exportedSize_mono (powMod_lt hpos : powMod c k.lambdaZ k.nsq < k.nsq).le
  constructor
  · intro hcall
    rcases bind_eq_ok.1 hcall with ⟨k', hk', hcall⟩
    rw [h.loaded] at hk'
    cases hk'
    rcases bind_eq_ok.1 hcall with ⟨_, _, hcall⟩
    rcases bind_eq_ok.1 hcall with ⟨_, _, hcall⟩
    rcases bind_eq_ok.1 hcall with ⟨⟨c', pos⟩, hc', hcall⟩
    rw [hread] at hc'
    cases hc'
    rcases bind_eq_ok.1 hcall with ⟨_, _, hcall⟩
    rcases bind_eq_ok.1 hcall with ⟨_, _, hcall⟩
    rcases bind_eq_ok.1 hcall with ⟨_, hwrote, hcall⟩
    rw [ensure_eq_ok] at hwrote
    cases hcall
    -- Zero has an empty export, and the source takes that for a failure.
    have hne : powMod c k.lambdaZ k.nsq ≠ 0 := by
      intro hzero
      rw [hzero] at hwrote
      exact absurd hwrote (by decide)
    refine ⟨hne, ?_⟩
    rw [mpzExport, if_neg hne, reply_integer]
  -- Each check of the call passes on a request that was built for it.
  · rintro ⟨hne, rfl⟩
    have hexport : mpzExport (powMod c k.lambdaZ k.nsq) = magnitude (powMod c k.lambdaZ k.nsq) :=
      if_neg hne
    refine bind_eq_ok.2 ⟨k, h.loaded, ?_⟩
    refine bind_eq_ok.2 ⟨(), ensure_eq_ok.2 (Or.inr h.role), ?_⟩
    refine bind_eq_ok.2 ⟨(), ensure_eq_ok.2 ⟨?_, by rw [hlen]; omega⟩, ?_⟩
    · exact header_request (ascii "SPDC") rfl _ (by rw [length_integerBytes]; omega)
    refine bind_eq_ok.2 ⟨_, by rw [hread]; rfl, ?_⟩
    refine bind_eq_ok.2 ⟨(), ensure_eq_ok.2 ⟨hlen.symm, hc⟩, ?_⟩
    refine bind_eq_ok.2 ⟨(), ensure_eq_ok.2 (by omega), ?_⟩
    dsimp only
    rw [hexport]
    refine bind_eq_ok.2 ⟨(), ensure_eq_ok.2 (length_magnitude _), ?_⟩
    rw [reply_integer]
    rfl

/-- The combining call returns the combination. -/
theorem ecallCombineDecrypt_eq_ok (h : e.LoadedCsp k) {u1 u2 cap : Nat} (hu1 : u1 < k.nsq)
    (hu2 : u2 < k.nsq) (hcap : 12 + exportedSize k.nsq ≤ cap) {reply : Bytes} :
    e.ecallCombineDecrypt
        (ascii "SCMB" ++ [1, e.runtimeMode, 0, 0] ++ integerBytes u1 ++ integerBytes u2) cap =
        .ok reply ↔
      ∃ m, combined k u1 u2 = .ok m ∧
        reply = e.replyHeader (ascii "SPLN") 3 ++ integerBytes m := by
  have hsmall1 := h.small hu1
  have hsmall2 := h.small hu2
  have hn : 0 < k.n := by
    have hpos : 0 < k.n * k.n := h.square ▸ Nat.zero_lt_of_lt hu1
    exact Nat.pos_of_mul_pos_right hpos
  have hread1 := importAt_request (ascii "SCMB") rfl e.runtimeMode hsmall1.2
    (integerBytes u2)
  have hread2 := importAt_readsBack u2 hsmall2.2
    (ascii "SCMB" ++ [1, e.runtimeMode, 0, 0] ++ integerBytes u1) []
  have hfront : (ascii "SCMB" ++ [1, e.runtimeMode, 0, 0] ++ integerBytes u1).length =
      8 + (4 + exportedSize u1) := by simp [ascii]; omega
  have hlen : (ascii "SCMB" ++ [1, e.runtimeMode, 0, 0] ++ integerBytes u1 ++
      integerBytes u2).length = 8 + (4 + exportedSize u1) + (4 + exportedSize u2) := by
    rw [List.length_append, hfront, length_integerBytes]
  rw [List.append_nil, hfront, length_integerBytes] at hread2
  rw [← List.append_assoc] at hread1
  -- a plaintext is below the modulus, so its reply fits as well
  have hroom : ∀ m, combined k u1 u2 = .ok m → 12 + exportedSize m ≤ cap := by
    intro m hm
    have hlt := combined_lt hn hm
    have hle : m ≤ k.nsq := by
      rw [h.square]
      exact hlt.le.trans (Nat.le_mul_self _)
    have hmono := exportedSize_mono hle
    omega
  constructor
  · intro hcall
    rcases bind_eq_ok.1 hcall with ⟨k', hk', hcall⟩
    rw [h.loaded] at hk'
    cases hk'
    rcases bind_eq_ok.1 hcall with ⟨_, _, hcall⟩
    rcases bind_eq_ok.1 hcall with ⟨_, _, hcall⟩
    rcases bind_eq_ok.1 hcall with ⟨⟨u1', pos1⟩, hu1', hcall⟩
    rw [hread1] at hu1'
    cases hu1'
    rcases bind_eq_ok.1 hcall with ⟨⟨u2', pos2⟩, hu2', hcall⟩
    rw [hread2] at hu2'
    cases hu2'
    rcases bind_eq_ok.1 hcall with ⟨_, _, hcall⟩
    rcases bind_eq_ok.1 hcall with ⟨_, hdvd, hcall⟩
    rcases bind_eq_ok.1 hcall with ⟨_, _, hcall⟩
    rcases bind_eq_ok.1 hcall with ⟨_, _, hcall⟩
    rw [ensure_eq_ok] at hdvd
    cases hcall
    refine ⟨_, bind_eq_ok.2 ⟨(), ensure_eq_ok.2 hdvd, rfl⟩, ?_⟩
    rw [mpzExport_patched, reply_integer]
  · rintro ⟨m, hm, rfl⟩
    have hfits := hroom m hm
    rcases bind_eq_ok.1 hm with ⟨_, hdvd, hm⟩
    rw [ensure_eq_ok] at hdvd
    cases hm
    refine bind_eq_ok.2 ⟨k, h.loaded, ?_⟩
    refine bind_eq_ok.2 ⟨(), ensure_eq_ok.2 h.role, ?_⟩
    refine bind_eq_ok.2 ⟨(), ensure_eq_ok.2 ⟨?_, by rw [hlen]; omega⟩, ?_⟩
    · rw [List.append_assoc (ascii "SCMB" ++ [1, e.runtimeMode, 0, 0])]
      refine header_request (ascii "SCMB") rfl _ ?_
      rw [List.length_append, length_integerBytes, length_integerBytes]
      omega
    refine bind_eq_ok.2 ⟨_, by rw [hread1]; rfl, ?_⟩
    refine bind_eq_ok.2 ⟨_, by rw [hread2]; rfl, ?_⟩
    refine bind_eq_ok.2 ⟨(), ensure_eq_ok.2 hlen.symm, ?_⟩
    refine bind_eq_ok.2 ⟨(), ensure_eq_ok.2 hdvd, ?_⟩
    refine bind_eq_ok.2 ⟨(), ensure_eq_ok.2 hfits, ?_⟩
    dsimp only
    rw [mpzExport_patched]
    refine bind_eq_ok.2 ⟨(), ensure_eq_ok.2 (length_magnitude _), ?_⟩
    rw [reply_integer]
    rfl

/-- The single path on a pair in range. -/
theorem singlePath_eq_ok (h : e.LoadedCsp k) {c share cap : Nat} (hc : 0 < c ∧ c < k.nsq)
    (hshare : share < k.nsq) (hcap : 12 + exportedSize k.nsq ≤ cap) {m : Nat} :
    e.singlePath cap c share = .ok m ↔
      combined k share (powMod c k.lambdaZ k.nsq) = .ok m := by
  have hpos : 0 < k.nsq := hc.1.trans hc.2
  have hu : powMod c k.lambdaZ k.nsq < k.nsq := powMod_lt hpos
  have hn : 1 < k.n := by
    rcases Nat.lt_or_ge 1 k.n with hn | hle
    · exact hn
    · have hsq : k.nsq ≤ 1 := by
        rw [h.square]
        exact Nat.mul_le_mul hle hle
      omega
  have hm : ∀ m, combined k share (powMod c k.lambdaZ k.nsq) = .ok m → Writable m := by
    intro m hm
    have hlt := combined_lt (by omega) hm
    refine (h.small (lt_of_lt_of_le hlt ?_)).2
    rw [h.square]
    exact Nat.le_mul_self _
  constructor
  · intro hpath
    rcases bind_eq_ok.1 hpath with ⟨reply, hreply, hpath⟩
    rcases (ecallPartialDecrypt_eq_ok h hc hcap).1 hreply with ⟨_, rfl⟩
    rcases bind_eq_ok.1 hpath with ⟨u, hvalue, hpath⟩
    rw [replyValue_eq (by simp [replyHeader, ascii]) (h.small hu).2] at hvalue
    cases hvalue
    rcases bind_eq_ok.1 hpath with ⟨reply', hreply', hpath⟩
    rcases (ecallCombineDecrypt_eq_ok h hshare hu hcap).1 hreply' with ⟨m', hm', rfl⟩
    rw [replyValue_eq (by simp [replyHeader, ascii]) (hm m' hm')] at hpath
    cases hpath
    exact hm'
  · intro hcombined
    -- A partial value of zero would not combine, so the first call does not fail on it.
    have hne : powMod c k.lambdaZ k.nsq ≠ 0 := by
      intro hzero
      rw [hzero] at hcombined
      exact combined_zero hn m hcombined
    refine bind_eq_ok.2 ⟨_, (ecallPartialDecrypt_eq_ok h hc hcap).2 ⟨hne, rfl⟩, ?_⟩
    refine bind_eq_ok.2 ⟨_, replyValue_eq (by simp [replyHeader, ascii]) (h.small hu).2, ?_⟩
    refine bind_eq_ok.2 ⟨_, (ecallCombineDecrypt_eq_ok h hshare hu hcap).2 ⟨m, hcombined, rfl⟩, ?_⟩
    exact replyValue_eq (by simp [replyHeader, ascii]) (hm m hcombined)

/-! ## The batch -/

/-- What the first loop checks of a pair. -/
def InBounds (k : EnclaveNumbers) (item : Nat × Nat) : Prop :=
  0 < item.1 ∧ item.1 < k.nsq ∧ 0 < item.2 ∧ item.2 < k.nsq

theorem importItem_eq_ok {input : Bytes} {pos pos' : Nat} {item : Nat × Nat} :
    importItem k.nsq input pos = .ok (item, pos') ↔
      importPair input pos = .ok (item, pos') ∧ InBounds k item := by
  constructor
  · intro h
    rcases bind_eq_ok.1 h with ⟨⟨⟨c, u1⟩, mid⟩, hpair, h⟩
    rcases bind_eq_ok.1 h with ⟨_, hbounds, h⟩
    rw [ensure_eq_ok] at hbounds
    cases h
    exact ⟨hpair, hbounds⟩
  · rintro ⟨hpair, hbounds⟩
    exact bind_eq_ok.2 ⟨_, hpair, bind_eq_ok.2 ⟨(), ensure_eq_ok.2 hbounds, rfl⟩⟩

/-- One round of the second loop combines a pair and exports the plaintext. -/
theorem exportItem_eq_ok {state state' : Bytes × Nat} {item : Nat × Nat} :
    exportItem k state item = .ok state' ↔
      ∃ m, combined k item.2 (powMod item.1 k.lambdaZ k.nsq) = .ok m ∧
        exportAt state.1 state.2 m = .ok state' := by
  constructor
  · intro h
    rcases bind_eq_ok.1 h with ⟨_, hdvd, h⟩
    exact ⟨_, bind_eq_ok.2 ⟨(), hdvd, rfl⟩, h⟩
  · rintro ⟨m, hm, h⟩
    rcases bind_eq_ok.1 hm with ⟨_, hdvd, hm⟩
    cases hm
    exact bind_eq_ok.2 ⟨(), hdvd, h⟩

/-- The second loop exports the plaintexts of all pairs, in order. -/
theorem exportItems_eq_ok : ∀ (items : List (Nat × Nat)) (state state' : Bytes × Nat),
    items.foldlM (exportItem k) state = .ok state' ↔
      ∃ ms, List.Forall₂ (fun item m =>
          combined k item.2 (powMod item.1 k.lambdaZ k.nsq) = .ok m) items ms ∧
        exportIntegers state.1 state.2 ms = .ok state' := by
  intro items
  -- The loop exports one plaintext after the other, and stops at the first failure.
  induction items with
  | nil =>
      intro state state'
      constructor
      · intro h
        cases h
        exact ⟨[], List.Forall₂.nil, rfl⟩
      · rintro ⟨ms, hms, h⟩
        cases hms
        exact h
  | cons item items ih =>
      intro state state'
      rw [List.foldlM_cons]
      constructor
      · intro h
        rcases bind_eq_ok.1 h with ⟨mid, hmid, h⟩
        rcases exportItem_eq_ok.1 hmid with ⟨m, hm, hexport⟩
        rcases (ih _ _).1 h with ⟨ms, hms, hrest⟩
        refine ⟨m :: ms, List.Forall₂.cons hm hms, ?_⟩
        rw [exportIntegers, List.foldlM_cons]
        exact bind_eq_ok.2 ⟨mid, hexport, hrest⟩
      · rintro ⟨ms, hms, h⟩
        cases hms with
        | cons hm hms =>
            rename_i m ms
            rw [exportIntegers, List.foldlM_cons] at h
            rcases bind_eq_ok.1 h with ⟨mid, hexport, hrest⟩
            refine bind_eq_ok.2 ⟨mid, exportItem_eq_ok.2 ⟨m, hm, hexport⟩, ?_⟩
            exact (ih _ _).2 ⟨ms, hms, hrest⟩

/-- A buffer with room for as many numbers below the modulus as a batch may have. -/
def Roomy (k : EnclaveNumbers) (cap : Nat) : Prop :=
  12 + thresholdMaxBatchSize * (4 + exportedSize k.n) ≤ cap ∧ 12 + exportedSize k.nsq ≤ cap

theorem length_integers_le {n : Nat} : ∀ {ms : List Nat}, (∀ m ∈ ms, m < n) →
    (ms.flatMap integerBytes).length ≤ ms.length * (4 + exportedSize n) := by
  intro ms
  induction ms with
  | nil =>
      intro _
      exact Nat.zero_le _
  | cons m ms ih =>
      intro hms
      have hrest := ih fun m' hm' => hms m' (List.mem_cons_of_mem _ hm')
      have hfirst := exportedSize_mono (hms m List.mem_cons_self).le
      rw [List.flatMap_cons, List.length_append, length_integerBytes, List.length_cons,
        Nat.succ_mul]
      omega

/-- The header of the reply, with the count. -/
def batchReply (e : Enclave) (count : Nat) (ms : List Nat) : Bytes :=
  e.replyHeader (ascii "STDR") 3 ++ writeU32 count ++ ms.flatMap integerBytes

theorem forall₂_of_exists {α β : Type} {R : α → β → Prop} : ∀ {xs : List α},
    (∀ x ∈ xs, ∃ y, R x y) → ∃ ys, List.Forall₂ R xs ys := by
  intro xs
  induction xs with
  | nil =>
      intro _
      exact ⟨[], List.Forall₂.nil⟩
  | cons x xs ih =>
      intro h
      rcases h x List.mem_cons_self with ⟨y, hy⟩
      rcases ih fun x' hx' => h x' (List.mem_cons_of_mem _ hx') with ⟨ys, hys⟩
      exact ⟨y :: ys, List.Forall₂.cons hy hys⟩

/-- What the batched call needs of a request that has the right header. -/
structure Answers (e : Enclave) (k : EnclaveNumbers) (input : Bytes) (items : List (Nat × Nat))
    (ms : List Nat) : Prop where
  count : 1 ≤ readU32 input 8 ∧ readU32 input 8 ≤ thresholdMaxBatchSize
  body : readMany importPair (readU32 input 8) input 12 = .ok (items, input.length)
  bounds : ∀ item ∈ items, InBounds k item
  values : List.Forall₂ (fun item m =>
    combined k item.2 (powMod item.1 k.lambdaZ k.nsq) = .ok m) items ms

theorem ecallThresholdDecryptBatch_eq_ok (h : e.LoadedCsp k) {input : Bytes} {cap : Nat}
    (hhead : e.Header input (ascii "STDB") ∧ 12 ≤ input.length ∧ input.getD 6 0 = 0 ∧
      input.getD 7 0 = 0) (hcap : Roomy k cap) {out : Bytes} :
    e.ecallThresholdDecryptBatch input cap = .ok out ↔
      ∃ items ms, Answers e k input items ms ∧ out = batchReply e (readU32 input 8) ms := by
  -- the buffer holds every list of plaintexts, and the header is written over its first bytes
  have hwritten : ∀ items ms, Answers e k input items ms → ∃ out',
      exportIntegers (List.replicate cap 0) 12 ms =
          .ok (out', 12 + (ms.flatMap integerBytes).length) ∧
        (overwrite out' 0 (e.replyHeader (ascii "STDR") 3 ++ writeU32 (readU32 input 8))).take
          (12 + (ms.flatMap integerBytes).length) = batchReply e (readU32 input 8) ms := by
    intro items ms hanswers
    have hcount : ms.length ≤ thresholdMaxBatchSize := by
      rw [← hanswers.values.length_eq, readMany_length hanswers.body]
      exact hanswers.count.2
    have hlt : ∀ m ∈ ms, m < k.n := by
      intro m hm
      rcases mem_right_of_forall₂ hanswers.values hm with ⟨item, hitem, hvalue⟩
      have hpos : 0 < k.n * k.n := by
        rw [← h.square]
        exact (hanswers.bounds item hitem).1.trans (hanswers.bounds item hitem).2.1
      exact combined_lt (Nat.pos_of_mul_pos_right hpos) hvalue
    have hsum : (ms.flatMap integerBytes).length ≤
        thresholdMaxBatchSize * (4 + exportedSize k.n) :=
      (length_integers_le hlt).trans (Nat.mul_le_mul_right _ hcount)
    have hroom : 12 + (ms.flatMap integerBytes).length ≤
        (List.replicate cap (0 : UInt8)).length := by
      rw [List.length_replicate]
      exact (Nat.add_le_add_left hsum 12).trans hcap.1
    have hhdr : (e.replyHeader (ascii "STDR") 3 ++ writeU32 (readU32 input 8)).length = 12 := by
      simp [replyHeader, ascii]
    rcases exportIntegers_spec ms _ 12 hroom with ⟨out', hout, hlen, htake⟩
    refine ⟨out', hout, ?_⟩
    have hfront := take_overwrite_front out'
      (e.replyHeader (ascii "STDR") 3 ++ writeU32 (readU32 input 8)) (ms.flatMap integerBytes)
      ((List.replicate cap 0).take 12) ?_ (by rw [hhdr]; exact htake)
    · rwa [hhdr] at hfront
    · rw [hhdr, List.length_take]
      omega
  constructor
  · intro hcall
    rcases bind_eq_ok.1 hcall with ⟨k', hk', hcall⟩
    rw [h.loaded] at hk'
    cases hk'
    rcases bind_eq_ok.1 hcall with ⟨_, _, hcall⟩
    rcases bind_eq_ok.1 hcall with ⟨_, _, hcall⟩
    rcases bind_eq_ok.1 hcall with ⟨_, hcount, hcall⟩
    rcases bind_eq_ok.1 hcall with ⟨⟨items, pos⟩, hitems, hcall⟩
    rcases bind_eq_ok.1 hcall with ⟨_, hend, hcall⟩
    rcases bind_eq_ok.1 hcall with ⟨⟨buffer, outPos⟩, hexport, hcall⟩
    rw [ensure_eq_ok] at hcount hend
    cases hcall
    subst hend
    rcases (readMany_checked fun _ _ _ _ => importItem_eq_ok).1 (orInvalid_eq_ok.1 hitems) with
      ⟨hbody, hbounds⟩
    rcases (exportItems_eq_ok _ _ _).1 (orInvalid_eq_ok.1 hexport) with ⟨ms, hms, hexport⟩
    have hanswers : Answers e k input items ms :=
      ⟨⟨Nat.pos_of_ne_zero hcount.1, hcount.2⟩, hbody, hbounds, hms⟩
    rcases hwritten items ms hanswers with ⟨out', hout, htake⟩
    have hsame := Prod.mk.inj (Except.ok.inj (hout.symm.trans hexport))
    refine ⟨items, ms, hanswers, ?_⟩
    rw [← hsame.1, ← hsame.2]
    exact htake
  · rintro ⟨items, ms, hanswers, rfl⟩
    rcases hwritten items ms hanswers with ⟨out', hout, htake⟩
    refine bind_eq_ok.2 ⟨k, h.loaded, ?_⟩
    refine bind_eq_ok.2 ⟨(), ensure_eq_ok.2 h.role, ?_⟩
    refine bind_eq_ok.2 ⟨(), ensure_eq_ok.2 hhead, ?_⟩
    refine bind_eq_ok.2 ⟨(), ensure_eq_ok.2
      ⟨Nat.pos_iff_ne_zero.1 hanswers.count.1, hanswers.count.2⟩, ?_⟩
    refine bind_eq_ok.2 ⟨(items, input.length), orInvalid_eq_ok.2
      ((readMany_checked fun _ _ _ _ => importItem_eq_ok).2 ⟨hanswers.body, hanswers.bounds⟩), ?_⟩
    refine bind_eq_ok.2 ⟨(), ensure_eq_ok.2 rfl, ?_⟩
    refine bind_eq_ok.2 ⟨_, orInvalid_eq_ok.2
      ((exportItems_eq_ok _ _ _).2 ⟨ms, hanswers.values, hout⟩), ?_⟩
    exact congrArg Except.ok htake

/-- The batched call answers a request exactly when its body is a list of pairs in range on each of
which the single path succeeds; it returns the values of the single path, in order. -/
theorem thresholdDecryptBatch_agrees (h : e.LoadedCsp k) (input : Bytes) (cap : Nat)
    (hhead : e.Header input (ascii "STDB") ∧ 12 ≤ input.length ∧ input.getD 6 0 = 0 ∧
      input.getD 7 0 = 0) (hcap : Roomy k cap) :
    ((∃ out, e.ecallThresholdDecryptBatch input cap = .ok out) ↔
      (1 ≤ readU32 input 8 ∧ readU32 input 8 ≤ 32) ∧
      ∃ items, readMany importPair (readU32 input 8) input 12 = .ok (items, input.length) ∧
        (∀ item ∈ items,
          (0 < item.1 ∧ item.1 < k.nsq) ∧ 0 < item.2 ∧ item.2 < k.nsq) ∧
        ∀ item ∈ items, ∃ m, e.singlePath cap item.1 item.2 = .ok m) ∧
    ∀ out, e.ecallThresholdDecryptBatch input cap = .ok out →
      ∃ items ms, readMany importPair (readU32 input 8) input 12 = .ok (items, input.length) ∧
        List.Forall₂ (fun item m => e.singlePath cap item.1 item.2 = .ok m) items ms ∧
        out = e.replyHeader (ascii "STDR") 3 ++ writeU32 (readU32 input 8) ++
          ms.flatMap integerBytes := by
  -- On a pair in range the single path fails or returns as `combined` does.
  have hsingle : ∀ item : Nat × Nat, InBounds k item → ∀ m,
      e.singlePath cap item.1 item.2 = .ok m ↔
        combined k item.2 (powMod item.1 k.lambdaZ k.nsq) = .ok m :=
    fun item hitem m => singlePath_eq_ok h ⟨hitem.1, hitem.2.1⟩ hitem.2.2.2 hcap.2
  refine ⟨⟨?_, ?_⟩, ?_⟩
  · rintro ⟨out, hout⟩
    rcases (ecallThresholdDecryptBatch_eq_ok h hhead hcap).1 hout with ⟨items, ms, hanswers, _⟩
    refine ⟨hanswers.count, items, hanswers.body, ?_, ?_⟩
    · intro item hitem
      have hbounds := hanswers.bounds item hitem
      exact ⟨⟨hbounds.1, hbounds.2.1⟩, hbounds.2.2⟩
    · intro item hitem
      rcases mem_right_of_forall₂ hanswers.values.flip hitem with ⟨m, _, hm⟩
      exact ⟨m, (hsingle item (hanswers.bounds item hitem) m).2 hm⟩
  · rintro ⟨hcount, items, hbody, hbounds, hpaths⟩
    have hbounds' : ∀ item ∈ items, InBounds k item := fun item hitem =>
      ⟨(hbounds item hitem).1.1, (hbounds item hitem).1.2, (hbounds item hitem).2⟩
    obtain ⟨ms, hms⟩ : ∃ ms, List.Forall₂ (fun item m =>
        combined k item.2 (powMod item.1 k.lambdaZ k.nsq) = .ok m) items ms := by
      refine forall₂_of_exists fun item hitem => ?_
      rcases hpaths item hitem with ⟨m, hm⟩
      exact ⟨m, (hsingle item (hbounds' item hitem) m).1 hm⟩
    exact ⟨_, (ecallThresholdDecryptBatch_eq_ok h hhead hcap).2
      ⟨items, ms, ⟨hcount, hbody, hbounds', hms⟩, rfl⟩⟩
  · intro out hout
    rcases (ecallThresholdDecryptBatch_eq_ok h hhead hcap).1 hout with ⟨items, ms, hanswers, rfl⟩
    refine ⟨items, ms, hanswers.body, ?_, rfl⟩
    refine List.forall₂_iff_get.2 ⟨hanswers.values.length_eq, fun i hi hi' => ?_⟩
    have hitem := hanswers.bounds _ (List.get_mem items ⟨i, hi⟩)
    exact (hsingle _ hitem _).2 ((List.forall₂_iff_get.1 hanswers.values).2 i hi hi')

/-- The CSP's share under the modulus 35. -/
def smallCsp : Enclave :=
  { initialized := true, runtimeMode := 1, role := cspRole, key := some ⟨35, 1225, 7, 3⟩ }

/-- The ciphertexts 106 of 3 and 718 of 5, with the shares of the CP. -/
def smallRequest : Bytes :=
  ascii "STDB" ++ [1, 1, 0, 0] ++ writeU32 2 ++ integerBytes 106 ++ integerBytes 526 ++
    integerBytes 718 ++ integerBytes 1143

theorem thresholdDecryptBatch_agrees_twoPairs : ∃ items ms,
    readMany importPair (readU32 smallRequest 8) smallRequest 12 =
      .ok (items, smallRequest.length) ∧
    List.Forall₂ (fun item m => smallCsp.singlePath 200 item.1 item.2 = .ok m) items ms ∧
    [83, 84, 68, 82, 1, 1, 3, 0, 0, 0, 0, 2, 0, 0, 0, 1, 3, 0, 0, 0, 1, 5] =
      smallCsp.replyHeader (ascii "STDR") 3 ++ writeU32 (readU32 smallRequest 8) ++
        ms.flatMap integerBytes :=
  (thresholdDecryptBatch_agrees (k := ⟨35, 1225, 7, 3⟩) ⟨rfl, rfl, rfl, by decide⟩ smallRequest 200
    (by decide) (by unfold Roomy; decide)).2 _ (by decide +kernel)

end Enclave

end Protocol
end SociSgx

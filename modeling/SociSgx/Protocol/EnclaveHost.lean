import SociSgx.Protocol.EnclaveCalls
import SociSgx.Protocol.Csp

/-!
# EnclaveHost — the hosts call their enclaves

The functions of the hosts that build a request for the enclave, call it, and take the reply apart.
On an enclave with a key they do what the protocol takes the enclave's numbers to do; only a single
partial decryption that is zero fails here and not there.
-/

namespace SociSgx
namespace Protocol

open Exec SociSgx.Modular BigEndian OffsetCodec

/-- `parseEnclaveResponse`; the sum is one of 32 bits. -/
def parseEnclaveResponse (response magic : Bytes) : Except Error Nat := do
  ensure (12 ≤ response.length ∧ response.take 4 = magic ∧
    (12 + readU32 response 8) % 2 ^ 32 = response.length) (Error.backend "bad enclave response")
  let (value, _) ← takeInteger response 8
  return value

/-- The number that the source gives to a result code. -/
def EnclaveCode.number : EnclaveCode → Nat
  | .invalid => 1
  | .state => 2
  | .crypto => 5
  | .buffer => 7

/-- What a host makes of a call that did not return `OK`. -/
def called {α : Type} (message : EnclaveCode → String) (x : Except EnclaveCode α) :
    Except Error α :=
  x.mapError fun code => Error.backend (message code)

/-- The numbers of an enclave as the protocol has them. -/
def EnclaveNumbers.share (k : EnclaveNumbers) : EnclaveKey :=
  { n := k.n, lambdaZ := k.lambdaZ, mu := k.mu }

namespace Enclave

variable (e : Enclave) (mode : UInt8)

def partialDecrypt (ciphertext : Nat) : Except Error Nat := do
  let request ← appendInteger (ascii "SPDC" ++ [1, mode, 0, 0]) ciphertext
  let response ← called (fun _ => "partial decrypt failed") (e.ecallPartialDecrypt request 16384)
  parseEnclaveResponse response (ascii "SPAR")

def partialDecryptBatch (ciphertexts : List Nat) : Except Error (List Nat) := do
  ensure (1 ≤ ciphertexts.length ∧ ciphertexts.length ≤ thresholdMaxBatchSize)
    (Error.backend "invalid partial decrypt batch size")
  let request ← appendIntegers (ascii "SPDB" ++ [1, mode, 0, 0] ++ writeU32 ciphertexts.length)
    ciphertexts
  let response ← called (fun _ => "partial decrypt batch failed")
    (e.ecallPartialDecryptBatch request (256 * 1024))
  ensure (12 ≤ response.length ∧ response.take 4 = ascii "SPBR" ∧ response.getD 4 0 = 1 ∧
    response.getD 5 0 = mode ∧ response.getD 7 0 = 0 ∧ readU32 response 8 = ciphertexts.length)
    (Error.backend "bad partial decrypt batch response")
  let (output, offset) ← readMany takeInteger ciphertexts.length response 12
  ensure (offset = response.length) (Error.backend "trailing partial decrypt batch data")
  return output

def thresholdDecryptBatch (ciphertexts cpShares : List Nat) : Except Error (List Nat) := do
  ensure (1 ≤ ciphertexts.length ∧ ciphertexts.length = cpShares.length ∧
      ciphertexts.length ≤ thresholdMaxBatchSize)
    (Error.backend "invalid threshold decrypt batch size")
  let request ← appendIntegers (ascii "STDB" ++ [1, mode, 0, 0] ++ writeU32 ciphertexts.length)
    ((ciphertexts.zip cpShares).flatMap fun item => [item.1, item.2])
  let response ← called (fun _ => "threshold decrypt batch failed")
    (e.ecallThresholdDecryptBatch request (512 * 1024))
  ensure (12 ≤ response.length ∧ response.take 4 = ascii "STDR" ∧ response.getD 4 0 = 1 ∧
    response.getD 5 0 = mode ∧ response.getD 6 0 = 3 ∧ response.getD 7 0 = 0 ∧
    readU32 response 8 = ciphertexts.length)
    (Error.backend "bad threshold decrypt batch response")
  let (output, offset) ← readMany takeInteger ciphertexts.length response 12
  ensure (offset = response.length) (Error.backend "trailing threshold decrypt batch data")
  return output

def combineDecrypt (cpShare cspShare : Nat) : Except Error Nat := do
  let request ← appendIntegers (ascii "SCMB" ++ [1, mode, 0, 0]) [cpShare, cspShare]
  let response ← called (fun code => "combine failed: sgx=0 result=" ++ toString code.number)
    (e.ecallCombineDecrypt request 8192)
  parseEnclaveResponse response (ascii "SPLN")

/-! ## An enclave with a share -/

/-- An initialized enclave of a party, with a key that a key generation can make. -/
structure LoadedShare (k : EnclaveNumbers) : Prop where
  loaded : e.loaded = .ok k
  role : e.role = cpRole ∨ e.role = cspRole
  square : k.nsq = k.n * k.n
  wide : 1 < k.n
  size : sizeInBase2 k.n ≤ 8192

variable {e mode} {k : EnclaveNumbers}

theorem LoadedShare.csp (h : e.LoadedShare k) (hrole : e.role = cspRole) : e.LoadedCsp k :=
  ⟨h.loaded, hrole, h.square, h.size⟩

theorem LoadedShare.share_nsq (h : e.LoadedShare k) : k.share.nsq = k.nsq :=
  h.square.symm

theorem LoadedShare.nsq_pos (h : e.LoadedShare k) : 0 < k.nsq := by
  rw [h.square]
  exact Nat.mul_pos (Nat.zero_lt_of_lt h.wide) (Nat.zero_lt_of_lt h.wide)

/-- Numbers below the square of the modulus take at most 2048 bytes. -/
theorem LoadedShare.exported_le (h : e.LoadedShare k) {c : Nat} (hc : c < k.nsq) :
    exportedSize c ≤ 2048 := by
  refine (exportedSize_mono hc.le).trans ?_
  rw [h.square]
  exact exportedSize_square h.size

theorem called_ok {α : Type} (message : EnclaveCode → String) (a : α) :
    called message (.ok a) = .ok a :=
  rfl

/-- A call that does not succeed becomes its one error. -/
theorem called_failed {α : Type} {message : String} {x : Except EnclaveCode α}
    (h : ∀ a, x ≠ .ok a) : called (fun _ => message) x = .error (Error.backend message) := by
  cases x with
  | ok a => exact absurd rfl (h a)
  | error code => rfl

/-- A reply that is a header and an integer. -/
theorem parse_reply {magic : Bytes} (hmagic : magic.length = 4) (role : UInt8) {v : Nat}
    (hv : exportedSize v ≤ 2048) :
    parseEnclaveResponse (e.replyHeader magic role ++ integerBytes v) magic = .ok v := by
  have hhead : (e.replyHeader magic role).length = 8 := by simp [replyHeader, hmagic]
  have hlen : (e.replyHeader magic role ++ integerBytes v).length = 12 + exportedSize v := by
    rw [List.length_append, hhead, length_integerBytes]
    omega
  have hwritable : Writable v := by
    unfold Writable
    omega
  have hsize : readU32 (e.replyHeader magic role ++ integerBytes v) 8 = exportedSize v := by
    rw [← hhead, integerBytes]
    exact readU32_writeU32 hwritable _ _
  have hfront : (e.replyHeader magic role ++ integerBytes v).take 4 = magic := by
    rw [replyHeader, List.append_assoc]
    exact List.take_left' hmagic
  have hread := takeInteger_readsBack v hwritable (e.replyHeader magic role) []
  rw [List.append_nil, hhead] at hread
  refine bind_eq_ok.2 ⟨(), ensure_of ⟨by omega, hfront, ?_⟩, bind_eq_ok.2 ⟨_, hread, rfl⟩⟩
  rw [hsize, hlen]
  exact Nat.mod_eq_of_lt (by omega)

/-! ## A single partial decryption -/

/-- What the call answers to the request for one ciphertext. -/
theorem ecallPartialDecrypt_share (h : e.LoadedShare k) {c : Nat} (hc : Writable c)
    {reply : Bytes} :
    e.ecallPartialDecrypt (ascii "SPDC" ++ [1, e.runtimeMode, 0, 0] ++ integerBytes c) 16384 =
        .ok reply ↔
      ((0 < c ∧ c < k.nsq) ∧ powMod c k.lambdaZ k.nsq ≠ 0) ∧
        reply = e.replyHeader (ascii "SPAR") e.role ++ integerBytes (powMod c k.lambdaZ k.nsq) := by
  have hread := importAt_request (ascii "SPDC") rfl e.runtimeMode hc []
  rw [List.append_nil] at hread
  have hlen : (ascii "SPDC" ++ [1, e.runtimeMode, 0, 0] ++ integerBytes c).length =
      8 + (4 + exportedSize c) := by simp [ascii]; omega
  constructor
  · intro hcall
    rcases bind_eq_ok.1 hcall with ⟨k', hk', hcall⟩
    rw [h.loaded] at hk'
    cases hk'
    rcases bind_eq_ok.1 hcall with ⟨_, _, hcall⟩
    rcases bind_eq_ok.1 hcall with ⟨_, _, hcall⟩
    rcases bind_eq_ok.1 hcall with ⟨⟨c', pos⟩, hc', hcall⟩
    rw [hread] at hc'
    cases hc'
    rcases bind_eq_ok.1 hcall with ⟨_, hrange, hcall⟩
    rcases bind_eq_ok.1 hcall with ⟨_, _, hcall⟩
    rcases bind_eq_ok.1 hcall with ⟨_, hwrote, hcall⟩
    rw [ensure_eq_ok] at hrange hwrote
    cases hcall
    -- a zero is exported without digits, which the source takes for a failure
    have hne : powMod c k.lambdaZ k.nsq ≠ 0 := by
      intro hzero
      rw [hzero] at hwrote
      exact absurd hwrote (by decide)
    refine ⟨⟨hrange.2, hne⟩, ?_⟩
    rw [mpzExport, if_neg hne, reply_integer]
  · rintro ⟨⟨hrange, hne⟩, rfl⟩
    have hsmall := h.exported_le hrange.2
    have hpower := h.exported_le (powMod_lt h.nsq_pos : powMod c k.lambdaZ k.nsq < k.nsq)
    refine bind_eq_ok.2 ⟨k, h.loaded, bind_eq_ok.2 ⟨(), ensure_of h.role, ?_⟩⟩
    refine bind_eq_ok.2 ⟨(), ensure_of ⟨?_, by rw [hlen]; omega⟩, ?_⟩
    · exact header_request (ascii "SPDC") rfl _ (by rw [length_integerBytes]; omega)
    refine bind_eq_ok.2 ⟨_, orInvalid_eq_ok.2 hread, ?_⟩
    refine bind_eq_ok.2 ⟨(), ensure_of ⟨hlen.symm, hrange⟩, ?_⟩
    refine bind_eq_ok.2 ⟨(), ensure_of (by omega), ?_⟩
    dsimp only
    rw [mpzExport, if_neg hne]
    refine bind_eq_ok.2 ⟨(), ensure_of (length_magnitude _), ?_⟩
    rw [reply_integer]
    rfl

theorem room_of_writable {output : Bytes} (houtput : output.length ≤ 12) {c : Nat}
    (hc : Writable c) : output.length + (integerBytes c).length ≤ sizeMax := by
  unfold Writable at hc
  unfold sizeMax
  rw [length_integerBytes]
  omega

/-- The host gets the power of the ciphertext, unless that is zero. -/
theorem partialDecrypt_agrees (h : e.LoadedShare k) {c : Nat} (hc : Writable c) :
    e.partialDecrypt e.runtimeMode c = do
      let u ← Protocol.partialDecrypt k.share c
      ensure (u ≠ 0) (Error.backend "partial decrypt failed")
      return u := by
  have hrequest := appendInteger_eq (ascii "SPDC" ++ [1, e.runtimeMode, 0, 0]) hc
    (room_of_writable (by simp [ascii]) hc)
  unfold partialDecrypt
  rw [ok_bind hrequest]
  by_cases hrange : 0 < c ∧ c < k.nsq
  · have hrange' : 0 < c ∧ c < k.share.nsq := by
      rw [h.share_nsq]
      exact hrange
    have hpower : Protocol.partialDecrypt k.share c = .ok (powMod c k.lambdaZ k.nsq) := by
      unfold Protocol.partialDecrypt
      rw [Protocol.ecallPartialDecrypt_eq_ok.2 ⟨hrange', rfl⟩, hosted_ok, h.share_nsq]
      rfl
    rw [ok_bind hpower]
    by_cases hne : powMod c k.lambdaZ k.nsq ≠ 0
    · rw [(ecallPartialDecrypt_share h hc).2 ⟨⟨hrange, hne⟩, rfl⟩, called_ok, ok_bind rfl,
        ok_bind (ensure_of hne)]
      exact parse_reply rfl _ (h.exported_le (powMod_lt h.nsq_pos))
    · rw [called_failed fun reply hreply => hne ((ecallPartialDecrypt_share h hc).1 hreply).1.2,
        error_bind rfl, error_bind (ensure_of_not hne)]
  · have hrange' : ¬ (0 < c ∧ c < k.share.nsq) := by
      rw [h.share_nsq]
      exact hrange
    have hfault : Protocol.partialDecrypt k.share c =
        .error (Error.backend "partial decrypt failed") := by
      unfold Protocol.partialDecrypt EnclaveKey.ecallPartialDecrypt
      rw [error_bind (ensure_of_not hrange')]
      rfl
    rw [called_failed fun reply hreply => hrange ((ecallPartialDecrypt_share h hc).1 hreply).1.1,
      error_bind rfl, error_bind hfault]

/-! ## A combination -/

/-- The request for two shares passes up to the bound on inputs; the reply is the combination. -/
theorem ecallCombineDecrypt_share (h : e.LoadedShare k) (hrole : e.role = cspRole) {u1 u2 : Nat}
    (hinput : 16 + exportedSize u1 + exportedSize u2 ≤ maxInput) :
    e.ecallCombineDecrypt (ascii "SCMB" ++ [1, e.runtimeMode, 0, 0] ++
        [u1, u2].flatMap integerBytes) 8192 = do
      let m ← orInvalid (combined k u1 u2)
      return e.replyHeader (ascii "SPLN") 3 ++ integerBytes m := by
  have hwritable : ∀ z, exportedSize z ≤ maxInput → Writable z := fun z hz =>
    lt_of_le_of_lt hz (by decide)
  let head : Bytes := ascii "SCMB" ++ [1, e.runtimeMode, 0, 0]
  have hhead : head.length = 8 := by simp [head, ascii]
  have hstart : Behind (head ++ [u1, u2].flatMap integerBytes) 8
      (integerBytes u1 ++ (integerBytes u2 ++ [])) := by
    have hbehind := behind_append head ([u1, u2].flatMap integerBytes)
    rwa [hhead] at hbehind
  have hread1 := importAt_readsBack.next (hwritable u1 (by omega)) hstart
  have hread2 := importAt_readsBack.next (hwritable u2 (by omega)) hstart.skip
  have hend := hstart.skip.skip.end_eq
  have hlen : (head ++ [u1, u2].flatMap integerBytes).length =
      16 + exportedSize u1 + exportedSize u2 := by
    rw [← hend, length_integerBytes, length_integerBytes]
    omega
  have hheader : e.Header (head ++ [u1, u2].flatMap integerBytes) (ascii "SCMB") :=
    ⟨by omega, by omega, rfl, rfl, rfl⟩
  have hlong : 16 ≤ (head ++ [u1, u2].flatMap integerBytes).length := by omega
  unfold ecallCombineDecrypt
  rw [ok_bind h.loaded, ok_bind (ensure_of hrole), ok_bind (ensure_of ⟨hheader, hlong⟩),
    ok_bind (orInvalid_eq_ok.2 hread1)]
  dsimp only
  rw [ok_bind (orInvalid_eq_ok.2 hread2)]
  dsimp only
  rw [ok_bind (ensure_of hend)]
  -- From here on both sides divide the same number.
  by_cases hdvd : (k.n : Int) ∣ ((u1 * u2 % k.nsq : Nat) : Int) - 1
  · have hcombined : combined k u1 u2 = .ok
        ((((u1 * u2 % k.nsq : Nat) : Int) - 1) / k.n * k.mu % k.n).toNat :=
      bind_eq_ok.2 ⟨(), ensure_of hdvd, rfl⟩
    have hlt := combined_lt (Nat.zero_lt_of_lt h.wide) hcombined
    have hfits := exportedSize_le h.size hlt.le
    rw [ok_bind (ensure_of hdvd), ok_bind (orInvalid_eq_ok.2 hcombined),
      ok_bind (ensure_of (by omega))]
    rw [mpzExport_patched, ok_bind (ensure_of (length_magnitude _)), reply_integer]
  · have hcombined : combined k u1 u2 = .error () :=
      error_bind (ensure_of_not hdvd)
    rw [error_bind (ensure_of_not hdvd), hcombined]
    rfl

/-- The combination that the protocol takes the enclave to compute. -/
theorem LoadedShare.share_combine (h : e.LoadedShare k) (u1 u2 : Nat) :
    k.share.ecallCombineDecrypt u1 u2 =
      (combined k u1 u2).mapError fun _ => EnclaveFault.invalid := by
  unfold EnclaveKey.ecallCombineDecrypt combined
  rw [h.share_nsq]
  by_cases hdvd : (k.n : Int) ∣ ((u1 * u2 % k.nsq : Nat) : Int) - 1
  · rw [ok_bind (ensure_of hdvd)]
    exact ok_bind (ensure_of hdvd)
  · rw [error_bind (ensure_of_not hdvd)]
    exact error_bind (ensure_of_not hdvd)

theorem combineDecrypt_agrees (h : e.LoadedShare k) (hrole : e.role = cspRole) {u1 u2 : Nat}
    (hinput : 16 + exportedSize u1 + exportedSize u2 ≤ maxInput) :
    e.combineDecrypt e.runtimeMode u1 u2 = Protocol.combineDecrypt k.share u1 u2 := by
  have hwritable : ∀ z ∈ [u1, u2], Writable z := by
    intro z hz
    have hsize : exportedSize z ≤ maxInput := by
      rcases List.mem_pair.1 hz with rfl | rfl <;> omega
    exact lt_of_le_of_lt hsize (by decide)
  have hroom : (ascii "SCMB" ++ [1, e.runtimeMode, 0, 0]).length +
      ([u1, u2].flatMap integerBytes).length ≤ sizeMax := by
    have hmax : maxInput ≤ sizeMax := by decide
    simp [ascii]
    omega
  unfold combineDecrypt Protocol.combineDecrypt
  rw [ok_bind (appendIntegers_eq _ _ hwritable hroom), ecallCombineDecrypt_share h hrole hinput,
    h.share_combine]
  cases hcombined : combined k u1 u2 with
  | ok m =>
      have hlt := combined_lt (Nat.zero_lt_of_lt h.wide) hcombined
      have hfits := exportedSize_le h.size hlt.le
      exact parse_reply rfl 3 (by omega)
  | error _ =>
      have hmessage : "combine failed: sgx=0 result=" ++ toString EnclaveCode.invalid.number =
          "combine failed: sgx=0 result=1" := by decide
      exact congrArg (fun message => Except.error (Error.backend message)) hmessage

/-! ## A batch of partial decryptions -/

/-- What a partial decryption computes. -/
def power (k : EnclaveNumbers) (c : Nat) : Nat :=
  powMod c k.lambdaZ k.nsq

theorem partialItem_eq_ok {input : Bytes} {cursor cursor' : BatchCursor} {i : Nat} :
    partialItem k input cursor i = .ok cursor' ↔
      ∃ c, importAt input cursor.pos = .ok (c, cursor'.pos) ∧ (0 < c ∧ c < k.nsq) ∧
        exportAt cursor.out cursor.outPos (power k c) = .ok (cursor'.out, cursor'.outPos) := by
  have hround : ∀ {x : Except Unit BatchCursor},
      (x.mapError fun _ => cursor.outPos) = .ok cursor' ↔ x = .ok cursor' := by
    intro x
    cases x <;> simp [Except.mapError]
  constructor
  · intro h
    rcases bind_eq_ok.1 (hround.1 h) with ⟨⟨c, pos⟩, hc, h⟩
    rcases bind_eq_ok.1 h with ⟨_, hrange, h⟩
    rcases bind_eq_ok.1 h with ⟨⟨out, outPos⟩, hout, h⟩
    cases h
    exact ⟨c, hc, ensure_eq_ok.1 hrange, hout⟩
  · rintro ⟨c, hc, hrange, hout⟩
    refine hround.2 (bind_eq_ok.2 ⟨_, hc, bind_eq_ok.2 ⟨(), ensure_of hrange, ?_⟩⟩)
    exact bind_eq_ok.2 ⟨_, hout, rfl⟩

/-- The loop reads the ciphertexts of a request one behind the other, and ends if they are in range
and there is room for their powers. -/
theorem partialItems_ok {input : Bytes} : ∀ (cs rounds : List Nat) (cursor : BatchCursor),
    rounds.length = cs.length → (∀ c ∈ cs, Writable c ∧ 0 < c ∧ c < k.nsq) →
      Behind input cursor.pos (cs.flatMap integerBytes) →
      cursor.outPos + ((cs.map (power k)).flatMap integerBytes).length ≤ cursor.out.length →
        ∃ cursor', rounds.foldlM (partialItem k input) cursor = .ok cursor' ∧
          cursor'.pos = input.length ∧
          cursor'.outPos = cursor.outPos + ((cs.map (power k)).flatMap integerBytes).length ∧
          cursor'.out.take cursor'.outPos =
            cursor.out.take cursor.outPos ++ (cs.map (power k)).flatMap integerBytes := by
  intro cs
  induction cs with
  | nil =>
      intro rounds cursor hrounds _ hbehind _
      obtain rfl := List.eq_nil_of_length_eq_zero hrounds
      exact ⟨cursor, rfl, hbehind.end_eq, rfl, (List.append_nil _).symm⟩
  | cons c cs ih =>
      intro rounds cursor hrounds hcs hbehind hroom
      obtain ⟨i, rounds, rfl⟩ := List.exists_cons_of_length_eq_add_one hrounds
      rw [List.flatMap_cons] at hbehind
      rw [List.map_cons, List.flatMap_cons, List.length_append] at hroom
      rcases hcs c List.mem_cons_self with ⟨hwritable, hrange⟩
      have hread := importAt_readsBack.next hwritable hbehind
      rcases exportAt_spec cursor.out cursor.outPos (power k c) (by omega) with
        ⟨out, hout, hlen, htake⟩
      let next : BatchCursor := ⟨cursor.pos + (integerBytes c).length, out,
        cursor.outPos + (integerBytes (power k c)).length⟩
      have hitem : partialItem k input cursor i = .ok next :=
        partialItem_eq_ok.2 ⟨c, hread, hrange, hout⟩
      have hout' : next.outPos = cursor.outPos + (integerBytes (power k c)).length := rfl
      have hlen' : next.out.length = cursor.out.length := hlen
      rcases ih rounds next (Nat.succ.inj hrounds)
        (fun c' hc' => hcs c' (List.mem_cons_of_mem _ hc')) hbehind.skip (by omega) with
        ⟨last, hlast, hpos, houtPos, htake'⟩
      refine ⟨last, ?_, hpos, ?_, ?_⟩
      · rw [List.foldlM_cons, ok_bind hitem]
        exact hlast
      · rw [houtPos, List.map_cons, List.flatMap_cons, List.length_append, Nat.add_assoc]
      · rw [htake', htake, List.append_assoc, List.map_cons, List.flatMap_cons]

/-- A loop that ends has seen ciphertexts in range only. -/
theorem partialItems_range {input : Bytes} : ∀ (cs rounds : List Nat)
    (cursor cursor' : BatchCursor), rounds.length = cs.length → (∀ c ∈ cs, Writable c) →
      Behind input cursor.pos (cs.flatMap integerBytes) →
      rounds.foldlM (partialItem k input) cursor = .ok cursor' →
        ∀ c ∈ cs, 0 < c ∧ c < k.nsq := by
  intro cs
  induction cs with
  | nil =>
      intro _ _ _ _ _ _ _ c hc
      cases hc
  | cons c cs ih =>
      intro rounds cursor cursor' hrounds hcs hbehind h
      obtain ⟨i, rounds, rfl⟩ := List.exists_cons_of_length_eq_add_one hrounds
      rw [List.flatMap_cons] at hbehind
      have hread := importAt_readsBack.next (hcs c List.mem_cons_self) hbehind
      rw [List.foldlM_cons] at h
      rcases bind_eq_ok.1 h with ⟨next, hitem, h⟩
      rcases partialItem_eq_ok.1 hitem with ⟨c', hc', hrange, _⟩
      rw [hread] at hc'
      have hsame := Prod.mk.inj (Except.ok.inj hc')
      have hskip := hbehind.skip
      rw [hsame.2] at hskip
      rw [← hsame.1] at hrange
      have hrest := ih rounds next cursor' (Nat.succ.inj hrounds)
        (fun c' hc' => hcs c' (List.mem_cons_of_mem _ hc')) hskip h
      exact List.forall_mem_cons.2 ⟨hrange, hrest⟩

/-- The header of a request for a batch. -/
def batchHead (magic : Bytes) (mode : UInt8) (count : Nat) : Bytes :=
  magic ++ [1, mode, 0, 0] ++ writeU32 count

theorem length_batchHead (magic : Bytes) (mode : UInt8) (count : Nat)
    (hmagic : magic.length = 4) : (batchHead magic mode count).length = 12 := by
  simp [batchHead, hmagic]

/-- The count that stands in the header of a batch. -/
theorem readU32_batchHead (magic : Bytes) (mode : UInt8) {count : Nat} (body : Bytes)
    (hmagic : magic.length = 4) (hcount : count ≤ thresholdMaxBatchSize) :
    readU32 (batchHead magic mode count ++ body) 8 = count := by
  have hlt : count < 2 ^ 32 := lt_of_le_of_lt hcount (by decide)
  have hread := readU32_writeU32 hlt (magic ++ [1, mode, 0, 0]) body
  have hlen : (magic ++ [1, mode, 0, 0]).length = 8 := by simp [hmagic]
  rwa [hlen, ← List.append_assoc] at hread

/-- The reply of a batch. -/
def batchAnswer (e : Enclave) (magic : Bytes) (role : UInt8) (ms : List Nat) : Bytes :=
  e.replyHeader magic role ++ writeU32 ms.length ++ ms.flatMap integerBytes

theorem length_answers {cs : List Nat} (h : e.LoadedShare k)
    (hcount : cs.length ≤ thresholdMaxBatchSize) (hcs : ∀ c ∈ cs, c < k.nsq) :
    (cs.flatMap integerBytes).length ≤ 32 * 2052 := by
  have hsize : exportedSize k.nsq ≤ 2048 := by
    rw [h.square]
    exact exportedSize_square h.size
  refine (length_integers_le hcs).trans (Nat.mul_le_mul hcount ?_)
  omega

/-- The batch call answers with the powers when all ciphertexts are in range; else it fails. -/
theorem ecallPartialDecryptBatch_share (h : e.LoadedShare k) {cs : List Nat}
    (hcount : 1 ≤ cs.length ∧ cs.length ≤ thresholdMaxBatchSize) (hcs : ∀ c ∈ cs, Writable c)
    {reply : Bytes} :
    e.ecallPartialDecryptBatch (batchHead (ascii "SPDB") e.runtimeMode cs.length ++
        cs.flatMap integerBytes) (256 * 1024) = .ok reply ↔
      (∀ c ∈ cs, 0 < c ∧ c < k.nsq) ∧
        reply = e.batchAnswer (ascii "SPBR") e.role (cs.map (power k)) := by
  let input := batchHead (ascii "SPDB") e.runtimeMode cs.length ++ cs.flatMap integerBytes
  have hhead := length_batchHead (ascii "SPDB") e.runtimeMode cs.length rfl
  have hread := readU32_batchHead (ascii "SPDB") e.runtimeMode (cs.flatMap integerBytes) rfl
    hcount.2
  have hbehind : Behind input 12 (cs.flatMap integerBytes) := by
    have h := behind_append (batchHead (ascii "SPDB") e.runtimeMode cs.length)
      (cs.flatMap integerBytes)
    rwa [hhead] at h
  have hlen : input.length = 12 + (cs.flatMap integerBytes).length := by
    rw [List.length_append, hhead]
  let start : BatchCursor := ⟨12, List.replicate (256 * 1024) 0, 12⟩
  have hstart : start.out.length = 256 * 1024 ∧ start.outPos = 12 :=
    ⟨List.length_replicate, rfl⟩
  have hrounds : (List.range (readU32 input 8)).length = cs.length := by
    rw [List.length_range, hread]
  -- On ciphertexts in range every check passes.
  have hforward : (∀ c ∈ cs, 0 < c ∧ c < k.nsq) →
      e.ecallPartialDecryptBatch input (256 * 1024) =
        .ok (e.batchAnswer (ascii "SPBR") e.role (cs.map (power k))) := by
    intro hrange
    have hbody := length_answers h hcount.2 fun c hc => (hrange c hc).2
    have hanswers : ((cs.map (power k)).flatMap integerBytes).length ≤ 32 * 2052 := by
      refine length_answers h (by rw [List.length_map]; exact hcount.2) fun m hm => ?_
      rcases List.mem_map.1 hm with ⟨c, _, rfl⟩
      exact powMod_lt h.nsq_pos
    rcases partialItems_ok cs (List.range (readU32 input 8)) start hrounds
      (fun c hc => ⟨hcs c hc, hrange c hc⟩) hbehind (by omega) with
      ⟨cursor, hcursor, hpos, hout, htake⟩
    have hheader : e.Header input (ascii "SPDB") := by
      have hmax : input.length ≤ maxInput := by
        unfold maxInput
        omega
      exact ⟨by omega, hmax, rfl, rfl, rfl⟩
    have hreply : (e.replyHeader (ascii "SPBR") e.role ++ writeU32 cs.length).length = 12 := by
      simp [replyHeader, ascii]
    have hfront : (start.out.take 12).length = 12 := by
      refine List.length_take_of_le ?_
      rw [hstart.1]
      decide
    have hwritten := take_overwrite_front cursor.out
      (e.replyHeader (ascii "SPBR") e.role ++ writeU32 cs.length)
      ((cs.map (power k)).flatMap integerBytes) (start.out.take 12)
      (by rw [hreply, hfront]) (by rw [hreply, ← hstart.2, ← hout, htake])
    rw [hreply, ← hstart.2, ← hout] at hwritten
    unfold ecallPartialDecryptBatch
    rw [ok_bind h.loaded, ok_bind (ensure_of h.role), ok_bind (ensure_of ⟨hheader, by omega,
      rfl, rfl⟩)]
    dsimp only
    rw [ok_bind (ensure_of (by rw [hread]; omega)), ok_bind (mapError_eq_ok.2 hcursor),
      ok_bind (ensure_of hpos), hread, hwritten, batchAnswer, List.length_map]
    rfl
  constructor
  · intro hcall
    have hsucceeds := hcall
    rcases bind_eq_ok.1 hcall with ⟨k', hk', hcall⟩
    rw [h.loaded] at hk'
    cases hk'
    rcases bind_eq_ok.1 hcall with ⟨_, _, hcall⟩
    rcases bind_eq_ok.1 hcall with ⟨_, _, hcall⟩
    rcases bind_eq_ok.1 hcall with ⟨_, _, hcall⟩
    rcases bind_eq_ok.1 hcall with ⟨cursor, hcursor, _⟩
    have hrange := partialItems_range cs _ start cursor hrounds hcs hbehind
      (mapError_eq_ok.1 hcursor)
    exact ⟨hrange, Except.ok.inj (hsucceeds.symm.trans (hforward hrange))⟩
  · rintro ⟨hrange, rfl⟩
    exact hforward hrange

/-- The checks on the reply of a batch. -/
theorem batchAnswer_front (e : Enclave) (magic : Bytes) (role : UInt8) {ms : List Nat}
    (hmagic : magic.length = 4) (hcount : ms.length ≤ thresholdMaxBatchSize) :
    12 ≤ (e.batchAnswer magic role ms).length ∧ (e.batchAnswer magic role ms).take 4 = magic ∧
      (e.batchAnswer magic role ms).getD 4 0 = 1 ∧
      (e.batchAnswer magic role ms).getD 5 0 = e.runtimeMode ∧
      (e.batchAnswer magic role ms).getD 6 0 = role ∧
      (e.batchAnswer magic role ms).getD 7 0 = 0 ∧
      readU32 (e.batchAnswer magic role ms) 8 = ms.length := by
  rcases List.length_eq_four.1 hmagic with ⟨a, b, c, d, rfl⟩
  have hlt : ms.length < 2 ^ 32 := lt_of_le_of_lt hcount (by decide)
  have hread := readU32_writeU32 hlt (e.replyHeader [a, b, c, d] role)
    (ms.flatMap integerBytes)
  rw [← List.append_assoc] at hread
  refine ⟨?_, rfl, rfl, rfl, rfl, rfl, hread⟩
  simp [batchAnswer, replyHeader]

/-- The numbers of a reply, up to its end. -/
theorem readMany_batchAnswer (e : Enclave) (magic : Bytes) (role : UInt8) {ms : List Nat}
    (hmagic : magic.length = 4) (hms : ∀ m ∈ ms, Writable m) :
    readMany takeInteger ms.length (e.batchAnswer magic role ms) 12 =
      .ok (ms, (e.batchAnswer magic role ms).length) := by
  have hhead : (e.replyHeader magic role ++ writeU32 ms.length).length = 12 := by
    simp [replyHeader, hmagic]
  have hbehind : Behind (e.batchAnswer magic role ms) 12 (ms.flatMap integerBytes ++ []) := by
    have h := behind_append (e.replyHeader magic role ++ writeU32 ms.length)
      (ms.flatMap integerBytes ++ [])
    rw [hhead] at h
    rwa [List.append_nil] at h ⊢
  have hread := takeInteger_readsBack.nextMany hms hbehind
  rw [hread, hbehind.skip.end_eq]

theorem length_flatMap_le {α β : Type} {f : α → List β} {b : Nat} {xs : List α}
    (h : ∀ x ∈ xs, (f x).length ≤ b) : (xs.flatMap f).length ≤ xs.length * b := by
  induction xs with
  | nil => exact Nat.zero_le _
  | cons x xs ih =>
      have hrest := ih fun y hy => h y (List.mem_cons_of_mem _ hy)
      have hfirst := h x List.mem_cons_self
      rw [List.flatMap_cons, List.length_append, List.length_cons, Nat.succ_mul]
      omega

theorem length_writable {c : Nat} (hc : Writable c) : (integerBytes c).length ≤ 4 + 2 ^ 32 := by
  rw [length_integerBytes]
  exact Nat.add_le_add_left (Nat.le_of_lt hc) 4

/-- The host gets the powers of a batch exactly when the enclave's numbers do. -/
theorem partialDecryptBatch_agrees (h : e.LoadedShare k) {cs : List Nat}
    (hcs : ∀ c ∈ cs, Writable c) :
    e.partialDecryptBatch e.runtimeMode cs = Protocol.partialDecryptBatch k.share cs := by
  unfold partialDecryptBatch Protocol.partialDecryptBatch
  by_cases hcount : 1 ≤ cs.length ∧ cs.length ≤ thresholdMaxBatchSize
  · have hbody := length_flatMap_le (f := integerBytes) fun c hc => length_writable (hcs c hc)
    have hmax : thresholdMaxBatchSize = 32 := rfl
    have hroom : (batchHead (ascii "SPDB") e.runtimeMode cs.length).length +
        (cs.flatMap integerBytes).length ≤ sizeMax := by
      have hle := Nat.mul_le_mul_right (4 + 2 ^ 32) hcount.2
      rw [length_batchHead _ _ _ rfl]
      unfold sizeMax
      omega
    have hrequest : appendIntegers (ascii "SPDB" ++ [1, e.runtimeMode, 0, 0] ++
        writeU32 cs.length) cs = .ok (batchHead (ascii "SPDB") e.runtimeMode cs.length ++
          cs.flatMap integerBytes) := appendIntegers_eq cs _ hcs hroom
    rw [ok_bind (ensure_of hcount), ok_bind hrequest, ok_bind (ensure_of hcount)]
    by_cases hrange : ∀ c ∈ cs, 0 < c ∧ c < k.nsq
    · have hpower : List.Forall₂ (fun c s => k.share.ecallPartialDecrypt c = .ok s) cs
          (cs.map (power k)) := by
        refine List.forall₂_map_right_iff.2 (List.forall₂_same.2 fun c hc => ?_)
        refine Protocol.ecallPartialDecrypt_eq_ok.2 ⟨?_, ?_⟩
        · rw [h.share_nsq]
          exact hrange c hc
        · rw [h.share_nsq]
          rfl
      have hnumbers : k.share.ecallPartialDecryptBatch cs = .ok (cs.map (power k)) :=
        bind_eq_ok.2 ⟨(), ensure_of hcount, mapM_of_forall₂ hpower⟩
      have hlen : (cs.map (power k)).length = cs.length := List.length_map _
      have hfront := batchAnswer_front e (ascii "SPBR") e.role rfl (hlen.trans_le hcount.2)
      have hwritable : ∀ m ∈ cs.map (power k), Writable m := by
        intro m hm
        rcases List.mem_map.1 hm with ⟨c, _, rfl⟩
        exact lt_of_le_of_lt (h.exported_le (powMod_lt h.nsq_pos)) (by decide)
      have hread := readMany_batchAnswer e (ascii "SPBR") e.role rfl hwritable
      rw [hlen] at hfront hread
      rw [(ecallPartialDecryptBatch_share h hcount hcs).2 ⟨hrange, rfl⟩, called_ok, ok_bind rfl,
        ok_bind (ensure_of ⟨hfront.1, hfront.2.1, hfront.2.2.1, hfront.2.2.2.1,
          hfront.2.2.2.2.2.1, hfront.2.2.2.2.2.2⟩), ok_bind hread, hnumbers, hosted_ok]
      exact ok_bind (ensure_of rfl)
    · have hfails : ∀ shares, k.share.ecallPartialDecryptBatch cs ≠ .ok shares := by
        intro shares hshares
        rcases bind_eq_ok.1 hshares with ⟨_, _, hmap⟩
        refine hrange fun c hc => ?_
        rcases mem_right_of_forall₂ (mapM_eq_ok hmap).flip hc with ⟨s, _, hs⟩
        have hrange' := (Protocol.ecallPartialDecrypt_eq_ok.1 hs).1
        rwa [h.share_nsq] at hrange'
      rw [called_failed fun reply hreply =>
        hrange ((ecallPartialDecryptBatch_share h hcount hcs).1 hreply).1, error_bind rfl]
      cases hbatch : k.share.ecallPartialDecryptBatch cs with
      | ok shares => exact absurd hbatch (hfails shares)
      | error fault => rfl
  · rw [error_bind (ensure_of_not hcount), error_bind (ensure_of_not hcount)]

/-! ## A batch of combinations -/

/-- What the host writes for a pair. -/
def pairBytes (item : Nat × Nat) : Bytes :=
  integerBytes item.1 ++ integerBytes item.2

theorem importPair_readsBack :
    ReadsBack importPair pairBytes fun item => Writable item.1 ∧ Writable item.2 := by
  rintro ⟨c, u⟩ ⟨hc, hu⟩ before after
  have hbehind : Behind (before ++ (pairBytes (c, u) ++ after)) before.length
      (integerBytes c ++ (integerBytes u ++ after)) := by
    have h := behind_append before (integerBytes c ++ (integerBytes u ++ after))
    rwa [show pairBytes (c, u) ++ after = integerBytes c ++ (integerBytes u ++ after) from
      List.append_assoc _ _ _]
  have hfirst := importAt_readsBack.next hc hbehind
  have hsecond := importAt_readsBack.next hu hbehind.skip
  refine bind_eq_ok.2 ⟨_, hfirst, bind_eq_ok.2 ⟨_, hsecond, ?_⟩⟩
  rw [pairBytes, List.length_append, ← Nat.add_assoc]
  rfl

/-- The integers of a batch of pairs are the pairs one behind the other. -/
theorem flatMap_pairs (items : List (Nat × Nat)) :
    (items.flatMap fun item => [item.1, item.2]).flatMap integerBytes =
      items.flatMap pairBytes := by
  rw [List.flatMap_assoc]
  refine congrArg (fun f => items.flatMap f) (funext fun item => ?_)
  simp [pairBytes]

/-- The pairs of a batch that decrypts, with their plaintexts. -/
structure Combines (k : EnclaveNumbers) (items : List (Nat × Nat)) (ms : List Nat) : Prop where
  bounds : ∀ item ∈ items, InBounds k item
  values : List.Forall₂ (fun item m =>
    combined k item.2 (powMod item.1 k.lambdaZ k.nsq) = .ok m) items ms

/-- The batch call decrypts what combines, and fails otherwise. -/
theorem ecallThresholdDecryptBatch_share (h : e.LoadedShare k) (hrole : e.role = cspRole)
    {items : List (Nat × Nat)}
    (hcount : 1 ≤ items.length ∧ items.length ≤ thresholdMaxBatchSize)
    (hitems : ∀ item ∈ items, Writable item.1 ∧ Writable item.2) {reply : Bytes} :
    e.ecallThresholdDecryptBatch (batchHead (ascii "STDB") e.runtimeMode items.length ++
        items.flatMap pairBytes) (512 * 1024) = .ok reply ↔
      ∃ ms, Combines k items ms ∧ reply = e.batchAnswer (ascii "STDR") 3 ms := by
  let input := batchHead (ascii "STDB") e.runtimeMode items.length ++ items.flatMap pairBytes
  have hcsp := h.csp hrole
  have hhead := length_batchHead (ascii "STDB") e.runtimeMode items.length rfl
  have hread : readU32 input 8 = items.length :=
    readU32_batchHead (ascii "STDB") e.runtimeMode _ rfl hcount.2
  have hbehind : Behind input 12 (items.flatMap pairBytes ++ []) := by
    have h := behind_append (batchHead (ascii "STDB") e.runtimeMode items.length)
      (items.flatMap pairBytes)
    rw [List.append_nil]
    rwa [hhead] at h
  have hbody : readMany importPair (readU32 input 8) input 12 = .ok (items, input.length) := by
    rw [hread, importPair_readsBack.nextMany hitems hbehind, hbehind.skip.end_eq]
  have hroomy : Roomy k (512 * 1024) := by
    have hsize := exportedSize_le h.size le_rfl
    have hsquare := exportedSize_square h.size
    rw [← h.square] at hsquare
    have hbatch : thresholdMaxBatchSize = 32 := rfl
    constructor
    · rw [hbatch]
      omega
    · omega
  have hreply : ∀ ms : List Nat, ms.length = items.length →
      batchReply e (readU32 input 8) ms = e.batchAnswer (ascii "STDR") 3 ms := by
    intro ms hlen
    rw [batchReply, batchAnswer, hread, hlen]
  constructor
  · intro hcall
    -- a call that succeeds has passed the check of its header
    have hpassed := hcall
    rcases bind_eq_ok.1 hpassed with ⟨k', _, hpassed⟩
    rcases bind_eq_ok.1 hpassed with ⟨_, _, hpassed⟩
    rcases bind_eq_ok.1 hpassed with ⟨_, hheader, _⟩
    rw [ensure_eq_ok] at hheader
    rcases (ecallThresholdDecryptBatch_eq_ok hcsp hheader hroomy).1 hcall with
      ⟨items', ms, hanswers, rfl⟩
    have hsame := (Prod.mk.inj (Except.ok.inj (hbody.symm.trans hanswers.body))).1
    subst hsame
    exact ⟨ms, ⟨hanswers.bounds, hanswers.values⟩, hreply ms hanswers.values.length_eq.symm⟩
  · rintro ⟨ms, hcombines, rfl⟩
    have hlen : (items.flatMap pairBytes).length ≤ 32 * 4104 := by
      have hpair : ∀ item ∈ items, (pairBytes item).length ≤ 4104 := by
        intro item hitem
        have hbounds := hcombines.bounds item hitem
        have h1 := h.exported_le hbounds.2.1
        have h2 := h.exported_le hbounds.2.2.2
        rw [pairBytes, List.length_append, length_integerBytes, length_integerBytes]
        omega
      exact (length_flatMap_le hpair).trans (Nat.mul_le_mul_right _ hcount.2)
    have hheader : e.Header input (ascii "STDB") ∧ 12 ≤ input.length ∧ input.getD 6 0 = 0 ∧
        input.getD 7 0 = 0 := by
      have hinput : input.length = 12 + (items.flatMap pairBytes).length := by
        rw [List.length_append, hhead]
      have hmax : input.length ≤ maxInput := by
        unfold maxInput
        omega
      exact ⟨⟨by omega, hmax, rfl, rfl, rfl⟩, by omega, rfl, rfl⟩
    rw [← hreply ms hcombines.values.length_eq.symm]
    refine (ecallThresholdDecryptBatch_eq_ok hcsp hheader hroomy).2 ⟨items, ms, ?_, rfl⟩
    exact ⟨by rw [hread]; exact hcount, hbody, hcombines.bounds, hcombines.values⟩

/-- The numbers decrypt a batch when all of it combines. -/
theorem LoadedShare.share_batch (h : e.LoadedShare k) {items : List (Nat × Nat)}
    (hcount : 1 ≤ items.length ∧ items.length ≤ thresholdMaxBatchSize) {ms : List Nat} :
    k.share.ecallThresholdDecryptBatch items = .ok ms ↔ Combines k items ms := by
  have hbounds : (∀ item ∈ items, (0 < item.1 ∧ item.1 < k.share.nsq) ∧ 0 < item.2 ∧
      item.2 < k.share.nsq) ↔ ∀ item ∈ items, InBounds k item := by
    rw [h.share_nsq]
    exact forall₂_congr fun item _ => and_assoc
  have hcombine : ∀ (item : Nat × Nat) (m : Nat), k.share.ecallCombineDecrypt item.2
      (powMod item.1 k.share.lambdaZ k.share.nsq) = .ok m ↔
        combined k item.2 (powMod item.1 k.lambdaZ k.nsq) = .ok m := by
    intro item m
    rw [h.share_nsq, h.share_combine]
    exact mapError_eq_ok
  constructor
  · intro hcall
    rcases bind_eq_ok.1 hcall with ⟨_, _, hcall⟩
    rcases bind_eq_ok.1 hcall with ⟨_, hitems, hcall⟩
    rw [ensure_eq_ok] at hitems
    refine ⟨hbounds.1 hitems, (mapM_eq_ok hcall).imp fun item m hm => (hcombine item m).1 hm⟩
  · intro hcombines
    refine bind_eq_ok.2 ⟨(), ensure_of hcount, ?_⟩
    refine bind_eq_ok.2 ⟨(), ensure_of (hbounds.2 hcombines.bounds), ?_⟩
    exact mapM_of_forall₂ (hcombines.values.imp fun item m hm => (hcombine item m).2 hm)

theorem combineBatch_agrees (h : e.LoadedShare k) (hrole : e.role = cspRole)
    {cs shares : List Nat} (hcs : ∀ c ∈ cs, Writable c) (hshares : ∀ s ∈ shares, Writable s) :
    e.thresholdDecryptBatch e.runtimeMode cs shares =
      Protocol.thresholdDecryptBatch k.share cs shares := by
  unfold thresholdDecryptBatch Protocol.thresholdDecryptBatch
  by_cases hcount : 1 ≤ cs.length ∧ cs.length = shares.length ∧
      cs.length ≤ thresholdMaxBatchSize
  · have hlen : (cs.zip shares).length = cs.length := by
      rw [List.length_zip, hcount.2.1, Nat.min_self]
    have hitems : ∀ item ∈ cs.zip shares, Writable item.1 ∧ Writable item.2 := fun item hitem =>
      ⟨hcs _ (List.of_mem_zip hitem).1, hshares _ (List.of_mem_zip hitem).2⟩
    have hbatch : 1 ≤ (cs.zip shares).length ∧
        (cs.zip shares).length ≤ thresholdMaxBatchSize := by
      rw [hlen]
      exact ⟨hcount.1, hcount.2.2⟩
    have hnumbers : ∀ z ∈ (cs.zip shares).flatMap fun item => [item.1, item.2], Writable z := by
      intro z hz
      rcases List.mem_flatMap.1 hz with ⟨item, hitem, hz⟩
      rcases List.mem_pair.1 hz with rfl | rfl
      · exact (hitems item hitem).1
      · exact (hitems item hitem).2
    have hbody : ((cs.zip shares).flatMap pairBytes).length ≤ 32 * (2 * (4 + 2 ^ 32)) := by
      have hpair : ∀ item ∈ cs.zip shares, (pairBytes item).length ≤ 2 * (4 + 2 ^ 32) := by
        intro item hitem
        have h1 := length_writable (hitems item hitem).1
        have h2 := length_writable (hitems item hitem).2
        rw [pairBytes, List.length_append]
        omega
      exact (length_flatMap_le hpair).trans (Nat.mul_le_mul_right _ hbatch.2)
    have hroom : (batchHead (ascii "STDB") e.runtimeMode cs.length).length +
        (((cs.zip shares).flatMap fun item => [item.1, item.2]).flatMap integerBytes).length ≤
          sizeMax := by
      rw [flatMap_pairs, length_batchHead _ _ _ rfl]
      unfold sizeMax
      omega
    have hrequest := appendIntegers_eq _ (batchHead (ascii "STDB") e.runtimeMode cs.length)
      hnumbers hroom
    rw [flatMap_pairs] at hrequest
    have hcall : ∀ reply, _ := fun reply =>
      @ecallThresholdDecryptBatch_share e k h hrole _ hbatch hitems reply
    rw [hlen] at hcall
    rw [ok_bind (ensure_of hcount), ok_bind (ensure_of hcount)]
    refine (ok_bind hrequest).trans ?_
    by_cases hcombines : ∃ ms, Combines k (cs.zip shares) ms
    · rcases hcombines with ⟨ms, hms⟩
      have hms' : ms.length = cs.length := hms.values.length_eq.symm.trans hlen
      have hfront := batchAnswer_front e (ascii "STDR") 3 rfl (hms'.trans_le hcount.2.2)
      have hwritable : ∀ m ∈ ms, Writable m := by
        intro m hm
        rcases mem_right_of_forall₂ hms.values hm with ⟨item, _, hvalue⟩
        have hlt := combined_lt (Nat.zero_lt_of_lt h.wide) hvalue
        exact lt_of_le_of_lt (exportedSize_le h.size hlt.le) (by decide)
      have hread := readMany_batchAnswer e (ascii "STDR") 3 rfl hwritable
      rw [hms'] at hfront hread
      rw [(hcall _).2 ⟨ms, hms, rfl⟩, called_ok, ok_bind rfl, ok_bind (ensure_of hfront),
        ok_bind hread, (h.share_batch hbatch).2 hms, hosted_ok]
      exact ok_bind (ensure_of rfl)
    -- The request is refused by both when one of its pairs does not combine.
    · rw [called_failed fun reply hreply => hcombines (((hcall reply).1 hreply).imp
        fun _ hms => hms.1), error_bind rfl]
      cases hnumbers' : k.share.ecallThresholdDecryptBatch (cs.zip shares) with
      | ok ms => exact absurd ⟨ms, (h.share_batch hbatch).1 hnumbers'⟩ hcombines
      | error fault => rfl
  · rw [error_bind (ensure_of_not hcount), error_bind (ensure_of_not hcount)]

/-! ## The two levels -/

/-- On an enclave with a share the hosts' calls do what the numbers of the enclave do: a single
partial decryption fails also when the power is zero, the batches and the combination agree in
everything. -/
theorem host_calls_agree (e : Enclave) (k : EnclaveNumbers) (h : e.LoadedShare k) :
    (∀ c, Writable c → e.partialDecrypt e.runtimeMode c = do
      let u ← Protocol.partialDecrypt k.share c
      ensure (u ≠ 0) (Error.backend "partial decrypt failed")
      return u) ∧
    (∀ cs, (∀ c ∈ cs, Writable c) →
      e.partialDecryptBatch e.runtimeMode cs = Protocol.partialDecryptBatch k.share cs) ∧
    (e.role = cspRole → ∀ u1 u2, 16 + exportedSize u1 + exportedSize u2 ≤ maxInput →
      e.combineDecrypt e.runtimeMode u1 u2 = Protocol.combineDecrypt k.share u1 u2) ∧
    (e.role = cspRole → ∀ cs shares, (∀ c ∈ cs, Writable c) → (∀ s ∈ shares, Writable s) →
      e.thresholdDecryptBatch e.runtimeMode cs shares =
        Protocol.thresholdDecryptBatch k.share cs shares) :=
  ⟨fun _ hc => partialDecrypt_agrees h hc, fun _ hcs => partialDecryptBatch_agrees h hcs,
    fun hrole _ _ hinput => combineDecrypt_agrees h hrole hinput,
    fun hrole _ _ hcs hshares => combineBatch_agrees h hrole hcs hshares⟩

/-- What an enclave of a party can hold in a run is such a share. -/
theorem Held.loadedShare {built : UInt8} (hheld : Held built k)
    (hparty : built = cpRole ∨ built = cspRole) (hloaded : e.loaded = .ok k)
    (hrole : e.role = built) : e.LoadedShare k := by
  have hshare : ∀ {p q : Nat} {keys : ThresholdKeys}, KeyPrimes p q → SplitKey p q keys →
      1 < keys.n := by
    intro p q keys hkp hk
    rw [hk.modulus]
    exact hkp.one_lt
  have hwide : 1 < k.n ∧ sizeInBase2 k.n ≤ 8192 := by
    cases hheld with
    | full => rcases hparty with h | h <;> exact absurd h (by decide)
    | cp hkp hk hsize => exact ⟨hshare hkp hk, hsize⟩
    | csp hkp hk hsize => exact ⟨hshare hkp hk, hsize⟩
  exact ⟨hloaded, hrole ▸ hparty, hheld.square, hwide.1, hwide.2⟩

/-- The CSP's enclave with the share of a key of 3072 bits. -/
theorem host_calls_agree_3072 : ∃ (e : Enclave) (k : EnclaveNumbers),
    e.loaded = .ok k ∧ sizeInBase2 k.n = 3072 ∧
    (∀ c, Writable c → e.partialDecrypt e.runtimeMode c = do
      let u ← Protocol.partialDecrypt k.share c
      ensure (u ≠ 0) (Error.backend "partial decrypt failed")
      return u) ∧
    ∀ cs shares, (∀ c ∈ cs, Writable c) → (∀ s ∈ shares, Writable s) →
      e.thresholdDecryptBatch e.runtimeMode cs shares =
        Protocol.thresholdDecryptBatch k.share cs shares := by
  rcases drawShares_sample with ⟨full, keys, hdrawn, hsize⟩
  rcases drawShares_spec isPrime_certain hdrawn with ⟨p, q, hkp, _, _, hsplit, _, hshares⟩
  rw [← hshares.n] at hsize
  have hheld : Held cspRole (installed cspRole keys.n keys.lambda2 keys.mu) :=
    .csp hkp hsplit (by rw [hsize]; decide)
  let e : Enclave := ⟨true, 1, cspRole, some (installed cspRole keys.n keys.lambda2 keys.mu)⟩
  have hcalls := host_calls_agree e _ (hheld.loadedShare (Or.inr rfl) rfl rfl)
  exact ⟨e, _, rfl, hsize, hcalls.1, hcalls.2.2.2 rfl⟩

end Enclave
end Protocol
end SociSgx

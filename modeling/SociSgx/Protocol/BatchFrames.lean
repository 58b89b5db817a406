import SociSgx.Lib.Computes
import SociSgx.Protocol.FusedExchange

/-!
# BatchFrames — the batched calls over the socket

`secureMultiplyBatch`, `greaterThanBatch` and `revealFinalPredicate` of the client as they write
their requests and read the replies.  In `Client` the batched calls hand their items to the handler
of the CSP; here they go through the frames, and return and throw the same.
-/

namespace SociSgx
namespace Protocol

open Exec BigEndian OffsetCodec Paillier
open Secure (PredicateType PredicateContext)

/-! ## Requests and replies -/

namespace Csp

def BatchKind.letter : BatchKind → UInt8
  | .multiply => byteOf 'M'
  | .compare => byteOf 'C'

/-- What stands in request `B` for an item. -/
def BatchItem.integers (kind : BatchKind) (item : BatchItem) : List Nat :=
  match kind with
  | .multiply => [item.ciphertext, item.cpShare, item.base]
  | .compare => [item.ciphertext, item.cpShare]

end Csp

/-- Request `B`. -/
def batchRequest (kind : Csp.BatchKind) (items : List Csp.BatchItem) : Except Error Bytes :=
  appendIntegers ([byteOf 'B', kind.letter, 1, 0] ++ writeU32 items.length)
    (items.flatMap (Csp.BatchItem.integers kind))

/-- What the client checks of a reply behind its status byte: version, reserved bytes and count. -/
def BatchHead (count : Nat) (reply : Bytes) : Prop :=
  8 ≤ reply.length ∧ (reply.getD 0 0 = 1 ∧ reply.getD 1 0 = 0 ∧ reply.getD 2 0 = 0 ∧
    reply.getD 3 0 = 0) ∧ readU32 reply 4 = count

instance (count : Nat) (reply : Bytes) : Decidable (BatchHead count reply) :=
  inferInstanceAs (Decidable (_ ∧ (_ ∧ _ ∧ _ ∧ _) ∧ _))

/-- The products in the reply; eight bytes of timing data stand behind them. -/
def multiplyReply (count : Nat) (reply : Bytes) : Except Error (List Nat) := do
  ensure (BatchHead count reply) (Error.backend "bad SMUL batch response")
  let (products, offset) ← readMany takeInteger count reply 8
  ensure (reply.length - offset = 8) (Error.backend "bad SMUL batch timing data")
  return products

namespace Parties

variable (parties : Parties) (sha256 : Bytes → Label)

/-- The loop over the bits of the reply: each is oriented as soon as it is read. -/
def takeBits (draws : Nat → CompareDraw) (nonces : Nat → Nonce parties.modulus) (reply : Bytes) :
    Nat → Nat → Nat → Except Error (List Nat × Nat)
  | 0, _, offset => .ok ([], offset)
  | count + 1, i, offset => do
      let (bit, offset) ← takeInteger reply offset
      let bit ← parties.orientBit (draws i) bit (nonces i)
      let (bits, offset) ← takeBits draws nonces reply count (i + 1) offset
      return (bit :: bits, offset)

/-- The reply to a batch of comparisons. -/
def compareReply (draws : Nat → CompareDraw) (nonces : Nat → Nonce parties.modulus) (count : Nat)
    (reply : Bytes) : Except Error (List Nat) := do
  ensure (BatchHead count reply) (Error.backend "bad SCMP batch response")
  let (bits, offset) ← parties.takeBits draws nonces reply count 0 8
  ensure (reply.length - offset = 8) (Error.backend "bad SCMP batch timing data")
  return bits

/-! ## The calls -/

/-- `ThresholdProtocolClient::secureMultiplyBatch` -/
def requestMultiplyBatch (items : List (Nat × Nat)) (draws : Nat → MultiplyDraw)
    (masks last : Nat → Nonce parties.modulus) (env : Surroundings parties.csp.modulus) :
    EStateM Error Server (List Nat) := do
  require (1 ≤ items.length ∧ items.length ≤ thresholdMaxBatchSize)
    (Error.backend "invalid SMUL batch size")
  let item := fun i => items.getD i (0, 0)
  let encryptedMasks :=
    paillierEncryptBatch (maskPlaintexts draws items.length) parties.modulus masks
  let packed ← lift (tabulateM items.length fun i =>
    parties.packedOperands (item i).1 (item i).2 (encryptedMasks.getD (2 * i) 0)
      (encryptedMasks.getD (2 * i + 1) 0))
  let shares ← lift (partialDecryptBatch parties.cp packed)
  let request ← lift (batchRequest .multiply (tabulate items.length fun i =>
    { ciphertext := packed.getD i 0, cpShare := shares.getD i 0, base := packingBase }))
  let reply ← parties.csp.requestPayload sha256 request env
  let products ← lift (multiplyReply items.length reply)
  let corrections := tabulate items.length fun i =>
    -((draws i).r1.value : Int) * (draws i).r2.value
  let encryptedCorrections := paillierEncryptBatch corrections parties.modulus last
  lift (tabulateM items.length fun i =>
    parties.unmaskProduct (products.getD i 0) (item i).1 (item i).2 (draws i)
      (encryptedCorrections.getD i 0))

/-- `ThresholdProtocolClient::greaterThanBatch` -/
def requestCompareBatch (items : List (Nat × Nat)) (draws : Nat → CompareDraw)
    (masks last : Nat → Nonce parties.modulus) (env : Surroundings parties.csp.modulus) :
    EStateM Error Server (List Nat) := do
  require (1 ≤ items.length ∧ items.length ≤ thresholdMaxBatchSize)
    (Error.backend "invalid SCMP batch size")
  let (differences, shares) ← lift
    (parties.maskedDifferences "SCMP produced invalid ciphertext" items draws masks)
  let request ← lift (batchRequest .compare (tabulate items.length fun i =>
    { ciphertext := differences.getD i 0, cpShare := shares.getD i 0 }))
  let reply ← parties.csp.requestPayload sha256 request env
  lift (parties.compareReply draws last items.length reply)

/-- Request `P`; the bit is decrypted by the CSP. -/
def predicateRequest (context : PredicateContext) (encryptedBit : Nat) : Except Error Bytes := do
  let request ← appendContext [byteOf 'P', typeByte context.predicateType, 0, 0] context
  let request ← appendInteger request encryptedBit
  let share ← partialDecrypt parties.cp encryptedBit
  appendInteger request share

/-- `catch (const PredicateError&) { throw; } catch (const std::exception&) { throw error; }` -/
def rethrownOther {σ α : Type} (error : Error) (m : EStateM Error σ α) : EStateM Error σ α :=
  fun s => match m s with
    | .ok a s => .ok a s
    | .error (.predicate message) s => .error (.predicate message) s
    | .error _ s => .error error s

/-- `ThresholdProtocolClient::revealFinalPredicate` -/
def revealFinalPredicate (context : PredicateContext) (encryptedBit : Nat)
    (env : Surroundings parties.csp.modulus) : EStateM Error Server Bool :=
  rethrownOther (Error.predicate "threshold predicate reveal failed") do
    let request ← lift (parties.predicateRequest context encryptedBit)
    let reply ← parties.csp.requestPayload sha256 request env
    require (reply.length = 1 ∧ reply.getD 0 0 ≤ 1)
      (Error.predicate "invalid threshold predicate response")
    return decide (reply.getD 0 0 = 1)

end Parties

/-! ## Request `B` at the CSP -/

def batchItemBytes (kind : Csp.BatchKind) (item : Csp.BatchItem) : Bytes :=
  (item.integers kind).flatMap integerBytes

/-- What request `B` looks like. -/
def batchBytes (kind : Csp.BatchKind) (items : List Csp.BatchItem) : Bytes :=
  byteOf 'B' :: kind.letter :: 1 :: 0 ::
    (writeU32 items.length ++ items.flatMap (batchItemBytes kind))

/-- What its reply looks like behind the status byte. -/
def batchReplyBytes (results : List Nat) (elapsed : Nat) : Bytes :=
  1 :: 0 :: 0 :: 0 :: (writeU32 results.length ++ (results.flatMap integerBytes ++
    toBytes 8 elapsed))

/-- An item that the CSP reads back; comparisons have no base. -/
structure Csp.BatchItem.Fits (kind : Csp.BatchKind) (item : Csp.BatchItem) : Prop where
  short : ∀ z ∈ item.integers kind, Short z
  unused : kind = .compare → item.base = 0

theorem takeBatchItem_readsBack (kind : Csp.BatchKind) :
    ReadsBack (Csp.takeBatchItem kind) (batchItemBytes kind) (Csp.BatchItem.Fits kind) := by
  rintro ⟨c, share, base⟩ ⟨hshort, hunused⟩ before after
  have hbehind := behind_append before (batchItemBytes kind ⟨c, share, base⟩ ++ after)
  cases kind with
  | multiply =>
      have hwritable (z : Nat) (hz : z ∈ [c, share, base]) : Writable z := (hshort z hz).writable
      have hbytes : batchItemBytes .multiply ⟨c, share, base⟩ ++ after =
          integerBytes c ++ (integerBytes share ++ (integerBytes base ++ after)) := by
        simp [batchItemBytes, Csp.BatchItem.integers]
      have hend : (batchItemBytes .multiply ⟨c, share, base⟩).length =
          (integerBytes c).length + (integerBytes share).length + (integerBytes base).length := by
        simp [batchItemBytes, Csp.BatchItem.integers]
        omega
      rw [hend]
      rw [hbytes] at hbehind ⊢
      refine bind_eq_ok.2 ⟨_, takeInteger_readsBack.next (hwritable c (by simp)) hbehind, ?_⟩
      refine bind_eq_ok.2
        ⟨_, takeInteger_readsBack.next (hwritable share (by simp)) hbehind.skip, ?_⟩
      refine bind_eq_ok.2
        ⟨_, takeInteger_readsBack.next (hwritable base (by simp)) hbehind.skip.skip, ?_⟩
      simp only [Nat.add_assoc]
      rfl
  | compare =>
      obtain rfl : base = 0 := hunused rfl
      have hwritable (z : Nat) (hz : z ∈ [c, share]) : Writable z := (hshort z hz).writable
      have hbytes : batchItemBytes .compare ⟨c, share, 0⟩ ++ after =
          integerBytes c ++ (integerBytes share ++ after) := by
        simp [batchItemBytes, Csp.BatchItem.integers]
      have hend : (batchItemBytes .compare ⟨c, share, 0⟩).length =
          (integerBytes c).length + (integerBytes share).length := by
        simp [batchItemBytes, Csp.BatchItem.integers]
      rw [hend]
      rw [hbytes] at hbehind ⊢
      refine bind_eq_ok.2 ⟨_, takeInteger_readsBack.next (hwritable c (by simp)) hbehind, ?_⟩
      refine bind_eq_ok.2
        ⟨_, takeInteger_readsBack.next (hwritable share (by simp)) hbehind.skip, ?_⟩
      simp only [Nat.add_assoc]
      rfl

section

variable {kind : Csp.BatchKind} {items : List Csp.BatchItem}

theorem length_batchItems (hcount : items.length ≤ 32)
    (hitems : ∀ item ∈ items, Csp.BatchItem.Fits kind item) :
    (items.flatMap (batchItemBytes kind)).length ≤ 32 * (3 * 2052) := by
  refine (length_flatMap_le fun item hitem => ?_).trans (Nat.mul_le_mul_right _ hcount)
  refine (length_integers_le (hitems item hitem).short).trans (Nat.mul_le_mul_right _ ?_)
  cases kind <;> simp [Csp.BatchItem.integers]

theorem batchRequest_eq (hcount : items.length ≤ 32)
    (hitems : ∀ item ∈ items, Csp.BatchItem.Fits kind item) :
    batchRequest kind items = .ok (batchBytes kind items) := by
  have hbytes : (items.flatMap (Csp.BatchItem.integers kind)).flatMap integerBytes =
      items.flatMap (batchItemBytes kind) := List.flatMap_assoc
  have hroom := length_batchItems hcount hitems
  refine (appendIntegers_eq _ _ (fun z hz => ?_) ?_).trans ?_
  · rcases List.mem_flatMap.1 hz with ⟨item, hitem, hz⟩
    exact ((hitems item hitem).short z hz).writable
  · rw [hbytes, List.length_append, length_writeU32, sizeMax]
    simp only [List.length_cons, List.length_nil]
    omega
  · rw [hbytes, List.append_assoc]
    rfl

theorem length_batchBytes (hcount : items.length ≤ 32)
    (hitems : ∀ item ∈ items, Csp.BatchItem.Fits kind item) :
    8 ≤ (batchBytes kind items).length ∧ (batchBytes kind items).length ≤ maxFrame := by
  have hroom := length_batchItems hcount hitems
  simp only [batchBytes, List.length_cons, List.length_append, length_writeU32, maxFrame]
  omega

/-- The CSP reads the items as they were written. -/
theorem answerBatch_batchBytes (csp : Csp)
    (hcount : 1 ≤ items.length ∧ items.length ≤ thresholdMaxBatchSize)
    (hitems : ∀ item ∈ items, Csp.BatchItem.Fits kind item) (env : Surroundings csp.modulus) :
    csp.answerBatch (batchBytes kind items) env = (do
      let plaintexts ← csp.batchPlaintexts kind items
      let nonces ← env.nonces
      let reply ← appendIntegers ([0, 1, 0, 0, 0] ++ writeU32 items.length)
        (paillierEncryptBatch plaintexts csp.modulus nonces)
      return Csp.appendU64 reply env.elapsed) := by
  have hbehind : Behind (batchBytes kind items) 4
      (writeU32 items.length ++ (items.flatMap (batchItemBytes kind) ++ [])) := by
    rw [List.append_nil]
    exact behind_append [byteOf 'B', kind.letter, 1, 0] _
  have hread := readU32_next (Nat.lt_of_le_of_lt hcount.2 (by decide)) hbehind
  have hnext := hbehind.skip
  rw [length_writeU32] at hnext
  have hmany := (takeBatchItem_readsBack kind).nextMany hitems hnext
  have hkind : (if (batchBytes kind items).getD 1 0 = byteOf 'M' then Csp.BatchKind.multiply
      else .compare) = kind := by
    cases kind with
    | multiply => exact if_pos rfl
    | compare => exact if_neg (by decide : byteOf 'C' ≠ byteOf 'M')
  have hletter : (batchBytes kind items).getD 1 0 = byteOf 'C' ∨
      (batchBytes kind items).getD 1 0 = byteOf 'M' := by
    cases kind with
    | multiply => exact Or.inr rfl
    | compare => exact Or.inl rfl
  have hsize := length_batchBytes hcount.2 hitems
  unfold Csp.answerBatch
  rw [ok_bind (ensure_of ⟨hsize.1, hletter, rfl, rfl⟩)]
  dsimp only
  rw [hread, hkind, ok_bind (ensure_of ⟨by omega, hcount.2⟩), ok_bind hmany]
  dsimp only
  rw [ok_bind (ensure_of hnext.skip.end_eq)]

variable {csp : Csp} {env : Surroundings csp.modulus} {nonces : Nat → Nonce csp.modulus}

theorem answerBatch_error
    (hcount : 1 ≤ items.length ∧ items.length ≤ thresholdMaxBatchSize)
    (hitems : ∀ item ∈ items, Csp.BatchItem.Fits kind item) {e : Error}
    (h : csp.batch kind items nonces = .error e) :
    csp.answerBatch (batchBytes kind items) env = .error e := by
  rw [csp.batch_eq] at h
  rw [answerBatch_batchBytes csp hcount hitems env]
  cases hplain : csp.batchPlaintexts kind items with
  | error e' =>
      rw [hplain] at h
      cases h
      rfl
  | ok plaintexts =>
      rw [hplain] at h
      cases h

theorem answerBatch_ok (hcount : 1 ≤ items.length ∧ items.length ≤ thresholdMaxBatchSize)
    (hitems : ∀ item ∈ items, Csp.BatchItem.Fits kind item) (hnonces : env.nonces = .ok nonces)
    {results : List Nat} (h : csp.batch kind items nonces = .ok results)
    (hlen : results.length = items.length) (hshort : ∀ r ∈ results, Short r) :
    csp.answerBatch (batchBytes kind items) env =
      .ok (0 :: batchReplyBytes results env.elapsed) := by
  have hroom := length_integers_le hshort
  rw [hlen] at hroom
  have hmax : items.length ≤ 32 := hcount.2
  have happend : appendIntegers ([0, 1, 0, 0, 0] ++ writeU32 items.length) results =
      .ok (([0, 1, 0, 0, 0] ++ writeU32 items.length) ++ results.flatMap integerBytes) := by
    refine appendIntegers_eq _ _ (fun r hr => (hshort r hr).writable) ?_
    rw [List.length_append, length_writeU32, sizeMax]
    simp only [List.length_cons, List.length_nil]
    omega
  rw [csp.batch_eq] at h
  rw [answerBatch_batchBytes csp hcount hitems env]
  cases hplain : csp.batchPlaintexts kind items with
  | error e =>
      rw [hplain] at h
      cases h
  | ok plaintexts =>
      rw [hplain] at h
      have hresults : paillierEncryptBatch plaintexts csp.modulus nonces = results := by
        cases h
        rfl
      rw [ok_bind rfl, ok_bind hnonces, hresults, ok_bind happend, batchReplyBytes, hlen]
      simp only [Csp.appendU64, List.append_assoc]
      rfl

end

/-! ## One exchange -/

/-- The server has received the request, and goes on. -/
def Server.heard (server : Server) (request : Bytes) : Server where
  phase := .serving
  state := server.state.note (.received request)

/-- The server has received the request, and has closed the connection. -/
def Server.refused (server : Server) (request : Bytes) (error : Error) : Server :=
  Server.reject error (server.state.note (.received request))

section

variable {csp : Csp} {sha256 : Bytes → Label} {server : Server} {request : Bytes}
  {env : Surroundings csp.modulus}

/-- A request whose handler has no state and returns: the first byte of the reply is its status. -/
theorem requestPayload_replies {reply : Bytes} (hphase : server.phase = .serving)
    (hsend : env.send reply = .ok ()) (hlen : request.length ≤ maxFrame)
    (hgoes : request.head? ≠ some (byteOf 'Q')) (hreply : reply.length ≤ maxFrame)
    (hanswer : csp.answer sha256 request env = lift (.ok reply)) :
    csp.requestPayload sha256 request env server =
      if reply.head? = some 0 then .ok reply.tail (server.heard request)
      else .error (Error.backend "CSP request failed") (server.heard request) := by
  have hframe : Csp.receivePayload request = .ok request :=
    bind_eq_ok.2 ⟨(), ensure_eq_ok.2 hlen, rfl⟩
  have hback : Csp.receivePayload reply = .ok reply :=
    bind_eq_ok.2 ⟨(), ensure_eq_ok.2 hreply, rfl⟩
  have hruns : csp.answer sha256 request env (server.state.note (.received request)) =
      .ok reply (server.state.note (.received request)) := by
    rw [hanswer]
    rfl
  have hsent (s : CspState) : lift (env.send reply) s = .ok () s := by
    rw [hsend]
    rfl
  have hrespond : csp.respond sha256 (.ok request) env server.state =
      .ok reply (server.state.note (.received request)) := by
    refine (bind_of_ok rfl).trans ((bind_of_ok rfl).trans ((bind_of_ok hruns).trans ?_))
    exact (bind_of_ok (hsent _)).trans rfl
  have hserve : csp.serve sha256 (.ok request) env server.state =
      .ok false (server.state.note (.received request)) := by
    refine (bind_of_ok rfl).trans ((bind_of_ok rfl).trans ((bind_of_ok hruns).trans ?_))
    refine (bind_of_ok (hsent _)).trans ?_
    rw [if_neg hgoes]
    rfl
  have hstep : server.step csp sha256 (.frame (.ok request) env) = server.heard request := by
    rcases server with ⟨phase, state⟩
    obtain rfl : phase = .serving := hphase
    unfold Server.step
    dsimp only at hserve ⊢
    rw [hserve]
    rfl
  have hanswered : csp.reply sha256 server (.ok request) env = .ok reply := by
    rw [Csp.reply, hphase]
    dsimp only
    rw [hrespond]
  have hwide : request.length ≤ uint32Max := hlen.trans (by decide)
  refine (bind_of_ok (require_of_pos hwide)).trans ((bind_of_ok rfl).trans ?_)
  refine (bind_of_ok rfl).trans ?_
  rw [hframe, hanswered]
  refine (bind_of_ok rfl).trans ?_
  rw [hback]
  refine (bind_of_ok rfl).trans ?_
  by_cases hstatus : reply.head? = some 0
  · rw [if_pos hstatus]
    refine (bind_of_ok (require_of_pos hstatus)).trans ?_
    exact congrArg _ hstep
  · rw [if_neg hstatus]
    refine (require_bind_of_neg hstatus).trans ?_
    exact congrArg _ hstep

/-- A request whose handler throws: the client only sees that the connection is closed. -/
theorem requestPayload_throws {e : Error} (hphase : server.phase = .serving)
    (hlen : request.length ≤ maxFrame)
    (hanswer : csp.answer sha256 request env = lift (.error e)) :
    csp.requestPayload sha256 request env server =
      .error (Error.backend "socket closed") (server.refused request e) := by
  have hframe : Csp.receivePayload request = .ok request :=
    bind_eq_ok.2 ⟨(), ensure_eq_ok.2 hlen, rfl⟩
  have hfails : csp.answer sha256 request env (server.state.note (.received request)) =
      .error e (server.state.note (.received request)) := by
    rw [hanswer]
    rfl
  have hrespond : csp.respond sha256 (.ok request) env server.state =
      .error e (server.state.note (.received request)) := by
    refine (bind_of_ok rfl).trans ((bind_of_ok rfl).trans ?_)
    exact bind_of_error hfails
  have hserve : csp.serve sha256 (.ok request) env server.state =
      .error e (server.state.note (.received request)) := by
    refine (bind_of_ok rfl).trans ((bind_of_ok rfl).trans ?_)
    exact bind_of_error hfails
  have hstep : server.step csp sha256 (.frame (.ok request) env) = server.refused request e := by
    rcases server with ⟨phase, state⟩
    obtain rfl : phase = .serving := hphase
    unfold Server.step
    dsimp only at hserve ⊢
    rw [hserve]
    rfl
  have hanswered : csp.reply sha256 server (.ok request) env =
      .error (Error.backend "socket closed") := by
    rw [Csp.reply, hphase]
    dsimp only
    rw [hrespond]
  have hwide : request.length ≤ uint32Max := hlen.trans (by decide)
  refine (bind_of_ok (require_of_pos hwide)).trans ((bind_of_ok rfl).trans ?_)
  refine (bind_of_ok rfl).trans ?_
  rw [hframe, hanswered]
  refine (bind_of_error rfl).trans ?_
  exact congrArg _ hstep

end

/-! ## Replies at the client -/

theorem length_batchReplyBytes {results : List Nat} (hcount : results.length ≤ 32)
    (hshort : ∀ r ∈ results, Short r) (elapsed : Nat) :
    8 ≤ (batchReplyBytes results elapsed).length ∧
      (0 :: batchReplyBytes results elapsed).length ≤ maxFrame := by
  have hroom := length_integers_le hshort
  simp only [batchReplyBytes, List.length_cons, List.length_append, length_writeU32,
    length_toBytes, maxFrame]
  omega

theorem batchHead_reply {results : List Nat} (hcount : results.length ≤ 32)
    (hshort : ∀ r ∈ results, Short r) (elapsed : Nat) :
    BatchHead results.length (batchReplyBytes results elapsed) ∧
      Behind (batchReplyBytes results elapsed) 8
        (results.flatMap integerBytes ++ toBytes 8 elapsed) := by
  have hbehind : Behind (batchReplyBytes results elapsed) 4 (writeU32 results.length ++
      (results.flatMap integerBytes ++ toBytes 8 elapsed)) :=
    behind_append [1, 0, 0, 0] _
  have hnext := hbehind.skip
  rw [length_writeU32] at hnext
  exact ⟨⟨(length_batchReplyBytes hcount hshort elapsed).1, ⟨rfl, rfl, rfl, rfl⟩,
    readU32_next (by omega) hbehind⟩, hnext⟩

/-- Behind the integers stand the eight bytes of the timing. -/
theorem timing_left {input : Bytes} {offset elapsed : Nat}
    (h : Behind input offset (toBytes 8 elapsed)) : input.length - offset = 8 := by
  rw [h.length_eq, length_toBytes]

theorem multiplyReply_readsBack {results : List Nat} (hcount : results.length ≤ 32)
    (hshort : ∀ r ∈ results, Short r) (elapsed : Nat) :
    multiplyReply results.length (batchReplyBytes results elapsed) = .ok results := by
  rcases batchHead_reply hcount hshort elapsed with ⟨hhead, hbehind⟩
  have hmany := takeInteger_readsBack.nextMany (fun r hr => (hshort r hr).writable) hbehind
  refine bind_eq_ok.2 ⟨(), ensure_eq_ok.2 hhead, bind_eq_ok.2 ⟨_, hmany, ?_⟩⟩
  exact bind_eq_ok.2 ⟨(), ensure_eq_ok.2 (timing_left hbehind.skip), rfl⟩

namespace Parties

variable {parties : Parties} (draws : Nat → CompareDraw) (nonces : Nat → Nonce parties.modulus)

/-- Reading a bit and orienting it in turn is orienting the bits that are there. -/
theorem takeBits_eq {rest reply : Bytes} : ∀ {bits : List Nat} {i offset : Nat},
    (∀ b ∈ bits, Short b) → Behind reply offset (bits.flatMap integerBytes ++ rest) →
      parties.takeBits draws nonces reply bits.length i offset =
        ((bits.zipIdx i).mapM fun b => parties.orientBit (draws b.2) b.1 (nonces b.2)) >>=
          fun oriented => .ok (oriented, offset + (bits.flatMap integerBytes).length) := by
  intro bits
  induction bits with
  | nil => exact fun {i offset} _ _ => rfl
  | cons bit bits ih =>
      intro i offset hshort hbehind
      rw [List.flatMap_cons, List.append_assoc] at hbehind
      have hfirst := takeInteger_readsBack.next (hshort bit List.mem_cons_self).writable hbehind
      have hrest := ih (i := i + 1) (fun b hb => hshort b (List.mem_cons_of_mem _ hb)) hbehind.skip
      rw [List.zipIdx_cons, List.mapM_cons, List.length_cons, takeBits, ok_bind hfirst]
      dsimp only
      cases parties.orientBit (draws i) bit (nonces i) with
      | error e => rfl
      | ok oriented =>
          rw [ok_bind rfl, hrest, ok_bind rfl, List.flatMap_cons, List.length_append,
            ← Nat.add_assoc]
          cases (bits.zipIdx (i + 1)).mapM fun b =>
            parties.orientBit (draws b.2) b.1 (nonces b.2) <;> rfl

/-- The loop over the indices of a vector reads its members. -/
theorem tabulateM_getD {ι : Type} {f : Nat → ι → Except Error Nat} {xs : List ι} {d : ι} :
    (tabulateM xs.length fun i => f i (xs.getD i d)) = xs.zipIdx.mapM fun x => f x.2 x.1 := by
  have hrange : (List.range xs.length).map (fun i => (xs.getD i d, i)) = xs.zipIdx := by
    refine List.ext_getElem (by simp) fun i hi hi' => ?_
    have hlt : i < xs.length := by simpa using hi
    simp [hlt]
  rw [← hrange, List.mapM_map]
  rfl

theorem compareReply_readsBack {results : List Nat} (hcount : results.length ≤ 32)
    (hshort : ∀ r ∈ results, Short r) (elapsed : Nat) :
    parties.compareReply draws nonces results.length (batchReplyBytes results elapsed) =
      tabulateM results.length fun i =>
        parties.orientBit (draws i) (results.getD i 0) (nonces i) := by
  rcases batchHead_reply hcount hshort elapsed with ⟨hhead, hbehind⟩
  have htake := takeBits_eq draws nonces (i := 0) hshort hbehind
  have hloop : (tabulateM results.length fun i =>
      parties.orientBit (draws i) (results.getD i 0) (nonces i)) =
        results.zipIdx.mapM fun b => parties.orientBit (draws b.2) b.1 (nonces b.2) :=
    tabulateM_getD (f := fun i b => parties.orientBit (draws i) b (nonces i))
  rw [compareReply, ok_bind (ensure_of hhead), htake, hloop]
  cases results.zipIdx.mapM fun b => parties.orientBit (draws b.2) b.1 (nonces b.2) with
  | error e => rfl
  | ok oriented =>
      rw [ok_bind rfl, ok_bind rfl]
      dsimp only
      rw [ok_bind (ensure_of (timing_left hbehind.skip))]
      rfl

end Parties

/-! ## The calls compute what the handlers do -/

/-- What a request outside of the fused predicates can make of the server. -/
def Server.Spoken (server server' : Server) : Prop :=
  server' = server ∨ ∃ request, server' = server.heard request ∨
    ∃ e, server' = server.refused request e

theorem Csp.answer_batch (csp : Csp) (sha256 : Bytes → Label) {kind : BatchKind}
    {items : List BatchItem} (env : Surroundings csp.modulus) :
    csp.answer sha256 (batchBytes kind items) env =
      lift (csp.answerBatch (batchBytes kind items) env) := by
  have hF : byteOf 'B' ≠ byteOf 'F' := by decide
  have hG : byteOf 'B' ≠ byteOf 'G' := by decide
  have hT : byteOf 'B' ≠ byteOf 'T' := by decide
  unfold Csp.answer batchBytes
  dsimp only
  rw [if_neg hF, if_neg hG, if_neg hT, if_pos rfl]

theorem length_of_mapM {ε α : Type} {ι : Type} {f : ι → Except ε α} {xs : List ι} {ys : List α}
    (h : xs.mapM f = .ok ys) : ys.length = xs.length :=
  (mapM_eq_ok h).length_eq.symm

/-- The shares of a batch are residues of the modulus squared. -/
theorem partialDecryptBatch_ok {key : EnclaveKey} {cs shares : List Nat} (hpos : 0 < key.n)
    (h : partialDecryptBatch key cs = .ok shares) :
    shares.length = cs.length ∧ ∀ s ∈ shares, s < key.n * key.n := by
  rcases bind_eq_ok.1 h with ⟨_, _, h⟩
  cases hecall : key.ecallPartialDecryptBatch cs with
  | error e =>
      rw [hecall] at h
      cases h
  | ok values =>
      rw [hecall, hosted_ok] at h
      cases h
      rcases bind_eq_ok.1 hecall with ⟨_, _, hmap⟩
      refine ⟨length_of_mapM hmap, fun s hs => ?_⟩
      rcases mem_right_of_forall₂ (mapM_eq_ok hmap) hs with ⟨c, _, hc⟩
      rw [(ecallPartialDecrypt_eq_ok.1 hc).2]
      exact Modular.powMod_lt (Nat.mul_pos hpos hpos)

theorem paillierEncrypt_lt {modulus : Nat} (x : Int) (nonce : Nonce modulus) :
    paillierEncrypt x modulus nonce < modulus * modulus :=
  (encrypts_paillierEncrypt x nonce).lt

/-- The results of a batch are ciphertexts, one for each item. -/
theorem batch_ok {csp : Csp} {kind : Csp.BatchKind} {items : List Csp.BatchItem}
    {nonces : Nat → Nonce csp.modulus} {results : List Nat}
    (h : csp.batch kind items nonces = .ok results) :
    results.length = items.length ∧ ∀ r ∈ results, r < csp.modulus * csp.modulus := by
  rcases bind_eq_ok.1 h with ⟨_, _, h⟩
  rcases bind_eq_ok.1 h with ⟨_, _, h⟩
  rcases bind_eq_ok.1 h with ⟨plaintexts, _, h⟩
  cases h
  refine ⟨by simp [tabulate], fun r hr => ?_⟩
  rcases List.mem_mapIdx.1 hr with ⟨i, hi, rfl⟩
  exact paillierEncrypt_lt _ _

namespace Parties

variable {parties : Parties} {sha256 : Bytes → Label} {server : Server}
  {env : Surroundings parties.csp.modulus}

/-- The surroundings of a batched call: the client and its enclave have one modulus of at most 8192
bits, and the CSP draws nonces and can send. -/
structure Connected (parties : Parties) (server : Server)
    (nonces : Nat → Nonce parties.modulus) (env : Surroundings parties.csp.modulus) : Prop where
  modulus : parties.cp.n = parties.modulus
  pos : 0 < parties.modulus
  size : sizeInBase2 parties.modulus ≤ 8192
  phase : server.phase = .serving
  nonces : env.nonces = .ok nonces
  sends : ∀ reply, env.send reply = .ok ()

theorem Connected.short {nonces : Nat → Nonce parties.modulus}
    (h : Connected parties server nonces env) {z : Nat}
    (hz : z < parties.modulus * parties.modulus) : Short z :=
  (exportedSize_mono hz.le).trans (exportedSize_square h.size)

theorem packedOperands_lt (hpos : 0 < parties.modulus) {a b r1 r2 c : Nat}
    (h : parties.packedOperands a b r1 r2 = .ok c) : c < parties.modulus * parties.modulus := by
  rcases bind_eq_ok.1 h with ⟨shifted, _, h⟩
  cases h
  exact Nat.mod_lt _ (Nat.mul_pos hpos hpos)

theorem maskedDifference_lt {message : String} {a b mask c : Nat} {draw : CompareDraw}
    (h : parties.maskedDifference message a b draw mask = .ok c) :
    c < parties.modulus * parties.modulus := by
  rcases bind_eq_ok.1 h with ⟨difference, _, h⟩
  rcases bind_eq_ok.1 h with ⟨scaled, _, h⟩
  rcases bind_eq_ok.1 h with ⟨_, hvalid, h⟩
  cases h
  exact (ensure_eq_ok.1 hvalid).2.1

theorem mem_tabulateM {n : Nat} {f : Nat → Except Error Nat} {ys : List Nat}
    (h : tabulateM n f = .ok ys) {y : Nat} (hy : y ∈ ys) : ∃ i, f i = .ok y := by
  rcases mem_right_of_forall₂ (mapM_eq_ok h) hy with ⟨i, _, hi⟩
  exact ⟨i, hi⟩

/-- A pack of two ciphertexts and its share fit into an item of request `B`. -/
theorem batchItems_fit {nonces : Nat → Nonce parties.modulus}
    (h : Connected parties server nonces env) {kind : Csp.BatchKind} {n base : Nat}
    (hbase : Short base) (hunused : kind = .compare → base = 0) {cs shares : List Nat}
    (hcs : cs.length = n ∧ ∀ c ∈ cs, c < parties.modulus * parties.modulus)
    (hshares : shares.length = n ∧ ∀ s ∈ shares, s < parties.modulus * parties.modulus) :
    ∀ item ∈ tabulate n fun i => (⟨cs.getD i 0, shares.getD i 0, base⟩ : Csp.BatchItem),
      Csp.BatchItem.Fits kind item := by
  intro item hitem
  rcases List.mem_map.1 hitem with ⟨i, hi, rfl⟩
  have hlt : i < n := List.mem_range.1 hi
  have hc : Short (cs.getD i 0) := by
    rw [List.getD_eq_getElem _ _ (hcs.1 ▸ hlt)]
    exact h.short (hcs.2 _ (List.getElem_mem _))
  have hs : Short (shares.getD i 0) := by
    rw [List.getD_eq_getElem _ _ (hshares.1 ▸ hlt)]
    exact h.short (hshares.2 _ (List.getElem_mem _))
  refine ⟨fun z hz => ?_, hunused⟩
  cases kind with
  | multiply =>
      rcases List.mem_cons.1 hz with rfl | hz
      · exact hc
      · rcases List.mem_cons.1 hz with rfl | hz
        · exact hs
        · rw [List.mem_singleton.1 hz]
          exact hbase
  | compare =>
      rcases List.mem_cons.1 hz with rfl | hz
      · exact hc
      · rw [List.mem_singleton.1 hz]
        exact hs

/-- A batch over the socket: the reply of the handler comes back, or the connection is closed. -/
theorem request_batch (sha256 : Bytes → Label) {nonces : Nat → Nonce parties.modulus}
    (h : Connected parties server nonces env) {kind : Csp.BatchKind} {items : List Csp.BatchItem}
    (hcount : 1 ≤ items.length ∧ items.length ≤ thresholdMaxBatchSize)
    (hitems : ∀ item ∈ items, Csp.BatchItem.Fits kind item) :
    Computes (fun t => ∃ request, t = server.heard request) server.Spoken server
      (parties.csp.requestPayload sha256 (batchBytes kind items) env)
      ((answered (parties.csp.batch kind items nonces)).map fun results =>
        batchReplyBytes results env.elapsed) := by
  have hframe := (length_batchBytes hcount.2 hitems).2
  have hgoes : (batchBytes kind items).head? ≠ some (byteOf 'Q') :=
    fun hQ => absurd (Option.some.inj hQ) (by decide)
  cases hbatch : parties.csp.batch kind items nonces with
  | error e =>
      have hthrows : parties.csp.answer sha256 (batchBytes kind items) env =
          lift (.error e) := by
        rw [Csp.answer_batch, answerBatch_error hcount hitems hbatch]
      exact ⟨_, requestPayload_throws h.phase hframe hthrows, Or.inr ⟨_, Or.inr ⟨e, rfl⟩⟩⟩
  | ok results =>
      rcases batch_ok hbatch with ⟨hlen, hlt⟩
      have hshort : ∀ r ∈ results, Short r := fun r hr => h.short (hlt r hr)
      have hreply := (length_batchReplyBytes (hlen.le.trans hcount.2) hshort env.elapsed).2
      refine ⟨_, requestPayload_replies h.phase (h.sends _) hframe hgoes hreply ?_, ⟨_, rfl⟩⟩
      rw [Csp.answer_batch, answerBatch_ok hcount hitems h.nonces hbatch hlen hshort]

theorem length_tabulate {α : Type} (n : Nat) (f : Nat → α) : (tabulate n f).length = n := by
  simp [tabulate]

theorem length_of_tabulateM {n : Nat} {f : Nat → Except Error Nat} {ys : List Nat}
    (h : tabulateM n f = .ok ys) : ys.length = n :=
  (length_of_mapM h).trans List.length_range

/-- A batch of multiplications over the socket returns what the handler's results give, and throws
what the direct call throws. -/
theorem requestMultiplyBatch_computes (nonces : parties.BatchNonces)
    (h : Connected parties server nonces.csp env) (items : List (Nat × Nat))
    (draws : Nat → MultiplyDraw) :
    Computes (fun t => ∃ request, t = server.heard request) server.Spoken server
      (parties.requestMultiplyBatch sha256 items draws nonces.masks nonces.last env)
      (parties.secureMultiplyBatch items draws nonces) := by
  unfold requestMultiplyBatch secureMultiplyBatch
  refine Computes.require_bind Iff.rfl (Or.inl rfl) fun hn => ?_
  refine Computes.lift_bind (Or.inl rfl) fun packed hpacked => ?_
  refine Computes.lift_bind (Or.inl rfl) fun shares hshares => ?_
  -- The packs and the shares are residues, so the request is a small frame.
  have hpacks : packed.length = items.length ∧
      ∀ c ∈ packed, c < parties.modulus * parties.modulus := by
    refine ⟨length_of_tabulateM hpacked, fun c hc => ?_⟩
    rcases mem_tabulateM hpacked hc with ⟨i, hi⟩
    exact packedOperands_lt h.pos hi
  have hshare : shares.length = items.length ∧
      ∀ s ∈ shares, s < parties.modulus * parties.modulus := by
    have hok := partialDecryptBatch_ok (h.modulus ▸ h.pos) hshares
    rw [h.modulus] at hok
    exact ⟨hok.1.trans hpacks.1, hok.2⟩
  have hbase : Short packingBase := (by decide : exportedSize packingBase ≤ 2048)
  have hfits := batchItems_fit h hbase (fun hkind : Csp.BatchKind.multiply = .compare =>
    absurd hkind (by decide)) hpacks hshare
  have hlen := length_tabulate items.length fun i =>
    (⟨packed.getD i 0, shares.getD i 0, packingBase⟩ : Csp.BatchItem)
  refine Computes.step (congrArg (lift · server) (batchRequest_eq (hlen.le.trans hn.2) hfits)) ?_
  have hexchange := request_batch sha256 h (hlen.symm ▸ hn) hfits
  dsimp only
  cases hbatch : parties.csp.batch .multiply (tabulate items.length fun i =>
      (⟨packed.getD i 0, shares.getD i 0, packingBase⟩ : Csp.BatchItem)) nonces.csp with
  | error e =>
      rw [hbatch] at hexchange
      rcases hexchange.throws rfl with ⟨t, hrun, ht⟩
      exact ⟨t, bind_of_error hrun, ht⟩
  | ok products =>
      rw [hbatch] at hexchange
      rcases hexchange.returns rfl with ⟨t, hrun, request, rfl⟩
      rcases batch_ok hbatch with ⟨hcount, hlt⟩
      rw [hlen] at hcount
      have hread := multiplyReply_readsBack (hcount.le.trans hn.2)
        (fun r hr => h.short (hlt r hr)) env.elapsed
      rw [hcount] at hread
      refine Computes.step hrun (Computes.step (congrArg (lift · _) hread) ?_)
      rw [answered_ok, ok_bind rfl, ok_bind (ensure_of hcount)]
      exact Computes.lift ⟨request, rfl⟩ (Or.inr ⟨request, Or.inl rfl⟩)

theorem requestCompareBatch_computes (nonces : parties.BatchNonces)
    (h : Connected parties server nonces.csp env) (items : List (Nat × Nat))
    (draws : Nat → CompareDraw) :
    Computes (fun t => ∃ request, t = server.heard request) server.Spoken server
      (parties.requestCompareBatch sha256 items draws nonces.masks nonces.last env)
      (parties.greaterThanBatch items draws nonces) := by
  unfold requestCompareBatch greaterThanBatch
  refine Computes.require_bind Iff.rfl (Or.inl rfl) fun hn => ?_
  refine Computes.lift_bind (Or.inl rfl) fun masked hmasked => ?_
  rcases masked with ⟨differences, shares⟩
  rcases bind_eq_ok.1 hmasked with ⟨ds, hds, hmasked⟩
  rcases bind_eq_ok.1 hmasked with ⟨ss, hss, hmasked⟩
  cases hmasked
  have hdifferences : differences.length = items.length ∧
      ∀ c ∈ differences, c < parties.modulus * parties.modulus := by
    refine ⟨length_of_tabulateM hds, fun c hc => ?_⟩
    rcases mem_tabulateM hds hc with ⟨i, hi⟩
    exact maskedDifference_lt hi
  have hshare : shares.length = items.length ∧
      ∀ s ∈ shares, s < parties.modulus * parties.modulus := by
    have hok := partialDecryptBatch_ok (h.modulus ▸ h.pos) hss
    rw [h.modulus] at hok
    exact ⟨hok.1.trans hdifferences.1, hok.2⟩
  have hbase : Short 0 := (by decide : exportedSize 0 ≤ 2048)
  have hfits := batchItems_fit h hbase (fun _ : Csp.BatchKind.compare = .compare => rfl)
    hdifferences hshare
  have hlen := length_tabulate items.length fun i =>
    (⟨differences.getD i 0, shares.getD i 0, 0⟩ : Csp.BatchItem)
  refine Computes.step (congrArg (lift · server) (batchRequest_eq (hlen.le.trans hn.2) hfits)) ?_
  have hexchange := request_batch sha256 h (hlen.symm ▸ hn) hfits
  dsimp only
  cases hbatch : parties.csp.batch .compare (tabulate items.length fun i =>
      (⟨differences.getD i 0, shares.getD i 0, 0⟩ : Csp.BatchItem)) nonces.csp with
  | error e =>
      rw [hbatch] at hexchange
      rcases hexchange.throws rfl with ⟨t, hrun, ht⟩
      exact ⟨t, bind_of_error hrun, ht⟩
  | ok bits =>
      rw [hbatch] at hexchange
      rcases hexchange.returns rfl with ⟨t, hrun, request, rfl⟩
      rcases batch_ok hbatch with ⟨hcount, hlt⟩
      rw [hlen] at hcount
      have hread := parties.compareReply_readsBack draws nonces.last
        (hcount.le.trans hn.2) (fun r hr => h.short (hlt r hr)) env.elapsed
      rw [hcount] at hread
      refine Computes.step hrun ?_
      rw [hread, answered_ok, ok_bind rfl, ok_bind (ensure_of hcount)]
      exact Computes.lift ⟨request, rfl⟩ (Or.inr ⟨request, Or.inl rfl⟩)

/-! ## The final bit -/

/-- What request `P` looks like. -/
def predicateBytes (context : PredicateContext) (c share : Nat) : Bytes :=
  byteOf 'P' :: typeByte context.predicateType :: 0 :: 0 ::
    (contextFields context ++ (integerBytes c ++ integerBytes share))

/-- What the parties find behind an encrypted bit; the CSP refuses another plaintext. -/
def finalPredicate (parties : Parties) (encryptedBit : Nat) : Except Error Bool := do
  let share ← partialDecrypt parties.cp encryptedBit
  let plaintext ← answered (parties.csp.decrypt encryptedBit share)
  ensure (plaintext = 0 ∨ plaintext = 1) (Error.backend "CSP request failed")
  return decide (plaintext = 1)

section

variable {context : PredicateContext} {c share : Nat}

theorem length_predicateBytes (hcontext : ContextFields context) (hc : Short c)
    (hshare : Short share) : 8 ≤ (predicateBytes context c share).length ∧
      (predicateBytes context c share).length ≤ maxFrame := by
  have hfields := length_contextFields hcontext
  have hcLen : (integerBytes c).length ≤ 4 + 2048 := by
    rw [length_integerBytes]
    exact Nat.add_le_add_left hc 4
  have hshareLen : (integerBytes share).length ≤ 4 + 2048 := by
    rw [length_integerBytes]
    exact Nat.add_le_add_left hshare 4
  have hdepth : 4 ≤ (contextFields context).length := by
    rw [contextFields, List.length_append, length_writeU32]
    exact Nat.le_add_right ..
  simp only [predicateBytes, List.length_cons, List.length_append, maxFrame]
  omega

/-- The ciphertext is written before it is decrypted. -/
theorem predicateRequest_eq (hcontext : ContextFields context) (hc : Short c) :
    parties.predicateRequest context c = partialDecrypt parties.cp c >>=
      appendInteger ([byteOf 'P', typeByte context.predicateType, 0, 0] ++
        contextFields context ++ integerBytes c) := by
  have hfields := length_contextFields hcontext
  have hsize : (integerBytes c).length ≤ 4 + 2048 := by
    rw [length_integerBytes]
    exact Nat.add_le_add_left hc 4
  have hfirst := appendInteger_eq ([byteOf 'P', typeByte context.predicateType, 0, 0] ++
    contextFields context) hc.writable (by
      rw [List.length_append, sizeMax]
      simp only [List.length_cons, List.length_nil]
      omega)
  rw [predicateRequest, ok_bind (appendContext_eq _ hcontext), ok_bind hfirst]

theorem appendShare_eq (hcontext : ContextFields context) (hc : Short c) (hshare : Short share) :
    appendInteger ([byteOf 'P', typeByte context.predicateType, 0, 0] ++
      contextFields context ++ integerBytes c) share = .ok (predicateBytes context c share) := by
  have hframe := (length_predicateBytes hcontext hc hshare).2
  have hbytes : [byteOf 'P', typeByte context.predicateType, 0, 0] ++ contextFields context ++
      integerBytes c ++ integerBytes share = predicateBytes context c share := by
    simp only [List.append_assoc]
    rfl
  rw [appendInteger_eq _ hshare.writable, hbytes]
  rw [← List.length_append, hbytes]
  exact hframe.trans (by decide)

/-- The CSP reads the ciphertext and the share, and does not look at the context. -/
theorem answerPredicate_predicateBytes (csp : Csp) (hcontext : Usable context) (hc : Short c)
    (hshare : Short share) :
    csp.answerPredicate (predicateBytes context c share) =
      csp.decrypt c share >>= fun predicate =>
        if predicate ≠ 0 ∧ predicate ≠ 1 then .ok [1]
        else .ok [0, if predicate = 1 then 1 else 0] := by
  have hbehind : Behind (predicateBytes context c share) 4
      (contextFields context ++ (integerBytes c ++ (integerBytes share ++ []))) := by
    rw [List.append_nil]
    exact behind_append [byteOf 'P', typeByte context.predicateType, 0, 0] _
  rcases readContext hcontext.fields hbehind with ⟨o₁, o₂, o₃, _, hs, ho, hnode, hrest⟩
  have hcRead := takeInteger_readsBack.next hc.writable hrest
  have hshareRead := takeInteger_readsBack.next hshare.writable hrest.skip
  have hsize := (length_predicateBytes hcontext.fields hc hshare).1
  unfold Csp.answerPredicate
  rw [ok_bind (ensure_of ⟨hsize, typeByte_range hcontext.type, rfl, rfl⟩), ok_bind hs]
  dsimp only
  rw [ok_bind ho]
  dsimp only
  rw [ok_bind hnode]
  dsimp only
  rw [ok_bind hcRead]
  dsimp only
  rw [ok_bind hshareRead]
  dsimp only
  rw [ok_bind (ensure_of hrest.skip.skip.end_eq)]
  rfl

end

theorem answer_predicate (sha256 : Bytes → Label) (csp : Csp) {context : PredicateContext}
    {c share : Nat} (env : Surroundings csp.modulus) :
    csp.answer sha256 (predicateBytes context c share) env =
      lift (csp.answerPredicate (predicateBytes context c share)) := by
  have hF : byteOf 'P' ≠ byteOf 'F' := by decide
  have hG : byteOf 'P' ≠ byteOf 'G' := by decide
  have hT : byteOf 'P' ≠ byteOf 'T' := by decide
  have hB : byteOf 'P' ≠ byteOf 'B' := by decide
  unfold Csp.answer predicateBytes
  dsimp only
  rw [if_neg hF, if_neg hG, if_neg hT, if_neg hB, if_pos rfl]

/-- The exchange inside the `try` block. -/
theorem reveal_exchange {nonces : Nat → Nonce parties.modulus}
    (h : Connected parties server nonces env) {context : PredicateContext}
    (hcontext : Usable context) {c : Nat} (hc : c < parties.modulus * parties.modulus) :
    Computes (fun t => ∃ request, t = server.heard request) server.Spoken server (do
      let request ← lift (parties.predicateRequest context c)
      let reply ← parties.csp.requestPayload sha256 request env
      require (reply.length = 1 ∧ reply.getD 0 0 ≤ 1)
        (Error.predicate "invalid threshold predicate response")
      return decide (reply.getD 0 0 = 1)) (finalPredicate parties c) := by
  cases hpartial : partialDecrypt parties.cp c with
  | error e =>
      have hfails : parties.predicateRequest context c = .error e :=
        (predicateRequest_eq hcontext.fields (h.short hc)).trans (error_bind hpartial)
      rw [finalPredicate, error_bind hpartial, hfails]
      exact ⟨server, bind_of_error rfl, Or.inl rfl⟩
  | ok share =>
      have hshare : share < parties.modulus * parties.modulus := by
        rw [partialDecrypt] at hpartial
        cases hecall : parties.cp.ecallPartialDecrypt c with
        | error e =>
            rw [hecall] at hpartial
            cases hpartial
        | ok s =>
            rw [hecall, hosted_ok] at hpartial
            cases hpartial
            rw [(ecallPartialDecrypt_eq_ok.1 hecall).2, EnclaveKey.nsq, h.modulus]
            exact Modular.powMod_lt (Nat.mul_pos h.pos h.pos)
      have hframe := (length_predicateBytes hcontext.fields (h.short hc) (h.short hshare)).2
      have hanswer := answerPredicate_predicateBytes parties.csp hcontext (h.short hc)
        (h.short hshare)
      have hgoes : (predicateBytes context c share).head? ≠ some (byteOf 'Q') :=
        fun hQ => absurd (Option.some.inj hQ) (by decide)
      rw [finalPredicate, ok_bind hpartial]
      have hrequest : parties.predicateRequest context c =
          .ok (predicateBytes context c share) := by
        rw [predicateRequest_eq hcontext.fields (h.short hc), ok_bind hpartial]
        exact appendShare_eq hcontext.fields (h.short hc) (h.short hshare)
      refine Computes.step (congrArg (lift · server) hrequest) ?_
      cases hplain : parties.csp.decrypt c share with
      | error e =>
          rw [hplain, error_bind rfl] at hanswer
          refine ⟨_, bind_of_error (requestPayload_throws (e := e) h.phase hframe ?_), Or.inr
            ⟨_, Or.inr ⟨e, rfl⟩⟩⟩
          rw [answer_predicate, hanswer]
      | ok plaintext =>
          rw [hplain, ok_bind rfl] at hanswer
          by_cases hbit : plaintext = 0 ∨ plaintext = 1
          · have hno : ¬ (plaintext ≠ 0 ∧ plaintext ≠ 1) := fun hne => hbit.elim hne.1 hne.2
            rw [if_neg hno] at hanswer
            have hrun := requestPayload_replies h.phase (h.sends _) hframe hgoes
              (by rw [maxFrame]; simp) ((answer_predicate sha256 parties.csp env).trans
                (congrArg _ hanswer))
            rw [answered_ok, ok_bind rfl, ok_bind (ensure_of hbit)]
            refine Computes.step hrun ?_
            -- the reply is the status and the bit
            rcases hbit with rfl | rfl
            · exact ⟨_, rfl, _, rfl⟩
            · exact ⟨_, rfl, _, rfl⟩
          · have hyes : plaintext ≠ 0 ∧ plaintext ≠ 1 := not_or.1 hbit
            rw [if_pos hyes] at hanswer
            have hrun := requestPayload_replies h.phase (h.sends _) hframe hgoes
              (by rw [maxFrame]; simp) ((answer_predicate sha256 parties.csp env).trans
                (congrArg _ hanswer))
            rw [answered_ok, ok_bind rfl, error_bind (ensure_of_not hbit)]
            exact ⟨_, bind_of_error hrun, Or.inr ⟨_, Or.inl rfl⟩⟩

theorem finalPredicate_error {c : Nat} {e : Error} (h : finalPredicate parties c = .error e) :
    ∃ message, e = Error.backend message := by
  have hhosted {α : Type} {message : String} {x : Except EnclaveFault α} {e : Error}
      (hx : hosted message x = .error e) : ∃ message, e = Error.backend message := by
    cases x with
    | ok a => cases hx
    | error fault => exact ⟨message, (Except.error.inj hx).symm⟩
  cases hpartial : partialDecrypt parties.cp c with
  | error e' =>
      rw [finalPredicate, error_bind hpartial] at h
      exact Except.error.inj h ▸ hhosted hpartial
  | ok share =>
      rw [finalPredicate, ok_bind hpartial] at h
      cases hplain : parties.csp.decrypt c share with
      | error e' =>
          rw [hplain] at h
          exact ⟨_, (Except.error.inj h).symm⟩
      | ok plaintext =>
          rw [hplain, answered_ok, ok_bind rfl] at h
          by_cases hbit : plaintext = 0 ∨ plaintext = 1
          · rw [ok_bind (ensure_of hbit)] at h
            cases h
          · rw [error_bind (ensure_of_not hbit)] at h
            exact ⟨_, (Except.error.inj h).symm⟩

theorem rethrownOther_computes {σ α : Type} {P F : σ → Prop} {s : σ} {m : EStateM Error σ α}
    {x : Except Error α} (error : Error) (h : Computes P F s m x)
    (hx : ∀ e, x = .error e → ∃ message, e = Error.backend message) :
    Computes P F s (rethrownOther error m) (x.mapError fun _ => error) := by
  cases x with
  | ok a =>
      rcases h with ⟨t, hrun, ht⟩
      exact ⟨t, by simp only [rethrownOther, hrun], ht⟩
  | error e =>
      rcases hx e rfl with ⟨message, rfl⟩
      rcases h with ⟨t, hrun, ht⟩
      exact ⟨t, by simp only [rethrownOther, hrun], ht⟩

/-- The reveal returns the bit that the parties decrypt, and tells nothing of another plaintext. -/
theorem revealFinalPredicate_computes {nonces : Nat → Nonce parties.modulus}
    (h : Connected parties server nonces env) {context : PredicateContext}
    (hcontext : Usable context) {c : Nat} (hc : c < parties.modulus * parties.modulus) :
    Computes (fun t => ∃ request, t = server.heard request) server.Spoken server
      (parties.revealFinalPredicate sha256 context c env)
      ((finalPredicate parties c).mapError fun _ =>
        Error.predicate "threshold predicate reveal failed") :=
  rethrownOther_computes _ (reveal_exchange h hcontext hc) fun _ he => finalPredicate_error he

/-! ## Over the socket -/

theorem finalPredicate_bit (h : parties.DecryptsCorrectly) (hmod : 1 < parties.modulus) {c : Nat}
    {p : Bool} (hc : Encrypts parties.modulus c p.toInt) : finalPredicate parties c = .ok p := by
  have hplain : (p.toInt % (parties.modulus : Int)).toNat = p.toNat := by
    cases p with
    | false => rfl
    | true =>
        have hone : (1 : Int) % (parties.modulus : Int) = 1 :=
          Int.emod_eq_of_lt (by decide) (by exact_mod_cast hmod)
        exact congrArg Int.toNat hone
  have hdecrypt := h.decrypt_csp hc
  rw [hplain] at hdecrypt
  have hbit : p.toNat = 0 ∨ p.toNat = 1 := by
    cases p
    · exact Or.inl rfl
    · exact Or.inr rfl
  rw [finalPredicate, ok_bind (h.partialDecrypt_cp hc), hdecrypt, answered_ok, ok_bind rfl,
    ok_bind (ensure_of hbit)]
  cases p <;> rfl

end Parties

end Protocol
end SociSgx

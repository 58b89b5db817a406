import SociSgx.Protocol.FusedCsp

/-!
# CspServer — `runThresholdCsp`

The CSP serves one connection after the other, and one frame after the other.  An exception in any
handler closes the connection and drops the pending transcript; the consumed pairs stay.
-/

namespace SociSgx
namespace Protocol

open Exec OffsetCodec

/-- What a request meets besides its own bytes: what the generators give, what the clock says, and
whether the reply can be sent. -/
structure Surroundings (modulus : Nat) where
  keys : Except Error (Nat → Nat)
  nonces : Except Error (Nat → Nonce modulus)
  timings : Nat → Nat
  elapsed : Nat
  send : Bytes → Except Error Unit

namespace Csp

variable (csp : Csp) (sha256 : Bytes → Label)

/-! ## Requests without a transcript -/

/-- `wire::appendU64` -/
def appendU64 (output : Bytes) (value : Nat) : Bytes :=
  output ++ BigEndian.toBytes 8 value

/-- Request `T`: the seven counters of `CspTimings`. -/
def answerTiming (request : Bytes) (env : Surroundings csp.modulus) : Except Error Bytes := do
  ensure (request.length = 1) (Error.backend "invalid timing request")
  return (tabulate 7 env.timings).foldl appendU64 ([0] ++ ascii "CSTM" ++ [1, 0, 0, 0])

/-- What request `M` encrypts. -/
def productPlaintext (ciphertext cpShare base : Nat) : Except Error Int := do
  ensure (1 < base) (Error.backend "invalid SMUL packing base")
  let plaintext ← csp.decrypt ciphertext cpShare
  return ((plaintext / base * (plaintext % base) : Nat) : Int)

/-- What request `C` encrypts. -/
def comparePlaintext (ciphertext cpShare : Nat) : Except Error Int := do
  let difference ← csp.decrypt ciphertext cpShare
  return csp.halfBit difference

/-- What request `B` encrypts. -/
def batchPlaintexts (kind : BatchKind) (items : List BatchItem) : Except Error (List Int) := do
  ensure (1 ≤ items.length ∧ items.length ≤ thresholdMaxBatchSize)
    (Error.backend "invalid batch count")
  ensure (∀ item ∈ items, 0 < item.ciphertext ∧ item.ciphertext < csp.modulus * csp.modulus ∧
      (kind = .multiply → 1 < item.base)) (Error.backend "invalid batch item")
  let plaintexts ← thresholdDecryptBatch csp.key (items.map BatchItem.ciphertext)
    (items.map BatchItem.cpShare)
  return tabulate items.length fun i =>
    csp.resultPlaintext kind (items.getD i { ciphertext := 0, cpShare := 0 }) (plaintexts.getD i 0)

theorem map_bind_except {α β γ : Type} (x : Except Error α) (f : α → Except Error β) (g : β → γ) :
    (x >>= f).map g = x >>= fun a => (f a).map g := by
  cases x <;> rfl

/-! The handler of a batch encrypts these, if the generator gives nonces. -/

theorem batch_eq (kind : BatchKind) (items : List BatchItem) (nonces : Nat → Nonce csp.modulus) :
    csp.batch kind items nonces =
      (csp.batchPlaintexts kind items).map (paillierEncryptBatch · csp.modulus nonces) := by
  unfold batch batchPlaintexts
  simp only [map_bind_except]
  rfl

def takeBatchItem (kind : BatchKind) (input : Bytes) (offset : Nat) :
    Except Error (BatchItem × Nat) := do
  let (ciphertext, offset) ← takeInteger input offset
  let (cpShare, offset) ← takeInteger input offset
  match kind with
  | .compare => return (⟨ciphertext, cpShare, 0⟩, offset)
  | .multiply => do
      let (base, offset) ← takeInteger input offset
      return (⟨ciphertext, cpShare, base⟩, offset)

/-- Request `B`. -/
def answerBatch (request : Bytes) (env : Surroundings csp.modulus) : Except Error Bytes := do
  ensure (8 ≤ request.length ∧
      (request.getD 1 0 = byteOf 'C' ∨ request.getD 1 0 = byteOf 'M') ∧
      request.getD 2 0 = 1 ∧ request.getD 3 0 = 0) (Error.backend "invalid batch header")
  let count := readU32 request 4
  ensure (count ≠ 0 ∧ count ≤ thresholdMaxBatchSize) (Error.backend "invalid batch count")
  let kind := if request.getD 1 0 = byteOf 'M' then BatchKind.multiply else BatchKind.compare
  let (items, offset) ← readMany (takeBatchItem kind) count request 8
  ensure (offset = request.length) (Error.backend "trailing batch request data")
  let plaintexts ← csp.batchPlaintexts kind items
  let nonces ← env.nonces
  let reply ← appendIntegers ([0, 1, 0, 0, 0] ++ writeU32 count)
    (paillierEncryptBatch plaintexts csp.modulus nonces)
  return appendU64 reply env.elapsed

/-- Request `P`: the context is parsed and not used. -/
def answerPredicate (request : Bytes) : Except Error Bytes := do
  ensure (8 ≤ request.length ∧ (1 ≤ request.getD 1 0 ∧ request.getD 1 0 ≤ 2) ∧
      request.getD 2 0 = 0 ∧ request.getD 3 0 = 0)
    (Error.backend "invalid predicate request header")
  let (_, offset) ← takeContextString request 8
  let (_, offset) ← takeContextString request offset
  let (_, offset) ← takeContextString request offset
  let (ciphertext, offset) ← takeInteger request offset
  let (cpShare, offset) ← takeInteger request offset
  ensure (offset = request.length) (Error.backend "trailing predicate request data")
  let predicate ← csp.decrypt ciphertext cpShare
  -- any other plaintext is refused, and the reply does not tell it
  if predicate ≠ 0 ∧ predicate ≠ 1 then
    return [1]
  else
    return [0, if predicate = 1 then 1 else 0]

/-- The loop over the rest of a request; `takeIntegers_ends` says that it has enough rounds. -/
def readValues (request : Bytes) : Except Error (List Nat) :=
  (takeIntegers request request.length 1).getD (.ok [])

theorem takeIntegers_ends {request : Bytes} (h : request ≠ []) :
    ∃ outcome, takeIntegers request request.length 1 = some outcome := by
  have hpos : 0 < request.length := List.length_pos_iff.2 h
  exact readAll_terminates takeInteger_advances request _ _ hpos (by omega)

/-- The requests with an operation byte and integers; `Q` ends the process behind this. -/
def answerValues (operation : UInt8) (request : Bytes) (env : Surroundings csp.modulus) :
    Except Error Bytes := do
  let values ← readValues request
  let answerWith (plaintext : Except Error Int) : Except Error Bytes := do
    let plaintext ← plaintext
    let nonces ← env.nonces
    appendInteger [0] (paillierEncrypt plaintext csp.modulus (nonces 0))
  -- `Q` succeeds with any integers; the others need theirs
  match values with
  | [ciphertext, cpShare] =>
      if operation = byteOf 'D' then do
        let plaintext ← csp.decrypt ciphertext cpShare
        appendInteger [0] plaintext
      else if operation = byteOf 'C' then
        answerWith (csp.comparePlaintext ciphertext cpShare)
      else
        return [if operation = byteOf 'Q' then 0 else 1]
  | [ciphertext, cpShare, base] =>
      if operation = byteOf 'M' then
        answerWith (csp.productPlaintext ciphertext cpShare base)
      else
        return [if operation = byteOf 'Q' then 0 else 1]
  | _ => return [if operation = byteOf 'Q' then 0 else 1]

/-! ## The server -/

/-- The reply to a request. -/
def answer (request : Bytes) (env : Surroundings csp.modulus) : CspM Bytes :=
  match request with
  | [] => throw (Error.backend "empty request")
  | operation :: _ =>
      if operation = byteOf 'F' then
        csp.startFused request env.keys
      else if operation = byteOf 'G' then
        finishFused sha256 request
      else if operation = byteOf 'T' then
        lift (csp.answerTiming request env)
      else if operation = byteOf 'B' then
        lift (csp.answerBatch request env)
      else if operation = byteOf 'P' then
        lift (csp.answerPredicate request)
      else
        lift (csp.answerValues operation request env)

/-- One round of the inner loop; the value tells whether the process ends. -/
def serve (frame : Except Error Bytes) (env : Surroundings csp.modulus) : CspM Bool := do
  let request ← lift frame
  emit (.received request)
  let reply ← csp.answer sha256 request env
  lift (env.send reply)
  if request.head? = some (byteOf 'Q') then
    -- the transcript goes with the process
    modify fun s => { s with pending := none }
    emit .stopped
    return true
  else
    return false

end Csp

/-- Where the process stands: in `accept`, in the inner loop, or behind its end. -/
inductive ServerPhase where
  | waiting
  | serving
  | stopped
  deriving DecidableEq, Repr

structure Server where
  phase : ServerPhase := .waiting
  state : CspState := {}
  deriving DecidableEq, Repr

/-- What comes from outside: a connection, or a frame of the connection that is open. -/
inductive Input (modulus : Nat) where
  | connect (noDelay : Except Error Unit)
  | frame (frame : Except Error Bytes) (env : Surroundings modulus)

namespace Server

variable (csp : Csp) (sha256 : Bytes → Label)

/-- The `catch` clause. -/
def reject (error : Error) (s : CspState) : Server where
  phase := .waiting
  state := { s with pending := none, events := s.events ++ [.rejected error] }

def connect (noDelay : Except Error Unit) : CspM Unit := do
  emit .connected
  lift noDelay

def step (server : Server) (input : Input csp.modulus) : Server :=
  match server.phase, input with
  | .waiting, .connect noDelay =>
      match connect noDelay server.state with
      | .ok _ s => { phase := .serving, state := s }
      | .error e s => reject e s
  | .serving, .frame frame env =>
      match csp.serve sha256 frame env server.state with
      | .ok ends s => { phase := if ends then .stopped else .serving, state := s }
      | .error e s => reject e s
  | _, _ => server

/-- The server after these inputs. -/
def run (inputs : List (Input csp.modulus)) : Server :=
  inputs.foldl (step csp sha256) {}

end Server

end Protocol
end SociSgx

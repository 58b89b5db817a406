import SociSgx.Protocol.Circuit
import SociSgx.Protocol.Csp

/-!
# FusedCsp — the two frames of a fused predicate

Frame `F` consumes the pair of session and operation, decrypts the masked differences, and leaves a
pending transcript; frame `G` evaluates the garbled circuit on it and answers the decision.  The set
of consumed pairs and the pending transcript are variables of `runThresholdCsp` that outlive the
connections.

What happens is written down in `events`; no function reads it.
-/

namespace SociSgx
namespace Protocol

open Exec OffsetCodec
open Secure (PredicateType)

/-! ## Frames of a fused predicate -/

/-- `RSA_F4` -/
def rsaF4 : Nat := 65537

def takeContextString (input : Bytes) (offset : Nat) : Except Error (Bytes × Nat) := do
  ensure (offset + 4 ≤ input.length) (Error.backend "short predicate context")
  let size := readU32 input offset
  let offset := offset + 4
  ensure (size ≠ 0 ∧ size ≤ 128 ∧ offset + size ≤ input.length)
    (Error.backend "invalid predicate context field")
  return ((input.drop offset).take size, offset + size)

/-- `static_cast<secure::PredicateType>` -/
def predicateTypeOf (value : UInt8) : PredicateType :=
  if value = 1 then .pruneNode
  else if value = 2 then .acceptCandidate
  else .other value

/-- What both frames of a fused predicate say about it. -/
structure FusedHeader where
  session : Bytes
  operation : Bytes
  node : Bytes
  type : PredicateType
  depth : Nat
  count : Nat
  deriving DecidableEq, Repr

/-- One comparison of a fused start: the masked difference and the nonces of its transfer. -/
structure OtItem where
  ciphertext : Nat
  cpShare : Nat
  x0 : Nat
  x1 : Nat
  deriving DecidableEq, Repr, Inhabited

def takeOtItem (rsaN : Nat) (input : Bytes) (offset : Nat) : Except Error (OtItem × Nat) := do
  let (ciphertext, offset) ← takeInteger input offset
  let (cpShare, offset) ← takeInteger input offset
  let (x0, offset) ← takeInteger input offset
  let (x1, offset) ← takeInteger input offset
  ensure ((0 < x0 ∧ x0 < rsaN) ∧ 0 < x1 ∧ x1 < rsaN) (Error.backend "bad fused OT nonce")
  return (⟨ciphertext, cpShare, x0, x1⟩, offset)

/-- A fused start behind its first four bytes. -/
structure FusedStart where
  header : FusedHeader
  incumbent : Bool
  rsaN : Nat
  items : List OtItem
  deriving DecidableEq, Repr

def parseFusedStart (request : Bytes) : Except Error FusedStart := do
  let (session, offset) ← takeContextString request 8
  let (operation, offset) ← takeContextString request offset
  let (node, offset) ← takeContextString request offset
  ensure (4 ≤ request.length - offset) (Error.backend "short fused predicate start")
  let count := readU32 request offset
  ensure (count ≠ 0 ∧ count ≤ thresholdMaxBatchSize) (Error.backend "bad fused comparison count")
  let (rsaN, offset) ← takeInteger request (offset + 4)
  let (rsaE, offset) ← takeInteger request offset
  ensure (sizeInBase2 rsaN = 3072 ∧ rsaE = rsaF4) (Error.backend "bad fused OT key")
  let (items, offset) ← readMany (takeOtItem rsaN) count request offset
  ensure (offset = request.length) (Error.backend "trailing fused start")
  return {
    header := {
      session := session
      operation := operation
      node := node
      type := predicateTypeOf (request.getD 1 0)
      depth := readU32 request 4
      count := count }
    incumbent := decide (request.getD 2 0 ≠ 0)
    rsaN := rsaN
    items := items }

/-- The header of a fused finish, and where its labels begin; the sizes behind the context are
checked by `evaluateFused`. -/
def parseFinishHeader (request : Bytes) : Except Error (FusedHeader × Nat) := do
  let (session, offset) ← takeContextString request 8
  let (operation, offset) ← takeContextString request offset
  let (node, offset) ← takeContextString request offset
  return ({
    session := session
    operation := operation
    node := node
    type := predicateTypeOf (request.getD 1 0)
    depth := readU32 request 4
    count := readU32 request offset }, offset)

/-! ## The state of the server -/

structure PendingFused where
  session : Bytes
  operation : Bytes
  node : Bytes
  type : PredicateType
  incumbent : Bool
  depth : Nat
  choices : List Bool
  keys : List Nat
  circuit : BooleanCircuit
  deriving DecidableEq, Repr

def PendingFused.header (p : PendingFused) : FusedHeader where
  session := p.session
  operation := p.operation
  node := p.node
  type := p.type
  depth := p.depth
  count := p.choices.length

/-- What the server does.  `started` is an `F` frame that it has accepted, and `decided` a decision
that it hands to the socket. -/
inductive Event where
  | connected
  | received (request : Bytes)
  | refused (session operation : Bytes)
  | consumed (session operation : Bytes)
  | decrypts (session operation : Bytes)
  | started (request : Bytes) (header : FusedHeader)
  | decided (request : Bytes) (header : FusedHeader) (decision : Bool)
  | rejected (error : Error)
  | stopped
  deriving DecidableEq, Repr

/-- `pending_fused` and `fused_replays`, and the events so far. -/
structure CspState where
  pending : Option PendingFused := none
  replays : List Bytes := []
  events : List Event := []
  deriving DecidableEq, Repr

abbrev CspM : Type → Type :=
  EStateM Error CspState

def emit (event : Event) : CspM Unit :=
  modify fun s => { s with events := s.events ++ [event] }

/-! ## The handlers of a fused predicate -/

namespace Csp

variable (csp : Csp) (sha256 : Bytes → Label)

/-- `paillier <= modulus / 2` -/
def choiceOf (plaintext : Nat) : Bool :=
  decide (plaintext ≤ csp.modulus / 2)

/-- The transferred value of a comparison: the nonce that was chosen, and the encrypted key. -/
def transferValue (rsaN : Nat) (item : OtItem) (choice : Bool) (key : Nat) : Nat :=
  ((if choice then item.x1 else item.x0) + Modular.powMod key rsaF4 rsaN) % rsaN

/-- `p.session+'\0'+p.operation` -/
def replayKey (session operation : Bytes) : Bytes :=
  session ++ 0 :: operation

/-- `fused_replays.insert(replay)`, and the exception if it was there. -/
def consume (session operation : Bytes) : CspM Unit := do
  let s ← get
  if s.replays.contains (replayKey session operation) then
    emit (.refused session operation)
    throw (Error.backend "fused predicate replay")
  else
    modify fun s => { s with replays := replayKey session operation :: s.replays }
    emit (.consumed session operation)

/-- What is checked before the frame is parsed. -/
def StartHead (pending : Option PendingFused) (request : Bytes) : Prop :=
  pending = none ∧ 8 ≤ request.length ∧
    (1 ≤ request.getD 1 0 ∧ request.getD 1 0 ≤ 2) ∧ request.getD 2 0 ≤ 1 ∧ request.getD 3 0 = 0

instance (pending : Option PendingFused) (request : Bytes) :
    Decidable (StartHead pending request) :=
  inferInstanceAs (Decidable (_ ∧ _ ∧ (_ ∧ _) ∧ _ ∧ _))

/-- Frame `F`; `draw` is what `randomBelowNonzero` returns in the loop over the comparisons. -/
def startFused (request : Bytes) (draw : Except Error (Nat → Nat)) : CspM Bytes := do
  let s ← get
  require (StartHead s.pending request) (Error.backend "invalid fused predicate start")
  let start ← lift (parseFusedStart request)
  let header := start.header
  -- the context is used up here, whatever fails below
  consume header.session header.operation
  let circuit ← lift (predicateCircuit header.type header.count start.incumbent)
  emit (.decrypts header.session header.operation)
  let plain ← lift (thresholdDecryptBatch csp.key (start.items.map OtItem.ciphertext)
    (start.items.map OtItem.cpShare))
  let key ← lift draw
  let choices := tabulate header.count fun i => csp.choiceOf (plain.getD i 0)
  let values := tabulate header.count fun i =>
    transferValue start.rsaN (start.items.getD i default) (choices.getD i false) (key i)
  let reply ← lift (appendIntegers (0 :: writeU32 header.count) values)
  modify fun s => { s with
    pending := some {
      session := header.session
      operation := header.operation
      node := header.node
      type := header.type
      incumbent := start.incumbent
      depth := header.depth
      choices := choices
      keys := tabulate header.count key
      circuit := circuit } }
  emit (.started request header)
  return reply

/-- The pair of labels of an input; the one that was chosen is opened. -/
def takeInputLabel (p : PendingFused) (request : Bytes) (i offset : Nat) :
    Except Error (Label × Nat) := do
  let (m0, offset) ← takeLabel request offset
  let (m1, offset) ← takeLabel request offset
  let chosen := if p.choices.getD i false then m1 else m0
  return (labelXor chosen (otPad sha256 (p.keys.getD i 0) i), offset)

/-- The loop over the inputs from `i` on. -/
def takeInputLabels (p : PendingFused) (request : Bytes) :
    Nat → Nat → Nat → Except Error (List Label × Nat)
  | 0, _, offset => .ok ([], offset)
  | count + 1, i, offset => do
      let (label, offset) ← takeInputLabel sha256 p request i offset
      let (labels, offset) ← takeInputLabels p request count (i + 1) offset
      return (label :: labels, offset)

/-- The rest of frame `G`, on the transcript that was pending. -/
def evaluateFused (p : PendingFused) (request : Bytes) : Except Error (FusedHeader × Bool) := do
  let (header, offset) ← parseFinishHeader request
  ensure (header.session = p.session ∧ header.operation = p.operation ∧ header.type = p.type ∧
      header.depth = p.depth ∧ header.node = p.node ∧ 8 ≤ request.length - offset)
    (Error.backend "fused context mismatch")
  -- the circuit is the pending one; of the client's only the size is compared
  let gates := readU32 request (offset + 4)
  ensure (header.count = p.choices.length ∧ gates = p.circuit.andGates.length)
    (Error.backend "fused circuit shape mismatch")
  let (inputs, offset) ← takeInputLabels sha256 p request header.count 0 (offset + 8)
  let (tables, offset) ← readMany (readMany takeLabel 4) gates request offset
  let (out0, offset) ← takeLabel request offset
  let (out1, offset) ← takeLabel request offset
  ensure (offset = request.length) (Error.backend "trailing fused finish")
  let labels ← evaluateWires sha256 p.circuit.andGates tables
    (p.circuit.wires.drop header.count) header.count 0
    (inputs ++ List.replicate (p.circuit.wires.length - header.count) 0)
  let output := labels.getD p.circuit.output 0
  -- the client garbled both values of the output, and the label must be one of them
  if output = out0 then
    return (header, false)
  else if output = out1 then
    return (header, true)
  else
    throw (Error.backend "invalid fused output label")

/-- Frame `G`: the transcript is gone, whatever comes of it. -/
def finishFused (request : Bytes) : CspM Bytes := do
  let s ← get
  match s.pending with
  | none => throw (Error.backend "invalid fused predicate finish")
  | some p =>
      require (8 ≤ request.length ∧ (1 ≤ request.getD 1 0 ∧ request.getD 1 0 ≤ 2) ∧
          request.getD 2 0 = 0 ∧ request.getD 3 0 = 0)
        (Error.backend "invalid fused predicate finish")
      modify fun s => { s with pending := none }
      let (header, decision) ← lift (evaluateFused sha256 p request)
      emit (.decided request header decision)
      return [0, if decision then 1 else 0]

end Csp

end Protocol
end SociSgx

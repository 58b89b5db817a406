import SociSgx.Protocol.Client
import SociSgx.Protocol.FusedFrames
import SociSgx.Runtime.CiphertextCodec

/-!
# FusedClient — `fusedPredicate` of the client

The client sends a fused predicate to the CSP and returns its decision.  The other end of the socket
is the server of `CspServer`: a request is a step of it, and its reply comes back.
-/

namespace SociSgx
namespace Protocol

open Exec Paillier
open Secure (PredicateContext PruneInputs AcceptInputs)

/-! ## Requests -/

namespace Csp

variable (csp : Csp) (sha256 : Bytes → Label)

/-- The part of a round that ends with the reply. -/
def respond (frame : Except Error Bytes) (env : Surroundings csp.modulus) : CspM Bytes := do
  let request ← lift frame
  emit (.received request)
  let reply ← csp.answer sha256 request env
  lift (env.send reply)
  return reply

/-- What comes back over the socket; an exception of the server closes it. -/
def reply (server : Server) (frame : Except Error Bytes) (env : Surroundings csp.modulus) :
    Except Error Bytes :=
  match server.phase with
  | .serving =>
      match csp.respond sha256 frame env server.state with
      | .ok reply _ => .ok reply
      | .error _ _ => .error (Error.backend "socket closed")
  | _ => .error (Error.backend "socket closed")

/-- `receiveFrame`, on a payload that was sent. -/
def receivePayload (payload : Bytes) : Except Error Bytes := do
  ensure (payload.length ≤ maxFrame) (Error.backend "frame too large")
  return payload

/-- `wire::requestPayload` -/
def requestPayload (payload : Bytes) (env : Surroundings csp.modulus) :
    EStateM Error Server Bytes := do
  require (payload.length ≤ uint32Max) (Error.backend "frame too large")
  let server ← get
  let frame := receivePayload payload
  modify fun server => server.step csp sha256 (.frame frame env)
  let reply ← lift (csp.reply sha256 server frame env)
  let reply ← lift (receivePayload reply)
  require (reply.head? = some 0) (Error.backend "CSP request failed")
  return reply.tail

end Csp

/-! ## `fusedPredicate` -/

/-- What `randomBelowNonzero` returns. -/
structure BelowNonzero (limit : Nat) where
  value : Nat
  pos : 0 < value
  lt : value < limit

/-- What the client draws for a fused predicate. -/
structure FusedDraws (modulus rsaN : Nat) where
  zero : Nonce modulus
  compare : Nat → CompareDraw
  masks : Nat → Nonce modulus
  x0 : Nat → BelowNonzero rsaN
  x1 : Nat → BelowNonzero rsaN
  delta : Label
  labels : Nat → Label

/-- `(v - x) % n` and the private exponent: the key behind `v` if `x` was chosen. -/
def OtKey.transferKey (ot : OtKey) (v x : Nat) : Nat :=
  let remainder := ((v : Int) - x).tmod ot.n
  let base := if remainder < 0 then remainder + ot.n else remainder
  Modular.powMod base.toNat ot.privateExponent ot.n

/-- `catch (const std::exception&) { throw error; }` -/
def rethrown {σ α : Type} (error : Error) (m : EStateM Error σ α) : EStateM Error σ α :=
  fun s => match m s with
    | .ok a s => .ok a s
    | .error _ s => .error error s

/-! ## Ciphertexts -/

/-- The exceptions of the codec among those of the protocol. -/
def thrownError : Runtime.Thrown → Error
  | .invalidArgument what => .backend what
  | .logicError what => .backend what
  | .filesystemError what => .backend what
  | .other what => .backend what

/-- `encodeCiphertext`: the integer in a ciphertext, which is positive. -/
def encodeCiphertext (mode : UInt8) (ciphertext : Secure.Ciphertext) : Except Error Nat := do
  ensure (ciphertext.bytes ≠ []) (Error.backend "empty ciphertext")
  let value ← (Runtime.decodeCanonicalCiphertext ciphertext.bytes mode).mapError thrownError
  return value.toNat

def encodePair (mode : UInt8) (a b : Secure.Ciphertext) : Except Error (Nat × Nat) := do
  let a ← encodeCiphertext mode a
  let b ← encodeCiphertext mode b
  return (a, b)

namespace Parties

variable (parties : Parties) (sha256 : Bytes → Label) (ot : OtKey)

/-- The items of frame `F`. -/
def otItems (count : Nat) (differences shares : List Nat)
    (draws : FusedDraws parties.modulus ot.n) : List OtItem :=
  tabulate count fun i =>
    { ciphertext := differences.getD i 0
      cpShare := shares.getD i 0
      x0 := (draws.x0 i).value
      x1 := (draws.x1 i).value }

/-- The two labels of an input under their pads; the orientation changes their places. -/
def transferPair (garbled : GarbledPredicate) (draws : FusedDraws parties.modulus ot.n)
    (v i : Nat) : LabelPair :=
  let zero := garbled.zero.getD i 0
  let one := labelXor zero garbled.delta
  let orientation := (draws.compare i).orientation
  let k0 := ot.transferKey v (draws.x0 i).value
  let k1 := ot.transferKey v (draws.x1 i).value
  { m0 := labelXor (if orientation then one else zero) (otPad sha256 k0 i)
    m1 := labelXor (if orientation then zero else one) (otPad sha256 k1 i) }

/-- What happens inside the `try` block. -/
def fusedExchange (context : PredicateContext) (items : List (Nat × Nat)) (hasIncumbent : Bool)
    (draws : FusedDraws parties.modulus ot.n) (startEnv finishEnv : Surroundings parties.modulus) :
    EStateM Error Server Bool := do
  let (differences, shares) ← lift (parties.maskedDifferences "invalid fused SCMP ciphertext" items
    draws.compare draws.masks)
  let request ← lift (fusedStartRequest ot context hasIncumbent
    (parties.otItems ot items.length differences shares draws))
  let reply ← parties.csp.requestPayload sha256 request startEnv
  let v ← lift (fusedStartReply items.length reply)
  -- nothing is garbled before the CSP has answered frame `F`
  let garbled ← lift (garblePredicate sha256 context.predicateType items.length hasIncumbent
    draws.delta draws.labels)
  let request ← lift (fusedFinishRequest context (tabulate items.length fun i =>
    parties.transferPair sha256 ot garbled draws (v.getD i 0) i) garbled)
  let decision ← parties.csp.requestPayload sha256 request finishEnv
  require (decision.length = 1 ∧ decision.getD 0 0 ≤ 1)
    (Error.backend "bad fused predicate decision")
  return decide (decision.getD 0 0 ≠ 0)

/-- `ThresholdProtocolClient::fusedPredicate` -/
def fusedPredicate (context : PredicateContext) (items : List (Nat × Nat)) (hasIncumbent : Bool)
    (draws : FusedDraws parties.modulus ot.n) (startEnv finishEnv : Surroundings parties.modulus) :
    EStateM Error Server Bool := do
  require (1 ≤ items.length ∧ items.length ≤ thresholdMaxBatchSize)
    (Error.predicate "invalid fused predicate batch size")
  rethrown (Error.predicate "fused predicate protocol failed")
    (parties.fusedExchange sha256 ot context items hasIncumbent draws startEnv finishEnv)

/-! ## The two predicates -/

/-- The comparisons of `fusedPruneNode`. -/
def pruneItems (mode : UInt8) (zeroCiphertext : Nat)
    (inputs : PruneInputs Secure.Ciphertext) :
    Except Error (List (Nat × Nat)) := do
  let linearUpper ← encodeCiphertext mode inputs.linearUpper
  if inputs.hasIncumbent then
    let lowers ← inputs.costLowers.mapM fun lower => encodePair mode lower inputs.incumbentCost
    return (zeroCiphertext, linearUpper) :: lowers
  else
    return [(zeroCiphertext, linearUpper)]

/-- The comparisons of `fusedAcceptCandidate`. -/
def acceptItems (mode : UInt8) (zeroCiphertext : Nat)
    (inputs : AcceptInputs Secure.Ciphertext) :
    Except Error (List (Nat × Nat)) := do
  let linear ← encodeCiphertext mode inputs.linear
  let c3 ← encodeCiphertext mode inputs.c3
  if inputs.hasIncumbent then
    let costLt ← encodePair mode inputs.incumbentCost inputs.cost
    let costGt ← encodePair mode inputs.cost inputs.incumbentCost
    let c12Lt ← encodePair mode inputs.incumbentC12 inputs.c12
    return [(zeroCiphertext, linear), (c3, zeroCiphertext), costLt, costGt, c12Lt]
  else
    return [(zeroCiphertext, linear), (c3, zeroCiphertext)]

/-- `ThresholdSecureOps::fusedPruneNode` -/
def fusedPruneNode (mode : UInt8) (context : PredicateContext)
    (inputs : PruneInputs Secure.Ciphertext) (draws : FusedDraws parties.modulus ot.n)
    (startEnv finishEnv : Surroundings parties.modulus) : EStateM Error Server Bool := do
  let items ← lift (pruneItems mode (paillierEncrypt 0 parties.modulus draws.zero) inputs)
  parties.fusedPredicate sha256 ot context items inputs.hasIncumbent draws startEnv finishEnv

/-- `ThresholdSecureOps::fusedAcceptCandidate` -/
def fusedAcceptCandidate (mode : UInt8) (context : PredicateContext)
    (inputs : AcceptInputs Secure.Ciphertext) (draws : FusedDraws parties.modulus ot.n)
    (startEnv finishEnv : Surroundings parties.modulus) : EStateM Error Server Bool := do
  let items ← lift (acceptItems mode (paillierEncrypt 0 parties.modulus draws.zero) inputs)
  parties.fusedPredicate sha256 ot context items inputs.hasIncumbent draws startEnv finishEnv

end Parties

end Protocol
end SociSgx

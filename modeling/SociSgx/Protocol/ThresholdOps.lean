import SociSgx.Protocol.Footprint
import SociSgx.Protocol.FusedDecision
import SociSgx.Protocol.NumericDomain

/-!
# ThresholdOps — `ThresholdSecureOps` and its client

The backend of the threshold protocol: its operations decode the ciphertexts, call the client, and
encode what comes back.  The state is the server at the other end of the socket, and the counters of
the client.  `thresholdOps_exact` says that this backend keeps the contract of `SecureOps`.

Clocks are left out, and the counters of the host's own encryptions and powers.
-/

namespace SociSgx
namespace Protocol

open Exec Paillier
open Secure (SecureM SecureOps ExactOps PredicateEngine PredicateContext PruneInputs AcceptInputs
  EncryptedBit)

/-! ## The client -/

/-- The counters of `ProtocolMetrics`; nothing updates the last two. -/
structure ProtocolMetrics where
  logicalItems : UInt64 := 0
  cpEcalls : UInt64 := 0
  cspRequests : UInt64 := 0
  cspEcalls : UInt64 := 0
  scmpLogicalItems : UInt64 := 0
  scmpDispatches : UInt64 := 0
  smulLogicalItems : UInt64 := 0
  smulDispatches : UInt64 := 0
  predicateReveals : UInt64 := 0
  secureBitAndItems : UInt64 := 0
  predicateCspEncryptions : UInt64 := 0
  predicateFinalThresholdDecrypts : UInt64 := 0
  deriving DecidableEq, Repr

namespace ProtocolMetrics

/-- What `secureMultiplyBatch` adds for `n` items. -/
def smul (n : Nat) (m : ProtocolMetrics) : ProtocolMetrics :=
  { m with
    logicalItems := m.logicalItems + UInt64.ofNat n
    smulLogicalItems := m.smulLogicalItems + UInt64.ofNat n
    smulDispatches := m.smulDispatches + 1
    cpEcalls := m.cpEcalls + 1
    cspEcalls := m.cspEcalls + 1
    cspRequests := m.cspRequests + 1 }

/-- What `greaterThanBatch` adds for `n` items. -/
def scmp (n : Nat) (m : ProtocolMetrics) : ProtocolMetrics :=
  { m with
    logicalItems := m.logicalItems + UInt64.ofNat n
    scmpLogicalItems := m.scmpLogicalItems + UInt64.ofNat n
    scmpDispatches := m.scmpDispatches + 1
    cpEcalls := m.cpEcalls + 1
    cspEcalls := m.cspEcalls + 1
    cspRequests := m.cspRequests + 1 }

/-- What `fusedPredicate` adds for `n` comparisons and the tables of its circuit. -/
def fused (n tables : Nat) (m : ProtocolMetrics) : ProtocolMetrics :=
  { m with
    logicalItems := m.logicalItems + UInt64.ofNat n
    scmpLogicalItems := m.scmpLogicalItems + UInt64.ofNat n
    scmpDispatches := m.scmpDispatches + 1
    cpEcalls := m.cpEcalls + 1
    cspEcalls := m.cspEcalls + 1
    cspRequests := m.cspRequests + 2
    predicateReveals := m.predicateReveals + 1
    secureBitAndItems := m.secureBitAndItems + UInt64.ofNat tables }

/-- What `revealFinalPredicate` adds. -/
def reveal (m : ProtocolMetrics) : ProtocolMetrics :=
  { m with
    predicateReveals := m.predicateReveals + 1
    cpEcalls := m.cpEcalls + 1
    cspEcalls := m.cspEcalls + 2
    cspRequests := m.cspRequests + 1 }

end ProtocolMetrics

/-- What the calls of a client draw, each of them its own, and what their requests meet. -/
structure CallDraws (parties : Parties) (ot : OtKey) where
  constant : Nonce parties.modulus
  multiply : Nat → Parties.MultiplyDraw
  compare : Nat → CompareDraw
  masks : Nat → Nonce parties.modulus
  last : Nat → Nonce parties.modulus
  fused : FusedDraws parties.modulus ot.n
  env : Surroundings parties.csp.modulus
  finishEnv : Surroundings parties.csp.modulus

/-- What does not change while a client runs; `fusion` is the value of `SOCI_PREDICATE_FUSION`. -/
structure Deployment where
  parties : Parties
  sha256 : Bytes → Label
  ot : OtKey
  mode : UInt8
  fusion : Option Bytes
  draws : Nat → CallDraws parties ot

/-- `calls` is no member of the source: it tells which draws come next. -/
structure ThresholdClient where
  metrics : ProtocolMetrics := {}
  calls : Nat := 0
  deriving DecidableEq, Repr

/-- The server at the other end of the socket, and the client. -/
abbrev ThresholdWorld : Type := Server × ThresholdClient

abbrev ThresholdM : Type → Type := SecureM ThresholdWorld

/-- `decodeCiphertext`: the ciphertext of an integer. -/
def decodeCiphertext (mode : UInt8) (value : Nat) : Except Error Secure.Ciphertext := do
  let bytes ← (Runtime.encodeCanonicalCiphertext mode value).mapError thrownError
  return ⟨bytes⟩

namespace Deployment

variable (d : Deployment)

def draw : ThresholdM (CallDraws d.parties d.ot) := fun world =>
  .ok (d.draws world.2.calls) (world.1, { world.2 with calls := world.2.calls + 1 })

def count (f : ProtocolMetrics → ProtocolMetrics) : ThresholdM Unit :=
  update fun client => { client with metrics := f client.metrics }

def secureMultiplyBatch (items : List (Nat × Nat)) : ThresholdM (List Nat) := do
  let draws ← d.draw
  let output ← onFst (d.parties.requestMultiplyBatch d.sha256 items draws.multiply draws.masks
    draws.last draws.env)
  count (ProtocolMetrics.smul items.length)
  return output

def greaterThanBatch (items : List (Nat × Nat)) : ThresholdM (List Nat) := do
  let draws ← d.draw
  let output ← onFst (d.parties.requestCompareBatch d.sha256 items draws.compare draws.masks
    draws.last draws.env)
  count (ProtocolMetrics.scmp items.length)
  return output

/-- The tables are those of the circuit that the call has garbled. -/
def fusedPredicate (context : PredicateContext) (items : List (Nat × Nat)) (hasIncumbent : Bool)
    (draws : CallDraws d.parties d.ot) : ThresholdM Bool := do
  let decision ← onFst (d.parties.fusedPredicate d.sha256 d.ot context items hasIncumbent
    draws.fused draws.env draws.finishEnv)
  let tables := match garblePredicate d.sha256 context.predicateType items.length hasIncumbent
      draws.fused.delta draws.fused.labels with
    | .ok garbled => garbled.tables.length
    | .error _ => 0
  count (ProtocolMetrics.fused items.length tables)
  return decision

/-! ## The members of `ThresholdSecureOps` -/

def encryptConstant (value : Int) : ThresholdM Secure.Ciphertext := do
  let draws ← d.draw
  lift (decodeCiphertext d.mode (paillierEncrypt value d.parties.modulus draws.constant))

def add (a b : Secure.Ciphertext) : ThresholdM Secure.Ciphertext := do
  let (a, b) ← lift (encodePair d.mode a b)
  lift (decodeCiphertext d.mode (Protocol.add d.parties.modulus a b))

def scalarMul (a : Secure.Ciphertext) (scalar : Int) : ThresholdM Secure.Ciphertext := do
  let a ← lift (encodeCiphertext d.mode a)
  let product ← lift (scalarMultiply d.parties.modulus a scalar)
  lift (decodeCiphertext d.mode product)

def secureMulBatch (items : List (Secure.Ciphertext × Secure.Ciphertext)) :
    ThresholdM (List Secure.Ciphertext) := do
  let native ← lift (items.mapM fun item => encodePair d.mode item.1 item.2)
  let values ← d.secureMultiplyBatch native
  lift (values.mapM (decodeCiphertext d.mode))

/-- A batch of one, of which the source reads `front()`. -/
def secureMul (a b : Secure.Ciphertext) : ThresholdM Secure.Ciphertext := do
  let item ← lift (encodePair d.mode a b)
  let values ← d.secureMultiplyBatch [item]
  lift (decodeCiphertext d.mode (values.headD 0))

def compareBatch (items : List (Secure.Ciphertext × Secure.Ciphertext)) :
    ThresholdM (List (EncryptedBit Secure.Ciphertext)) := do
  let native ← lift (items.mapM fun item => encodePair d.mode item.1 item.2)
  let values ← d.greaterThanBatch native
  let output ← lift (values.mapM (decodeCiphertext d.mode))
  return output.map EncryptedBit.mk

def compare (a b : Secure.Ciphertext) : ThresholdM (EncryptedBit Secure.Ciphertext) := do
  let item ← lift (encodePair d.mode a b)
  let values ← d.greaterThanBatch [item]
  let bit ← lift (decodeCiphertext d.mode (values.headD 0))
  return ⟨bit⟩

/-- Fusion is on unless the variable is `0`. -/
def fusionEnabled : Bool :=
  decide (d.fusion ≠ some (ascii "0"))

def fusedPruneNode (context : PredicateContext) (inputs : PruneInputs Secure.Ciphertext) :
    ThresholdM Bool := do
  let draws ← d.draw
  let items ← lift (Parties.pruneItems d.mode
    (paillierEncrypt 0 d.parties.modulus draws.fused.zero) inputs)
  d.fusedPredicate context items inputs.hasIncumbent draws

def fusedAcceptCandidate (context : PredicateContext) (inputs : AcceptInputs Secure.Ciphertext) :
    ThresholdM Bool := do
  let draws ← d.draw
  let items ← lift (Parties.acceptItems d.mode
    (paillierEncrypt 0 d.parties.modulus draws.fused.zero) inputs)
  d.fusedPredicate context items inputs.hasIncumbent draws

/-- `ThresholdSecureOps` -/
def ops (domain : Secure.NumericDomain) : SecureOps ThresholdWorld Secure.Ciphertext where
  encryptConstant := d.encryptConstant
  add := d.add
  scalarMul := d.scalarMul
  secureMul := d.secureMul
  secureMulBatch := d.secureMulBatch
  greaterThan := d.compare
  greaterThanBatch := d.compareBatch
  domain := domain
  fused := some
    { predicateFusionEnabled := pure d.fusionEnabled
      fusedPruneNode := d.fusedPruneNode
      fusedAcceptCandidate := d.fusedAcceptCandidate }

/-- `ThresholdPredicateBitResolver::revealFinalBit` -/
def revealFinalBit (context : PredicateContext) (bit : EncryptedBit Secure.Ciphertext) :
    ThresholdM Bool := do
  let draws ← d.draw
  let encryptedBit ← lift (encodeCiphertext d.mode bit.ciphertext)
  let predicate ← onFst (d.parties.revealFinalPredicate d.sha256 context encryptedBit draws.env)
  count ProtocolMetrics.reveal
  return predicate

end Deployment

end Protocol
end SociSgx

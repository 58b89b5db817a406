import SociSgx.Protocol.EnclaveCore
import SociSgx.Lib.IndexLoop

/-!
# Csp — what the CSP answers

The request handlers of `runThresholdCsp` on parsed integers: decryption, the single and the batched
multiplication, and the single and the batched comparison.
-/

namespace SociSgx
namespace Protocol

open Exec SociSgx.Modular Paillier

/-! ## Enclave calls -/

/-- The host turns a result code into an exception. -/
def hosted {α : Type} (message : String) (x : Except EnclaveFault α) : Except Error α :=
  x.mapError fun _ => Error.backend message

def partialDecrypt (key : EnclaveKey) (ciphertext : Nat) : Except Error Nat :=
  hosted "partial decrypt failed" (key.ecallPartialDecrypt ciphertext)

def partialDecryptBatch (key : EnclaveKey) (ciphertexts : List Nat) :
    Except Error (List Nat) := do
  ensure (1 ≤ ciphertexts.length ∧ ciphertexts.length ≤ thresholdMaxBatchSize)
    (Error.backend "invalid partial decrypt batch size")
  hosted "partial decrypt batch failed" (key.ecallPartialDecryptBatch ciphertexts)

def combineDecrypt (key : EnclaveKey) (cpShare cspShare : Nat) : Except Error Nat :=
  hosted "combine failed: sgx=0 result=1" (key.ecallCombineDecrypt cpShare cspShare)

def thresholdDecryptBatch (key : EnclaveKey) (ciphertexts cpShares : List Nat) :
    Except Error (List Nat) := do
  ensure (1 ≤ ciphertexts.length ∧ ciphertexts.length = cpShares.length ∧
      ciphertexts.length ≤ thresholdMaxBatchSize)
    (Error.backend "invalid threshold decrypt batch size")
  hosted "threshold decrypt batch failed"
    (key.ecallThresholdDecryptBatch (ciphertexts.zip cpShares))

/-! ## Handlers -/

/-- The public modulus and the loaded share of the CSP. -/
structure Csp where
  modulus : Nat
  key : EnclaveKey

namespace Csp

variable (csp : Csp)

/-- Request `D`. -/
def decrypt (ciphertext cpShare : Nat) : Except Error Nat := do
  let cspShare ← partialDecrypt csp.key ciphertext
  combineDecrypt csp.key cpShare cspShare

/-- Request `M`: the two masked factors are the quotient and the remainder by the packing base. -/
def multiply (ciphertext cpShare base : Nat) (nonce : Nonce csp.modulus) : Except Error Nat := do
  ensure (1 < base) (Error.backend "invalid SMUL packing base")
  let plaintext ← csp.decrypt ciphertext cpShare
  let maskedA := plaintext / base
  let maskedB := plaintext % base
  return paillierEncrypt ((maskedA * maskedB : Nat) : Int) csp.modulus nonce

/-- The bit that a comparison yields: the upper half of the residues is the negative one. -/
def halfBit (plaintext : Nat) : Int :=
  if plaintext > csp.modulus / 2 then 0 else 1

/-- Request `C`. -/
def compare (ciphertext cpShare : Nat) (nonce : Nonce csp.modulus) : Except Error Nat := do
  let difference ← csp.decrypt ciphertext cpShare
  return paillierEncrypt (csp.halfBit difference) csp.modulus nonce

/-- The two kinds of request `B`. -/
inductive BatchKind where
  | multiply
  | compare
  deriving DecidableEq, Repr

/-- `base` is read for multiplications only. -/
structure BatchItem where
  ciphertext : Nat
  cpShare : Nat
  base : Nat := 0
  deriving DecidableEq, Repr

def resultPlaintext (kind : BatchKind) (item : BatchItem) (plaintext : Nat) : Int :=
  match kind with
  | .multiply => ((plaintext / item.base * (plaintext % item.base) : Nat) : Int)
  | .compare => csp.halfBit plaintext

/-- Request `B`: every item is validated before any is decrypted. -/
def batch (kind : BatchKind) (items : List BatchItem) (nonces : Nat → Nonce csp.modulus) :
    Except Error (List Nat) := do
  ensure (1 ≤ items.length ∧ items.length ≤ thresholdMaxBatchSize)
    (Error.backend "invalid batch count")
  ensure (∀ item ∈ items, 0 < item.ciphertext ∧ item.ciphertext < csp.modulus * csp.modulus ∧
      (kind = .multiply → 1 < item.base)) (Error.backend "invalid batch item")
  let plaintexts ← thresholdDecryptBatch csp.key (items.map BatchItem.ciphertext)
    (items.map BatchItem.cpShare)
  let results := tabulate items.length fun i =>
    csp.resultPlaintext kind (items.getD i { ciphertext := 0, cpShare := 0 }) (plaintexts.getD i 0)
  return paillierEncryptBatch results csp.modulus nonces

end Csp

/-- What the client sees of a handler that threw: the CSP closes the connection. -/
def answered {α : Type} (x : Except Error α) : Except Error α :=
  x.mapError fun _ => Error.backend "socket closed"

@[simp]
theorem answered_ok {α : Type} (a : α) : answered (.ok a) = .ok a :=
  rfl

@[simp]
theorem hosted_ok {α : Type} (message : String) (a : α) : hosted message (.ok a) = .ok a :=
  rfl

end Protocol
end SociSgx

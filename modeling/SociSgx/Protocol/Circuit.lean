import SociSgx.Protocol.Wire
import SociSgx.Secure.Ops

/-!
# Circuit — a predicate as a circuit with labels on its wires

`predicateCircuit` builds the circuit of a predicate from the number of its comparisons.  A wire
that is a sum of other wires costs nothing; a wire without terms comes out of the next AND gate,
whose table is encrypted under the labels of its inputs.  The hash is a parameter.
-/

namespace SociSgx
namespace Protocol

open Exec BigEndian
open Secure (PredicateType)

/-! ## Circuits -/

structure BooleanGate where
  left : Nat
  right : Nat
  output : Nat
  deriving DecidableEq, Repr

/-- An XOR of other wires and a constant. -/
structure LinearWire where
  terms : List Nat
  constant : Bool := false
  deriving DecidableEq, Repr

structure BooleanCircuit where
  inputCount : Nat
  andGates : List BooleanGate := []
  wires : List LinearWire := []
  output : Nat := 0
  deriving DecidableEq, Repr

namespace BooleanCircuit

/-- The lambda `linear`: one more wire, and its number. -/
def linear (c : BooleanCircuit) (terms : List Nat) (constant : Bool) : Nat × BooleanCircuit :=
  (c.wires.length, { c with wires := c.wires ++ [⟨terms, constant⟩] })

/-- The lambda `land`: a wire without terms, and its gate. -/
def land (c : BooleanCircuit) (a b : Nat) : Nat × BooleanCircuit :=
  let (out, c) := c.linear [] false
  (out, { c with andGates := c.andGates ++ [⟨a, b, out⟩] })

/-- `a OR b`, as the sum of both and of their product. -/
def lor (c : BooleanCircuit) (a b : Nat) : Nat × BooleanCircuit :=
  let (p, c) := c.land a b
  c.linear [a, b, p] false

end BooleanCircuit

/-- The input wires. -/
def inputCircuit (comparisons : Nat) : BooleanCircuit where
  inputCount := comparisons
  wires := (List.range comparisons).map fun i => ⟨[i], false⟩

def pruneCircuit (comparisons : Nat) : BooleanCircuit :=
  let (folded, c) := (List.range' 2 (comparisons - 2)).foldl
    (fun (folded, c) i => c.lor folded i) (1, inputCircuit comparisons)
  let (output, c) := c.lor 0 folded
  { c with output := output }

def acceptCircuit (comparisons : Nat) (hasIncumbent : Bool) : BooleanCircuit :=
  let (linearGe, c) := (inputCircuit comparisons).linear [0] true
  let (feasible, c) := c.land linearGe 1
  if hasIncumbent = false then
    { c with output := feasible }
  else
    let (costEq, c) := c.linear [2, 3] true
    let (equalC12, c) := c.land costEq 4
    let (better, c) := c.linear [2, equalC12] false
    let (output, c) := c.land feasible better
    { c with output := output }

def predicateCircuit (type : PredicateType) (comparisons : Nat) (hasIncumbent : Bool) :
    Except Error BooleanCircuit :=
  match type with
  | .pruneNode =>
      -- without an incumbent only the feasibility decides; the comparisons behind it are inputs
      -- that no gate reads
      if hasIncumbent = false then
        .ok { inputCircuit comparisons with output := 0 }
      else if comparisons < 2 then
        .error (Error.backend "bad fused PRUNE comparison count")
      else
        .ok (pruneCircuit comparisons)
  | .acceptCandidate =>
      if comparisons = (if hasIncumbent then 5 else 2) then
        .ok (acceptCircuit comparisons hasIncumbent)
      else
        .error (Error.backend "bad fused ACCEPT comparison count")
  | .other _ => .error (Error.backend "bad fused ACCEPT comparison count")

/-! ## Labels -/

/-- The bits of the 32 bytes; the last byte has the lowest ones. -/
abbrev Label : Type :=
  BitVec 256

def labelXor (a b : Label) : Label :=
  a ^^^ b

/-- `label.back() & 1` -/
def lastBit (label : Label) : Bool :=
  label.getLsbD 0

/-- What `appendLabel` appends. -/
def labelBytes (label : Label) : Bytes :=
  toBytes 32 label.toNat

def takeLabel (input : Bytes) (offset : Nat) : Except Error (Label × Nat) := do
  ensure (32 ≤ input.length - offset) (Error.backend "short predicate label")
  return (BitVec.ofNat 256 (ofBytes ((input.drop offset).take 32)), offset + 32)

section Hashed

variable (sha256 : Bytes → Label)

def gatePad (a b : Label) (gate : Nat) : Label :=
  sha256 (labelBytes a ++ labelBytes b ++ writeU32 gate)

/-- The pad of a transferred label: the key as it is exported, and the number of the input. -/
def otPad (key index : Nat) : Label :=
  sha256 (magnitude key ++ writeU32 index)

/-- `((left.back()&1)<<1)|(right.back()&1)` -/
def tableRow (a b : Label) : Nat :=
  2 * (lastBit a).toNat + (lastBit b).toNat

/-- `labels.at(wire)` -/
def labelAt (labels : List Label) (wire : Nat) : Except Error Label :=
  match labels[wire]? with
  | some label => .ok label
  | none => .error (Error.backend "vector::_M_range_check")

def xorLabels (labels : List Label) (terms : List Nat) : Except Error Label :=
  terms.foldlM (fun z t => labelXor z <$> labelAt labels t) 0

/-! ## Evaluation -/

/-- The label behind a gate, from its table. -/
def evaluateGate (labels : List Label) (gate : BooleanGate) (gi : Nat) (table : List Label) :
    Except Error Label := do
  let left ← labelAt labels gate.left
  let right ← labelAt labels gate.right
  return labelXor (gatePad sha256 left right gi) (table.getD (tableRow left right) 0)

/-- The loop over the wires from number `w` on; `gi` is the number of the next gate. -/
def evaluateWires (gates : List BooleanGate) (tables : List (List Label)) :
    List LinearWire → Nat → Nat → List Label → Except Error (List Label)
  | [], _, _, labels => .ok labels
  | lin :: rest, w, gi, labels =>
      if lin.terms ≠ [] then do
        let z ← xorLabels labels lin.terms
        evaluateWires gates tables rest (w + 1) gi (labels.set w z)
      else
        match gates[gi]? with
        | none => .error (Error.backend "vector::_M_range_check")
        | some gate => do
            let z ← evaluateGate sha256 labels gate gi (tables.getD gi [])
            evaluateWires gates tables rest (w + 1) (gi + 1) (labels.set w z)

end Hashed

end Protocol
end SociSgx

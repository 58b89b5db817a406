import SociSgx.Lib.FreeXor
import SociSgx.Protocol.Circuit

/-!
# Garbling — `garblePredicate` and what its evaluation gives

The CP draws a zero label for every input and every gate and derives the other labels.  Whoever has
the labels of some input bits gets, on every wire, the label of the bit that the circuit computes.
-/

namespace SociSgx
namespace Protocol

open Exec FreeXor
open Secure (PredicateType)

structure GarbledPredicate where
  circuit : BooleanCircuit
  delta : Label
  zero : List Label
  tables : List (List Label)
  deriving DecidableEq, Repr

/-- The zero label of a wire that is a sum of others. -/
def linearZero (zero : List Label) (delta : Label) (lin : LinearWire) : Label :=
  let z := lin.terms.foldl (fun z t => labelXor z (zero.getD t 0)) 0
  if lin.constant then labelXor z delta else z

section Hashed

variable (sha256 : Bytes → Label)

/-- The four rows of a gate whose output has the zero label `output`. -/
def garbleGate (zero : List Label) (delta output : Label) (gate : BooleanGate) (gi : Nat) :
    List Label :=
  table (fun a b => gatePad sha256 a b gi) (zero.getD gate.left 0) (zero.getD gate.right 0) output
    delta

/-- The loop over the wires from number `w` on; `random w` is drawn for a wire behind a gate. -/
def garbleWires (gates : List BooleanGate) (delta : Label) (random : Nat → Label) :
    List LinearWire → Nat → Nat → List Label → Except Error (List Label × List (List Label))
  | [], _, _, zero => .ok (zero, [])
  | lin :: rest, w, gi, zero =>
      if lin.terms ≠ [] then
        garbleWires gates delta random rest (w + 1) gi (zero.set w (linearZero zero delta lin))
      else
        match gates[gi]? with
        | none => .error (Error.backend "vector::_M_range_check")
        | some gate => do
            let zero := zero.set w (random w)
            let (last, tables) ← garbleWires gates delta random rest (w + 1) (gi + 1) zero
            return (last, garbleGate sha256 zero delta (random w) gate gi :: tables)

/-- `garblePredicate`; `drawn` is what `randomLabel` gives for `delta`. -/
def garblePredicate (type : PredicateType) (count : Nat) (hasIncumbent : Bool) (drawn : Label)
    (random : Nat → Label) : Except Error GarbledPredicate := do
  let circuit ← predicateCircuit type count hasIncumbent
  let delta := drawn ||| 1
  let zero := (List.range count).map random ++
    List.replicate (circuit.wires.length - count) 0
  let (zero, tables) ← garbleWires sha256 circuit.andGates delta random
    (circuit.wires.drop count) count 0 zero
  return { circuit := circuit, delta := delta, zero := zero, tables := tables }

/-! ## The bits on the wires -/

def xorBits (bits : Nat → Bool) (terms : List Nat) : Bool :=
  terms.foldl (fun v t => v ^^ bits t) false

/-- The number of wires that come out of a gate. -/
def gateCount : List LinearWire → Nat
  | [] => 0
  | lin :: rest => (if lin.terms = [] then 1 else 0) + gateCount rest

/-- From wire `w` on, every wire reads earlier ones and has the bit that they give. -/
def Consistent (gates : List BooleanGate) (bits : Nat → Bool) :
    List LinearWire → Nat → Nat → Prop
  | [], _, _ => True
  | lin :: rest, w, gi =>
      if lin.terms ≠ [] then
        (∀ t ∈ lin.terms, t < w) ∧ bits w = (xorBits bits lin.terms ^^ lin.constant) ∧
          Consistent gates bits rest (w + 1) gi
      else
        (∃ gate, gates[gi]? = some gate ∧ gate.left < w ∧ gate.right < w ∧
          bits w = (bits gate.left && bits gate.right)) ∧
            Consistent gates bits rest (w + 1) (gi + 1)

variable {gates : List BooleanGate} {bits : Nat → Bool} {zero labels : List Label} {delta : Label}
  {w : Nat}

/-- The wires before `w` have the labels of their bits. -/
def Labelled (bits : Nat → Bool) (delta : Label) (zero labels : List Label) (w : Nat) : Prop :=
  ∀ t < w, labels[t]? = some (label (zero.getD t 0) delta (bits t))

theorem labelAt_eq (h : Labelled bits delta zero labels w) {t : Nat} (ht : t < w) :
    labelAt labels t = .ok (label (zero.getD t 0) delta (bits t)) := by
  rw [labelAt, h t ht]

theorem xorLabels_eq (h : Labelled bits delta zero labels w) :
    ∀ {terms : List Nat}, (∀ t ∈ terms, t < w) → ∀ (z : Label) (v : Bool),
      terms.foldlM (fun z t => labelXor z <$> labelAt labels t) (label z delta v) =
        .ok (label (terms.foldl (fun z t => labelXor z (zero.getD t 0)) z) delta
          (terms.foldl (fun v t => v ^^ bits t) v)) := by
  intro terms
  induction terms with
  | nil =>
      intro _ z v
      rfl
  | cons t terms ih =>
      intro hterms z v
      have ht := labelAt_eq h (hterms t List.mem_cons_self)
      have hstep : labelXor (label z delta v) <$> labelAt labels t =
          .ok (label (labelXor z (zero.getD t 0)) delta (v ^^ bits t)) := by
        rw [ht]
        exact congrArg Except.ok (label_xor z (zero.getD t 0) delta v (bits t))
      rw [List.foldlM_cons, ok_bind hstep, List.foldl_cons, List.foldl_cons]
      exact ih (fun t' ht' => hterms t' (List.mem_cons_of_mem _ ht')) _ _

theorem xorLabels_linear (h : Labelled bits delta zero labels w) {lin : LinearWire}
    (hterms : ∀ t ∈ lin.terms, t < w) :
    xorLabels labels lin.terms =
      .ok (label (linearZero zero delta lin) delta (xorBits bits lin.terms ^^ lin.constant)) := by
  have hzero : label (0 : Label) delta false = 0 := rfl
  have hfold := xorLabels_eq h hterms 0 false
  rw [hzero] at hfold
  rw [xorLabels, hfold, linearZero, xorBits]
  cases lin.constant
  · rw [Bool.xor_false, if_neg (by decide)]
  · rw [Bool.xor_true, if_pos rfl]
    exact congrArg Except.ok (by rw [labelXor, label_not, Bool.not_not])

/-- A wire gets its labels. -/
theorem Labelled.set (h : Labelled bits delta zero labels w) {z l : Label}
    (hzero : w < zero.length) (hlabels : w < labels.length) (hl : l = label z delta (bits w)) :
    Labelled bits delta (zero.set w z) (labels.set w l) (w + 1) := by
  intro t ht
  rcases Nat.lt_or_eq_of_le (Nat.le_of_lt_succ ht) with hlt | rfl
  · rw [List.getElem?_set_ne (Nat.ne_of_gt hlt), List.getD_eq_getElem?_getD,
      List.getElem?_set_ne (Nat.ne_of_gt hlt), ← List.getD_eq_getElem?_getD]
    exact h t hlt
  · rw [List.getElem?_set_self hlabels, List.getD_eq_getElem?_getD, List.getElem?_set_self hzero,
      hl]
    rfl

/-- The labels of a gate open one row of its table. -/
theorem evaluateGate_eq (hdelta : delta.getLsbD 0 = true) (h : Labelled bits delta zero labels w)
    {gate : BooleanGate} (hleft : gate.left < w) (hright : gate.right < w) (gi : Nat)
    (output : Label) :
    evaluateGate sha256 labels gate gi (garbleGate sha256 zero delta output gate gi) =
      .ok (label output delta (bits gate.left && bits gate.right)) := by
  unfold evaluateGate
  rw [ok_bind (labelAt_eq h hleft), ok_bind (labelAt_eq h hright)]
  exact congrArg Except.ok (open_table (fun a b => gatePad sha256 a b gi) _ _ output hdelta _ _)

theorem garbleGate_set (zero : List Label) (z delta output : Label) {gate : BooleanGate}
    (hleft : gate.left < w) (hright : gate.right < w) (gi : Nat) :
    garbleGate sha256 (zero.set w z) delta output gate gi =
      garbleGate sha256 zero delta output gate gi := by
  have hread (t : Nat) (ht : t < w) : (zero.set w z).getD t 0 = zero.getD t 0 := by
    rw [List.getD_eq_getElem?_getD, List.getElem?_set_ne (Nat.ne_of_gt ht),
      ← List.getD_eq_getElem?_getD]
  rw [garbleGate, garbleGate, hread _ hleft, hread _ hright]

variable {random : Nat → Label}

/-- Garbling ends, with a table for each gate, and keeps the labels that are there. -/
theorem garbleWires_ok (delta : Label) (random : Nat → Label) :
    ∀ {rest : List LinearWire} {w gi : Nat} (zero : List Label), Consistent gates bits rest w gi →
      ∃ last tables, garbleWires sha256 gates delta random rest w gi zero = .ok (last, tables) ∧
        last.length = zero.length ∧ tables.length = gateCount rest ∧
          (∀ rows ∈ tables, rows.length = 4) ∧ ∀ t < w, last[t]? = zero[t]? := by
  intro rest
  induction rest with
  | nil =>
      exact fun {w gi} zero _ => ⟨zero, [], rfl, rfl, rfl, List.forall_mem_nil _, fun _ _ => rfl⟩
  | cons lin rest ih =>
      intro w gi zero hc
      have hset {z : Label} {last : List Label}
          (h : ∀ t < w + 1, last[t]? = (zero.set w z)[t]?) (t : Nat) (ht : t < w) :
          last[t]? = zero[t]? := by
        rw [h t (by omega), List.getElem?_set_ne (Nat.ne_of_gt ht)]
      unfold Consistent at hc
      unfold garbleWires gateCount
      by_cases hlin : lin.terms = []
      · rw [if_neg (not_not.2 hlin)] at hc
        rcases hc with ⟨⟨gate, hgate, -⟩, hrest⟩
        rcases ih (zero.set w (random w)) hrest with
          ⟨last, tables, hrun, hlast, hlen, hrows, hkept⟩
        refine ⟨last, garbleGate sha256 (zero.set w (random w)) delta (random w) gate gi :: tables,
          ?_, hlast.trans List.length_set, ?_, ?_, hset hkept⟩
        · rw [if_neg (not_not.2 hlin), hgate]
          exact bind_eq_ok.2 ⟨_, hrun, rfl⟩
        · rw [if_pos hlin, List.length_cons, hlen, Nat.add_comm]
        · exact List.forall_mem_cons.2 ⟨length_table .., hrows⟩
      · rw [if_pos hlin] at hc
        rcases ih (zero.set w (linearZero zero delta lin)) hc.2.2 with
          ⟨last, tables, hrun, hlast, hlen, hrows, hkept⟩
        refine ⟨last, tables, ?_, hlast.trans List.length_set, ?_, hrows, hset hkept⟩
        · rw [if_pos hlin]
          exact hrun
        · rw [if_neg hlin, hlen, Nat.zero_add]

/-- The evaluation follows the garbling wire by wire. -/
theorem evaluateWires_ok (hdelta : delta.getLsbD 0 = true) :
    ∀ {rest : List LinearWire} {w gi : Nat} {zero labels last : List Label}
      {tables all : List (List Label)},
      Consistent gates bits rest w gi → zero.length = w + rest.length →
        labels.length = w + rest.length → Labelled bits delta zero labels w →
          garbleWires sha256 gates delta random rest w gi zero = .ok (last, tables) →
            all.drop gi = tables →
              ∃ labels', evaluateWires sha256 gates all rest w gi labels = .ok labels' ∧
                Labelled bits delta last labels' (w + rest.length) := by
  intro rest
  induction rest with
  | nil =>
      intro w gi zero labels last tables all _ _ _ hlabelled hgarbled _
      cases hgarbled
      exact ⟨labels, rfl, hlabelled⟩
  | cons lin rest ih =>
      intro w gi zero labels last tables all hc hzero hlabels hlabelled hgarbled hall
      rw [List.length_cons] at hzero hlabels
      have hw : w < zero.length ∧ w < labels.length := by omega
      have hnext : w + (lin :: rest).length = w + 1 + rest.length := by
        rw [List.length_cons]
        omega
      unfold Consistent at hc
      unfold garbleWires at hgarbled
      unfold evaluateWires
      rw [hnext]
      by_cases hlin : lin.terms = []
      · rw [if_neg (not_not.2 hlin)] at hc hgarbled ⊢
        rcases hc with ⟨⟨gate, hgate, hleft, hright, hbit⟩, hrest⟩
        rw [hgate] at hgarbled ⊢
        rcases bind_eq_ok.1 hgarbled with ⟨⟨last', rows⟩, hrun, hdone⟩
        cases hdone
        -- The row table of this gate is the next one in the list.
        have htable : all.getD gi [] = garbleGate sha256 (zero.set w (random w)) delta (random w)
            gate gi := by
          have hhead := congrArg List.head? hall
          rw [List.head?_drop] at hhead
          rw [List.getD_eq_getElem?_getD, hhead]
          rfl
        have htail : all.drop (gi + 1) = rows := by
          rw [← List.tail_drop, hall]
          rfl
        have hvalue := evaluateGate_eq sha256 hdelta hlabelled hleft hright gi (random w)
        rw [← hbit] at hvalue
        have hset := hlabelled.set (z := random w) hw.1 hw.2 rfl
        rcases ih hrest (by rw [List.length_set]; omega) (by rw [List.length_set]; omega) hset hrun
          htail with ⟨labels', heval, hlabelled'⟩
        refine ⟨labels', ?_, hlabelled'⟩
        dsimp only
        rw [htable, garbleGate_set sha256 zero (random w) delta (random w) hleft hright gi,
          ok_bind hvalue]
        exact heval
      · rw [if_pos hlin] at hc hgarbled ⊢
        rcases hc with ⟨hterms, hbit, hrest⟩
        have hvalue := xorLabels_linear hlabelled hterms
        rw [← hbit] at hvalue
        have hset := hlabelled.set (z := linearZero zero delta lin) hw.1 hw.2 rfl
        rcases ih hrest (by rw [List.length_set]; omega) (by rw [List.length_set]; omega) hset
          hgarbled hall with ⟨labels', heval, hlabelled'⟩
        refine ⟨labels', ?_, hlabelled'⟩
        rw [ok_bind hvalue]
        exact heval

end Hashed

end Protocol
end SociSgx

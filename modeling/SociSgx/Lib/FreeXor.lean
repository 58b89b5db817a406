import Mathlib

/-!
# FreeXor — garbled gates whose labels differ by one secret

Every wire has a label for the bit zero; its label for the bit one is that label plus `delta`.  The
sum of two labels is then a label of the sum of the bits, and negation moves the zero label by
`delta`.  The table of an AND gate has one row for each pair of labels, found by their lowest bits,
which are different because `delta` is odd.
-/

namespace SociSgx
namespace FreeXor

variable {n : Nat}

/-- The label of a bit. -/
def label (zero delta : BitVec n) (bit : Bool) : BitVec n :=
  if bit then zero ^^^ delta else zero

variable {zero delta : BitVec n}

theorem label_xor (a b delta : BitVec n) (v w : Bool) :
    label a delta v ^^^ label b delta w = label (a ^^^ b) delta (v ^^ w) := by
  cases v <;> cases w
  · rfl
  · exact (BitVec.xor_assoc a b delta).symm
  · change (a ^^^ delta) ^^^ b = (a ^^^ b) ^^^ delta
    rw [BitVec.xor_assoc, BitVec.xor_comm delta b, BitVec.xor_assoc]
  · change (a ^^^ delta) ^^^ (b ^^^ delta) = a ^^^ b
    rw [BitVec.xor_comm b delta, ← BitVec.xor_assoc, BitVec.xor_assoc a delta delta,
      BitVec.xor_self, BitVec.xor_zero]

theorem label_not (zero delta : BitVec n) (v : Bool) :
    label (zero ^^^ delta) delta v = label zero delta (!v) := by
  cases v
  · rfl
  · change (zero ^^^ delta) ^^^ delta = zero
    rw [BitVec.xor_assoc, BitVec.xor_self, BitVec.xor_zero]

/-- The lowest bits of the two labels of a wire are different. -/
theorem getLsbD_label (hdelta : delta.getLsbD 0 = true) (v : Bool) :
    (label zero delta v).getLsbD 0 = (zero.getLsbD 0 ^^ v) := by
  cases v
  · exact (Bool.xor_false _).symm
  · change (zero ^^^ delta).getLsbD 0 = _
    rw [BitVec.getLsbD_xor, hdelta]

theorem label_inj (hdelta : delta.getLsbD 0 = true) {v w : Bool}
    (h : label zero delta v = label zero delta w) : v = w := by
  have hbits := congrArg (fun x => x.getLsbD 0) h
  rw [getLsbD_label hdelta, getLsbD_label hdelta] at hbits
  exact Bool.xor_right_inj.1 hbits

/-! ## Gates -/

/-- The row of two labels. -/
def row (a b : BitVec n) : Nat :=
  2 * (a.getLsbD 0).toNat + (b.getLsbD 0).toNat

/-- The table of an AND gate: under the pad of each pair of labels the label of their product. -/
def table (pad : BitVec n → BitVec n → BitVec n) (left right output delta : BitVec n) :
    List (BitVec n) :=
  [(false, false), (false, true), (true, false), (true, true)].foldl
    (fun rows (v : Bool × Bool) =>
      rows.set (row (label left delta v.1) (label right delta v.2))
        (pad (label left delta v.1) (label right delta v.2) ^^^ label output delta (v.1 && v.2)))
    (List.replicate 4 0)

theorem length_table (pad : BitVec n → BitVec n → BitVec n) (left right output delta : BitVec n) :
    (table pad left right output delta).length = 4 := by
  simp [table]

/-- The rows of a gate are different, so each keeps what was written into it. -/
theorem getD_set_rows {β : Type} (c d : Bool) (f : Bool → Bool → β) (fill : β) (v w : Bool) :
    (([(false, false), (false, true), (true, false), (true, true)] : List (Bool × Bool)).foldl
      (fun rows u => rows.set (2 * (c ^^ u.1).toNat + (d ^^ u.2).toNat) (f u.1 u.2))
      (List.replicate 4 fill)).getD (2 * (c ^^ v).toNat + (d ^^ w).toNat) fill = f v w := by
  cases c <;> cases d <;> cases v <;> cases w <;> rfl

/-- Who has one label of each input wire gets the label of the product. -/
theorem open_table (pad : BitVec n → BitVec n → BitVec n) (left right output : BitVec n)
    (hdelta : delta.getLsbD 0 = true) (v w : Bool) :
    pad (label left delta v) (label right delta w) ^^^
        (table pad left right output delta).getD
          (row (label left delta v) (label right delta w)) 0 =
      label output delta (v && w) := by
  have hrow (v w : Bool) : row (label left delta v) (label right delta w) =
      2 * (left.getLsbD 0 ^^ v).toNat + (right.getLsbD 0 ^^ w).toNat := by
    rw [row, getLsbD_label hdelta, getLsbD_label hdelta]
  have hopen := getD_set_rows (left.getLsbD 0) (right.getLsbD 0)
    (fun v w => pad (label left delta v) (label right delta w) ^^^ label output delta (v && w))
    0 v w
  rw [table]
  simp only [hrow]
  rw [hopen, ← BitVec.xor_assoc, BitVec.xor_self, BitVec.zero_xor]

end FreeXor
end SociSgx

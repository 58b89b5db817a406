import SociSgx.Optimizer.FixedPoint

/-!
# DecimalText — integers as decimal texts

The C API takes and returns plaintexts as texts.  `mpz_set_str` passes over white space, in front of
the numeral and between its digits; `get_str` writes the digits alone.
-/

namespace SociSgx
namespace Runtime

open Optimization (isSpace)

/-- The value of a digit in base ten. -/
def digitValue (c : UInt8) : Option Nat :=
  if 48 ≤ c ∧ c ≤ 57 then some (c.toNat - 48) else none

/-- The digits of a numeral, behind those that make up `value`. -/
def readDigits (value : Nat) : Bytes → Option Nat
  | [] => some value
  | c :: rest =>
      if isSpace c then
        readDigits value rest
      else
        match digitValue c with
        | some d => readDigits (10 * value + d) rest
        | none => none

/-- `mpz_set_str(z, text, 10)`; a numeral begins with a digit, also behind its sign. -/
def setStr (text : Bytes) : Option Int :=
  let text := text.dropWhile isSpace
  let negative := decide (text.head? = some 45)
  let digits := if negative then text.tail else text
  match digits with
  | [] => none
  | c :: _ =>
      if (digitValue c).isSome then
        (readDigits 0 digits).map fun n => if negative then -(n : Int) else n
      else
        none

/-- `get_str()`, and `std::to_string` of a signed integer. -/
def getStr (z : Int) : Bytes :=
  if z < 0 then 45 :: decimal z.natAbs else decimal z.natAbs

/-! ## The round trip -/

theorem digitValue_byteOf {c : Char} (hc : c.isDigit) :
    digitValue (byteOf c) = some (c.toNat - 48) ∧ isSpace (byteOf c) = false := by
  have hrange := digit_range hc
  have hvalue := toNat_byteOf_digit hc
  have hlow : (48 : UInt8) ≤ byteOf c := UInt8.le_iff_toNat_le.2 (by rw [hvalue]; exact hrange.1)
  have hhigh : byteOf c ≤ (57 : UInt8) := UInt8.le_iff_toNat_le.2 (by rw [hvalue]; exact hrange.2)
  refine ⟨by rw [digitValue, if_pos ⟨hlow, hhigh⟩, hvalue], ?_⟩
  have hne : ∀ b : UInt8, b.toNat < 48 → byteOf c ≠ b := by
    rintro b hb rfl
    omega
  have hgap : ¬ (byteOf c ≤ (13 : UInt8)) := by
    rw [UInt8.le_iff_toNat_le, hvalue]
    exact fun hle => absurd (hrange.1.trans hle) (by decide)
  simp [isSpace, hne 32 (by decide), hgap]

theorem readDigits_map {cs : List Char} (h : ∀ c ∈ cs, c.isDigit) (value : Nat) :
    readDigits value (cs.map byteOf) = some (Nat.ofDigitChars 10 cs value) := by
  induction cs generalizing value with
  | nil => rfl
  | cons c cs ih =>
      rcases List.forall_mem_cons.1 h with ⟨hc, hcs⟩
      rcases digitValue_byteOf hc with ⟨hvalue, hspace⟩
      rw [List.map_cons, readDigits, hspace, hvalue]
      exact (ih hcs _).trans (congrArg some Nat.ofDigitChars_cons.symm)

/-- A numeral begins with a digit. -/
theorem decimal_cons (n : Nat) : ∃ c rest, decimal n = byteOf c :: rest ∧ c.isDigit := by
  rcases List.exists_cons_of_ne_nil (Nat.toDigits_ne_nil : Nat.toDigits 10 n ≠ []) with
    ⟨c, cs, hdigits⟩
  have hc : c ∈ Nat.toDigits 10 n := by
    rw [hdigits]
    exact List.mem_cons_self
  exact ⟨c, cs.map byteOf, by rw [decimal, hdigits, List.map_cons], isDigit_of_mem_digits hc⟩

theorem readDigits_decimal (n : Nat) : readDigits 0 (decimal n) = some n := by
  rw [decimal, readDigits_map fun c hc => isDigit_of_mem_digits hc, Nat.ofDigitChars_ten_toDigits]

/-- What `get_str` writes is read back. -/
theorem setStr_getStr (z : Int) : setStr (getStr z) = some z := by
  rcases decimal_cons z.natAbs with ⟨c, rest, hdecimal, hc⟩
  rcases digitValue_byteOf hc with ⟨hvalue, hspace⟩
  have hread := readDigits_decimal z.natAbs
  rw [hdecimal] at hread
  unfold getStr
  by_cases hneg : z < 0
  · have hsign : isSpace 45 = false := by decide
    have habs : -|z| = z := by rw [abs_of_neg hneg, neg_neg]
    rw [if_pos hneg, hdecimal]
    simp [setStr, hsign, hvalue, hread, habs]
  · have hminus : byteOf c ≠ 45 := by
      intro heq
      have hdigit := toNat_byteOf_digit hc
      rw [heq] at hdigit
      exact absurd (digit_range hc).1 (by rw [← hdigit]; decide)
    have habs : |z| = z := abs_of_nonneg (not_lt.1 hneg)
    rw [if_neg hneg, hdecimal]
    simp [setStr, hspace, hminus, hvalue, hread, habs]

/-- White space counts for nothing, and a sign stands alone before the first digit. -/
example : setStr (ascii " -1 024") = some (-1024) ∧ setStr (ascii "- 1") = none := by decide

end Runtime
end SociSgx

import Mathlib

/-!
# Basic — bytes, identifiers, exceptions

The vocabulary the components share.  A `std::string` is its list of bytes.
-/

namespace SociSgx

abbrev Bytes := List UInt8

/-- The byte of an ASCII character. -/
def byteOf (c : Char) : UInt8 :=
  UInt8.ofNat c.toNat

/-- The bytes of a string literal of the source. -/
def ascii (s : String) : Bytes :=
  s.toList.map byteOf

/-- `std::to_string` of an unsigned integer. -/
def decimal (n : Nat) : Bytes :=
  (Nat.toDigits 10 n).map byteOf

/-- `std::isalnum` in the C locale. -/
def isAlnum (c : UInt8) : Bool :=
  (48 ≤ c && c ≤ 57) || (65 ≤ c && c ≤ 90) || (97 ≤ c && c ≤ 122)

/-- A byte that `validIdentifier` lets through: a letter, a digit, `-`, `_`, `.` or `:`. -/
def identifierByte (c : UInt8) : Bool :=
  isAlnum c || c == 45 || c == 95 || c == 46 || c == 58

/-- The solver and the predicate engine have the same check. -/
def validIdentifier (value : Bytes) : Bool :=
  !value.isEmpty && value.length ≤ 128 && value.all identifierByte

inductive Status where
  | optimal
  | invalidArgument
  | noFeasibleSolution
  | numericRangeExceeded
  deriving DecidableEq, Repr

/-- What the components throw: `OptimizationError`, `PredicateError`, or an error of a backend. -/
inductive Error where
  | optimization (status : Status) (message : String)
  | predicate (message : String)
  | backend (message : String)
  deriving DecidableEq, Repr

def Error.invalid (message : String) : Error :=
  .optimization .invalidArgument message

def Error.outOfRange (message : String) : Error :=
  .optimization .numericRangeExceeded message

/-- `std::numeric_limits<std::int64_t>::max()` -/
def int64Max : Int := 2 ^ 63 - 1

/-! ## Decimal numerals -/

theorem digit_range {c : Char} (hc : c.isDigit) : 48 ≤ c.toNat ∧ c.toNat ≤ 57 := by
  simp only [Char.isDigit, Bool.and_eq_true, decide_eq_true_eq] at hc
  exact ⟨UInt32.le_iff_toNat_le.1 hc.1, UInt32.le_iff_toNat_le.1 hc.2⟩

theorem toNat_byteOf_digit {c : Char} (hc : c.isDigit) : (byteOf c).toNat = c.toNat := by
  have h := digit_range hc
  simp only [byteOf, UInt8.toNat_ofNat']
  omega

theorem isDigit_of_mem_digits {n : Nat} {c : Char} (h : c ∈ Nat.toDigits 10 n) : c.isDigit :=
  Nat.isDigit_of_mem_toDigits (by decide) (by decide) h

theorem mem_decimal_range {n : Nat} {b : UInt8} (h : b ∈ decimal n) :
    48 ≤ b.toNat ∧ b.toNat ≤ 57 := by
  rcases List.mem_map.1 h with ⟨c, hc, rfl⟩
  have hd := isDigit_of_mem_digits hc
  rw [toNat_byteOf_digit hd]
  exact digit_range hd

theorem decimal_injective : Function.Injective decimal := by
  intro m n h
  have hread : ∀ k, (decimal k).map (fun b => Char.ofNat b.toNat) = Nat.toDigits 10 k := by
    intro k
    rw [decimal, List.map_map]
    refine (List.map_congr_left fun c hc => ?_).trans (List.map_id _)
    have hd := isDigit_of_mem_digits hc
    simp [toNat_byteOf_digit hd]
  have hdigits : Nat.toDigits 10 m = Nat.toDigits 10 n := by
    rw [← hread m, ← hread n, h]
  calc
    m = Nat.ofDigitChars 10 (Nat.toDigits 10 m) 0 := Nat.ofDigitChars_ten_toDigits.symm
    _ = Nat.ofDigitChars 10 (Nat.toDigits 10 n) 0 := by rw [hdigits]
    _ = n := Nat.ofDigitChars_ten_toDigits

theorem decimal_ne_nil (n : Nat) : decimal n ≠ [] := by
  simp [decimal, Nat.toDigits_ne_nil]

theorem length_decimal_uint64 (n : UInt64) : (decimal n.toNat).length ≤ 20 := by
  rw [decimal, List.length_map, Nat.length_toDigits_le_iff (by decide) (by decide)]
  have h := n.toNat_lt
  omega

theorem identifierByte_of_mem_decimal {n : Nat} {b : UInt8} (h : b ∈ decimal n) :
    identifierByte b = true := by
  have hr := mem_decimal_range h
  have h1 : (48 : UInt8) ≤ b := UInt8.le_iff_toNat_le.2 hr.1
  have h2 : b ≤ (57 : UInt8) := UInt8.le_iff_toNat_le.2 hr.2
  simp [identifierByte, isAlnum, h1, h2]

/-- A short identifier prefix followed by a 64-bit numeral is an identifier. -/
theorem validIdentifier_append_decimal {name : Bytes} (hlen : name.length ≤ 108)
    (hname : name.all identifierByte = true) (n : UInt64) :
    validIdentifier (name ++ decimal n.toNat) = true := by
  have hnil := decimal_ne_nil n.toNat
  have hnum := length_decimal_uint64 n
  have hall : ∀ b ∈ decimal n.toNat, identifierByte b = true :=
    fun b hb => identifierByte_of_mem_decimal hb
  have hall' : (decimal n.toNat).all identifierByte = true := List.all_eq_true.2 hall
  have hle : name.length + (decimal n.toNat).length ≤ 128 := by omega
  simp only [validIdentifier, List.all_append, hname, hall', List.length_append, hle]
  simp [hnil]

end SociSgx

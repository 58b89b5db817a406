import SociSgx.Lib.Exec
import SociSgx.Optimizer.Assignment

/-!
# FixedPoint — costs and thresholds as integers

Costs and the threshold arrive as decimal strings.  `parseFixedPoint` reads one at the scale
1000000, `encode` reads a matrix and bounds the sum of its largest costs, so that the plain solver
computes within 64 bits.
-/

namespace SociSgx
namespace Optimization

open Exec

def kScale : Int := 1000000

def kFixedSafe : Int := int64Max / 16

/-! ## Decimal strings -/

/-- `std::isspace` in the C locale. -/
def isSpace (c : UInt8) : Bool :=
  c == 32 || (9 ≤ c && c ≤ 13)

def isDigit (c : UInt8) : Bool :=
  48 ≤ c && c ≤ 57

def trimFixed (value : Bytes) : Bytes :=
  ((value.dropWhile isSpace).reverse.dropWhile isSpace).reverse

/-- The value that `std::stoll` reads from a string of digits. -/
def digitsValue (s : Bytes) : Int :=
  s.foldl (fun v c => 10 * v + (c.toNat - 48)) 0

def unsigned (s : Bytes) : Bytes :=
  if s.head? = some 43 then s.tail else s

/-- The digits before the first dot; `0` if there are none. -/
def wholePart (s : Bytes) : Bytes :=
  let whole := s.takeWhile (· ≠ 46)
  if whole.isEmpty then [48] else whole

/-- What follows the first dot. -/
def fractionPart (s : Bytes) : Bytes :=
  (s.dropWhile (· ≠ 46)).tail

/-- `resize(6)` of a longer fraction, zeros after a shorter one. -/
def sixDigits (fraction : Bytes) : Bytes :=
  fraction.take 6 ++ List.replicate (6 - fraction.length) 48

def parseFixedPoint (input : Bytes) (threshold : Bool) : Except Error Int := do
  let s := trimFixed input
  ensure (s ≠ [] ∧ s.head? ≠ some 45) (Error.invalid "negative or empty decimal")
  let whole := wholePart (unsigned s)
  let fraction := fractionPart (unsigned s)
  ensure (46 ∉ fraction) (Error.invalid "invalid decimal")
  ensure (whole.all isDigit = true ∧ fraction.all isDigit = true) (Error.invalid "invalid decimal")
  ensure ((fraction.drop 6).all (· == 48) = true) (Error.invalid "more than six decimal places")
  let wholeValue := digitsValue whole
  let fractionValue := digitsValue (sixDigits fraction)
  -- `std::stoll` throws on larger numbers, which the handler turns into the same error.
  ensure (wholeValue ≤ int64Max) (Error.outOfRange "fixed-point value exceeds safe range")
  ensure (wholeValue ≤ (kFixedSafe - fractionValue) / kScale)
    (Error.outOfRange "fixed-point value exceeds safe range")
  let result := wholeValue * kScale + fractionValue
  ensure (threshold = true → result < kScale)
    (Error.invalid "ratio_threshold must satisfy 0 <= T < 1")
  return result

/-! ## Matrices -/

/-- A row of decimal strings. -/
abbrev CostMatrix := List (CostRow Bytes)

structure Encoded where
  costs : List (CostRow Int)
  threshold : Int

def decimalCell : Option Bytes → Except Error (Option Int)
  | none => return none
  | some text => do
      let value ← parseFixedPoint text false
      return some value

def encodeRow (row : CostRow Bytes) : Except Error (CostRow Int) := do
  let first ← decimalCell (row 0)
  let second ← decimalCell (row 1)
  let third ← decimalCell (row 2)
  ensure (first.isSome ∨ second.isSome ∨ third.isSome)
    (.optimization .noFeasibleSolution "each material needs an available method")
  return ![first, second, third]

/-- `row_max` -/
def rowMax (row : CostRow Int) : Int :=
  (options row).foldl (fun largest c => max largest c.cost) 0

def validateAggregate (maxTotal : Int) : Except Error Unit :=
  ensure (0 ≤ maxTotal ∧ maxTotal * kScale ≤ kFixedSafe)
    (Error.outOfRange "aggregate fixed-point range exceeded")

def encode (matrix : CostMatrix) (threshold : Bytes) : Except Error Encoded := do
  ensure (matrix ≠ []) (Error.invalid "cost matrix must not be empty")
  let thresholdValue ← parseFixedPoint threshold true
  let costs ← matrix.mapM encodeRow
  validateAggregate (costs.map rowMax).sum
  return ⟨costs, thresholdValue⟩

/-! ## What acceptance says -/

theorem digitsValue_nonneg {s : Bytes} (h : s.all isDigit = true) : 0 ≤ digitsValue s := by
  have hfold : ∀ (s : Bytes) (v : Int), s.all isDigit = true → 0 ≤ v →
      0 ≤ s.foldl (fun (v : Int) (c : UInt8) => 10 * v + (c.toNat - 48)) v := by
    intro s
    induction s with
    | nil => exact fun v _ hv => hv
    | cons c s ih =>
        intro v hdigits hv
        rw [List.all_cons, Bool.and_eq_true] at hdigits
        refine ih _ hdigits.2 ?_
        have hc : 48 ≤ c.toNat := by
          have hle : (48 : UInt8) ≤ c := by
            simpa [isDigit] using (Bool.and_eq_true_iff.1 hdigits.1).1
          exact UInt8.le_iff_toNat_le.1 hle
        change 0 ≤ 10 * v + ((c.toNat : Int) - 48)
        omega
  exact hfold s 0 h le_rfl

theorem parseFixedPoint_ok {input : Bytes} {threshold : Bool} {value : Int}
    (h : parseFixedPoint input threshold = .ok value) :
    0 ≤ value ∧ (threshold = true → value < kScale) := by
  rcases bind_eq_ok.1 h with ⟨_, _, h⟩
  rcases bind_eq_ok.1 h with ⟨_, _, h⟩
  rcases bind_eq_ok.1 h with ⟨_, hdigits, h⟩
  rcases bind_eq_ok.1 h with ⟨_, _, h⟩
  rcases bind_eq_ok.1 h with ⟨_, _, h⟩
  rcases bind_eq_ok.1 h with ⟨_, _, h⟩
  rcases bind_eq_ok.1 h with ⟨_, hthreshold, h⟩
  cases h
  rw [ensure_eq_ok] at hdigits hthreshold
  refine ⟨?_, hthreshold⟩
  have hwhole := digitsValue_nonneg hdigits.1
  have hfraction : 0 ≤ digitsValue (sixDigits (fractionPart (unsigned (trimFixed input)))) := by
    refine digitsValue_nonneg ?_
    rw [sixDigits, List.all_append, Bool.and_eq_true]
    refine ⟨List.all_eq_true.2 fun c hc => ?_, ?_⟩
    · exact List.all_eq_true.1 hdigits.2 c (List.mem_of_mem_take hc)
    · exact List.all_eq_true.2 fun c hc => by rw [List.eq_of_mem_replicate hc]; rfl
  have hscale : (0 : Int) ≤ kScale := by decide
  exact add_nonneg (mul_nonneg hwhole hscale) hfraction

/-- A matrix that `encode` accepts. -/
structure Encoded.Accepted (model : Encoded) : Prop where
  nonempty : model.costs ≠ []
  threshold : 0 ≤ model.threshold ∧ model.threshold < kScale
  available : ∀ row ∈ model.costs, options row ≠ []
  costs : ∀ row ∈ model.costs, ∀ c ∈ options row, 0 ≤ c.cost
  aggregate : (model.costs.map rowMax).sum * kScale ≤ kFixedSafe

theorem decimalCell_ok {cell : Option Bytes} {value : Option Int}
    (h : decimalCell cell = .ok value) : ∀ x, value = some x → 0 ≤ x := by
  cases cell with
  | none =>
      cases h
      intro x hx
      cases hx
  | some text =>
      rcases bind_eq_ok.1 h with ⟨parsed, hparsed, hvalue⟩
      cases hvalue
      rintro x ⟨⟩
      exact (parseFixedPoint_ok hparsed).1

theorem encodeRow_ok {row : CostRow Bytes} {encoded : CostRow Int}
    (h : encodeRow row = .ok encoded) :
    options encoded ≠ [] ∧ ∀ c ∈ options encoded, 0 ≤ c.cost := by
  rcases bind_eq_ok.1 h with ⟨first, hfirst, h⟩
  rcases bind_eq_ok.1 h with ⟨second, hsecond, h⟩
  rcases bind_eq_ok.1 h with ⟨third, hthird, h⟩
  rcases bind_eq_ok.1 h with ⟨_, hany, h⟩
  cases h
  rw [ensure_eq_ok] at hany
  refine ⟨?_, ?_⟩
  · rcases hany with hsome | hsome | hsome
    · rcases Option.isSome_iff_exists.1 hsome with ⟨x, rfl⟩
      exact options_ne_nil (m := 0) rfl
    · rcases Option.isSome_iff_exists.1 hsome with ⟨x, rfl⟩
      exact options_ne_nil (m := 1) rfl
    · rcases Option.isSome_iff_exists.1 hsome with ⟨x, rfl⟩
      exact options_ne_nil (m := 2) rfl
  · rintro ⟨m, x⟩ hc
    have hx := mem_options.1 hc
    match m with
    | 0 => exact decimalCell_ok hfirst x hx
    | 1 => exact decimalCell_ok hsecond x hx
    | 2 => exact decimalCell_ok hthird x hx

theorem encode_accepted {matrix : CostMatrix} {threshold : Bytes} {model : Encoded}
    (h : encode matrix threshold = .ok model) : model.Accepted := by
  rcases bind_eq_ok.1 h with ⟨_, hmatrix, h⟩
  rcases bind_eq_ok.1 h with ⟨thresholdValue, hthreshold, h⟩
  rcases bind_eq_ok.1 h with ⟨costs, hcosts, h⟩
  rcases bind_eq_ok.1 h with ⟨_, haggregate, h⟩
  cases h
  rw [ensure_eq_ok] at hmatrix
  rw [validateAggregate, ensure_eq_ok] at haggregate
  have hrows := mapM_eq_ok hcosts
  have hrow : ∀ row ∈ costs, options row ≠ [] ∧ ∀ c ∈ options row, 0 ≤ c.cost := by
    intro row hmem
    rcases mem_right_of_forall₂ hrows hmem with ⟨_, _, hencoded⟩
    exact encodeRow_ok hencoded
  refine ⟨?_, ?_, fun row hmem => (hrow row hmem).1, fun row hmem => (hrow row hmem).2,
    haggregate.2⟩
  · rintro rfl
    exact hmatrix (List.length_eq_zero_iff.1 hrows.length_eq)
  · exact ⟨(parseFixedPoint_ok hthreshold).1, (parseFixedPoint_ok hthreshold).2 rfl⟩

end Optimization
end SociSgx

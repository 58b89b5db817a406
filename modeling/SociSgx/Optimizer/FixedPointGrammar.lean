import SociSgx.Optimizer.FixedPoint

/-!
# FixedPointGrammar — which strings `parseFixedPoint` reads, and as what

A decimal string is a numeral with at least one digit and at most one dot, after an optional plus
sign, surrounded by white space.  The parser agrees with this grammar but for three strings
without a digit, which it reads as zero.
-/

namespace SociSgx
namespace Optimization

open Exec

/-! ## The grammar -/

/-- The number that a string of digits stands for. -/
def numeral (s : Bytes) : Nat :=
  Nat.ofDigits 10 (s.reverse.map fun c => c.toNat - 48)

/-- A numeral with its digits before and after the dot; one of them is there. -/
inductive IsNumeral : Bytes → Bytes → Bytes → Prop
  | integer {whole : Bytes} (hdigits : ∀ c ∈ whole, isDigit c = true) (hne : whole ≠ []) :
      IsNumeral whole whole []
  | decimal {whole fraction : Bytes} (hwhole : ∀ c ∈ whole, isDigit c = true)
      (hfraction : ∀ c ∈ fraction, isDigit c = true) (hne : whole ++ fraction ≠ []) :
      IsNumeral (whole ++ 46 :: fraction) whole fraction

/-- White space, an optional plus sign, a numeral and white space. -/
def Reads (s whole fraction : Bytes) : Prop :=
  ∃ front sign body back, s = front ++ (sign ++ body) ++ back ∧
    (∀ c ∈ front, isSpace c = true) ∧ (∀ c ∈ back, isSpace c = true) ∧
    (sign = [] ∨ sign = [43]) ∧ IsNumeral body whole fraction

/-- The string stands for `v` millionths, and `v` is in range. -/
def Denotes (s : Bytes) (threshold : Bool) (v : Int) : Prop :=
  ∃ whole fraction, Reads s whole fraction ∧ (∀ c ∈ fraction.drop 6, c = 48) ∧
    (v : ℚ) = (numeral whole + numeral fraction / 10 ^ fraction.length) * 1000000 ∧
    v ≤ kFixedSafe ∧ (threshold = true → v < kScale)

/-! ## Digits -/

theorem numeral_append (a b : Bytes) :
    numeral (a ++ b) = numeral a * 10 ^ b.length + numeral b := by
  rw [numeral, List.reverse_append, List.map_append, Nat.ofDigits_append]
  simp only [numeral, List.length_map, List.length_reverse]
  ring

theorem numeral_zeros {s : Bytes} (h : ∀ c ∈ s, c = 48) : numeral s = 0 := by
  have hs : s = List.replicate s.length 48 := List.eq_replicate_of_mem h
  rw [hs, numeral, List.reverse_replicate, List.map_replicate]
  exact Nat.ofDigits_replicate_zero

theorem isDigit_range {c : UInt8} (h : isDigit c = true) : 48 ≤ c.toNat ∧ c.toNat ≤ 57 := by
  simp only [isDigit, Bool.and_eq_true, decide_eq_true_eq] at h
  exact ⟨UInt8.le_iff_toNat_le.1 h.1, UInt8.le_iff_toNat_le.1 h.2⟩

theorem digitsValue_eq {s : Bytes} (h : ∀ c ∈ s, isDigit c = true) :
    digitsValue s = numeral s := by
  induction s using List.reverseRecOn with
  | nil => rfl
  | append_singleton s c ih =>
      have hc := isDigit_range (h c (by simp))
      have hs := ih fun d hd => h d (by simp [hd])
      have hsplit : digitsValue (s ++ [c]) = 10 * digitsValue s + (c.toNat - 48) := by
        simp [digitsValue]
      have hdigit : numeral [c] = c.toNat - 48 := by
        simp [numeral]
      rw [hsplit, hs, numeral_append, hdigit]
      push_cast [Nat.cast_sub hc.1]
      simp only [List.length_singleton, pow_one]
      ring

/-- Six digits after the dot say how many millionths there are. -/
theorem numeral_sixDigits {fraction : Bytes} (h : ∀ c ∈ fraction.drop 6, c = 48) :
    numeral (sixDigits fraction) * 10 ^ fraction.length = numeral fraction * 10 ^ 6 := by
  have hpad : numeral (List.replicate (6 - fraction.length) (48 : UInt8)) = 0 :=
    numeral_zeros fun c hc => List.eq_of_mem_replicate hc
  have hfraction : numeral fraction =
      numeral (fraction.take 6) * 10 ^ (fraction.drop 6).length := by
    conv_lhs => rw [← List.take_append_drop 6 fraction]
    rw [numeral_append, numeral_zeros h, add_zero]
  have hlengths : 6 - fraction.length + fraction.length = (fraction.drop 6).length + 6 := by
    rw [List.length_drop]
    omega
  rw [sixDigits, numeral_append, hpad, add_zero, List.length_replicate, hfraction, mul_assoc,
    mul_assoc, ← pow_add, ← pow_add, hlengths]

/-! ## White space and signs -/

theorem trimFixed_append {front text back : Bytes} (hfront : ∀ c ∈ front, isSpace c = true)
    (hback : ∀ c ∈ back, isSpace c = true) (hhead : ∀ c ∈ text.head?, isSpace c = false)
    (hlast : ∀ c ∈ text.getLast?, isSpace c = false) (hne : text ≠ []) :
    trimFixed (front ++ text ++ back) = text := by
  have hstart : (text ++ back).dropWhile isSpace = text ++ back := by
    rcases text with _ | ⟨c, text⟩
    · exact absurd rfl hne
    · simp [hhead c rfl]
  have hend : text.reverse.dropWhile isSpace = text.reverse := by
    rcases List.eq_nil_or_concat text with rfl | ⟨init, c, rfl⟩
    · exact absurd rfl hne
    · have hc : isSpace c = false := hlast c (by simp)
      simp [hc]
  rw [trimFixed, List.append_assoc, List.dropWhile_append_of_pos hfront, hstart,
    List.reverse_append, List.dropWhile_append_of_pos (by simpa using hback), hend,
    List.reverse_reverse]

/-- What `trimFixed` removes is white space. -/
theorem trimFixed_split (s : Bytes) : ∃ front back, s = front ++ trimFixed s ++ back ∧
    (∀ c ∈ front, isSpace c = true) ∧ ∀ c ∈ back, isSpace c = true := by
  refine ⟨s.takeWhile isSpace, ((s.dropWhile isSpace).reverse.takeWhile isSpace).reverse, ?_,
    fun c hc => List.mem_takeWhile_imp hc,
    fun c hc => List.mem_takeWhile_imp (List.mem_reverse.1 hc)⟩
  rw [trimFixed, List.append_assoc, ← List.reverse_append, List.takeWhile_append_dropWhile,
    List.reverse_reverse, List.takeWhile_append_dropWhile]

theorem isDigit_not_space {c : UInt8} (h : isDigit c = true) : isSpace c = false := by
  have hc := isDigit_range h
  have hne : c ≠ 32 := by
    rintro rfl
    exact absurd hc.1 (by decide)
  have hgt : ¬ c ≤ 13 := fun hle => by
    have hle := UInt8.le_iff_toNat_le.1 hle
    change c.toNat ≤ 13 at hle
    omega
  simp [isSpace, hne, hgt]

namespace IsNumeral

variable {body whole fraction : Bytes}

theorem ne_nil (h : IsNumeral body whole fraction) : body ≠ [] := by
  cases h with
  | integer _ hne => exact hne
  | decimal => simp

/-- A numeral is made of digits and a dot. -/
theorem mem (h : IsNumeral body whole fraction) {c : UInt8} (hc : c ∈ body) :
    isDigit c = true ∨ c = 46 := by
  cases h with
  | integer hdigits _ => exact Or.inl (hdigits c hc)
  | decimal hwhole hfraction _ =>
      rcases List.mem_append.1 hc with hc | hc
      · exact Or.inl (hwhole c hc)
      · rcases List.mem_cons.1 hc with rfl | hc
        · exact Or.inr rfl
        · exact Or.inl (hfraction c hc)

theorem not_space (h : IsNumeral body whole fraction) {c : UInt8} (hc : c ∈ body) :
    isSpace c = false := by
  rcases h.mem hc with hdigit | rfl
  · exact isDigit_not_space hdigit
  · rfl

/-- There is a digit in it. -/
theorem exists_digit (h : IsNumeral body whole fraction) : ∃ c ∈ body, isDigit c = true := by
  cases h with
  | integer hdigits hne =>
      rcases List.exists_mem_of_ne_nil _ hne with ⟨c, hc⟩
      exact ⟨c, hc, hdigits c hc⟩
  | decimal hwhole hfraction hne =>
      rcases List.exists_mem_of_ne_nil _ hne with ⟨c, hc⟩
      rcases List.mem_append.1 hc with hc | hc
      · exact ⟨c, by simp [hc], hwhole c hc⟩
      · exact ⟨c, by simp [hc], hfraction c hc⟩

end IsNumeral

theorem not_dot_of_digits {s : Bytes} (h : ∀ c ∈ s, isDigit c = true) :
    ∀ c ∈ s, decide (c ≠ 46) = true := by
  intro c hc
  have hrange := isDigit_range (h c hc)
  refine decide_eq_true fun hdot => ?_
  subst hdot
  exact absurd hrange.1 (by decide)

/-- The parser splits a numeral at its dot. -/
theorem isNumeral_iff {body whole fraction : Bytes} :
    IsNumeral body whole fraction ↔
      (whole = body.takeWhile (· ≠ 46) ∧ fraction = fractionPart body) ∧
        (∀ c ∈ whole, isDigit c = true) ∧ (∀ c ∈ fraction, isDigit c = true) ∧
        whole ++ fraction ≠ [] := by
  constructor
  · intro h
    cases h with
    | integer hdigits hne =>
        have hdots := not_dot_of_digits hdigits
        refine ⟨⟨(List.takeWhile_eq_self_iff.2 hdots).symm, ?_⟩, hdigits, by simp, by simpa⟩
        rw [fractionPart, List.dropWhile_eq_nil_iff.2 hdots]
        rfl
    | decimal hwhole hfraction hne =>
        have hdots := not_dot_of_digits hwhole
        refine ⟨⟨?_, ?_⟩, hwhole, hfraction, hne⟩
        · rw [List.takeWhile_append_of_pos hdots]
          simp
        · rw [fractionPart, List.dropWhile_append_of_pos hdots]
          simp
  · rintro ⟨⟨hwhole, hfraction⟩, hdigits, hdigits', hne⟩
    -- What the parser does not take before the dot begins with the dot.
    have hsplit := List.takeWhile_append_dropWhile (p := (· ≠ (46 : UInt8))) (l := body)
    rw [← hwhole] at hsplit
    unfold fractionPart at hfraction
    cases hrest : body.dropWhile (· ≠ 46) with
    | nil =>
        rw [hrest] at hsplit hfraction
        rw [List.append_nil] at hsplit
        subst hfraction
        rw [← hsplit]
        exact .integer hdigits (by simpa using hne)
    | cons c rest =>
        have hdot : c = 46 := by
          have hhead := List.head?_dropWhile_not (· ≠ (46 : UInt8)) body
          rw [hrest] at hhead
          simpa using hhead
        rw [hrest] at hsplit hfraction
        subst hdot
        rw [List.tail_cons] at hfraction
        subst hfraction
        rw [← hsplit]
        exact .decimal hdigits hdigits' hne

theorem unsigned_append {sign body whole fraction : Bytes} (hsign : sign = [] ∨ sign = [43])
    (h : IsNumeral body whole fraction) : unsigned (sign ++ body) = body := by
  rcases hsign with rfl | rfl
  · have hhead : body.head? ≠ some 43 := by
      intro hplus
      rcases h.mem (List.mem_of_head? hplus) with hdigit | hdot
      · exact absurd hdigit (by decide)
      · exact absurd hdot (by decide)
    rw [List.nil_append, unsigned, if_neg hhead]
  · rfl

theorem unsigned_split (t : Bytes) :
    ∃ sign, (sign = [] ∨ sign = [43]) ∧ t = sign ++ unsigned t := by
  rcases t with _ | ⟨c, t⟩
  · exact ⟨[], Or.inl rfl, rfl⟩
  · by_cases hplus : c = 43
    · subst hplus
      exact ⟨[43], Or.inr rfl, rfl⟩
    · refine ⟨[], Or.inl rfl, ?_⟩
      simp [unsigned, hplus]

/-- The parser takes the numeral out of its surroundings. -/
theorem reads_iff {s whole fraction : Bytes} :
    Reads s whole fraction ↔ IsNumeral (unsigned (trimFixed s)) whole fraction := by
  constructor
  · rintro ⟨front, sign, body, back, rfl, hfront, hback, hsign, hbody⟩
    have hne : sign ++ body ≠ [] := by
      simp [hbody.ne_nil]
    have hspace : ∀ c ∈ sign ++ body, isSpace c = false := by
      intro c hc
      rcases List.mem_append.1 hc with hc | hc
      · rcases hsign with rfl | rfl
        · cases hc
        · rw [List.mem_singleton.1 hc]
          rfl
      · exact hbody.not_space hc
    rw [trimFixed_append hfront hback (fun c hc => hspace c (List.mem_of_head? hc))
      (fun c hc => hspace c (List.mem_of_getLast? hc)) hne, unsigned_append hsign hbody]
    exact hbody
  · intro h
    rcases trimFixed_split s with ⟨front, back, hs, hfront, hback⟩
    rcases unsigned_split (trimFixed s) with ⟨sign, hsign, htrim⟩
    exact ⟨front, sign, _, back, by rw [← htrim]; exact hs, hfront, hback, hsign, h⟩

/-! ## The parser -/

/-- What the parser computes from the digits before and after the dot. -/
def millionths (body : Bytes) : Int :=
  digitsValue (wholePart body) * kScale + digitsValue (sixDigits (fractionPart body))

/-- The digits are digits, and what follows the sixth place is zero. -/
structure DigitsOk (body : Bytes) : Prop where
  whole : ∀ c ∈ body.takeWhile (· ≠ 46), isDigit c = true
  fraction : ∀ c ∈ fractionPart body, isDigit c = true
  zeros : ∀ c ∈ (fractionPart body).drop 6, c = 48

variable {body : Bytes}

theorem wholePart_digits :
    (wholePart body).all isDigit = true ↔ ∀ c ∈ body.takeWhile (· ≠ 46), isDigit c = true := by
  rw [wholePart]
  split
  · rename_i hempty
    rw [List.isEmpty_iff.1 hempty]
    simp [isDigit]
  · rw [List.all_eq_true]

namespace DigitsOk

variable (h : DigitsOk body)
include h

theorem wholeValue : digitsValue (wholePart body) = numeral (body.takeWhile (· ≠ 46)) := by
  rw [wholePart]
  split
  · rename_i hempty
    rw [List.isEmpty_iff.1 hempty]
    rfl
  · exact digitsValue_eq h.whole

theorem fractionValue :
    digitsValue (sixDigits (fractionPart body)) = numeral (sixDigits (fractionPart body)) := by
  refine digitsValue_eq fun c hc => ?_
  rcases List.mem_append.1 hc with hc | hc
  · exact h.fraction c (List.mem_of_mem_take hc)
  · rw [List.eq_of_mem_replicate hc]
    rfl

/-- The value of the numeral, in millionths. -/
theorem millionths_eq : ((millionths body : Int) : ℚ) =
    (numeral (body.takeWhile (· ≠ 46)) +
      numeral (fractionPart body) / 10 ^ (fractionPart body).length) * 1000000 := by
  have hsix : (numeral (sixDigits (fractionPart body)) : ℚ) * 10 ^ (fractionPart body).length =
      numeral (fractionPart body) * 1000000 := by
    exact_mod_cast numeral_sixDigits h.zeros
  have hpos : (10 : ℚ) ^ (fractionPart body).length ≠ 0 := by positivity
  rw [millionths, h.wholeValue, h.fractionValue]
  push_cast [kScale]
  rw [add_mul, div_mul_eq_mul_div, ← hsix, mul_div_assoc, div_self hpos, mul_one]

theorem whole_nonneg : 0 ≤ digitsValue (wholePart body) := by
  rw [h.wholeValue]
  exact Int.natCast_nonneg _

theorem fraction_nonneg : 0 ≤ digitsValue (sixDigits (fractionPart body)) := by
  rw [h.fractionValue]
  exact Int.natCast_nonneg _

/-- The guard of the source is the bound on the result. -/
theorem guard_iff :
    (digitsValue (wholePart body) ≤ int64Max ∧ digitsValue (wholePart body) ≤
        (kFixedSafe - digitsValue (sixDigits (fractionPart body))) / kScale) ↔
      millionths body ≤ kFixedSafe := by
  have hwhole := h.whole_nonneg
  have hfraction := h.fraction_nonneg
  have hscale : (0 : Int) < kScale := by decide
  have hsafe : kFixedSafe ≤ int64Max := by decide
  rw [Int.le_ediv_iff_mul_le hscale, millionths]
  unfold kScale at *
  omega

end DigitsOk

/-- When the parser returns a value. -/
theorem parseFixedPoint_eq_ok {s : Bytes} {threshold : Bool} {v : Int} :
    parseFixedPoint s threshold = .ok v ↔
      ((trimFixed s ≠ [] ∧ (trimFixed s).head? ≠ some 45) ∧ DigitsOk (unsigned (trimFixed s))) ∧
        v = millionths (unsigned (trimFixed s)) ∧ v ≤ kFixedSafe ∧
        (threshold = true → v < kScale) := by
  -- The parser reads the text behind an optional sign.
  generalize hbody : unsigned (trimFixed s) = body
  have hdot : (∀ c ∈ fractionPart body, isDigit c = true) → 46 ∉ fractionPart body :=
    fun hdigits hmem => absurd (hdigits 46 hmem) (by decide)
  have hzeros : ((fractionPart body).drop 6).all (· == 48) = true ↔
      ∀ c ∈ (fractionPart body).drop 6, c = 48 := by
    simp [List.all_eq_true]
  constructor
  · intro h
    rcases bind_eq_ok.1 h with ⟨_, htext, h⟩
    rcases bind_eq_ok.1 h with ⟨_, _, h⟩
    rcases bind_eq_ok.1 h with ⟨_, hdigits, h⟩
    rcases bind_eq_ok.1 h with ⟨_, hrest, h⟩
    rcases bind_eq_ok.1 h with ⟨_, hint, h⟩
    rcases bind_eq_ok.1 h with ⟨_, hsafe, h⟩
    rcases bind_eq_ok.1 h with ⟨_, hthreshold, h⟩
    rw [hbody] at hdigits hrest hint hsafe hthreshold h
    rw [ensure_eq_ok] at htext hdigits hrest hint hsafe hthreshold
    have hok : DigitsOk body :=
      ⟨wholePart_digits.1 hdigits.1, List.all_eq_true.1 hdigits.2, hzeros.1 hrest⟩
    have hv : v = millionths body := (Except.ok.inj h).symm
    subst hv
    exact ⟨⟨htext, hok⟩, rfl, hok.guard_iff.1 ⟨hint, hsafe⟩, hthreshold⟩
  · rintro ⟨⟨htext, hok⟩, rfl, hsafe, hthreshold⟩
    have hguard := hok.guard_iff.2 hsafe
    have hensure : ∀ {c : Prop} [Decidable c] {e : Error}, c → ensure c e = .ok () :=
      fun hc => ensure_eq_ok.2 hc
    unfold parseFixedPoint
    rw [ok_bind (hensure htext)]
    dsimp only
    rw [hbody, ok_bind (hensure (hdot hok.fraction)),
      ok_bind (hensure ⟨wholePart_digits.2 hok.whole, List.all_eq_true.2 hok.fraction⟩),
      ok_bind (hensure (hzeros.2 hok.zeros)), ok_bind (hensure hguard.1),
      ok_bind (hensure hguard.2)]
    exact ok_bind (hensure hthreshold)

/-- It throws nothing but `OptimizationError`. -/
theorem parseFixedPoint_error {s : Bytes} {threshold : Bool} {e : Error}
    (h : parseFixedPoint s threshold = .error e) :
    ∃ status message, e = .optimization status message := by
  have hstep : ∀ {c : Prop} [Decidable c] {status : Status} {message : String}
      {f : PUnit → Except Error Int}, (ensure c (.optimization status message) >>= f) = .error e →
      (∃ status message, e = .optimization status message) ∨ f ⟨⟩ = .error e := by
    intro c _ status message f hf
    by_cases hc : c
    · rw [ensure, if_pos hc] at hf
      exact Or.inr hf
    · rw [ensure, if_neg hc] at hf
      exact Or.inl ⟨status, message, (Except.error.inj hf).symm⟩
  unfold parseFixedPoint at h
  repeat
    rcases hstep h with hdone | h
    · exact hdone
  cases h

/-! ## Right strings and wrong ones -/

/-- The parser returns what the string denotes, and throws `OptimizationError` on every other
string. -/
def ParsesRight (s : Bytes) (threshold : Bool) : Prop :=
  (∀ v, parseFixedPoint s threshold = .ok v ↔ Denotes s threshold v) ∧
    ((¬ ∃ v, Denotes s threshold v) →
      ∃ status message, parseFixedPoint s threshold = .error (.optimization status message))

/-- A sign, a dot, or both, and no digit. -/
def Digitless (s : Bytes) : Prop :=
  trimFixed s = [43] ∨ trimFixed s = [46] ∨ trimFixed s = [43, 46]

instance (s : Bytes) : Decidable (Digitless s) :=
  inferInstanceAs (Decidable (_ ∨ _ ∨ _))

theorem denotes_iff {s : Bytes} {threshold : Bool} {v : Int} :
    Denotes s threshold v ↔
      IsNumeral (unsigned (trimFixed s)) ((unsigned (trimFixed s)).takeWhile (· ≠ 46))
          (fractionPart (unsigned (trimFixed s))) ∧
        DigitsOk (unsigned (trimFixed s)) ∧ v = millionths (unsigned (trimFixed s)) ∧
        v ≤ kFixedSafe ∧ (threshold = true → v < kScale) := by
  unfold Denotes
  simp only [reads_iff]
  generalize unsigned (trimFixed s) = body
  constructor
  · rintro ⟨whole, fraction, hnumeral, hzeros, hv, hrange⟩
    rcases isNumeral_iff.1 hnumeral with ⟨⟨rfl, rfl⟩, hwhole, hfraction, _⟩
    have hok : DigitsOk body := ⟨hwhole, hfraction, hzeros⟩
    refine ⟨hnumeral, hok, ?_, hrange⟩
    rw [← hok.millionths_eq] at hv
    exact_mod_cast hv
  · rintro ⟨hnumeral, hok, rfl, hrange⟩
    exact ⟨_, _, hnumeral, hok.zeros, hok.millionths_eq, hrange⟩

/-- A numeral follows the sign unless nothing or a lone dot does. -/
theorem isNumeral_of_ne (hok : DigitsOk body) (hempty : body ≠ []) (hdot : body ≠ [46]) :
    IsNumeral body (body.takeWhile (· ≠ 46)) (fractionPart body) := by
  refine isNumeral_iff.2 ⟨⟨rfl, rfl⟩, hok.whole, hok.fraction, fun hnil => ?_⟩
  rcases List.append_eq_nil_iff.1 hnil with ⟨hwhole, hfraction⟩
  rcases body with _ | ⟨c, rest⟩
  · exact hempty rfl
  · have hc : c = 46 := by
      by_contra hne
      simp [hne] at hwhole
    subst hc
    have hrest : rest = [] := by simpa [fractionPart] using hfraction
    rw [hrest] at hdot
    exact hdot rfl

/-- The parser returns 0 for a string without a digit, which denotes nothing. -/
theorem not_parsesRight {s : Bytes} {threshold : Bool} (hdigitless : Digitless s) :
    ¬ ParsesRight s threshold := by
  rintro ⟨hright, -⟩
  have hzero : parseFixedPoint s threshold = .ok 0 := by
    unfold parseFixedPoint
    rcases hdigitless with htrim | htrim | htrim <;> rw [htrim] <;> cases threshold <;> rfl
  rcases (denotes_iff.1 ((hright 0).1 hzero)).1.exists_digit with ⟨c, hc, hdigit⟩
  rcases hdigitless with htrim | htrim | htrim <;> rw [htrim] at hc
  · cases hc
  · rw [List.mem_singleton.1 hc] at hdigit
    exact absurd hdigit (by decide)
  · rw [List.mem_singleton.1 hc] at hdigit
    exact absurd hdigit (by decide)

/-- The parser is right on every string but `+`, `.` and `+.`. -/
theorem parse_right_iff (s : Bytes) (threshold : Bool) :
    ParsesRight s threshold ↔ ¬ Digitless s := by
  constructor
  · exact fun hright hdigitless => not_parsesRight hdigitless hright
  · intro hdigits
    have hiff : ∀ v, parseFixedPoint s threshold = .ok v ↔ Denotes s threshold v := by
      intro v
      rw [parseFixedPoint_eq_ok, denotes_iff]
      rcases unsigned_split (trimFixed s) with ⟨sign, hsign, htrim⟩
      constructor
      · rintro ⟨⟨htext, hok⟩, hv⟩
        refine ⟨isNumeral_of_ne hok (fun hnil => ?_) (fun hdot => ?_), hok, hv⟩
        -- Nothing behind the sign: the text is empty or `+`, and both are excluded.
        · rw [hnil, List.append_nil] at htrim
          rcases hsign with rfl | rfl
          · exact htext.1 htrim
          · exact hdigits (Or.inl htrim)
        · rw [hdot] at htrim
          rcases hsign with rfl | rfl
          · exact hdigits (Or.inr (Or.inl htrim))
          · exact hdigits (Or.inr (Or.inr htrim))
      · rintro ⟨hnumeral, hok, hv⟩
        refine ⟨⟨⟨fun hnil => ?_, fun hminus => ?_⟩, hok⟩, hv⟩
        · rw [hnil] at hnumeral
          exact hnumeral.ne_nil rfl
        · rw [htrim] at hminus
          rcases hsign with rfl | rfl
          -- A numeral has no minus sign.
          · rcases hnumeral.mem (List.mem_of_head? hminus) with hdigit | hdot
            · exact absurd hdigit (by decide)
            · exact absurd hdot (by decide)
          · exact absurd (Option.some.inj hminus) (by decide)
    refine ⟨hiff, fun hnone => ?_⟩
    cases hparse : parseFixedPoint s threshold with
    | ok v => exact absurd ⟨v, (hiff v).1 hparse⟩ hnone
    | error e =>
        rcases parseFixedPoint_error hparse with ⟨status, message, rfl⟩
        exact ⟨status, message, rfl⟩

/-- A lone dot is read as zero. -/
theorem parse_dot : parseFixedPoint (ascii ".") false = .ok 0 ∧ ¬ ParsesRight (ascii ".") false :=
  ⟨by decide, not_parsesRight (by decide)⟩

end Optimization
end SociSgx

import SociSgx.Secure.Ops

/-!
# Lagrangian — the public grid of multipliers

`buildLagrangianGrid` chooses the multipliers from public data only, and
`deriveLagrangianNumericBounds` rejects a grid whose scores could leave the range of the secure
comparison.  `accepted_facts` is what the solver may rely on.
-/

namespace SociSgx
namespace Optimization

open Exec Secure

def kMaxLagrangianGridSize : Nat := 16

def kSecureOperandBits : Nat := 127

structure LagrangianGridConfig where
  denominator : Int := 1
  requestedSize : Nat := 5
  spanFactor : Int := 2
  deriving DecidableEq, Repr

structure LagrangianGrid where
  q : Int
  denominator : Int
  mu : List Int
  deriving DecidableEq, Repr

structure LagrangianNumericBounds where
  scoreBits : Nat
  scoreDeltaBits : Nat
  boundBits : Nat
  maximumSupportedMu : Int
  deriving DecidableEq, Repr

/-! ## Bit counts -/

/-- `while (power < value)`; 128 rounds are never used up, since the 128th throws. -/
def ceilLog2Loop (value : Int) : Nat → Nat → Int → Except Error Nat
  | 0, _, _ => .error (Error.outOfRange "Lagrangian bit calculation overflowed")
  | fuel + 1, bits, power =>
      if power < value then
        if bits = 127 then
          .error (Error.outOfRange "Lagrangian bit calculation overflowed")
        else
          ceilLog2Loop value fuel (bits + 1) (power * 2)
      else
        .ok bits

def ceilLog2 (value : Int) : Except Error Nat := do
  ensure (0 < value) (Error.outOfRange "non-positive Lagrangian magnitude bound")
  ceilLog2Loop value 129 0 1

def checkedBitSum (a b : Nat) : Except Error Nat := do
  ensure (a + b < 2 ^ 32) (Error.outOfRange "Lagrangian bit calculation overflowed")
  return a + b

def coefficientBound (q mu alpha threshold : Int) : Int :=
  max |q - mu * alpha| (q + mu * threshold)

structure Bits where
  score : Nat
  delta : Nat
  bound : Nat

def requiredBits (domain : NumericDomain) (threshold q maximumMu : Int) : Except Error Bits := do
  let g := coefficientBound q maximumMu (domain.scale - threshold) threshold
  let score ← checkedBitSum domain.maxCostBits (← ceilLog2 g)
  let delta ← checkedBitSum score 1
  let bound ← checkedBitSum score (← ceilLog2 domain.maxRows)
  return ⟨score, delta, bound⟩

def supported (domain : NumericDomain) (threshold q mu : Int) : Except Error Bool := do
  let bits ← requiredBits domain threshold q mu
  return decide (bits.delta ≤ kSecureOperandBits ∧ bits.bound ≤ domain.compareOperandBits ∧
    domain.compareOperandBits ≤ kSecureOperandBits)

/-- `while (low < high)`: every round halves the interval, so 64 rounds are enough. -/
def maximumMuLoop (domain : NumericDomain) (threshold q : Int) :
    Nat → Int → Int → Except Error Int
  | 0, low, _ => .ok low
  | fuel + 1, low, high =>
      if low < high then do
        let midpoint := low + (high - low + 1) / 2
        if ← supported domain threshold q midpoint then
          maximumMuLoop domain threshold q fuel midpoint high
        else
          maximumMuLoop domain threshold q fuel low (midpoint - 1)
      else
        .ok low

def maximumMu (domain : NumericDomain) (threshold q : Int) : Except Error Int := do
  let zeroSupported ← supported domain threshold q 0
  ensure (zeroSupported = true) (Error.outOfRange "Lagrangian Q exceeds NumericDomain")
  maximumMuLoop domain threshold q 64 0 int64Max

def roundedRatio (a b denominator : Int) : Except Error Int := do
  ensure (0 < denominator) (Error.invalid "invalid Lagrangian grid ratio")
  return min ((a * b + denominator / 2) / denominator) int64Max

/-! ## Grids -/

def deriveLagrangianNumericBounds (domain : NumericDomain) (threshold : Int)
    (grid : LagrangianGrid) : Except Error LagrangianNumericBounds := do
  ensure (0 < domain.scale ∧ domain.maxRows ≠ 0 ∧ domain.maxCostBits ≠ 0 ∧
      domain.compareOperandBits ≠ 0)
    (Error.invalid "incomplete NumericDomain for Lagrangian relaxation")
  ensure (0 ≤ threshold ∧ threshold < domain.scale)
    (Error.invalid "threshold_scaled must satisfy 0 <= threshold_scaled < scale")
  ensure (0 < grid.q ∧ 0 < grid.denominator ∧ grid.mu ≠ [])
    (Error.invalid "invalid Lagrangian grid")
  ensure (domain.scale * grid.denominator = grid.q)
    (Error.invalid "Lagrangian Q must equal SCALE * denominator")
  ensure (grid.mu.IsChain (· ≤ ·) ∧ grid.mu.head? = some 0)
    (Error.invalid "Lagrangian mu grid must be sorted and contain zero")
  ensure (grid.mu.IsChain (· ≠ ·)) (Error.invalid "Lagrangian mu grid must not contain duplicates")
  let back := grid.mu.getLastD 0
  ensure (0 ≤ back) (Error.invalid "Lagrangian mu must be non-negative")
  ensure (domain.compareOperandBits ≤ kSecureOperandBits)
    (Error.outOfRange "compare_operand_bits exceeds secure protocol range")
  -- `back` is the largest `mu`, and the bounds grow with it
  let maximum ← maximumMu domain threshold grid.q
  ensure (back ≤ maximum) (Error.outOfRange "Lagrangian mu exceeds NumericDomain")
  let bits ← requiredBits domain threshold grid.q back
  return ⟨bits.score, bits.delta, bits.bound, maximum⟩

/-- `std::set::insert` on the sorted list of a set's members. -/
def setInsert (x : Int) : List Int → List Int
  | [] => [x]
  | y :: ys => if x < y then x :: y :: ys else if x = y then y :: ys else y :: setInsert x ys

/-- The largest member that may be dropped: neither 0 nor an anchor, unless the last member is
none of the anchors. -/
def victim (alphaAnchor thresholdAnchor : Int) (values : List Int) : Option Int :=
  let last := values.getLastD 0
  if last = alphaAnchor ∨ last = thresholdAnchor then
    values.dropLast.reverse.find? fun v =>
      decide (v ≠ 0 ∧ v ≠ alphaAnchor ∧ v ≠ thresholdAnchor)
  else
    some last

/-- `while (values.size() > requested_size)`: every round drops a member. -/
def trim (requestedSize : Nat) (alphaAnchor thresholdAnchor : Int) :
    Nat → List Int → List Int
  | 0, values => values
  | fuel + 1, values =>
      if values.length ≤ requestedSize then
        values
      else
        match victim alphaAnchor thresholdAnchor values with
        | none => values
        | some v => trim requestedSize alphaAnchor thresholdAnchor fuel (values.erase v)

def addAnchor (requestedSize : Nat) (upper anchor : Int) (values : List Int) : List Int :=
  if values.length < requestedSize ∧ 0 < anchor ∧ anchor ≤ upper then
    setInsert anchor values
  else
    values

/-- The equidistant members, rounded. -/
def addSteps (requestedSize : Nat) (upper : Int) (values : List Int) : List Int :=
  if 1 < requestedSize ∧ 0 < upper then
    let intervals : Int := (requestedSize : Int) - 1
    (List.range (requestedSize - 1)).foldl
      (fun values (i : Nat) =>
        setInsert ((upper * ((i : Int) + 1) + intervals / 2) / intervals) values)
      values
  else
    values

def buildLagrangianGrid (domain : NumericDomain) (threshold : Int)
    (config : LagrangianGridConfig) : Except Error LagrangianGrid := do
  ensure (0 < domain.scale ∧ 0 < config.denominator ∧ config.requestedSize ≠ 0 ∧
      config.requestedSize ≤ kMaxLagrangianGridSize ∧ 0 < config.spanFactor)
    (Error.invalid "invalid Lagrangian grid configuration")
  ensure (0 ≤ threshold ∧ threshold < domain.scale)
    (Error.invalid "threshold_scaled must satisfy 0 <= threshold_scaled < scale")
  let q := domain.scale * config.denominator
  ensure (q ≤ int64Max) (Error.outOfRange "Lagrangian Q exceeds int64 ScalarMul range")
  -- the grid with zero alone, which gives the plain cost bound
  if threshold = 0 ∨ config.requestedSize = 1 then
    let grid : LagrangianGrid := ⟨q, config.denominator, [0]⟩
    let _ ← deriveLagrangianNumericBounds domain threshold grid
    return grid
  else
    let limit ← maximumMu domain threshold q
    let alphaAnchor ← roundedRatio config.denominator domain.scale (domain.scale - threshold)
    let thresholdAnchor ← roundedRatio config.denominator domain.scale threshold
    let desired := min (config.spanFactor * max alphaAnchor thresholdAnchor) int64Max
    let upper := min limit desired
    let anchors := addAnchor config.requestedSize upper thresholdAnchor
      (addAnchor config.requestedSize upper alphaAnchor [0])
    let values := addSteps config.requestedSize upper anchors
    let grid : LagrangianGrid := ⟨q, config.denominator,
      trim config.requestedSize alphaAnchor thresholdAnchor values.length values⟩
    let _ ← deriveLagrangianNumericBounds domain threshold grid
    return grid

/-! ## What acceptance says -/

theorem ceilLog2Loop_ok {value : Int} (fuel : Nat) : ∀ {bits : Nat} {power : Int} {b : Nat},
    power = 2 ^ bits → ceilLog2Loop value fuel bits power = .ok b → value ≤ 2 ^ b := by
  induction fuel with
  | zero =>
      intro bits power b _ h
      cases h
  | succ fuel ih =>
      intro bits power b hpower h
      rw [ceilLog2Loop] at h
      split at h
      · split at h
        · cases h
        · exact ih (by rw [hpower, pow_succ]) h
      · rename_i hdone
        cases h
        rw [← hpower]
        exact not_lt.1 hdone

theorem ceilLog2_ok {value : Int} {b : Nat} (h : ceilLog2 value = .ok b) : value ≤ 2 ^ b := by
  rcases bind_eq_ok.1 h with ⟨_, _, hloop⟩
  exact ceilLog2Loop_ok 129 (by norm_num) hloop

theorem checkedBitSum_ok {a b c : Nat} (h : checkedBitSum a b = .ok c) : c = a + b := by
  rcases bind_eq_ok.1 h with ⟨_, _, hsum⟩
  cases hsum
  rfl

/-- Larger multipliers have larger coefficients, as far as the bound sees. -/
theorem coefficientBound_mono {q mu mu' alpha threshold : Int} (hmu : 0 ≤ mu)
    (hle : mu ≤ mu') (halpha : 0 ≤ alpha) (hthreshold : 0 ≤ threshold) :
    coefficientBound q mu alpha threshold ≤ coefficientBound q mu' alpha threshold := by
  have halphamu : mu * alpha ≤ mu' * alpha := mul_le_mul_of_nonneg_right hle halpha
  have hthresholdmu : mu * threshold ≤ mu' * threshold := mul_le_mul_of_nonneg_right hle hthreshold
  have hnonneg : 0 ≤ mu * alpha := mul_nonneg hmu halpha
  have hnonneg' : 0 ≤ mu * threshold := mul_nonneg hmu hthreshold
  unfold coefficientBound
  refine max_le ?_ (le_max_of_le_right (by linarith))
  rcases le_total (q - mu * alpha) 0 with hneg | hpos
  · rw [abs_of_nonpos hneg]
    refine le_max_of_le_left ?_
    rw [abs_of_nonpos (by linarith)]
    linarith
  · rw [abs_of_nonneg hpos]
    exact le_max_of_le_right (by linarith)

/-- The bits of a supported multiplier fit the secure comparison. -/
structure FitsBits (domain : NumericDomain) (threshold q mu : Int) (g r : Nat) : Prop where
  coefficient : coefficientBound q mu (domain.scale - threshold) threshold ≤ 2 ^ g
  rows : (domain.maxRows : Int) ≤ 2 ^ r
  delta : domain.maxCostBits + g + 1 ≤ kSecureOperandBits
  bound : domain.maxCostBits + g + r ≤ kSecureOperandBits

theorem requiredBits_ok {domain : NumericDomain} {threshold q mu : Int} {bits : Bits}
    (h : requiredBits domain threshold q mu = .ok bits) : ∃ g r : Nat,
      coefficientBound q mu (domain.scale - threshold) threshold ≤ 2 ^ g ∧
      (domain.maxRows : Int) ≤ 2 ^ r ∧ bits.delta = domain.maxCostBits + g + 1 ∧
      bits.bound = domain.maxCostBits + g + r := by
  rcases bind_eq_ok.1 h with ⟨g, hg, h⟩
  rcases bind_eq_ok.1 h with ⟨score, hscore, h⟩
  rcases bind_eq_ok.1 h with ⟨delta, hdelta, h⟩
  rcases bind_eq_ok.1 h with ⟨r, hr, h⟩
  rcases bind_eq_ok.1 h with ⟨bound, hbound, h⟩
  cases h
  refine ⟨g, r, ceilLog2_ok hg, ceilLog2_ok hr, ?_, ?_⟩
  · rw [checkedBitSum_ok hdelta, checkedBitSum_ok hscore]
  · rw [checkedBitSum_ok hbound, checkedBitSum_ok hscore]

theorem supported_fits {domain : NumericDomain} {threshold q mu : Int}
    (h : supported domain threshold q mu = .ok true) :
    ∃ g r, FitsBits domain threshold q mu g r := by
  rcases bind_eq_ok.1 h with ⟨bits, hbits, h⟩
  rcases requiredBits_ok hbits with ⟨g, r, hg, hr, hdelta, hbound⟩
  have hfit : bits.delta ≤ kSecureOperandBits ∧ bits.bound ≤ domain.compareOperandBits ∧
      domain.compareOperandBits ≤ kSecureOperandBits := by
    have htrue := Except.ok.inj h
    simpa using htrue
  refine ⟨g, r, hg, hr, ?_, ?_⟩
  · omega
  · omega

/-- The binary search stays on supported multipliers. -/
theorem maximumMuLoop_ok {domain : NumericDomain} {threshold q : Int} (fuel : Nat) :
    ∀ {low high m : Int}, supported domain threshold q low = .ok true →
      maximumMuLoop domain threshold q fuel low high = .ok m →
      supported domain threshold q m = .ok true := by
  induction fuel with
  | zero =>
      intro low high m hlow h
      cases h
      exact hlow
  | succ fuel ih =>
      intro low high m hlow h
      rw [maximumMuLoop] at h
      split at h
      · rcases bind_eq_ok.1 h with ⟨b, hb, h⟩
        cases b
        · exact ih hlow h
        · exact ih hb h
      · cases h
        exact hlow

theorem maximumMu_ok {domain : NumericDomain} {threshold q m : Int}
    (h : maximumMu domain threshold q = .ok m) : supported domain threshold q m = .ok true := by
  rcases bind_eq_ok.1 h with ⟨b, hb, hrest⟩
  rcases bind_eq_ok.1 hrest with ⟨_, hensure, hloop⟩
  rw [ensure_eq_ok] at hensure
  subst hensure
  exact maximumMuLoop_ok 64 hb hloop

/-- A grid that `deriveLagrangianNumericBounds` accepts. -/
structure GridFacts (domain : NumericDomain) (threshold : Int) (grid : LagrangianGrid) :
    Prop where
  scale : 0 < domain.scale
  range : 0 ≤ threshold ∧ threshold < domain.scale
  q : 0 < grid.q
  zero : 0 ∈ grid.mu
  nonneg : ∀ mu ∈ grid.mu, 0 ≤ mu
  bits : ∃ g r, ∀ mu ∈ grid.mu, FitsBits domain threshold grid.q mu g r

theorem le_getLastD {xs : List Int} (h : xs.Pairwise (· ≤ ·)) {x : Int} (hx : x ∈ xs) :
    x ≤ xs.getLastD 0 := by
  induction xs using List.reverseRecOn with
  | nil => cases hx
  | append_singleton xs y _ =>
      rw [List.getLastD_concat]
      rcases List.mem_append.1 hx with hx | hx
      · exact (List.pairwise_append.1 h).2.2 x hx y (by simp)
      · rw [List.mem_singleton.1 hx]

theorem derive_facts {domain : NumericDomain} {threshold : Int} {grid : LagrangianGrid}
    {bounds : LagrangianNumericBounds}
    (h : deriveLagrangianNumericBounds domain threshold grid = .ok bounds) :
    GridFacts domain threshold grid := by
  rcases bind_eq_ok.1 h with ⟨_, hdomain, h⟩
  rcases bind_eq_ok.1 h with ⟨_, hthreshold, h⟩
  rcases bind_eq_ok.1 h with ⟨_, hgrid, h⟩
  rcases bind_eq_ok.1 h with ⟨_, _, h⟩
  rcases bind_eq_ok.1 h with ⟨_, hsorted, h⟩
  rcases bind_eq_ok.1 h with ⟨_, _, h⟩
  rcases bind_eq_ok.1 h with ⟨_, _, h⟩
  rcases bind_eq_ok.1 h with ⟨_, _, h⟩
  rcases bind_eq_ok.1 h with ⟨maximum, hmaximum, h⟩
  rcases bind_eq_ok.1 h with ⟨_, hback, _⟩
  rw [ensure_eq_ok] at hdomain hthreshold hgrid hsorted hback
  have hmono : grid.mu.Pairwise (· ≤ ·) := hsorted.1.pairwise
  rcases List.head?_eq_some_iff.1 hsorted.2 with ⟨rest, hmu⟩
  have hnonneg : ∀ mu ∈ grid.mu, 0 ≤ mu := by
    intro mu hmem
    rw [hmu] at hmem hmono
    rcases List.mem_cons.1 hmem with rfl | hmem
    · exact le_rfl
    · exact (List.pairwise_cons.1 hmono).1 mu hmem
  rcases supported_fits (maximumMu_ok hmaximum) with ⟨g, r, hfit⟩
  refine ⟨hdomain.1, hthreshold, hgrid.1, by simp [hmu], hnonneg, g, r, fun mu hmem => ?_⟩
  have hle : mu ≤ maximum := (le_getLastD hmono hmem).trans hback
  have hcoefficient := coefficientBound_mono (q := grid.q) (hnonneg mu hmem) hle
    (sub_nonneg.2 hthreshold.2.le) hthreshold.1
  exact ⟨hcoefficient.trans hfit.coefficient, hfit.rows, hfit.delta, hfit.bound⟩

theorem length_setInsert (x : Int) (xs : List Int) :
    (setInsert x xs).length ≤ xs.length + 1 := by
  induction xs with
  | nil => simp [setInsert]
  | cons y ys ih =>
      unfold setInsert
      split
      · simp
      · split
        · simp
        · simpa using ih

theorem length_trim (requestedSize : Nat) (alphaAnchor thresholdAnchor : Int) (fuel : Nat) :
    ∀ values : List Int,
      (trim requestedSize alphaAnchor thresholdAnchor fuel values).length ≤ values.length := by
  induction fuel with
  | zero =>
      intro values
      exact le_rfl
  | succ fuel ih =>
      intro values
      unfold trim
      split
      · exact le_rfl
      · split
        · exact le_rfl
        · exact (ih _).trans (List.length_erase_le ..)

theorem length_addAnchor (requestedSize : Nat) (upper anchor : Int) (values : List Int) :
    (addAnchor requestedSize upper anchor values).length ≤ values.length + 1 := by
  unfold addAnchor
  split
  · exact length_setInsert anchor values
  · exact Nat.le_succ _

theorem length_addSteps (requestedSize : Nat) (upper : Int)
    (values : List Int) :
    (addSteps requestedSize upper values).length ≤ values.length + requestedSize := by
  have hfold : ∀ (is : List Nat) (f : Nat → Int) (values : List Int),
      (is.foldl (fun values i => setInsert (f i) values) values).length ≤
        values.length + is.length := by
    intro is f
    induction is with
    | nil => simp
    | cons i is ih =>
        intro values
        have hrest := ih (setInsert (f i) values)
        have hstep := length_setInsert (f i) values
        simp only [List.foldl_cons, List.length_cons]
        omega
  unfold addSteps
  split
  · refine (hfold _ (fun i => (upper * ((i : Int) + 1) +
      ((requestedSize : Int) - 1) / 2) / ((requestedSize : Int) - 1)) values).trans ?_
    simp only [List.length_range]
    omega
  · exact Nat.le_add_right _ _

/-- What the solver may rely on. -/
theorem accepted_facts {domain : NumericDomain} {threshold : Int} {config : LagrangianGridConfig}
    {grid : LagrangianGrid} (h : buildLagrangianGrid domain threshold config = .ok grid) :
    GridFacts domain threshold grid ∧ grid.mu.length ≤ kMaxLagrangianGridSize + 3 := by
  rcases bind_eq_ok.1 h with ⟨_, hconfig, h⟩
  rcases bind_eq_ok.1 h with ⟨_, _, h⟩
  rcases bind_eq_ok.1 h with ⟨_, _, h⟩
  rw [ensure_eq_ok] at hconfig
  split at h
  · rcases bind_eq_ok.1 h with ⟨_, hderive, h⟩
    cases h
    exact ⟨derive_facts hderive, by simp⟩
  · rcases bind_eq_ok.1 h with ⟨limit, _, h⟩
    rcases bind_eq_ok.1 h with ⟨alphaAnchor, _, h⟩
    rcases bind_eq_ok.1 h with ⟨thresholdAnchor, _, h⟩
    rcases bind_eq_ok.1 h with ⟨_, hderive, h⟩
    cases h
    refine ⟨derive_facts hderive, (length_trim _ _ _ _ _).trans ?_⟩
    have hsize := hconfig.2.2.2.1
    refine (length_addSteps _ _ _).trans ?_
    have hsecond := length_addAnchor config.requestedSize
      (min limit (min (config.spanFactor * max alphaAnchor thresholdAnchor) int64Max))
      thresholdAnchor (addAnchor config.requestedSize
        (min limit (min (config.spanFactor * max alphaAnchor thresholdAnchor) int64Max))
        alphaAnchor [0])
    have hfirst := length_addAnchor config.requestedSize
      (min limit (min (config.spanFactor * max alphaAnchor thresholdAnchor) int64Max))
      alphaAnchor [0]
    simp only [List.length_singleton] at hfirst
    omega

end Optimization
end SociSgx

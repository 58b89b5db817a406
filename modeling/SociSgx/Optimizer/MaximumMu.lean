import SociSgx.Optimizer.Lagrangian
import SociSgx.Lib.Bisect

/-!
# MaximumMu — the search for the largest supported multiplier

`maximumMu` bisects the whole 64-bit range.  This is sound because a larger multiplier never has a
smaller coefficient bound, and it is safe because even the largest probe stays below `2 ^ 126`.
The second half of that is stated with a copy of the search in which every 128-bit operation is
checked.
-/

namespace SociSgx
namespace Optimization

open Exec Secure Bisect

/-! ## Checked arithmetic -/

/-- A computation over machine integers; `none` is a signed overflow. -/
abbrev WideM : Type → Type := ExceptT Error Option

def overflow {α : Type} : WideM α :=
  ExceptT.mk none

/-- The result of an operation on `__int128`. -/
def wide (x : Int) : WideM Int :=
  if -2 ^ 127 ≤ x ∧ x < 2 ^ 127 then pure x else overflow

/-- The result of an operation on `std::int64_t`. -/
def narrow (x : Int) : WideM Int :=
  if -2 ^ 63 ≤ x ∧ x < 2 ^ 63 then pure x else overflow

/-- A computation that has its own checks. -/
def within {α : Type} (x : Except Error α) : WideM α :=
  ExceptT.mk (some x)

def absWide (x : Int) : WideM Int :=
  if x < 0 then wide (-x) else pure x

def ceilLog2LoopWide (value : Int) : Nat → Nat → Int → WideM Nat
  | 0, _, _ => within (.error (Error.outOfRange "Lagrangian bit calculation overflowed"))
  | fuel + 1, bits, power =>
      if power < value then
        if bits = 127 then
          within (.error (Error.outOfRange "Lagrangian bit calculation overflowed"))
        else do
          let next ← wide (power * 2)
          ceilLog2LoopWide value fuel (bits + 1) next
      else
        pure bits

def ceilLog2Wide (value : Int) : WideM Nat := do
  within (ensure (0 < value) (Error.outOfRange "non-positive Lagrangian magnitude bound"))
  ceilLog2LoopWide value 129 0 1

def coefficientBoundWide (q mu alpha threshold : Int) : WideM Int := do
  let alphaProduct ← wide (mu * alpha)
  let difference ← wide (q - alphaProduct)
  let c12 ← absWide difference
  let thresholdProduct ← wide (mu * threshold)
  let c3 ← wide (q + thresholdProduct)
  return max c12 c3

def supportedWide (domain : NumericDomain) (threshold q mu : Int) : WideM Bool := do
  let alpha ← narrow (domain.scale - threshold)
  let g ← coefficientBoundWide q mu alpha threshold
  let gBits ← ceilLog2Wide g
  let score ← within (checkedBitSum domain.maxCostBits gBits)
  let delta ← within (checkedBitSum score 1)
  let rowBits ← ceilLog2Wide domain.maxRows
  let bound ← within (checkedBitSum score rowBits)
  return decide (delta ≤ kSecureOperandBits ∧ bound ≤ domain.compareOperandBits ∧
    domain.compareOperandBits ≤ kSecureOperandBits)

def maximumMuLoopWide (domain : NumericDomain) (threshold q : Int) : Nat → Int → Int → WideM Int
  | 0, low, _ => pure low
  | fuel + 1, low, high =>
      if low < high then do
        -- the width is counted in `__int128`, since `high` may be the largest `int64`
        let width ← wide (high - low + 1)
        let midpoint ← narrow (low + width / 2)
        let isSupported ← supportedWide domain threshold q midpoint
        if isSupported then
          maximumMuLoopWide domain threshold q fuel midpoint high
        else do
          let below ← narrow (midpoint - 1)
          maximumMuLoopWide domain threshold q fuel low below
      else
        pure low

def maximumMuWide (domain : NumericDomain) (threshold q : Int) : WideM Int := do
  let zeroSupported ← supportedWide domain threshold q 0
  within (ensure (zeroSupported = true) (Error.outOfRange "Lagrangian Q exceeds NumericDomain"))
  maximumMuLoopWide domain threshold q 64 0 int64Max

theorem wide_of {x : Int} (h : -2 ^ 127 ≤ x ∧ x < 2 ^ 127) : wide x = pure x :=
  if_pos h

theorem narrow_of {x : Int} (h : -2 ^ 63 ≤ x ∧ x < 2 ^ 63) : narrow x = pure x :=
  if_pos h

theorem within_ok {α : Type} (a : α) : within (.ok a) = pure a := rfl

/-! ## Bits -/

theorem checkedBitSum_of {a b : Nat} (h : a + b < 2 ^ 32) : checkedBitSum a b = .ok (a + b) := by
  rw [checkedBitSum, ensure, if_pos h]
  rfl

/-- The loop condition compares the number of bits so far with the number that is needed. -/
theorem pow_lt_iff_lt_clog (n bits : Nat) : (2 : Int) ^ bits < n ↔ bits < Nat.clog 2 n := by
  rw [Nat.lt_clog_iff_pow_lt (by decide)]
  exact_mod_cast Iff.rfl

theorem ceilLog2Loop_eq {n : Nat} (hn : Nat.clog 2 n ≤ 127) (fuel : Nat) : ∀ {bits : Nat},
    bits ≤ Nat.clog 2 n → Nat.clog 2 n - bits < fuel →
    ceilLog2Loop n fuel bits (2 ^ bits) = .ok (Nat.clog 2 n) := by
  induction fuel with
  | zero =>
      intro bits _ hfuel
      omega
  | succ fuel ih =>
      intro bits hbits hfuel
      rw [ceilLog2Loop]
      by_cases hlt : (2 : Int) ^ bits < n
      · have hmore := (pow_lt_iff_lt_clog n bits).1 hlt
        rw [if_pos hlt, if_neg (by omega), ← pow_succ]
        exact ih hmore (by omega)
      · have hdone := mt (pow_lt_iff_lt_clog n bits).2 hlt
        rw [if_neg hlt]
        exact congrArg Except.ok (by omega)

theorem ceilLog2_eq {n : Nat} (hpos : 0 < n) (hn : Nat.clog 2 n ≤ 127) :
    ceilLog2 n = .ok (Nat.clog 2 n) := by
  have hvalue : (0 : Int) < n := by exact_mod_cast hpos
  rw [ceilLog2, ensure, if_pos hvalue]
  exact ceilLog2Loop_eq hn 129 (Nat.zero_le _) (by omega)

theorem ceilLog2LoopWide_eq {n : Nat} (hn : Nat.clog 2 n ≤ 126) (fuel : Nat) : ∀ {bits : Nat},
    bits ≤ Nat.clog 2 n → Nat.clog 2 n - bits < fuel →
    ceilLog2LoopWide n fuel bits (2 ^ bits) = pure (Nat.clog 2 n) := by
  induction fuel with
  | zero =>
      intro bits _ hfuel
      omega
  | succ fuel ih =>
      intro bits hbits hfuel
      rw [ceilLog2LoopWide]
      by_cases hlt : (2 : Int) ^ bits < n
      · have hmore := (pow_lt_iff_lt_clog n bits).1 hlt
        have hpower : (2 : Int) ^ (bits + 1) ≤ 2 ^ 126 :=
          pow_le_pow_right₀ (by decide) (by omega)
        have hnonneg : (0 : Int) ≤ 2 ^ (bits + 1) := by positivity
        rw [if_pos hlt, if_neg (by omega), ← pow_succ, wide_of ⟨by linarith, by linarith⟩,
          pure_bind]
        exact ih hmore (by omega)
      · have hdone := mt (pow_lt_iff_lt_clog n bits).2 hlt
        rw [if_neg hlt]
        exact congrArg pure (by omega)

theorem ceilLog2Wide_eq {n : Nat} (hpos : 0 < n) (hn : Nat.clog 2 n ≤ 126) :
    ceilLog2Wide n = pure (Nat.clog 2 n) := by
  have hvalue : (0 : Int) < n := by exact_mod_cast hpos
  rw [ceilLog2Wide, ensure, if_pos hvalue, within_ok, pure_bind]
  exact ceilLog2LoopWide_eq hn 129 (Nat.zero_le _) (by omega)

/-! ## Probes -/

/-- What has been checked, or is a matter of types, when `maximumMu` is called. -/
structure Reaches (domain : NumericDomain) (threshold q : Int) : Prop where
  scale : 0 < domain.scale ∧ domain.scale ≤ int64Max
  range : 0 ≤ threshold ∧ threshold < domain.scale
  q : 0 < q ∧ q ≤ int64Max
  rows : domain.maxRows < 2 ^ 64

/-- The bits of the coefficient bound. -/
def coefficientBits (domain : NumericDomain) (threshold q mu : Int) : Nat :=
  Nat.clog 2 (coefficientBound q mu (domain.scale - threshold) threshold).toNat

/-- What `supported` answers. -/
def supports (domain : NumericDomain) (threshold q mu : Int) : Bool :=
  decide (domain.maxCostBits + coefficientBits domain threshold q mu + 1 ≤ kSecureOperandBits ∧
    domain.maxCostBits + coefficientBits domain threshold q mu + Nat.clog 2 domain.maxRows ≤
      domain.compareOperandBits ∧
    domain.compareOperandBits ≤ kSecureOperandBits)

variable {domain : NumericDomain} {threshold q mu : Int}

namespace Reaches

/-- No product of two 64-bit factors reaches `2 ^ 126`. -/
theorem product_range (hmu : 0 ≤ mu ∧ mu ≤ int64Max) {factor : Int}
    (hfactor : 0 ≤ factor ∧ factor ≤ int64Max) : 0 ≤ mu * factor ∧ mu * factor < 2 ^ 126 := by
  refine ⟨mul_nonneg hmu.1 hfactor.1, ?_⟩
  calc
    mu * factor ≤ int64Max * int64Max := mul_le_mul hmu.2 hfactor.2 hfactor.1 (by decide)
    _ < 2 ^ 126 := by decide

variable (h : Reaches domain threshold q) (hmu : 0 ≤ mu ∧ mu ≤ int64Max)
include h

theorem alpha_range : 0 ≤ domain.scale - threshold ∧ domain.scale - threshold ≤ int64Max := by
  have hscale := h.scale
  have hrange := h.range
  omega

theorem threshold_range : 0 ≤ threshold ∧ threshold ≤ int64Max - 1 := by
  have hscale := h.scale
  have hrange := h.range
  omega

theorem clog_rows : Nat.clog 2 domain.maxRows ≤ 64 :=
  Nat.clog_le_of_le_pow h.rows.le

/-- A larger multiplier needs at least as many bits. -/
theorem supports_descends : Descends (supports domain threshold q) 0 := by
  intro x y hx hxy hy
  have halpha := h.alpha_range
  have hmono := coefficientBound_mono (q := q) hx hxy halpha.1 h.range.1
  have hbits : coefficientBits domain threshold q x ≤ coefficientBits domain threshold q y :=
    Nat.clog_mono_right 2 (Int.toNat_le_toNat hmono)
  simp only [supports, decide_eq_true_eq] at hy ⊢
  omega

include hmu

/-- The bound is positive, since `q` is, and both of its arguments stay below `2 ^ 126`. -/
theorem coefficientBound_range :
    0 < coefficientBound q mu (domain.scale - threshold) threshold ∧
      coefficientBound q mu (domain.scale - threshold) threshold ≤ 2 ^ 126 := by
  have halpha := product_range hmu h.alpha_range
  have hthreshold := h.threshold_range
  have hq := h.q
  have hproduct : mu * threshold ≤ int64Max * (int64Max - 1) :=
    mul_le_mul hmu.2 hthreshold.2 hthreshold.1 (by decide)
  have hnonneg : 0 ≤ mu * threshold := mul_nonneg hmu.1 hthreshold.1
  have hsquare : int64Max + int64Max * (int64Max - 1) ≤ 2 ^ 126 := by decide
  have hint : int64Max ≤ 2 ^ 126 := by decide
  unfold coefficientBound
  refine ⟨lt_max_of_lt_right (by linarith), max_le ?_ (by linarith)⟩
  exact abs_le.2 ⟨by linarith, by linarith⟩

theorem coefficientBits_le : coefficientBits domain threshold q mu ≤ 126 := by
  have hrange := h.coefficientBound_range hmu
  exact Nat.clog_le_of_le_pow (by omega)

theorem coefficientBoundWide_eq :
    coefficientBoundWide q mu (domain.scale - threshold) threshold =
      pure (coefficientBound q mu (domain.scale - threshold) threshold) := by
  have halpha := product_range hmu h.alpha_range
  have hthreshold := h.threshold_range
  have hproduct := product_range hmu ⟨hthreshold.1, by linarith⟩
  have hq := h.q
  have hint : int64Max ≤ 2 ^ 126 := by decide
  rw [coefficientBoundWide, wide_of ⟨by linarith, by linarith⟩, pure_bind,
    wide_of ⟨by linarith, by linarith⟩, pure_bind]
  have habs : absWide (q - mu * (domain.scale - threshold)) =
      pure |q - mu * (domain.scale - threshold)| := by
    unfold absWide
    split
    · rename_i hneg
      rw [abs_of_neg hneg]
      exact wide_of ⟨by linarith, by linarith⟩
    · rename_i hnonneg
      rw [abs_of_nonneg (not_lt.1 hnonneg)]
  rw [habs, pure_bind, wide_of ⟨by linarith, by linarith⟩, pure_bind,
    wide_of ⟨by linarith, by linarith⟩, pure_bind]
  rfl

theorem ceilLog2_coefficient :
    ceilLog2 (coefficientBound q mu (domain.scale - threshold) threshold) =
        .ok (coefficientBits domain threshold q mu) ∧
      ceilLog2Wide (coefficientBound q mu (domain.scale - threshold) threshold) =
        pure (coefficientBits domain threshold q mu) := by
  have hrange := h.coefficientBound_range hmu
  have hbits := h.coefficientBits_le hmu
  unfold coefficientBits at hbits ⊢
  generalize coefficientBound q mu (domain.scale - threshold) threshold = g at hrange hbits ⊢
  lift g to Nat using hrange.1.le
  have hpos : 0 < g := by exact_mod_cast hrange.1
  exact ⟨ceilLog2_eq hpos (by simpa using hbits.trans (by decide)),
    ceilLog2Wide_eq hpos (by simpa using hbits)⟩

/-- The probes of the search, once the first one has not been rejected: they neither throw nor
overflow. -/
theorem supported_eq (hrows : 0 < domain.maxRows) (hcost : domain.maxCostBits ≤ 126) :
    supported domain threshold q mu = .ok (supports domain threshold q mu) ∧
      supportedWide domain threshold q mu = pure (supports domain threshold q mu) := by
  have hbits := h.coefficientBits_le hmu
  have hclog := h.clog_rows
  have hlog := h.ceilLog2_coefficient hmu
  have hrowLog := ceilLog2_eq hrows (hclog.trans (by decide))
  have hrowLogWide := ceilLog2Wide_eq hrows (hclog.trans (by decide))
  have hscore := checkedBitSum_of
    (by omega : domain.maxCostBits + coefficientBits domain threshold q mu < 2 ^ 32)
  have hdelta := checkedBitSum_of
    (by omega : domain.maxCostBits + coefficientBits domain threshold q mu + 1 < 2 ^ 32)
  have hbound := checkedBitSum_of
    (by omega : domain.maxCostBits + coefficientBits domain threshold q mu +
      Nat.clog 2 domain.maxRows < 2 ^ 32)
  constructor
  · unfold supported requiredBits
    rw [ok_bind (f := _) (a := ⟨_, _, _⟩)]
    · rfl
    · rw [ok_bind hlog.1, ok_bind hscore, ok_bind hdelta, ok_bind hrowLog, ok_bind hbound]
      rfl
  · have halpha := h.alpha_range
    have hint : int64Max < 2 ^ 63 := by decide
    rw [supportedWide, narrow_of ⟨by linarith, by linarith⟩, pure_bind,
      h.coefficientBoundWide_eq hmu, pure_bind, hlog.2, pure_bind, hscore, within_ok, pure_bind,
      hdelta, within_ok, pure_bind, hrowLogWide, pure_bind, hbound, within_ok, pure_bind]
    rfl

end Reaches

/-- What the first probe has found out. -/
theorem rows_pos_of_supported (h : supported domain threshold q mu = .ok true) :
    0 < domain.maxRows ∧ domain.maxCostBits ≤ 126 := by
  rcases supported_fits h with ⟨g, r, hfits⟩
  refine ⟨?_, ?_⟩
  · rcases bind_eq_ok.1 h with ⟨bits, hbits, _⟩
    rcases bind_eq_ok.1 hbits with ⟨_, _, hbits⟩
    rcases bind_eq_ok.1 hbits with ⟨_, _, hbits⟩
    rcases bind_eq_ok.1 hbits with ⟨_, _, hbits⟩
    rcases bind_eq_ok.1 hbits with ⟨_, hrows, _⟩
    rcases bind_eq_ok.1 hrows with ⟨_, hpos, _⟩
    rw [ensure_eq_ok] at hpos
    exact_mod_cast hpos
  · have hdelta := hfits.delta
    unfold kSecureOperandBits at hdelta
    omega

/-! ## The search -/

section Search

variable (h : Reaches domain threshold q) (hrows : 0 < domain.maxRows)
  (hcost : domain.maxCostBits ≤ 126)
include h hrows hcost

theorem maximumMuLoop_eq (fuel : Nat) : ∀ {low high : Int}, 0 ≤ low → high ≤ int64Max →
    maximumMuLoop domain threshold q fuel low high =
      .ok (bisect (supports domain threshold q) fuel low high) := by
  induction fuel with
  | zero => exact fun _ _ => rfl
  | succ fuel ih =>
      intro low high hlow hhigh
      rw [maximumMuLoop, bisect]
      by_cases hlt : low < high
      · have hmid : 0 ≤ low + (high - low + 1) / 2 ∧ low + (high - low + 1) / 2 ≤ int64Max := by
          omega
        have hprobe := (h.supported_eq hmid hrows hcost).1
        rw [if_pos hlt, if_pos hlt, ok_bind hprobe]
        split
        · exact ih hmid.1 hhigh
        · exact ih hlow (by omega)
      · rw [if_neg hlt, if_neg hlt]

theorem maximumMuLoopWide_eq (fuel : Nat) : ∀ {low high : Int}, 0 ≤ low → high ≤ int64Max →
    maximumMuLoopWide domain threshold q fuel low high =
      pure (bisect (supports domain threshold q) fuel low high) := by
  have hint : int64Max < 2 ^ 63 := by decide
  induction fuel with
  | zero => exact fun _ _ => rfl
  | succ fuel ih =>
      intro low high hlow hhigh
      rw [maximumMuLoopWide, bisect]
      by_cases hlt : low < high
      · have hmid : 0 ≤ low + (high - low + 1) / 2 ∧ low + (high - low + 1) / 2 ≤ int64Max := by
          omega
        have hprobe := (h.supported_eq hmid hrows hcost).2
        rw [if_pos hlt, if_pos hlt, wide_of ⟨by linarith, by linarith⟩, pure_bind,
          narrow_of ⟨by linarith, by linarith⟩, pure_bind, hprobe, pure_bind]
        split
        · exact ih hmid.1 hhigh
        · rw [narrow_of ⟨by linarith, by linarith⟩, pure_bind]
          exact ih hlow (by omega)
      · rw [if_neg hlt, if_neg hlt]

end Search

/-- The multipliers of 64 bits that the domain supports. -/
def supportedMus (domain : NumericDomain) (threshold q : Int) : Set Int :=
  {mu | 0 ≤ mu ∧ mu ≤ int64Max ∧ supported domain threshold q mu = .ok true}

/-- The search returns the largest supported multiplier, and it does so without an overflow. -/
theorem maximumMu_spec (h : Reaches domain threshold q)
    (hzero : supported domain threshold q 0 = .ok true) :
    ∃ m, maximumMu domain threshold q = .ok m ∧ maximumMuWide domain threshold q = pure m ∧
      IsGreatest (supportedMus domain threshold q) m ∧
      ∀ mu, 0 ≤ mu → mu ≤ m → supported domain threshold q mu = .ok true := by
  have hfirst := rows_pos_of_supported hzero
  have hprobe : ∀ {mu}, 0 ≤ mu ∧ mu ≤ int64Max → _ := fun hmu =>
    h.supported_eq hmu hfirst.1 hfirst.2
  have hstart := hprobe ⟨le_rfl, by decide⟩
  have hsupports : supports domain threshold q 0 = true := Except.ok.inj (hstart.1.symm.trans hzero)
  have hgreatest := bisect_isGreatest 64 h.supports_descends hsupports
    (by decide : (0 : Int) ≤ int64Max) (by decide)
  have hset : supportedMus domain threshold q =
      {x | 0 ≤ x ∧ x ≤ int64Max ∧ supports domain threshold q x = true} := by
    ext x
    refine and_congr_right fun hx => and_congr_right fun hmax => ?_
    rw [(hprobe ⟨hx, hmax⟩).1, Except.ok.injEq]
  have hloop := maximumMuLoop_eq h hfirst.1 hfirst.2 64 le_rfl (le_refl int64Max)
  have hloopWide := maximumMuLoopWide_eq h hfirst.1 hfirst.2 64 le_rfl (le_refl int64Max)
  refine ⟨_, ?_, ?_, hset ▸ hgreatest, fun mu hmu hle => ?_⟩
  · rw [maximumMu, ok_bind hzero]
    exact hloop
  · rw [maximumMuWide, hstart.2, pure_bind, hsupports]
    exact hloopWide
  · rw [(hprobe ⟨hmu, hle.trans hgreatest.1.2.1⟩).1]
    exact congrArg Except.ok (h.supports_descends hmu hle hgreatest.1.2.2)

/-! ## Grids -/

/-- A grid that passes the checks of `deriveLagrangianNumericBounds` before the search. -/
structure WellFormed (domain : NumericDomain) (threshold : Int) (grid : LagrangianGrid) :
    Prop where
  reaches : Reaches domain threshold grid.q
  complete : domain.maxRows ≠ 0 ∧ domain.maxCostBits ≠ 0 ∧ domain.compareOperandBits ≠ 0
  denominator : 0 < grid.denominator
  q : domain.scale * grid.denominator = grid.q
  sorted : grid.mu.IsChain (· ≤ ·) ∧ grid.mu.head? = some 0
  distinct : grid.mu.IsChain (· ≠ ·)
  int64 : ∀ mu ∈ grid.mu, mu ≤ int64Max

namespace WellFormed

variable {grid : LagrangianGrid} (h : WellFormed domain threshold grid)
include h

theorem zero_mem : 0 ∈ grid.mu :=
  List.mem_of_head? h.sorted.2

theorem back_mem : grid.mu.getLastD 0 ∈ grid.mu := by
  have hne : grid.mu ≠ [] := List.ne_nil_of_mem h.zero_mem
  rw [List.getLastD_eq_getLast?, List.getLast?_eq_some_getLast hne]
  exact List.getLast_mem hne

theorem le_back (hmem : mu ∈ grid.mu) : mu ≤ grid.mu.getLastD 0 :=
  le_getLastD h.sorted.1.pairwise hmem

/-- The last multiplier speaks for all of them. -/
theorem derive_iff : (∃ bounds, deriveLagrangianNumericBounds domain threshold grid = .ok bounds) ↔
    ∀ mu ∈ grid.mu, supported domain threshold grid.q mu = .ok true := by
  have hback := h.le_back h.zero_mem
  constructor
  · rintro ⟨bounds, hderive⟩ mu hmem
    have hnonneg := (derive_facts hderive).nonneg mu hmem
    rcases bind_eq_ok.1 hderive with ⟨_, _, hderive⟩
    rcases bind_eq_ok.1 hderive with ⟨_, _, hderive⟩
    rcases bind_eq_ok.1 hderive with ⟨_, _, hderive⟩
    rcases bind_eq_ok.1 hderive with ⟨_, _, hderive⟩
    rcases bind_eq_ok.1 hderive with ⟨_, _, hderive⟩
    rcases bind_eq_ok.1 hderive with ⟨_, _, hderive⟩
    rcases bind_eq_ok.1 hderive with ⟨_, _, hderive⟩
    rcases bind_eq_ok.1 hderive with ⟨_, _, hderive⟩
    rcases bind_eq_ok.1 hderive with ⟨maximum, hmaximum, hderive⟩
    rcases bind_eq_ok.1 hderive with ⟨_, hle, _⟩
    rw [ensure_eq_ok] at hle
    rcases bind_eq_ok.1 hmaximum with ⟨zeroSupported, hzero, hrest⟩
    rcases bind_eq_ok.1 hrest with ⟨_, htrue, _⟩
    rw [ensure_eq_ok] at htrue
    rw [htrue] at hzero
    -- The last multiplier is at most the greatest supported one, and so is every other.
    rcases maximumMu_spec h.reaches hzero with ⟨m, hm, _, _, hbelow⟩
    have heq : m = maximum := Except.ok.inj (hm.symm.trans hmaximum)
    exact hbelow mu hnonneg ((h.le_back hmem).trans (hle.trans_eq heq.symm))
  · intro hall
    have hzero := hall 0 h.zero_mem
    have hlast := hall _ h.back_mem
    rcases maximumMu_spec h.reaches hzero with ⟨m, hm, _, hgreatest, _⟩
    have hcompare : domain.compareOperandBits ≤ kSecureOperandBits := by
      rcases bind_eq_ok.1 hzero with ⟨bits, _, hbits⟩
      have htrue := Except.ok.inj hbits
      simp only [decide_eq_true_eq] at htrue
      exact htrue.2.2
    rcases bind_eq_ok.1 hlast with ⟨bits, hbits, _⟩
    refine ⟨⟨bits.score, bits.delta, bits.bound, m⟩, ?_⟩
    have hensure : ∀ {c : Prop} [Decidable c] {e : Error}, c → ensure c e = .ok () :=
      fun hc => ensure_eq_ok.2 hc
    unfold deriveLagrangianNumericBounds
    rw [ok_bind (hensure ⟨h.reaches.scale.1, h.complete⟩), ok_bind (hensure h.reaches.range),
      ok_bind (hensure ⟨h.reaches.q.1, h.denominator, List.ne_nil_of_mem h.zero_mem⟩),
      ok_bind (hensure h.q), ok_bind (hensure h.sorted), ok_bind (hensure h.distinct),
      ok_bind (hensure hback), ok_bind (hensure hcompare), ok_bind hm,
      ok_bind (hensure (hgreatest.2 ⟨hback, h.int64 _ h.back_mem, hlast⟩)), ok_bind hbits]
    rfl

end WellFormed

/-- The search finds the largest supported multiplier, every smaller one is supported, no probe
throws or overflows, and therefore a well-formed grid is accepted exactly when all of its
multipliers are supported. -/
theorem maximumMu_greatest (domain : NumericDomain) (threshold : Int) :
    (∀ q, Reaches domain threshold q → supported domain threshold q 0 = .ok true →
      ∃ m, maximumMu domain threshold q = .ok m ∧ maximumMuWide domain threshold q = pure m ∧
        IsGreatest (supportedMus domain threshold q) m ∧
        ∀ mu, 0 ≤ mu → mu ≤ m → supported domain threshold q mu = .ok true) ∧
    ∀ grid, WellFormed domain threshold grid →
      ((∃ bounds, deriveLagrangianNumericBounds domain threshold grid = .ok bounds) ↔
        ∀ mu ∈ grid.mu, supported domain threshold grid.q mu = .ok true) :=
  ⟨fun _ h hzero => maximumMu_spec h hzero, fun _ h => h.derive_iff⟩

/-- A domain for eight rows and its grid of three multipliers. -/
theorem maximumMu_greatest_eightRows :
    (∃ m, maximumMu ⟨100, 8, 8, 16, 24, 32⟩ 50 400 = .ok m ∧
      maximumMuWide ⟨100, 8, 8, 16, 24, 32⟩ 50 400 = pure m ∧
      IsGreatest (supportedMus ⟨100, 8, 8, 16, 24, 32⟩ 50 400) m ∧
      ∀ mu, 0 ≤ mu → mu ≤ m → supported ⟨100, 8, 8, 16, 24, 32⟩ 50 400 mu = .ok true) ∧
    ((∃ bounds, deriveLagrangianNumericBounds ⟨100, 8, 8, 16, 24, 32⟩ 50 ⟨400, 4, [0, 8, 16]⟩ =
        .ok bounds) ↔
      ∀ mu ∈ [0, 8, 16], supported ⟨100, 8, 8, 16, 24, 32⟩ 50 400 mu = .ok true) := by
  have hreaches : Reaches ⟨100, 8, 8, 16, 24, 32⟩ 50 400 :=
    ⟨by decide, by decide, by decide, by decide⟩
  have hgrid : WellFormed ⟨100, 8, 8, 16, 24, 32⟩ 50 ⟨400, 4, [0, 8, 16]⟩ :=
    ⟨hreaches, by decide, by decide, by decide, by decide, by decide, by decide⟩
  have h := maximumMu_greatest ⟨100, 8, 8, 16, 24, 32⟩ 50
  exact ⟨h.1 400 hreaches (by decide), h.2 _ hgrid⟩

end Optimization
end SociSgx

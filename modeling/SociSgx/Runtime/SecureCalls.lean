import SociSgx.Runtime.Crypto
import SociSgx.Lib.RestoringDivision

/-!
# SecureCalls — the two-party protocols in one process

In the `OFF` mode `c_api.cpp` plays both parties of the comparison and of the product, and only
masked values are decrypted.  The division tries the shifted divisors with these two, so that its
quotient and its remainder are those of restoring division.

Every random value is an argument: a draw holds what one call takes from the generator.
-/

namespace SociSgx
namespace Runtime

open Exec SociSgx.Modular Paillier Protocol

/-! ## The helpers on ciphertexts -/

/-- `mpz_powm` inverts for a negative exponent, and divides by zero where there is no inverse. -/
def cpow (ciphertext : Nat) (exponent : Int) (modulus : Nat) : Except Thrown Nat :=
  match exponent with
  | .ofNat k => .ok (powMod ciphertext k modulus)
  | .negSucc k =>
      match invMod ciphertext modulus with
      | none => .error (.other "divide by zero")
      | some inverse => .ok (powMod inverse (k + 1) modulus)

def cinv (ciphertext modulus : Nat) : Except Thrown Nat :=
  match invMod ciphertext modulus with
  | none => .error (.invalidArgument "ciphertext inverse failed")
  | some inverse => .ok inverse

def cadd (a b modulus : Nat) : Nat :=
  a * b % modulus

/-- What `random128` returns: 128 random bits, with one in the place of zero. -/
structure Random128 where
  value : Nat
  pos : 1 ≤ value
  lt : value < 2 ^ 128

/-! ## Comparison, product, division -/

/-- The draws of `soci_plus_less`; the noise is drawn again until it is below `r3`. -/
structure LessDraw (n : Nat) where
  r3 : Random128
  noise : Random128
  below : noise.value < r3.value
  pi : Bool
  mask : Nonce n
  bit : Nonce n
  one : Nonce n

/-- `d` in `soci_plus_less`: the difference, scaled and moved to the half of the modulus. -/
def maskedDifference (key : KeyNumbers) (x y : Nat) (draw : LessDraw key.pub.n) :
    Except Thrown Nat :=
  let r4 : Int := ((key.pub.n / 2 : Nat) : Int) - draw.noise.value
  if draw.pi = false then do
    let minusY ← cpow y ((key.pub.n : Int) - 1) key.pub.nsq
    let difference := x * minusY % key.pub.nsq
    let scaled ← cpow difference draw.r3.value key.pub.nsq
    return scaled * encrypt key.pub (draw.r3.value + r4) draw.mask % key.pub.nsq
  else do
    let minusX ← cinv x key.pub.nsq
    let difference := y * minusX % key.pub.nsq
    let scaled ← cpow difference draw.r3.value key.pub.nsq
    return scaled * encrypt key.pub r4 draw.mask % key.pub.nsq

/-- Undoing the orientation. -/
def unorient (key : KeyNumbers) (encryptedBit : Nat) (draw : LessDraw key.pub.n) :
    Except Thrown Nat :=
  if draw.pi = true then do
    let minusBit ← cinv encryptedBit key.pub.nsq
    return encrypt key.pub 1 draw.one * minusBit % key.pub.nsq
  else
    return encryptedBit

/-- `soci_plus_less`: the bit says whether `x` is the smaller one. -/
def sociPlusLess (key : KeyNumbers) (x y : Nat) (draw : LessDraw key.pub.n) :
    Except Thrown Nat := do
  let d ← maskedDifference key x y draw
  -- The other party decrypts, and undoes the sign that `decrypt` gives a residue.
  let signed ← decrypt key d
  let visible := if signed < 0 then signed + key.pub.n else signed
  let bit := if visible > ((key.pub.n / 2 : Nat) : Int) then 0 else 1
  unorient key (encrypt key.pub bit draw.bit) draw

/-- The draws of `soci_plus_mul`. -/
structure MulDraw (n : Nat) where
  r1 : Random128
  r2 : Random128
  maskX : Nonce n
  maskY : Nonce n
  product : Nonce n
  correction : Nonce n

def sociPlusMul (key : KeyNumbers) (x y : Nat) (draw : MulDraw key.pub.n) : Except Thrown Nat := do
  let maskedX ← decrypt key (cadd x (encrypt key.pub draw.r1.value draw.maskX) key.pub.nsq)
  let maskedY ← decrypt key (cadd y (encrypt key.pub draw.r2.value draw.maskY) key.pub.nsq)
  let product := encrypt key.pub (maskedX * maskedY) draw.product
  let corrX ← cpow x ((key.pub.n : Int) - draw.r2.value) key.pub.nsq
  let product := cadd product corrX key.pub.nsq
  let corrY ← cpow y ((key.pub.n : Int) - draw.r1.value) key.pub.nsq
  let product := cadd product corrY key.pub.nsq
  return cadd product
    (encrypt key.pub (-(draw.r1.value : Int) * draw.r2.value) draw.correction) key.pub.nsq

/-- The draws of `soci_plus_sign`. -/
structure SignDraw (n : Nat) where
  zero : Nonce n
  less : LessDraw n

def sociPlusSign (key : KeyNumbers) (x : Nat) (draw : SignDraw key.pub.n) : Except Thrown Nat :=
  sociPlusLess key x (encrypt key.pub 0 draw.zero) draw.less

/-- The draws of `soci_plus_abs`. -/
structure AbsDraw (n : Nat) where
  sign : SignDraw n
  one : Nonce n
  mul : MulDraw n

def sociPlusAbs (key : KeyNumbers) (x : Nat) (draw : AbsDraw key.pub.n) : Except Thrown Nat := do
  let sign ← sociPlusSign key x draw.sign
  let twice ← cpow sign ((key.pub.n : Int) - 2) key.pub.nsq
  let factor := cadd (encrypt key.pub 1 draw.one) twice key.pub.nsq
  sociPlusMul key factor x draw.mul

/-- The draws of one pass of the loop of `soci_plus_div`. -/
structure DivStepDraw (n : Nat) where
  less : LessDraw n
  mul : MulDraw n

/-- The body of the loop; the state is the quotient and the dividend. -/
def sociPlusDivStep (key : KeyNumbers) (divisor one step : Nat) (draw : DivStepDraw key.pub.n)
    (state : Nat × Nat) : Except Thrown (Nat × Nat) := do
  let shifted ← cpow divisor (2 ^ step : Nat) key.pub.nsq
  let less ← sociPlusLess key state.2 shifted draw.less
  let minusLess ← cpow less ((key.pub.n : Int) - 1) key.pub.nsq
  let take := cadd one minusLess key.pub.nsq
  let taken ← cpow take (2 ^ step : Nat) key.pub.nsq
  let quotient := cadd state.1 taken key.pub.nsq
  let subtraction ← sociPlusMul key take shifted draw.mul
  let minus ← cpow subtraction ((key.pub.n : Int) - 1) key.pub.nsq
  return (quotient, cadd state.2 minus key.pub.nsq)

/-- The loop from `step - 1` down. -/
def sociPlusDivLoop (key : KeyNumbers) (divisor one : Nat)
    (draws : Nat → DivStepDraw key.pub.n) : Nat → Nat × Nat → Except Thrown (Nat × Nat)
  | 0, state => .ok state
  | step + 1, state => do
      let state ← sociPlusDivStep key divisor one step (draws step) state
      sociPlusDivLoop key divisor one draws step state

/-- The draws of `soci_plus_div`. -/
structure DivDraw (n : Nat) where
  zero : Nonce n
  one : Nonce n
  steps : Nat → DivStepDraw n

def sociPlusDiv (key : KeyNumbers) (dividend divisor bits : Nat) (draw : DivDraw key.pub.n) :
    Except Thrown (Nat × Nat) :=
  sociPlusDivLoop key divisor (encrypt key.pub 1 draw.one) draw.steps bits
    (encrypt key.pub 0 draw.zero, dividend)

/-- The draws of `soci_secure_div`. -/
structure SecureDivDraw (n : Nat) where
  one : Nonce n
  less : LessDraw n
  div : DivDraw n

/-- `soci_secure_div` on the decoded operands. -/
def sociSecureDiv (key : KeyNumbers) (x y : Nat) (draw : SecureDivDraw key.pub.n) :
    Except Thrown (Nat × Nat) := do
  let belowOne ← sociPlusLess key y (encrypt key.pub 1 draw.one) draw.less
  let sign ← decrypt key belowOne
  ensure (sign = 0) (Thrown.invalidArgument "divisor must be positive")
  sociPlusDiv key x y 21 draw.div

/-- `soci_secure_compare` on the decoded operands: the operands change places. -/
def sociSecureCompare (key : KeyNumbers) (a b : Nat) (draw : LessDraw key.pub.n) :
    Except Thrown Nat :=
  sociPlusLess key b a draw

/-! ## What the helpers do to plaintexts -/

section Helpers

variable {n c : Nat} {m : Int}

theorem invMod_encrypts (hn : 0 < n) (h : Encrypts n c m) :
    ∃ inverse, invMod c (n * n) = some inverse ∧ Encrypts n inverse (-m) := by
  rcases invMod_of_coprime (Nat.mul_pos hn hn) h.coprime with ⟨inverse, hinv, hlt, hone⟩
  exact ⟨inverse, hinv, h.inverse hlt hone⟩

theorem cpow_spec (hn : 0 < n) (h : Encrypts n c m) (e : Int) :
    ∃ z, cpow c e (n * n) = .ok z ∧ Encrypts n z (e * m) := by
  cases e with
  | ofNat k => exact ⟨_, rfl, h.powMod k⟩
  | negSucc k =>
      rcases invMod_encrypts hn h with ⟨inverse, hinv, henc⟩
      have hexponent : Int.negSucc k * m = ((k + 1 : Nat) : Int) * -m := by
        rw [Int.negSucc_eq]
        push_cast
        ring
      refine ⟨powMod inverse (k + 1) (n * n), by simp only [cpow, hinv], ?_⟩
      rw [hexponent]
      exact henc.powMod (k + 1)

theorem cinv_spec (hn : 0 < n) (h : Encrypts n c m) :
    ∃ z, cinv c (n * n) = .ok z ∧ Encrypts n z (-m) := by
  rcases invMod_encrypts hn h with ⟨inverse, hinv, henc⟩
  exact ⟨inverse, by simp only [cinv, hinv], henc⟩

end Helpers

variable {p q : Nat} {key : KeyNumbers} {x y : Nat} {a b : Int}

/-- Adding the modulus to what is negative undoes the sign. -/
theorem visible_signedResidue {n : Nat} {r : Int} (hnonneg : 0 ≤ r) (hlt : r < n) :
    (if signedResidue n r < 0 then signedResidue n r + n else signedResidue n r) = r := by
  unfold signedResidue
  split <;> split <;> omega

/-- A plaintext below the half comes back as it is. -/
theorem decrypt_nonneg (h : KeyPrimes p q) (hk : OffKey p q key) {c : Nat} {m : Int}
    (hc : Encrypts key.pub.n c m) (hnonneg : 0 ≤ m) (hhalf : m < ((key.pub.n / 2 : Nat) : Int)) :
    decrypt key c = .ok m := by
  have hmod : m % (key.pub.n : Int) = m := Int.emod_eq_of_lt hnonneg (by omega)
  rw [decrypt_spec h hk hc, hmod, signedResidue, if_neg (by omega)]

/-! ## The comparison -/

/-- `x < y` as an integer. -/
def lessBit (a b : Int) : Int :=
  if a < b then 1 else 0

/-- Two plaintexts whose difference can be masked by 128 bits without a wrap. -/
def Comparable (n : Nat) (a b : Int) : Prop :=
  (|a - b| + 1) * 2 ^ 129 ≤ n

/-- The factor of `r3`: positive when the oriented comparison holds. -/
def maskedFactor (a b : Int) (pi : Bool) : Int :=
  if pi = false then a - b + 1 else b - a

/-- The distance of the masked difference from the half of the modulus. -/
def maskedSide (a b : Int) {n : Nat} (draw : LessDraw n) : Int :=
  maskedFactor a b draw.pi * draw.r3.value - draw.noise.value

theorem maskedSide_pos_iff {n : Nat} (draw : LessDraw n) :
    0 < maskedSide a b draw ↔ 0 < maskedFactor a b draw.pi := by
  have hnoise : (1 : Int) ≤ draw.noise.value := by exact_mod_cast draw.noise.pos
  have hbelow : (draw.noise.value : Int) < draw.r3.value := by exact_mod_cast draw.below
  unfold maskedSide
  rcases lt_or_ge 0 (maskedFactor a b draw.pi) with hpos | hneg
  · have hge : (draw.r3.value : Int) ≤ maskedFactor a b draw.pi * draw.r3.value :=
      le_mul_of_one_le_left (by omega) hpos
    exact iff_of_true (by omega) hpos
  · have hle : maskedFactor a b draw.pi * draw.r3.value ≤ 0 :=
      mul_nonpos_of_nonpos_of_nonneg hneg (by omega)
    exact iff_of_false (by omega) (by omega)

/-- The mask never reaches past the ends of the residues. -/
theorem maskedSide_small {n : Nat} (hcomparable : Comparable n a b) (draw : LessDraw n) :
    |maskedSide a b draw| < ((n / 2 : Nat) : Int) := by
  have hnoise : (1 : Int) ≤ draw.noise.value := by exact_mod_cast draw.noise.pos
  have hbelow : (draw.noise.value : Int) < draw.r3.value := by exact_mod_cast draw.below
  have hr3 : (draw.r3.value : Int) < 2 ^ 128 := by exact_mod_cast draw.r3.lt
  have hdist := abs_le.1 (le_refl |a - b|)
  have hfactor : -|a - b| ≤ maskedFactor a b draw.pi ∧
      maskedFactor a b draw.pi ≤ |a - b| + 1 := by
    unfold maskedFactor
    split <;> omega
  have hbound : (|a - b| + 1) * 2 ^ 128 ≤ ((n / 2 : Nat) : Int) := by
    unfold Comparable at hcomparable
    omega
  have hupper : maskedFactor a b draw.pi * draw.r3.value ≤ (|a - b| + 1) * draw.r3.value :=
    mul_le_mul_of_nonneg_right hfactor.2 (by omega)
  have hlower : -|a - b| * draw.r3.value ≤ maskedFactor a b draw.pi * draw.r3.value :=
    mul_le_mul_of_nonneg_right hfactor.1 (by omega)
  have hwidth : (|a - b| + 1) * draw.r3.value ≤ (|a - b| + 1) * 2 ^ 128 :=
    mul_le_mul_of_nonneg_left hr3.le (by positivity)
  have hsplit : (|a - b| + 1) * draw.r3.value = |a - b| * draw.r3.value + draw.r3.value := by ring
  rw [neg_mul] at hlower
  rw [maskedSide, abs_lt]
  constructor <;> omega

/-- The bit of the other party is the comparison, or its negation under the other orientation. -/
theorem visibleBit_eq {n : Nat} (draw : LessDraw n) :
    (if ((n / 2 : Nat) : Int) + maskedSide a b draw > ((n / 2 : Nat) : Int) then (0 : Int) else 1) =
      if draw.pi = true then 1 - lessBit a b else lessBit a b := by
  have hside : ((n / 2 : Nat) : Int) + maskedSide a b draw > ((n / 2 : Nat) : Int) ↔
      0 < maskedFactor a b draw.pi := by
    rw [← maskedSide_pos_iff]
    omega
  rw [if_congr hside rfl rfl]
  unfold maskedFactor lessBit
  cases draw.pi
  · simp only [if_true, Bool.false_eq_true, if_false]
    split <;> split <;> omega
  · simp only [if_true, Bool.true_eq_false, if_false]
    split <;> split <;> omega

theorem maskedDifference_spec (hk : OffKey p q key) (hn : 0 < key.pub.n)
    (hx : Encrypts key.pub.n x a) (hy : Encrypts key.pub.n y b) (draw : LessDraw key.pub.n) :
    ∃ d, maskedDifference key x y draw = .ok d ∧
      Encrypts key.pub.n d (((key.pub.n / 2 : Nat) : Int) + maskedSide a b draw) := by
  unfold maskedDifference maskedSide maskedFactor
  rw [hk.square]
  cases draw.pi
  · rcases cpow_spec hn hy ((key.pub.n : Int) - 1) with ⟨minusY, hminus, hencMinus⟩
    rcases cpow_spec hn (hx.mul hencMinus) draw.r3.value with ⟨scaled, hscaled, hencScaled⟩
    have henc := hencScaled.mul (encrypts_encrypt hk (draw.r3.value +
      (((key.pub.n / 2 : Nat) : Int) - draw.noise.value)) draw.mask)
    refine ⟨_, bind_eq_ok.2 ⟨_, hminus, bind_eq_ok.2 ⟨_, hscaled, rfl⟩⟩, henc.congr ?_⟩
    -- The exponent `n - 1` stands for `-1`.
    rw [if_pos rfl]
    exact Int.modEq_iff_dvd.2 ⟨-b * draw.r3.value, by ring⟩
  · rcases cinv_spec hn hx with ⟨minusX, hminus, hencMinus⟩
    rcases cpow_spec hn (hy.mul hencMinus) draw.r3.value with ⟨scaled, hscaled, hencScaled⟩
    have henc := hencScaled.mul (encrypts_encrypt hk
      (((key.pub.n / 2 : Nat) : Int) - draw.noise.value) draw.mask)
    refine ⟨_, bind_eq_ok.2 ⟨_, hminus, bind_eq_ok.2 ⟨_, hscaled, rfl⟩⟩, henc.congr ?_⟩
    rw [if_neg (by decide)]
    exact Int.modEq_iff_dvd.2 ⟨0, by ring⟩

theorem unorient_spec (hk : OffKey p q key) (hn : 0 < key.pub.n) (draw : LessDraw key.pub.n)
    {bit : Nat} (hbit : Encrypts key.pub.n bit
      (if draw.pi = true then 1 - lessBit a b else lessBit a b)) :
    ∃ c, unorient key bit draw = .ok c ∧ Encrypts key.pub.n c (lessBit a b) := by
  unfold unorient
  rw [hk.square]
  cases hpi : draw.pi
  · rw [hpi] at hbit
    exact ⟨bit, rfl, hbit⟩
  · rw [hpi, if_pos rfl] at hbit
    rcases cinv_spec hn hbit with ⟨minus, hminus, hencMinus⟩
    have henc := (encrypts_encrypt hk 1 draw.one).mul hencMinus
    have hflip : 1 + -(1 - lessBit a b) = lessBit a b := by ring
    rw [hflip] at henc
    exact ⟨_, bind_eq_ok.2 ⟨_, hminus, rfl⟩, henc⟩

theorem sociPlusLess_spec (h : KeyPrimes p q) (hk : OffKey p q key)
    (hx : Encrypts key.pub.n x a) (hy : Encrypts key.pub.n y b)
    (hcomparable : Comparable key.pub.n a b) (draw : LessDraw key.pub.n) :
    ∃ c, sociPlusLess key x y draw = .ok c ∧ Encrypts key.pub.n c (lessBit a b) := by
  have hn : 1 < key.pub.n := hk.modulus ▸ h.one_lt
  have hsmall := abs_lt.1 (maskedSide_small hcomparable draw)
  rcases maskedDifference_spec hk hn.le hx hy draw with ⟨d, hd, hencD⟩
  have hmod : (((key.pub.n / 2 : Nat) : Int) + maskedSide a b draw) % (key.pub.n : Int) =
      ((key.pub.n / 2 : Nat) : Int) + maskedSide a b draw :=
    Int.emod_eq_of_lt (by omega) (by omega)
  have hdecrypt := decrypt_spec h hk hencD
  rw [hmod] at hdecrypt
  have hvisible := visible_signedResidue (n := key.pub.n)
    (r := ((key.pub.n / 2 : Nat) : Int) + maskedSide a b draw) (by omega) (by omega)
  rcases unorient_spec hk hn.le draw (encrypts_encrypt hk
    (if draw.pi = true then 1 - lessBit a b else lessBit a b) draw.bit) with ⟨c, hc, henc⟩
  refine ⟨c, bind_eq_ok.2 ⟨d, hd, bind_eq_ok.2 ⟨_, hdecrypt, ?_⟩⟩, henc⟩
  dsimp only
  rw [hvisible, visibleBit_eq]
  exact hc

/-! ## The product -/

/-- Decryption gives some integer with the residue of the plaintext. -/
theorem decrypt_modEq (h : KeyPrimes p q) (hk : OffKey p q key) {c : Nat} {m : Int}
    (hc : Encrypts key.pub.n c m) : ∃ v, decrypt key c = .ok v ∧ v ≡ m [ZMOD key.pub.n] := by
  refine ⟨_, decrypt_spec h hk hc, ?_⟩
  have hresidue : signedResidue key.pub.n (m % key.pub.n) ≡ m % key.pub.n [ZMOD key.pub.n] := by
    unfold signedResidue
    split
    · exact Int.modEq_iff_dvd.2 ⟨1, by ring⟩
    · exact Int.ModEq.refl _
  exact hresidue.trans (Int.mod_modEq m key.pub.n)

/-- The product is right for every pair of plaintexts and every pair of masks. -/
theorem sociPlusMul_spec (h : KeyPrimes p q) (hk : OffKey p q key)
    (hx : Encrypts key.pub.n x a) (hy : Encrypts key.pub.n y b) (draw : MulDraw key.pub.n) :
    ∃ c, sociPlusMul key x y draw = .ok c ∧ Encrypts key.pub.n c (a * b) := by
  have hn : 0 < key.pub.n := Nat.lt_trans Nat.one_pos (hk.modulus ▸ h.one_lt)
  unfold sociPlusMul cadd
  rw [hk.square]
  rcases decrypt_modEq h hk (hx.mul (encrypts_encrypt hk draw.r1.value draw.maskX)) with
    ⟨maskedX, hmaskedX, hmodX⟩
  rcases decrypt_modEq h hk (hy.mul (encrypts_encrypt hk draw.r2.value draw.maskY)) with
    ⟨maskedY, hmaskedY, hmodY⟩
  rcases cpow_spec hn hx ((key.pub.n : Int) - draw.r2.value) with ⟨corrX, hcorrX, hencX⟩
  rcases cpow_spec hn hy ((key.pub.n : Int) - draw.r1.value) with ⟨corrY, hcorrY, hencY⟩
  have henc := (((encrypts_encrypt hk (maskedX * maskedY) draw.product).mul hencX).mul hencY).mul
    (encrypts_encrypt hk (-(draw.r1.value : Int) * draw.r2.value) draw.correction)
  refine ⟨_, bind_eq_ok.2 ⟨_, hmaskedX, bind_eq_ok.2 ⟨_, hmaskedY, bind_eq_ok.2 ⟨_, hcorrX,
    bind_eq_ok.2 ⟨_, hcorrY, rfl⟩⟩⟩⟩, henc.congr ?_⟩
  have hproduct := hmodX.mul hmodY
  calc
    maskedX * maskedY + ((key.pub.n : Int) - draw.r2.value) * a +
        ((key.pub.n : Int) - draw.r1.value) * b + -(draw.r1.value : Int) * draw.r2.value
      ≡ (a + draw.r1.value) * (b + draw.r2.value) + ((key.pub.n : Int) - draw.r2.value) * a +
          ((key.pub.n : Int) - draw.r1.value) * b + -(draw.r1.value : Int) * draw.r2.value
          [ZMOD key.pub.n] :=
        ((hproduct.add_right _).add_right _).add_right _
    _ ≡ a * b [ZMOD key.pub.n] := Int.modEq_iff_dvd.2 ⟨-(a + b), by ring⟩

/-! ## Sign and absolute value -/

theorem sociPlusSign_spec (h : KeyPrimes p q) (hk : OffKey p q key)
    (hx : Encrypts key.pub.n x a) (hcomparable : Comparable key.pub.n a 0)
    (draw : SignDraw key.pub.n) :
    ∃ c, sociPlusSign key x draw = .ok c ∧ Encrypts key.pub.n c (lessBit a 0) :=
  sociPlusLess_spec h hk hx (encrypts_encrypt hk 0 draw.zero) hcomparable draw.less

theorem sociPlusAbs_spec (h : KeyPrimes p q) (hk : OffKey p q key)
    (hx : Encrypts key.pub.n x a) (hcomparable : Comparable key.pub.n a 0)
    (draw : AbsDraw key.pub.n) :
    ∃ c, sociPlusAbs key x draw = .ok c ∧ Encrypts key.pub.n c |a| := by
  have hn : 0 < key.pub.n := Nat.lt_trans Nat.one_pos (hk.modulus ▸ h.one_lt)
  rcases sociPlusSign_spec h hk hx hcomparable draw.sign with ⟨sign, hsign, hencSign⟩
  rcases cpow_spec hn hencSign ((key.pub.n : Int) - 2) with ⟨twice, htwice, hencTwice⟩
  have hfactor : Encrypts key.pub.n _ (1 - 2 * lessBit a 0) :=
    ((encrypts_encrypt hk 1 draw.one).mul hencTwice).congr
      (Int.modEq_iff_dvd.2 ⟨-lessBit a 0, by ring⟩)
  rcases sociPlusMul_spec h hk hfactor hx draw.mul with ⟨c, hc, henc⟩
  have habs : (1 - 2 * lessBit a 0) * a = |a| := by
    unfold lessBit
    split
    · rename_i hneg
      rw [abs_of_neg hneg]
      ring
    · rename_i hnonneg
      rw [abs_of_nonneg (not_lt.1 hnonneg)]
      ring
  rw [habs] at henc
  rw [← hk.square] at htwice hc
  exact ⟨c, bind_eq_ok.2 ⟨_, hsign, bind_eq_ok.2 ⟨_, htwice, hc⟩⟩, henc⟩

/-! ## The division -/

/-- Small plaintexts can be compared. -/
theorem comparable_of_small {n : Nat} (hn : 2 ^ 130 ≤ n) {r s : Nat} (hr : r * 2 ^ 130 < n)
    (hs : s * 2 ^ 130 < n) : Comparable n r s := by
  have habs : |(r : Int) - s| * 2 ^ 130 < n := by
    rcases abs_cases ((r : Int) - s) with ⟨heq, _⟩ | ⟨heq, _⟩ <;> rw [heq] <;> omega
  unfold Comparable
  omega

/-- The state of the loop encrypts a quotient and a remainder. -/
structure EncryptsPair (n : Nat) (state : Nat × Nat) (plain : Nat × Nat) : Prop where
  quotient : Encrypts n state.1 plain.1
  dividend : Encrypts n state.2 plain.2

/-- One pass of the loop does one step of restoring division. -/
theorem sociPlusDivStep_spec (h : KeyPrimes p q) (hk : OffKey p q key)
    {divisor one step : Nat} {d : Nat} {state plain : Nat × Nat}
    (hdivisor : Encrypts key.pub.n divisor d) (hone : Encrypts key.pub.n one 1)
    (hstate : EncryptsPair key.pub.n state plain)
    (hcomparable : Comparable key.pub.n plain.2 ((d * 2 ^ step : Nat) : Int))
    (draw : DivStepDraw key.pub.n) :
    ∃ state', sociPlusDivStep key divisor one step draw state = .ok state' ∧
      EncryptsPair key.pub.n state' (Restoring.step d step plain) := by
  have hn : 0 < key.pub.n := Nat.lt_trans Nat.one_pos (hk.modulus ▸ h.one_lt)
  rcases cpow_spec hn hdivisor (2 ^ step : Nat) with ⟨shifted, hshifted, hencShifted⟩
  rw [← Nat.cast_mul, mul_comm] at hencShifted
  rcases sociPlusLess_spec h hk hstate.dividend hencShifted hcomparable draw.less with
    ⟨less, hless, hencLess⟩
  -- `take` is the negated bit.
  obtain ⟨t, ht⟩ : ∃ t : Int, t = 1 - lessBit plain.2 ((d * 2 ^ step : Nat) : Int) := ⟨_, rfl⟩
  rcases cpow_spec hn hencLess ((key.pub.n : Int) - 1) with ⟨minusLess, hminusLess, hencMinus⟩
  have hencTake : Encrypts key.pub.n _ t := (hone.mul hencMinus).congr (by
    rw [ht]
    exact Int.modEq_iff_dvd.2 ⟨-lessBit plain.2 ((d * 2 ^ step : Nat) : Int), by ring⟩)
  rcases cpow_spec hn hencTake (2 ^ step : Nat) with ⟨taken, htaken, hencTaken⟩
  rcases sociPlusMul_spec h hk hencTake hencShifted draw.mul with ⟨product, hproduct, hencProduct⟩
  rcases cpow_spec hn hencProduct ((key.pub.n : Int) - 1) with ⟨minus, hminus, hencSub⟩
  have hdividend : Encrypts key.pub.n _ (plain.2 - t * ((d * 2 ^ step : Nat) : Int)) :=
    (hstate.dividend.mul hencSub).congr
      (Int.modEq_iff_dvd.2 ⟨-(t * ((d * 2 ^ step : Nat) : Int)), by ring⟩)
  have hstep : ((Restoring.step d step plain).1 : Int) = plain.1 + ((2 ^ step : Nat) : Int) * t ∧
      ((Restoring.step d step plain).2 : Int) = plain.2 - t * ((d * 2 ^ step : Nat) : Int) := by
    rw [ht, lessBit, Restoring.step]
    by_cases hcase : plain.2 < d * 2 ^ step
    · rw [if_pos hcase, if_pos (by exact_mod_cast hcase)]
      simp
    · rw [if_neg hcase, if_neg (by exact_mod_cast hcase)]
      have hle := Nat.not_lt.1 hcase
      dsimp only
      rw [Nat.cast_add, Nat.cast_sub hle]
      simp
  rw [← hk.square] at hshifted hminusLess htaken hminus
  unfold sociPlusDivStep cadd
  rw [hk.square] at *
  refine ⟨_, bind_eq_ok.2 ⟨_, hshifted, bind_eq_ok.2 ⟨_, hless, bind_eq_ok.2 ⟨_, hminusLess,
    bind_eq_ok.2 ⟨_, htaken, bind_eq_ok.2 ⟨_, hproduct, bind_eq_ok.2 ⟨_, hminus, rfl⟩⟩⟩⟩⟩⟩, ?_, ?_⟩
  · rw [hstep.1]
    exact hstate.quotient.mul hencTaken
  · rw [hstep.2]
    exact hdividend

theorem sociPlusDivLoop_spec (h : KeyPrimes p q) (hk : OffKey p q key) {divisor one d : Nat}
    (hdivisor : Encrypts key.pub.n divisor d) (hone : Encrypts key.pub.n one 1)
    (hn : 2 ^ 130 ≤ key.pub.n) (draws : Nat → DivStepDraw key.pub.n) (bits : Nat) :
    ∀ {state plain : Nat × Nat}, EncryptsPair key.pub.n state plain →
      plain.2 * 2 ^ 130 < key.pub.n → d * 2 ^ bits * 2 ^ 130 < key.pub.n →
      ∃ state', sociPlusDivLoop key divisor one draws bits state = .ok state' ∧
        EncryptsPair key.pub.n state' (Restoring.divide d bits plain) := by
  induction bits with
  | zero =>
      intro state plain hstate _ _
      exact ⟨state, rfl, hstate⟩
  | succ step ih =>
      intro state plain hstate hdividend hshift
      have hhalf : d * 2 ^ step * 2 ^ 130 < key.pub.n := by
        refine lt_of_le_of_lt (Nat.mul_le_mul_right _ (Nat.mul_le_mul_left _ ?_)) hshift
        exact Nat.pow_le_pow_right (by decide) (Nat.le_succ step)
      rcases sociPlusDivStep_spec h hk hdivisor hone hstate
        (comparable_of_small hn hdividend hhalf) (draws step) with ⟨mid, hmid, hencMid⟩
      have hsmaller : (Restoring.step d step plain).2 * 2 ^ 130 < key.pub.n :=
        lt_of_le_of_lt (Nat.mul_le_mul_right _ (Restoring.step_snd_le d step plain)) hdividend
      rcases ih hencMid hsmaller hhalf with ⟨state', hloop, hstate'⟩
      exact ⟨state', bind_eq_ok.2 ⟨mid, hmid, hloop⟩, hstate'⟩

/-- The division of ciphertexts is restoring division of their plaintexts. -/
theorem sociPlusDiv_restores (h : KeyPrimes p q) (hk : OffKey p q key) {cx cy bits : Nat}
    {x y : Nat} (hx : Encrypts key.pub.n cx x) (hy : Encrypts key.pub.n cy y) (hpos : 1 ≤ y)
    (hxsmall : x * 2 ^ 130 < key.pub.n) (hysmall : y * 2 ^ bits * 2 ^ 130 < key.pub.n)
    (draw : DivDraw key.pub.n) :
    ∃ state, sociPlusDiv key cx cy bits draw = .ok state ∧
      EncryptsPair key.pub.n state (Restoring.divide y bits (0, x)) := by
  have hlarge : 2 ^ 130 ≤ key.pub.n := by
    have hfactor : 1 ≤ y * 2 ^ bits := Nat.mul_pos hpos (by positivity)
    omega
  exact sociPlusDivLoop_spec h hk hy (encrypts_encrypt hk 1 draw.one) hlarge draw.steps bits
    ⟨encrypts_encrypt hk 0 draw.zero, hx⟩ hxsmall hysmall

theorem decrypt_small (h : KeyPrimes p q) (hk : OffKey p q key) {c m : Nat}
    (hc : Encrypts key.pub.n c m) (hsmall : m * 2 ^ 130 < key.pub.n) (hn : 2 ^ 130 ≤ key.pub.n) :
    decrypt key c = .ok (m : Int) :=
  decrypt_nonneg h hk hc (by omega) (by omega)

/-- The divisor check of `soci_secure_div` passes for a positive divisor. -/
theorem sociSecureDiv_eq (h : KeyPrimes p q) (hk : OffKey p q key) {cx cy y : Nat}
    (hy : Encrypts key.pub.n cy y) (hpos : 1 ≤ y) (hysmall : y * 2 ^ 130 < key.pub.n)
    (draw : SecureDivDraw key.pub.n) :
    sociSecureDiv key cx cy draw = sociPlusDiv key cx cy 21 draw.div := by
  have hn : 2 ^ 130 ≤ key.pub.n := by omega
  have hunit : 1 * 2 ^ 130 < key.pub.n :=
    lt_of_le_of_lt (Nat.mul_le_mul_right _ hpos) hysmall
  have hone : Comparable key.pub.n y ((1 : Nat) : Int) := comparable_of_small hn hysmall hunit
  rw [Nat.cast_one] at hone
  rcases sociPlusLess_spec h hk hy (encrypts_encrypt hk 1 draw.one) hone draw.less with
    ⟨belowOne, hbelow, henc⟩
  have hbit : lessBit y 1 = 0 := if_neg (by omega)
  rw [hbit] at henc
  have hzero := decrypt_nonneg h hk henc le_rfl (by omega)
  unfold sociSecureDiv
  rw [ok_bind hbelow, ok_bind hzero, ok_bind (a := ⟨⟩) (ensure_eq_ok.2 rfl)]

/-- The quotient saturates at `2 ^ bits - 1`, and quotient and remainder are those of a division
with this quotient, for every choice of the masks. -/
theorem sociPlusDiv_divides (h : KeyPrimes p q) (hk : OffKey p q key) (cx cy bits x y : Nat)
    (hx : Encrypts key.pub.n cx x) (hy : Encrypts key.pub.n cy y) (hpos : 1 ≤ y)
    (hxsmall : x * 2 ^ 130 < key.pub.n) (hysmall : y * 2 ^ bits * 2 ^ 130 < key.pub.n)
    (draw : DivDraw key.pub.n) (secureDraw : SecureDivDraw key.pub.n) :
    (∃ cq cr quotient rem : Nat, sociPlusDiv key cx cy bits draw = .ok (cq, cr) ∧
      Encrypts key.pub.n cq quotient ∧ decrypt key cq = .ok (quotient : Int) ∧
      Encrypts key.pub.n cr rem ∧ decrypt key cr = .ok (rem : Int) ∧
      x = quotient * y + rem ∧ quotient = min (x / y) (2 ^ bits - 1) ∧
      (x < y * 2 ^ bits → rem < y)) ∧
    sociSecureDiv key cx cy secureDraw = sociPlusDiv key cx cy 21 secureDraw.div := by
  have hfactor : 1 ≤ 2 ^ bits := Nat.one_le_two_pow
  have hdivisor : y * 2 ^ 130 < key.pub.n := by
    refine lt_of_le_of_lt (Nat.mul_le_mul_right _ ?_) hysmall
    exact Nat.le_mul_of_pos_right y hfactor
  have hn : 2 ^ 130 ≤ key.pub.n := by omega
  refine ⟨?_, sociSecureDiv_eq h hk hy hpos hdivisor secureDraw⟩
  rcases sociPlusDiv_restores h hk hx hy hpos hxsmall hysmall draw with
    ⟨⟨cq, cr⟩, hdiv, hquotient, hdividend⟩
  rcases Restoring.divide_spec hpos bits x with ⟨hmin, htotal⟩
  have hqle : (Restoring.divide y bits (0, x)).1 ≤ x := by
    have hle := Nat.le_mul_of_pos_right (Restoring.divide y bits (0, x)).1 hpos
    omega
  have hrle : (Restoring.divide y bits (0, x)).2 ≤ x := by omega
  have hsmall : ∀ {m : Nat}, m ≤ x → m * 2 ^ 130 < key.pub.n := fun hm =>
    lt_of_le_of_lt (Nat.mul_le_mul_right _ hm) hxsmall
  exact ⟨cq, cr, _, _, hdiv, hquotient, decrypt_small h hk hquotient (hsmall hqle) hn, hdividend,
    decrypt_small h hk hdividend (hsmall hrle) hn, htotal, hmin, Restoring.divide_remainder_lt⟩

/-- 2047 by 13 with three bits of quotient: the division saturates at 7. -/
theorem sociPlusDiv_divides_saturating :
    ∃ key, deriveKey leftPrime rightPrime = .ok key ∧
      ∀ (nx ny : Nonce key.pub.n) (draw : DivDraw key.pub.n)
        (secureDraw : SecureDivDraw key.pub.n),
      (∃ cq cr quotient rem : Nat, sociPlusDiv key (encrypt key.pub (2047 : Nat) nx)
          (encrypt key.pub (13 : Nat) ny) 3 draw = .ok (cq, cr) ∧
        Encrypts key.pub.n cq quotient ∧ decrypt key cq = .ok (quotient : Int) ∧
        Encrypts key.pub.n cr rem ∧ decrypt key cr = .ok (rem : Int) ∧
        2047 = quotient * 13 + rem ∧ quotient = min (2047 / 13) (2 ^ 3 - 1) ∧
        (2047 < 13 * 2 ^ 3 → rem < 13)) ∧
      sociSecureDiv key (encrypt key.pub (2047 : Nat) nx) (encrypt key.pub (13 : Nat) ny)
          secureDraw =
        sociPlusDiv key (encrypt key.pub (2047 : Nat) nx) (encrypt key.pub (13 : Nat) ny) 21
          secureDraw.div := by
  rcases deriveKey_spec keyPrimes_3072 with ⟨key, hkey, hk⟩
  have hlarge : 2047 * 2 ^ 130 < key.pub.n := by
    rw [hk.modulus]
    decide +kernel
  refine ⟨key, hkey, fun nx ny draw secureDraw => ?_⟩
  exact sociPlusDiv_divides keyPrimes_3072 hk _ _ 3 2047 13 (encrypts_encrypt hk _ nx)
    (encrypts_encrypt hk _ ny) (by decide) hlarge (lt_trans (by decide) hlarge) draw secureDraw

end Runtime
end SociSgx

import SociSgx.Optimizer.PlainOptimality
import SociSgx.Runtime.Calls
import SociSgx.Runtime.SecureCalls

/-!
# RuntimeOptimizer — `Optimizer::optimize`

The older optimizer solves the plain problem and then checks the result on ciphertexts: the sums of
the chosen cells, the ratio constraint and the ratio itself.  Without the experimental protocols the
comparison and the division report that they are disabled, and a decrypted witness takes the place
of the comparison.

A call of the runtime is its function on the decoded ciphertexts; the encoding is
`Runtime/Objects.lean`.
-/

namespace SociSgx
namespace Optimization

open Exec Paillier Protocol

/-- `error.what()` -/
def errorText : Error → String
  | .optimization _ message | .predicate message | .backend message => message

/-- `Runtime::check`: a failed call throws the text of the last error. -/
def checked {α : Type} (x : Except Runtime.Thrown α) : Except Error α :=
  x.mapError fun e => .backend e.what

theorem checked_eq_ok {α : Type} {x : Except Runtime.Thrown α} {a : α} (h : x = .ok a) :
    checked x = .ok a := by
  subst h
  rfl

/-- A runtime with an open key; `experimental` says how the library was built, and `off` whether
its mode is `SOCI_MODE_OFF`. -/
structure OpenRuntime where
  key : Runtime.KeyNumbers
  experimental : Bool
  off : Bool := true

def disabledText : String :=
  "experimental protocol disabled by default"

namespace OpenRuntime

variable (rt : OpenRuntime)

/-! ## The calls -/

def encrypt (m : Int) (x : Nonce rt.key.pub.n) : Nat :=
  Runtime.encrypt rt.key.pub m x

def decrypt (c : Nat) : Except Error Int :=
  checked (Runtime.decrypt rt.key c)

def add (a b : Nat) : Nat :=
  a * b % rt.key.pub.nsq

/-- A negative scalar is applied to the inverse. -/
def scalarBase (c : Nat) (x : Int) : Except Runtime.Thrown Nat :=
  if x < 0 then Runtime.cinv c rt.key.pub.nsq else .ok c

/-- `soci_scalar_mul` -/
def scalarMul (c : Nat) (x : Int) : Except Error Nat :=
  checked do
    let base ← rt.scalarBase c x
    return Modular.powMod base x.natAbs rt.key.pub.nsq

/-- The calls that only a build with the experimental protocols has. -/
def whenEnabled {α : Type} (x : Except Runtime.Thrown α) : Except Error α :=
  checked (if rt.experimental = true then x else .error (.logicError disabledText))

def secureMul (a b : Nat) (draw : Runtime.MulDraw rt.key.pub.n) : Except Error Nat :=
  rt.whenEnabled (Runtime.sociPlusMul rt.key a b draw)

def secureCompare (a b : Nat) (draw : Runtime.LessDraw rt.key.pub.n) : Except Error Nat :=
  rt.whenEnabled (Runtime.sociSecureCompare rt.key a b draw)

def secureDiv (a b : Nat) (draw : Runtime.SecureDivDraw rt.key.pub.n) :
    Except Error (Nat × Nat) :=
  rt.whenEnabled (Runtime.sociSecureDiv rt.key a b draw)

/-! ## The checks of `optimize` -/

/-- `std::stoll` of a decimal numeral. -/
def stoll (v : Int) : Except Error Int := do
  ensure (-int64Max - 1 ≤ v ∧ v ≤ int64Max) (.backend "stoll")
  return v

def decryptInt64 (c : Nat) : Except Error Int := do
  let text ← rt.decrypt c
  stoll text

/-- `result.solution[i] - 1` as an index of the row. -/
def methodAt (number : Int) : Method :=
  Fin.ofNat 3 (number - 1).toNat

def encryptRow (nonces : Method → Nonce rt.key.pub.n) (row : CostRow Int) : CostRow Nat :=
  fun m => (row m).map fun v => rt.encrypt v (nonces m)

/-- The encrypted matrix, from row `i` on. -/
def encryptRows (nonces : Nat → Method → Nonce rt.key.pub.n) :
    Nat → List (CostRow Int) → List (CostRow Nat)
  | _, [] => []
  | i, row :: rows => rt.encryptRow (nonces i) row :: encryptRows nonces (i + 1) rows

structure EncryptedSums where
  total : Nat
  c12 : Nat
  c3 : Nat

/-- The sums after the cell of a row with its number in the solution. -/
def addCell (sums : EncryptedSums) (item : CostRow Nat × Int) : EncryptedSums :=
  let ciphertext := (item.1 (methodAt item.2)).getD 0
  if item.2 - 1 < 2 then
    { sums with total := rt.add sums.total ciphertext, c12 := rt.add sums.c12 ciphertext }
  else
    { sums with total := rt.add sums.total ciphertext, c3 := rt.add sums.c3 ciphertext }

/-- `expected` and `expected_c12`. -/
def addExpected (sums : Int × Int) (item : CostRow Int × Int) : Int × Int :=
  let value := (item.1 (methodAt item.2)).getD 0
  (sums.1 + value, if item.2 < 3 then sums.2 + value else sums.2)

/-- A call that reports to be disabled is left out. -/
def unlessDisabled {α : Type} (x : Except Error α) : Except Error (Option α) :=
  match x with
  | .ok a => .ok (some a)
  | .error e => if errorText e ≠ disabledText then .error e else .ok none

/-- The secure comparison: `rhs > lhs` breaks the constraint. -/
def compareRatio (lhs rhs : Nat) (draw : Runtime.LessDraw rt.key.pub.n) : Except Error Unit := do
  let invalid ← rt.secureCompare rhs lhs draw
  let bit ← rt.decrypt invalid
  ensure (bit = 0) (.backend "encrypted ratio constraint failed")

/-- The witness is read when the comparison was not available. -/
def witnessValue (securelyCompared : Bool) (witness : Nat) : Except Error Int :=
  if securelyCompared then .ok 0 else rt.decryptInt64 witness

def verifySums (securelyCompared : Bool) (witness total : Nat) (expected : Int) :
    Except Error Unit := do
  let value ← rt.witnessValue securelyCompared witness
  ensure (0 ≤ value) (.backend "encrypted optimization verification failed")
  let value ← rt.decryptInt64 total
  ensure (value = expected) (.backend "encrypted optimization verification failed")

def verifyRatio (c12 total : Nat) (expected expectedC12 : Int)
    (draw : Runtime.SecureDivDraw rt.key.pub.n) : Except Error Unit := do
  let scaledNumerator ← rt.scalarMul c12 kScale
  let division ← rt.secureDiv scaledNumerator total draw
  let ratioFixed ← rt.decryptInt64 division.1
  let expectedRatio := (kScale * expectedC12).tdiv expected
  ensure (|ratioFixed - expectedRatio| ≤ 1)
    (.backend "encrypted ratio division verification failed")

/-- What `optimize` draws. -/
structure OptimizeDraw (n : Nat) where
  cells : Nat → Method → Nonce n
  total : Nonce n
  c12 : Nonce n
  c3 : Nonce n
  compare : Runtime.LessDraw n
  div : Runtime.SecureDivDraw n

/-- The checks on the ciphertexts of a solution. -/
def verify (model : Encoded) (solution : List Int) (draw : OptimizeDraw rt.key.pub.n) :
    Except Error Unit := do
  let encrypted := rt.encryptRows draw.cells 0 model.costs
  let sums := (encrypted.zip solution).foldl rt.addCell
    ⟨rt.encrypt 0 draw.total, rt.encrypt 0 draw.c12, rt.encrypt 0 draw.c3⟩
  let lhs ← rt.scalarMul sums.c12 (kScale - model.threshold)
  let rhs ← rt.scalarMul sums.c3 model.threshold
  let compared ← unlessDisabled (rt.compareRatio lhs rhs draw.compare)
  let minusRhs ← rt.scalarMul rhs (-1)
  let expected := (model.costs.zip solution).foldl addExpected (0, 0)
  rt.verifySums compared.isSome (rt.add lhs minusRhs) sums.total expected.1
  let _ ← unlessDisabled (rt.verifyRatio sums.c12 sums.total expected.1 expected.2 draw.div)

def optimize (matrix : CostMatrix) (threshold : Bytes) (draw : OptimizeDraw rt.key.pub.n) :
    Except Error Solver := do
  let model ← encode matrix threshold
  let result ← solve model
  rt.verify model result.best draw
  return result

end OpenRuntime

/-! ## The key -/

/-- The key that a runtime has generated, with room for the masks of 128 bits. -/
structure WideKey (p q : Nat) (key : Runtime.KeyNumbers) : Prop where
  primes : KeyPrimes p q
  derived : Runtime.OffKey p q key
  wide : 2 ^ 240 ≤ key.pub.n

theorem wideKey_of_keygen {bits p q : Nat} {key : Runtime.KeyNumbers} (h : KeyPrimes p q)
    (hsize : sizeInBase2 p = bits / 2) (hkey : Runtime.keygen bits p q = .ok key) :
    WideKey p q key := by
  rcases bind_eq_ok.1 hkey with ⟨_, hbits, hderive⟩
  rcases Runtime.deriveKey_spec h with ⟨key', hderive', hk⟩
  cases hderive.symm.trans hderive'
  have hrange := ensure_eq_ok.1 hbits
  have hlow : ∀ {r : Nat}, r ≠ 0 → sizeInBase2 r = bits / 2 → 2 ^ 120 ≤ r := by
    intro r hr hr2
    unfold sizeInBase2 at hr2
    exact (Nat.pow_le_pow_right (by decide) (by omega)).trans (Nat.log2_self_le hr)
  refine ⟨h, hk, ?_⟩
  rw [hk.modulus]
  calc
    2 ^ 240 = 2 ^ 120 * 2 ^ 120 := by rw [← pow_add]
    _ ≤ p * q := Nat.mul_le_mul (hlow h.left.ne_zero hsize)
        (hlow h.right.ne_zero (h.size ▸ hsize))

/-- What fits into few bits can still be masked. -/
theorem scaled_lt {n m k : Nat} (hn : 2 ^ 240 ≤ n) (hm : m ≤ 2 ^ k) (hk : k + 130 < 240) :
    m * 2 ^ 130 < n := by
  calc
    m * 2 ^ 130 ≤ 2 ^ k * 2 ^ 130 := Nat.mul_le_mul_right _ hm
    _ = 2 ^ (k + 130) := by rw [pow_add]
    _ < 2 ^ 240 := Nat.pow_lt_pow_right (by decide) hk
    _ ≤ n := hn

namespace WideKey

variable {p q : Nat} {rt : OpenRuntime} (h : WideKey p q rt.key) {a b : Nat} {x y : Int}
include h

theorem pos : 0 < rt.key.pub.n :=
  Nat.lt_of_lt_of_le (Nat.two_pow_pos 240) h.wide

theorem encrypts (m : Int) (nonce : Nonce rt.key.pub.n) :
    Encrypts rt.key.pub.n (rt.encrypt m nonce) m :=
  Runtime.encrypts_encrypt h.derived m nonce

theorem add (ha : Encrypts rt.key.pub.n a x) (hb : Encrypts rt.key.pub.n b y) :
    Encrypts rt.key.pub.n (rt.add a b) (x + y) := by
  unfold OpenRuntime.add
  rw [h.derived.square]
  exact ha.mul hb

theorem scalarMul (ha : Encrypts rt.key.pub.n a x) (k : Int) :
    ∃ c, rt.scalarMul a k = .ok c ∧ Encrypts rt.key.pub.n c (k * x) := by
  unfold OpenRuntime.scalarMul OpenRuntime.scalarBase
  rw [h.derived.square]
  by_cases hneg : k < 0
  · rcases Runtime.cinv_spec h.pos ha with ⟨base, hbase, henc⟩
    have hvalue : (k.natAbs : Int) * -x = k * x := by
      rw [Int.ofNat_natAbs_of_nonpos hneg.le]
      ring
    refine ⟨_, checked_eq_ok (bind_eq_ok.2 ⟨base, (if_pos hneg).trans hbase, rfl⟩), ?_⟩
    rw [← hvalue]
    exact henc.powMod k.natAbs
  · have hvalue : (k.natAbs : Int) = k := Int.natAbs_of_nonneg (not_lt.1 hneg)
    refine ⟨_, checked_eq_ok (bind_eq_ok.2 ⟨a, if_neg hneg, rfl⟩), ?_⟩
    rw [← hvalue]
    exact ha.powMod k.natAbs

theorem decrypt (ha : Encrypts rt.key.pub.n a x) (hnonneg : 0 ≤ x) (hle : x ≤ 2 ^ 100) :
    rt.decrypt a = .ok x := by
  have hwide := h.wide
  exact checked_eq_ok (Runtime.decrypt_nonneg h.primes h.derived ha hnonneg (by omega))

theorem decryptInt64 (ha : Encrypts rt.key.pub.n a x) (hnonneg : 0 ≤ x) (hle : x ≤ int64Max) :
    rt.decryptInt64 a = .ok x := by
  unfold int64Max at hle
  refine bind_eq_ok.2 ⟨x, h.decrypt ha hnonneg (by omega), ?_⟩
  refine bind_eq_ok.2 ⟨⟨⟩, ensure_eq_ok.2 ?_, rfl⟩
  unfold int64Max
  omega

/-- The bit of a comparison, when the protocols are there. -/
theorem secureCompare (hon : rt.experimental = true) (ha : Encrypts rt.key.pub.n a x)
    (hb : Encrypts rt.key.pub.n b y) (hrange : |y - x| ≤ 2 ^ 100)
    (draw : Runtime.LessDraw rt.key.pub.n) :
    ∃ c, rt.secureCompare a b draw = .ok c ∧
      Encrypts rt.key.pub.n c (Runtime.lessBit y x) := by
  have hwide := h.wide
  have hcomparable : Runtime.Comparable rt.key.pub.n y x := by
    unfold Runtime.Comparable
    omega
  rcases Runtime.sociPlusLess_spec h.primes h.derived hb ha hcomparable draw with ⟨c, hc, henc⟩
  refine ⟨c, checked_eq_ok ?_, henc⟩
  rw [if_pos hon]
  exact hc

theorem secureMul (hon : rt.experimental = true) (ha : Encrypts rt.key.pub.n a x)
    (hb : Encrypts rt.key.pub.n b y) (draw : Runtime.MulDraw rt.key.pub.n) :
    ∃ c, rt.secureMul a b draw = .ok c ∧ Encrypts rt.key.pub.n c (x * y) := by
  rcases Runtime.sociPlusMul_spec h.primes h.derived ha hb draw with ⟨c, hc, henc⟩
  refine ⟨c, checked_eq_ok ?_, henc⟩
  rw [if_pos hon]
  exact hc

/-- The quotient of a division with 21 bits, where these are enough. -/
theorem secureDiv (hon : rt.experimental = true) {x y : Nat} (ha : Encrypts rt.key.pub.n a x)
    (hb : Encrypts rt.key.pub.n b y) (hpos : 1 ≤ y) (hx : x ≤ 2 ^ 100) (hy : y ≤ 2 ^ 64)
    (hfits : x / y < 2 ^ 21) (draw : Runtime.SecureDivDraw rt.key.pub.n) :
    ∃ cq cr, rt.secureDiv a b draw = .ok (cq, cr) ∧
      Encrypts rt.key.pub.n cq ((x / y : Nat) : Int) := by
  have hdividend := scaled_lt h.wide hx (by decide)
  have hsmall := scaled_lt h.wide hy (by decide)
  have hdivisor : y * 2 ^ 21 * 2 ^ 130 < rt.key.pub.n := by
    refine scaled_lt (k := 85) h.wide ?_ (by decide)
    calc
      y * 2 ^ 21 ≤ 2 ^ 64 * 2 ^ 21 := Nat.mul_le_mul_right _ hy
      _ = 2 ^ 85 := by rw [← pow_add]
  rcases Runtime.sociPlusDiv_restores h.primes h.derived ha hb hpos hdividend hdivisor draw.div with
    ⟨⟨cq, cr⟩, hdiv, hquotient, _⟩
  have hmin := (Restoring.divide_spec hpos 21 x).1
  have hexact : (Restoring.divide y 21 (0, x)).1 = x / y := by omega
  rw [hexact] at hquotient
  refine ⟨cq, cr, checked_eq_ok ?_, hquotient⟩
  rw [if_pos hon, Runtime.sociSecureDiv_eq h.primes h.derived hb hpos hsmall]
  exact hdiv

end WideKey

/-! ## The sums of a solution -/

theorem methodAt_methodNumber (m : Method) : OpenRuntime.methodAt (methodNumber m) = m := by
  revert m
  decide

theorem methodNumber_sub_lt (m : Method) : methodNumber m - 1 < 2 ↔ m < 2 := by
  revert m
  decide

theorem methodNumber_lt_three (m : Method) : methodNumber m < 3 ↔ m < 2 := by
  revert m
  decide

/-- A row of ciphertexts for the costs of a row. -/
def RowEncrypts (n : Nat) (row : CostRow Int) (encrypted : CostRow Nat) : Prop :=
  ∀ m v, row m = some v → ∃ c, encrypted m = some c ∧ Encrypts n c v

structure SumsEncrypt (n : Nat) (sums : OpenRuntime.EncryptedSums) (t a b : Int) : Prop where
  total : Encrypts n sums.total t
  c12 : Encrypts n sums.c12 a
  c3 : Encrypts n sums.c3 b

theorem foldl_addExpected {rows : List (CostRow Int)} {leaf : List (Choice Int)}
    (hleaf : IsAssignment rows leaf) (sums : Int × Int) :
    (rows.zip (solutionOf leaf)).foldl OpenRuntime.addExpected sums =
      (sums.1 + total leaf, sums.2 + c12 leaf) := by
  induction hleaf generalizing sums with
  | nil => simp [solutionOf, total, c12]
  | @cons row c rows leaf hc _ ih =>
      have hcell : (row (OpenRuntime.methodAt (methodNumber c.method))).getD 0 = c.cost := by
        rw [methodAt_methodNumber, hc]
        rfl
      have hstep : OpenRuntime.addExpected sums (row, methodNumber c.method) =
          (sums.1 + c.cost, sums.2 + if c.method < 2 then c.cost else 0) := by
        unfold OpenRuntime.addExpected
        dsimp only
        rw [hcell, if_congr (methodNumber_lt_three c.method) rfl rfl]
        split <;> simp
      rw [solutionOf, List.map_cons, List.zip_cons_cons, List.foldl_cons, hstep]
      refine (ih _).trans ?_
      simp only [total, c12, sumOf_cons, add_assoc]

namespace WideKey

variable {p q : Nat} {rt : OpenRuntime} (h : WideKey p q rt.key)
include h

theorem encryptRows (nonces : Nat → Method → Nonce rt.key.pub.n) (i : Nat)
    (rows : List (CostRow Int)) :
    List.Forall₂ (RowEncrypts rt.key.pub.n) rows (rt.encryptRows nonces i rows) := by
  induction rows generalizing i with
  | nil => exact List.Forall₂.nil
  | cons row rows ih =>
      refine List.Forall₂.cons (fun m v hv => ?_) (ih (i + 1))
      refine ⟨_, ?_, h.encrypts v (nonces i m)⟩
      rw [OpenRuntime.encryptRow, hv]
      rfl

/-- One more ciphertext goes into the total and into one of the two parts. -/
theorem add_sums {sums : OpenRuntime.EncryptedSums} {t a b v : Int} {cell : Nat}
    (hsums : SumsEncrypt rt.key.pub.n sums t a b) (henc : Encrypts rt.key.pub.n cell v)
    (first : Prop) [Decidable first] :
    SumsEncrypt rt.key.pub.n
      (if first then
        { sums with total := rt.add sums.total cell, c12 := rt.add sums.c12 cell }
      else
        { sums with total := rt.add sums.total cell, c3 := rt.add sums.c3 cell })
      (t + v) (a + if first then v else 0) (b + if first then 0 else v) := by
  by_cases hfirst : first
  · rw [if_pos hfirst, if_pos hfirst, if_pos hfirst, add_zero]
    exact ⟨h.add hsums.total henc, h.add hsums.c12 henc, hsums.c3⟩
  · rw [if_neg hfirst, if_neg hfirst, if_neg hfirst, add_zero]
    exact ⟨h.add hsums.total henc, hsums.c12, h.add hsums.c3 henc⟩

theorem foldl_addCell {rows : List (CostRow Int)} {encrypted : List (CostRow Nat)}
    (hrows : List.Forall₂ (RowEncrypts rt.key.pub.n) rows encrypted) :
    ∀ {leaf : List (Choice Int)} {sums : OpenRuntime.EncryptedSums} {t a b : Int},
      IsAssignment rows leaf → SumsEncrypt rt.key.pub.n sums t a b →
      SumsEncrypt rt.key.pub.n ((encrypted.zip (solutionOf leaf)).foldl rt.addCell sums)
        (t + total leaf) (a + c12 leaf) (b + c3 leaf) := by
  induction hrows with
  | nil =>
      intro leaf sums t a b hleaf hsums
      cases hleaf
      simpa [solutionOf, total, c12, c3] using hsums
  | @cons row cells rows encrypted hrow _ ih =>
      intro leaf sums t a b hleaf hsums
      rcases List.forall₂_cons_left_iff.1 hleaf with ⟨c, leaf', hc, hrest, rfl⟩
      rcases hrow _ _ hc with ⟨cell, hcell, henc⟩
      have hget : (cells (OpenRuntime.methodAt (methodNumber c.method))).getD 0 = cell := by
        rw [methodAt_methodNumber, hcell]
        rfl
      have hstep : SumsEncrypt rt.key.pub.n (rt.addCell sums (cells, methodNumber c.method))
          (t + c.cost) (a + if c.method < 2 then c.cost else 0)
          (b + if c.method < 2 then 0 else c.cost) := by
        unfold OpenRuntime.addCell
        dsimp only
        rw [hget, if_congr (methodNumber_sub_lt c.method) rfl rfl]
        exact h.add_sums hsums henc (c.method < 2)
      have hall := ih hrest hstep
      have hcons : solutionOf (c :: leaf') = methodNumber c.method :: solutionOf leaf' := rfl
      rw [hcons, List.zip_cons_cons, List.foldl_cons]
      simpa only [total, c12, c3, sumOf_cons, add_assoc] using hall

end WideKey

/-! ## The checks pass -/

namespace Encoded.Accepted

variable {model : Encoded} (h : model.Accepted) {leaf : List (Choice Int)}
include h

theorem c3_nonneg (hleaf : IsAssignment model.costs leaf) : 0 ≤ c3 leaf := by
  refine List.sum_nonneg fun x hx => ?_
  rcases List.mem_map.1 hx with ⟨c, hc, rfl⟩
  rcases mem_right_of_forall₂ hleaf hc with ⟨row, hrow, hcost⟩
  have hnonneg := h.costs row hrow c (mem_options.2 hcost)
  split
  · exact le_rfl
  · exact hnonneg

theorem total_range (hleaf : IsAssignment model.costs leaf) :
    0 ≤ total leaf ∧ total leaf * kScale ≤ kFixedSafe := by
  have hc12 := h.c12_nonneg hleaf
  have hc3 := h.c3_nonneg hleaf
  have hsum := total_eq leaf
  refine ⟨by omega, ?_⟩
  calc
    total leaf * kScale ≤ (model.costs.map rowMax).sum * kScale :=
      mul_le_mul_of_nonneg_right (total_le_rowMax hleaf) (by decide)
    _ ≤ kFixedSafe := h.aggregate

/-- The guard on the matrix bounds both sides of the ratio constraint. -/
theorem sides_range (hleaf : IsAssignment model.costs leaf) :
    (0 ≤ (kScale - model.threshold) * c12 leaf ∧
      (kScale - model.threshold) * c12 leaf ≤ kFixedSafe) ∧
    (0 ≤ model.threshold * c3 leaf ∧ model.threshold * c3 leaf ≤ kFixedSafe) := by
  have hc12 := h.c12_nonneg hleaf
  have hc3 := h.c3_nonneg hleaf
  have hsum := total_eq leaf
  have hthreshold := h.threshold
  have hscale : (0 : Int) ≤ kScale := by decide
  have hbound : ∀ {f x : Int}, 0 ≤ f → f ≤ kScale → 0 ≤ x → x ≤ total leaf →
      0 ≤ f * x ∧ f * x ≤ kFixedSafe := by
    intro f x hf hle hx hxle
    refine ⟨mul_nonneg hf hx, ?_⟩
    calc
      f * x ≤ kScale * total leaf := mul_le_mul hle hxle hx hscale
      _ = total leaf * kScale := mul_comm _ _
      _ ≤ kFixedSafe := (h.total_range hleaf).2
  exact ⟨hbound (by omega) (by omega) hc12 (by omega), hbound (by omega) (by omega) hc3 (by omega)⟩

end Encoded.Accepted

theorem unlessDisabled_ok {α : Type} {x : Except Error α} {a : α} (h : x = .ok a) :
    OpenRuntime.unlessDisabled x = .ok (some a) := by
  subst h
  rfl

/-- Without the protocols a call of them is left out. -/
theorem unlessDisabled_off {rt : OpenRuntime} (hoff : rt.experimental = false) {α β : Type}
    (x : Except Runtime.Thrown α) (f : α → Except Error β) :
    OpenRuntime.unlessDisabled (rt.whenEnabled x >>= f) = .ok none := by
  unfold OpenRuntime.whenEnabled
  rw [if_neg (by rw [hoff]; decide)]
  rfl

section Checks

variable {p q : Nat} {rt : OpenRuntime} (h : WideKey p q rt.key) {a b : Nat} {x y : Int}
include h

/-- The ratio constraint holds, so the comparison succeeds or is disabled. -/
theorem compareRatio_spec (ha : Encrypts rt.key.pub.n a x) (hb : Encrypts rt.key.pub.n b y)
    (hle : y ≤ x) (hnonneg : 0 ≤ y) (hx : x ≤ int64Max) (draw : Runtime.LessDraw rt.key.pub.n) :
    OpenRuntime.unlessDisabled (rt.compareRatio a b draw) =
      .ok (if rt.experimental = true then some ⟨⟩ else none) := by
  unfold int64Max at hx
  cases hon : rt.experimental with
  | false => exact unlessDisabled_off hon _ _
  | true =>
      have hrange : |x - y| ≤ 2 ^ 100 := by
        rw [abs_of_nonneg (sub_nonneg.2 hle)]
        omega
      rcases h.secureCompare hon hb ha hrange draw with ⟨c, hc, henc⟩
      have hbit : Runtime.lessBit x y = 0 := if_neg (not_lt.2 hle)
      rw [hbit] at henc
      have hzero := h.decrypt henc le_rfl (by omega)
      refine unlessDisabled_ok (bind_eq_ok.2 ⟨c, hc, bind_eq_ok.2 ⟨0, hzero, ?_⟩⟩)
      exact ensure_eq_ok.2 rfl

theorem verifySums_spec (compared : Bool) {w t : Nat} {v s : Int}
    (hw : Encrypts rt.key.pub.n w v) (ht : Encrypts rt.key.pub.n t s) (hv : 0 ≤ v ∧ v ≤ int64Max)
    (hs : 0 ≤ s ∧ s ≤ int64Max) : rt.verifySums compared w t s = .ok ⟨⟩ := by
  have hvalue : ∃ value, rt.witnessValue compared w = .ok value ∧ 0 ≤ value := by
    cases compared with
    | false => exact ⟨v, h.decryptInt64 hw hv.1 hv.2, hv.1⟩
    | true => exact ⟨0, rfl, le_rfl⟩
  rcases hvalue with ⟨value, hread, hnonneg⟩
  refine bind_eq_ok.2 ⟨value, hread, bind_eq_ok.2 ⟨⟨⟩, ensure_eq_ok.2 hnonneg, ?_⟩⟩
  exact bind_eq_ok.2 ⟨s, h.decryptInt64 ht hs.1 hs.2, ensure_eq_ok.2 rfl⟩

/-- The quotient of the ciphertexts is the ratio that is expected, in units of the scale. -/
theorem verifyRatio_spec {c t : Nat} {part whole : Int} (hc : Encrypts rt.key.pub.n c part)
    (ht : Encrypts rt.key.pub.n t whole) (hpart : 0 ≤ part ∧ part ≤ whole)
    (hwhole : 0 < whole ∧ whole * kScale ≤ kFixedSafe)
    (draw : Runtime.SecureDivDraw rt.key.pub.n) :
    OpenRuntime.unlessDisabled (rt.verifyRatio c t whole part draw) =
      .ok (if rt.experimental = true then some ⟨⟩ else none) := by
  rcases h.scalarMul hc kScale with ⟨scaled, hscaled, hencScaled⟩
  unfold OpenRuntime.verifyRatio
  rw [ok_bind hscaled]
  cases hon : rt.experimental with
  | false => exact unlessDisabled_off hon _ _
  | true =>
      unfold kFixedSafe int64Max at hwhole
      have hscale : (0 : Int) < kScale := by decide
      have hnumerator : 0 ≤ kScale * part ∧ kScale * part ≤ whole * kScale := by
        refine ⟨mul_nonneg hscale.le hpart.1, ?_⟩
        rw [mul_comm]
        exact mul_le_mul_of_nonneg_right hpart.2 hscale.le
      -- Both sides are natural numbers, and the quotient is at most the scale.
      obtain ⟨k, hk⟩ := Int.eq_ofNat_of_zero_le hnumerator.1
      obtain ⟨m, hm⟩ := Int.eq_ofNat_of_zero_le hwhole.1.le
      have hle : k ≤ m * 1000000 := by
        have hbound := hnumerator.2
        rw [hk, hm] at hbound
        unfold kScale at hbound
        omega
      have hmpos : 0 < m := by omega
      have hquotient : k / m ≤ 1000000 := Nat.div_le_of_le_mul hle
      have hmsmall : m ≤ 2 ^ 64 := by
        unfold kScale at hwhole
        omega
      rw [hk] at hencScaled
      rw [hm] at ht
      rcases h.secureDiv hon hencScaled ht hmpos (by omega) hmsmall (by omega) draw with
        ⟨cq, cr, hdiv, hencQuotient⟩
      have hread := h.decryptInt64 hencQuotient (Int.natCast_nonneg _)
        ((Int.ofNat_le.2 hquotient).trans (by decide))
      refine unlessDisabled_ok (bind_eq_ok.2 ⟨_, hdiv, bind_eq_ok.2 ⟨_, hread, ?_⟩⟩)
      have hexpected : (kScale * part).tdiv whole = ((k / m : Nat) : Int) := by
        rw [hk, hm]
        rfl
      dsimp only
      rw [hexpected, sub_self]
      exact ensure_eq_ok.2 (by decide)

/-- The checks of `optimize` pass for every solution of an accepted model. -/
theorem verify_spec {model : Encoded} (haccepted : model.Accepted) {leaf : List (Choice Int)}
    (hleaf : IsAssignment model.costs leaf) (hfeasible : Feasible kScale model.threshold leaf)
    (draw : OpenRuntime.OptimizeDraw rt.key.pub.n) :
    rt.verify model (solutionOf leaf) draw = .ok ⟨⟩ := by
  have hzero : SumsEncrypt rt.key.pub.n
      ⟨rt.encrypt 0 draw.total, rt.encrypt 0 draw.c12, rt.encrypt 0 draw.c3⟩ 0 0 0 :=
    ⟨h.encrypts 0 draw.total, h.encrypts 0 draw.c12, h.encrypts 0 draw.c3⟩
  have hsums := h.foldl_addCell (h.encryptRows draw.cells 0 model.costs) hleaf hzero
  rw [zero_add, zero_add, zero_add] at hsums
  have hpos := haccepted.total_pos hleaf hfeasible
  have hc12 := haccepted.c12_nonneg hleaf
  have htotal := total_eq leaf
  have hsafe := (haccepted.total_range hleaf).2
  have hsides := (feasible_iff model.threshold leaf).1 hfeasible
  rcases haccepted.sides_range hleaf with ⟨⟨_, hlhs⟩, hrhs, _⟩
  have hlarge : kFixedSafe ≤ int64Max := by decide
  rcases h.scalarMul hsums.c12 (kScale - model.threshold) with ⟨lhs, hlhsRun, hencLhs⟩
  rcases h.scalarMul hsums.c3 model.threshold with ⟨rhs, hrhsRun, hencRhs⟩
  rcases h.scalarMul hencRhs (-1) with ⟨minus, hminus, hencMinus⟩
  -- The three checks: the two sides compared, the sums against the expected ones, the ratio.
  have hcompare := compareRatio_spec h hencLhs hencRhs hsides.1 hrhs (by omega) draw.compare
  have hexpected := foldl_addExpected hleaf (0, 0)
  rw [zero_add, zero_add] at hexpected
  have hwitness := verifySums_spec h
    (if rt.experimental = true then some PUnit.unit else none).isSome
    (h.add hencLhs hencMinus) hsums.total ⟨by omega, by omega⟩ ⟨by omega, by
      unfold kScale at hsafe
      omega⟩
  have hratio := verifyRatio_spec h hsums.c12 hsums.total ⟨hc12, by have := hsides.2; omega⟩
    ⟨hpos, hsafe⟩ draw.div
  unfold OpenRuntime.verify
  refine bind_eq_ok.2 ⟨lhs, hlhsRun, bind_eq_ok.2 ⟨rhs, hrhsRun, bind_eq_ok.2 ⟨_, hcompare, ?_⟩⟩⟩
  refine bind_eq_ok.2 ⟨minus, hminus, ?_⟩
  dsimp only
  rw [hexpected]
  exact bind_eq_ok.2 ⟨_, hwitness, bind_eq_ok.2 ⟨_, hratio, rfl⟩⟩

end Checks

/-- `optimize` returns what the plain solver returns, with the experimental protocols and without
them. -/
theorem optimize_returns_plain {rt : OpenRuntime} {bits p q : Nat} (hprimes : KeyPrimes p q)
    (hsize : sizeInBase2 p = bits / 2) (hkey : Runtime.keygen bits p q = .ok rt.key)
    {matrix : CostMatrix} {threshold : Bytes} {result : Solver}
    (hplain : optimizePlain matrix threshold = .ok result)
    (draw : OpenRuntime.OptimizeDraw rt.key.pub.n) :
    rt.optimize matrix threshold draw = .ok result := by
  have hwide := wideKey_of_keygen hprimes hsize hkey
  rcases bind_eq_ok.1 hplain with ⟨model, hencode, hsolve⟩
  have haccepted := encode_accepted hencode
  rcases bind_eq_ok.1 hsolve with ⟨_, hfound, hreturn⟩
  have hne := ensure_eq_ok.1 hfound
  have hresult : Solver.run model = result := Except.ok.inj hreturn
  rcases run_describes haccepted with ⟨hnil, _⟩ | ⟨leaf, hleaf, hbest, _⟩
  · exact absurd hnil hne
  · rw [hresult] at hbest
    refine bind_eq_ok.2 ⟨model, hencode, bind_eq_ok.2 ⟨result, hsolve, bind_eq_ok.2 ⟨⟨⟩, ?_, rfl⟩⟩⟩
    rw [hbest]
    exact verify_spec hwide haccepted hleaf.assignment hleaf.feasible draw

theorem optimizePlain_evenRows :
    optimizePlain [![some [49], some [49], some [49]], ![some [49], some [49], some [49]]] [48] =
      .ok (Solver.run evenModel) := by
  have hfound : (Solver.run evenModel).best ≠ [] := by decide +kernel
  exact bind_eq_ok.2 ⟨evenModel, encode_evenRows, bind_eq_ok.2 ⟨⟨⟩, ensure_eq_ok.2 hfound, rfl⟩⟩

/-- Two rows of equal costs under a key of 3072 bits, in both builds. -/
theorem optimize_returns_plain_evenRows :
    ∃ key, Runtime.keygen 3072 leftPrime rightPrime = .ok key ∧
      ∀ (experimental off : Bool) (draw : OpenRuntime.OptimizeDraw key.pub.n),
        OpenRuntime.optimize ⟨key, experimental, off⟩
          [![some [49], some [49], some [49]], ![some [49], some [49], some [49]]] [48] draw =
            .ok (Solver.run evenModel) := by
  rcases Runtime.deriveKey_spec keyPrimes_3072 with ⟨key, hkey, _⟩
  have hgen : Runtime.keygen 3072 leftPrime rightPrime = .ok key :=
    bind_eq_ok.2 ⟨⟨⟩, ensure_eq_ok.2 (by decide), hkey⟩
  have hsize : sizeInBase2 leftPrime = 3072 / 2 := by decide +kernel
  refine ⟨key, hgen, fun experimental off draw => ?_⟩
  have hrt : Runtime.keygen 3072 leftPrime rightPrime =
      .ok (OpenRuntime.mk key experimental off).key := hgen
  exact optimize_returns_plain keyPrimes_3072 hsize hrt optimizePlain_evenRows draw

end Optimization
end SociSgx

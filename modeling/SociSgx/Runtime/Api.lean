import SociSgx.Runtime.Overlap
import SociSgx.Runtime.CiphertextCodec
import SociSgx.Runtime.SecureCalls
import SociSgx.Runtime.DecimalText

/-!
# Api — the calls of the C API on ciphertexts

A call decodes its operands, computes with the open key and encodes the result.  On operands that
are ciphertexts of the key it yields a ciphertext of what it promises, whatever it draws.
-/

namespace SociSgx
namespace Runtime

open Exec SociSgx.Modular Paillier Protocol BigEndian

/-! ## The calls -/

/-- What one call takes from the generator of the runtime. -/
structure CallDraw (n : Nat) where
  nonce : Nonce n
  mul : MulDraw n
  less : LessDraw n
  sign : SignDraw n
  abs : AbsDraw n
  div : SecureDivDraw n

/-- An open key, with what is drawn for the calls on it. -/
structure OpenKey where
  key : Key
  draws : Nat → CallDraw key.pub.n

/-- The part of a `soci_runtime` that the calls on ciphertexts work on; `experimental` says how the
library was built. -/
structure Api where
  mode : UInt8
  experimental : Bool
  opened : Option OpenKey
  calls : Nat

abbrev ApiM : Type → Type :=
  EStateM Thrown Api

namespace Api

/-- `need`, with the key. -/
def need : ApiM OpenKey := do
  let s ← get
  match s.opened with
  | some k => return k
  | none => throw (.logicError "no key is open")

def draw (k : OpenKey) : ApiM (CallDraw k.key.pub.n) := do
  let s ← get
  set { s with calls := s.calls + 1 }
  return k.draws s.calls

def ct (p : Bytes) : ApiM Nat := do
  let s ← get
  let z ← Exec.lift (decodeObject p ciphertextType s.mode)
  return z.toNat

def encct (z : Nat) : ApiM Bytes := do
  let s ← get
  Exec.lift (encodeObject ciphertextType s.mode z)

/-- `set_str` on an argument. -/
def number (text : Bytes) (message : String) : ApiM Int :=
  match setStr text with
  | some z => return z
  | none => throw (.invalidArgument message)

/-- What the calls do that the build may leave out. -/
def whenEnabled (f : ApiM Bytes) : ApiM Bytes := do
  let s ← get
  require (s.experimental = true)
    (Thrown.logicError "experimental protocol disabled by default")
  f

def sociEncrypt (m : Bytes) : ApiM Bytes := do
  let k ← need
  let z ← number m "plaintext is not decimal"
  let draws ← draw k
  encct (encrypt k.key.pub z draws.nonce)

/-- The text that `soci_decrypt` finds. -/
def sociDecrypt (p : Bytes) : ApiM Bytes := do
  let k ← need
  let c ← ct p
  let z ← Exec.lift (decrypt k.key.toKeyNumbers c)
  return getStr z

def sociAdd (a b : Bytes) : ApiM Bytes := do
  let k ← need
  let x ← ct a
  let y ← ct b
  encct (x * y % k.key.pub.nsq)

/-- A negative scalar is applied to the inverse. -/
def scalarPower (pub : PublicKey) (c : Nat) (x : Int) : Except Thrown Nat := do
  let base ← if x < 0 then cinv c pub.nsq else .ok c
  return powMod base x.natAbs pub.nsq

def sociScalarMul (a scalar : Bytes) : ApiM Bytes := do
  let k ← need
  let x ← number scalar "scalar is not decimal"
  let c ← ct a
  let z ← Exec.lift (scalarPower k.key.pub c x)
  encct z

def sociSecureMul (a b : Bytes) : ApiM Bytes :=
  whenEnabled do
    let k ← need
    let x ← ct a
    let y ← ct b
    let draws ← draw k
    let z ← Exec.lift (sociPlusMul k.key.toKeyNumbers x y draws.mul)
    encct z

def sociSecureCompare (a b : Bytes) : ApiM Bytes :=
  whenEnabled do
    let k ← need
    let x ← ct a
    let y ← ct b
    let draws ← draw k
    let z ← Exec.lift (Runtime.sociSecureCompare k.key.toKeyNumbers x y draws.less)
    encct z

def sociSecureSignBit (a : Bytes) : ApiM Bytes :=
  whenEnabled do
    let k ← need
    let x ← ct a
    let draws ← draw k
    let z ← Exec.lift (sociPlusSign k.key.toKeyNumbers x draws.sign)
    encct z

def sociSecureAbs (a : Bytes) : ApiM Bytes :=
  whenEnabled do
    let k ← need
    let x ← ct a
    let draws ← draw k
    let z ← Exec.lift (sociPlusAbs k.key.toKeyNumbers x draws.abs)
    encct z

/-- The size that `soci_secure_div` asks for. -/
def divMaximum : ApiM Nat := do
  let k ← need
  return 12 + (2 * k.key.info.modulusBits.toNat + 7) / 8

/-- The encoded quotient and remainder. -/
def divResult (a b : Bytes) : ApiM (Bytes × Bytes) := do
  let k ← need
  let x ← ct a
  let y ← ct b
  let draws ← draw k
  let qr ← Exec.lift (sociSecureDiv k.key.toKeyNumbers x y draws.div)
  let qo ← encct qr.1
  let ro ← encct qr.2
  return (qo, ro)

end Api

/-! ## With an open key -/

/-- A key that the runtime has generated, open. -/
structure OpenKey.Generated (k : OpenKey) (p q : Nat) : Prop where
  primes : KeyPrimes p q
  derived : OffKey p q k.key.toKeyNumbers
  size : sizeInBase2 k.key.pub.n ≤ k.key.info.modulusBits.toNat
  bits : k.key.info.modulusBits.toNat ≤ 8192

/-- The key is open in this mode and this build; the calls leave that so. -/
structure Api.Ready (k : OpenKey) (mode : UInt8) (experimental : Bool) (s : Api) : Prop where
  opened : s.opened = some k
  mode : s.mode = mode
  experimental : s.experimental = experimental

/-- The bytes of a ciphertext of `m`. -/
def OpenKey.Holds (k : OpenKey) (mode : UInt8) (m : Int) (bytes : Bytes) : Prop :=
  ∃ c, Encrypts k.key.pub.n c m ∧ bytes = canonicalBytes mode (magnitude c)

variable {k : OpenKey} {p q : Nat} {mode : UInt8} {experimental : Bool} {m : Int} {bytes : Bytes}

theorem OpenKey.Generated.one_lt (h : k.Generated p q) : 1 < k.key.pub.n :=
  h.derived.modulus ▸ h.primes.one_lt

/-- A ciphertext fits in the size that the division asks for. -/
theorem OpenKey.Generated.exported_le (h : k.Generated p q) {c : Nat}
    (hc : Encrypts k.key.pub.n c m) :
    exportedSize c ≤ (2 * k.key.info.modulusBits.toNat + 7) / 8 := by
  have hn : k.key.pub.n < 2 ^ sizeInBase2 k.key.pub.n := Nat.lt_log2_self
  have hc' : c < 2 ^ (2 * k.key.info.modulusBits.toNat) := by
    calc
      c < k.key.pub.n * k.key.pub.n := hc.lt
      _ ≤ 2 ^ sizeInBase2 k.key.pub.n * 2 ^ sizeInBase2 k.key.pub.n :=
          Nat.mul_le_mul hn.le hn.le
      _ = 2 ^ (sizeInBase2 k.key.pub.n + sizeInBase2 k.key.pub.n) := (pow_add _ _ _).symm
      _ ≤ 2 ^ (2 * k.key.info.modulusBits.toNat) :=
          Nat.pow_le_pow_right (by decide) (by have hsize := h.size; omega)
  have hlog := (Nat.log2_lt (hc.pos h.one_lt).ne').2 hc'
  unfold exportedSize sizeInBase2
  omega

theorem OpenKey.Holds.length (h : k.Generated p q) (hbytes : k.Holds mode m bytes) :
    12 ≤ bytes.length ∧
      bytes.length ≤ 12 + (2 * k.key.info.modulusBits.toNat + 7) / 8 := by
  rcases hbytes with ⟨c, hc, rfl⟩
  have hle := h.exported_le hc
  have hlen : (canonicalBytes mode (magnitude c)).length = 12 + exportedSize c := by
    simp [canonicalBytes, ascii]
    omega
  omega

/-! ## What the calls yield -/

namespace Api

theorem need_spec : Yields (Ready k mode experimental) need (fun k' => k' = k) Never := by
  refine Triple.get_bind fun s hs => ?_
  rw [hs.opened]
  exact pure_at ⟨rfl, hs⟩

/-- A draw is one of the key. -/
theorem draw_spec : Yields (Ready k mode experimental) (draw k)
    (fun draws => ∃ i, draws = k.draws i) Never := by
  refine Triple.get_bind fun s hs => set_at (pure_at ⟨⟨s.calls, rfl⟩, ?_⟩)
  exact ⟨hs.opened, hs.mode, hs.experimental⟩

theorem number_spec {text : Bytes} {z : Int} (h : setStr text = some z) (message : String) :
    Yields (Ready k mode experimental) (number text message) (fun x => x = z) Never := by
  unfold number
  rw [h]
  exact Yields.pure rfl

theorem encct_spec (hn : 1 < k.key.pub.n) {c : Nat} (hc : Encrypts k.key.pub.n c m) :
    Yields (Ready k mode experimental) (encct c) (k.Holds mode m) Never := by
  refine Triple.get_bind fun s hs => ?_
  have hpos : (0 : Int) < c := by exact_mod_cast hc.pos hn
  have hencode :
      encodeObject ciphertextType s.mode c = .ok (canonicalBytes mode (magnitude c)) := by
    rw [hs.mode]
    exact encode_positive mode hpos
  rw [hencode]
  exact pure_at ⟨⟨c, hc, rfl⟩, hs⟩

/-- What a call has written is read back. -/
theorem ct_spec (h : k.Generated p q) (hbytes : k.Holds mode m bytes) :
    Yields (Ready k mode experimental) (ct bytes) (fun c => Encrypts k.key.pub.n c m) Never := by
  have hlength := (hbytes.length h).2
  have hbits := h.bits
  obtain ⟨c, hc, rfl⟩ := hbytes
  have hsize := h.exported_le hc
  have hpos : (0 : Int) < c := by exact_mod_cast hc.pos h.one_lt
  have hfits : 12 + exportedSize (c : Int).natAbs ≤ kMaxObject := by
    rw [Int.natAbs_natCast]
    unfold kMaxObject
    omega
  refine Triple.get_bind fun s hs => ?_
  rcases @decodeObject_encodeObject s.mode c hpos hfits with ⟨data, hdata, hdecode⟩
  have hencode : encodeObject ciphertextType s.mode c =
      .ok (canonicalBytes mode (magnitude c)) := by
    rw [hs.mode]
    exact encode_positive mode hpos
  have hsame : data = canonicalBytes mode (magnitude c) :=
    Except.ok.inj (hdata.symm.trans hencode)
  subst hsame
  rw [hdecode]
  exact pure_at ⟨hc, hs⟩

theorem whenEnabled_spec {f : ApiM Bytes} {R : Bytes → Prop}
    (hf : Yields (Ready k mode true) f R Never) :
    Yields (Ready k mode true) (whenEnabled f) R Never := by
  refine Triple.of_each fun s hs => get_at (require_at (fun _ => ?_) fun hoff => ?_)
  · exact hf.pre fun t ht => ht ▸ hs
  · exact absurd hs.experimental hoff

/-- The result of a protocol is encoded. -/
theorem encoded_spec (hn : 1 < k.key.pub.n) {x : Except Thrown Nat}
    (hx : ∃ c, x = .ok c ∧ Encrypts k.key.pub.n c m) :
    Yields (Ready k mode experimental) (do
      let z ← Exec.lift x
      encct z) (k.Holds mode m) Never := by
  rcases hx with ⟨c, hx, hc⟩
  exact Triple.lift_bind hx (encct_spec hn hc)

section Calls

variable (h : k.Generated p q)
include h

theorem sociEncrypt_spec {text : Bytes} (htext : setStr text = some m) :
    Yields (Ready k mode experimental) (sociEncrypt text) (k.Holds mode m) Never := by
  refine need_spec.bind fun k' hk' => ?_
  subst hk'
  refine (number_spec htext _).bind fun z hz => draw_spec.bind fun draws _ => ?_
  rw [hz]
  exact encct_spec h.one_lt (encrypts_encrypt h.derived m draws.nonce)

theorem sociDecrypt_spec (hbytes : k.Holds mode m bytes) :
    Yields (Ready k mode experimental) (sociDecrypt bytes)
      (fun text => text = getStr (signedResidue k.key.pub.n (m % k.key.pub.n))) Never := by
  refine need_spec.bind fun k' hk' => ?_
  subst hk'
  refine (ct_spec h hbytes).bind fun c hc => ?_
  exact Triple.lift_bind (decrypt_spec h.primes h.derived hc) (Yields.pure rfl)

variable {a b : Bytes} {x y : Int}

theorem sociAdd_spec (ha : k.Holds mode x a) (hb : k.Holds mode y b) :
    Yields (Ready k mode experimental) (sociAdd a b) (k.Holds mode (x + y)) Never := by
  refine need_spec.bind fun k' hk' => ?_
  subst hk'
  refine (ct_spec h ha).bind fun c hc => (ct_spec h hb).bind fun d hd => ?_
  have hsum := hc.mul hd
  rw [← h.derived.square] at hsum
  exact encct_spec h.one_lt hsum

theorem scalarPower_spec {c : Nat} (hc : Encrypts k.key.pub.n c x) (scalar : Int) :
    ∃ z, scalarPower k.key.pub c scalar = .ok z ∧ Encrypts k.key.pub.n z (scalar * x) := by
  have hsquare := h.derived.square
  unfold scalarPower
  rw [hsquare]
  by_cases hneg : scalar < 0
  · rcases cinv_spec (Nat.zero_lt_of_lt h.one_lt) hc with ⟨base, hbase, hencBase⟩
    have hpower := hencBase.powMod scalar.natAbs
    have hvalue : (scalar.natAbs : Int) * -x = scalar * x := by
      rw [Int.natCast_natAbs, abs_of_neg hneg]
      ring
    rw [hvalue] at hpower
    rw [if_pos hneg, hbase]
    exact ⟨_, rfl, hpower⟩
  · have hpower := hc.powMod scalar.natAbs
    rw [Int.natCast_natAbs, abs_of_nonneg (not_lt.1 hneg)] at hpower
    rw [if_neg hneg]
    exact ⟨_, rfl, hpower⟩

theorem sociScalarMul_spec {text : Bytes} (ha : k.Holds mode x a) (htext : setStr text = some m) :
    Yields (Ready k mode experimental) (sociScalarMul a text) (k.Holds mode (m * x)) Never := by
  refine need_spec.bind fun k' hk' => ?_
  subst hk'
  refine (number_spec htext _).bind fun z hz => (ct_spec h ha).bind fun c hc => ?_
  rw [hz]
  exact encoded_spec h.one_lt (scalarPower_spec h hc m)

theorem sociSecureMul_spec (ha : k.Holds mode x a) (hb : k.Holds mode y b) :
    Yields (Ready k mode true) (sociSecureMul a b) (k.Holds mode (x * y)) Never := by
  refine whenEnabled_spec (need_spec.bind fun k' hk' => ?_)
  subst hk'
  refine (ct_spec h ha).bind fun c hc => (ct_spec h hb).bind fun d hd => ?_
  refine draw_spec.bind fun draws _ => encoded_spec h.one_lt ?_
  exact sociPlusMul_spec h.primes h.derived hc hd draws.mul

/-- The bit says whether the first operand is the larger one. -/
theorem sociSecureCompare_spec (ha : k.Holds mode x a) (hb : k.Holds mode y b)
    (hcomparable : Comparable k.key.pub.n y x) :
    Yields (Ready k mode true) (sociSecureCompare a b) (k.Holds mode (lessBit y x)) Never := by
  refine whenEnabled_spec (need_spec.bind fun k' hk' => ?_)
  subst hk'
  refine (ct_spec h ha).bind fun c hc => (ct_spec h hb).bind fun d hd => ?_
  refine draw_spec.bind fun draws _ => encoded_spec h.one_lt ?_
  exact sociPlusLess_spec h.primes h.derived hd hc hcomparable draws.less

theorem sociSecureSignBit_spec (ha : k.Holds mode x a)
    (hcomparable : Comparable k.key.pub.n x 0) :
    Yields (Ready k mode true) (sociSecureSignBit a) (k.Holds mode (lessBit x 0)) Never := by
  refine whenEnabled_spec (need_spec.bind fun k' hk' => ?_)
  subst hk'
  refine (ct_spec h ha).bind fun c hc => draw_spec.bind fun draws _ => encoded_spec h.one_lt ?_
  exact sociPlusSign_spec h.primes h.derived hc hcomparable draws.sign

theorem sociSecureAbs_spec (ha : k.Holds mode x a) (hcomparable : Comparable k.key.pub.n x 0) :
    Yields (Ready k mode true) (sociSecureAbs a) (k.Holds mode |x|) Never := by
  refine whenEnabled_spec (need_spec.bind fun k' hk' => ?_)
  subst hk'
  refine (ct_spec h ha).bind fun c hc => draw_spec.bind fun draws _ => encoded_spec h.one_lt ?_
  exact sociPlusAbs_spec h.primes h.derived hc hcomparable draws.abs

/-- What `soci_secure_div` computes for `x` and `y`: the quotient saturates. -/
structure Divided (k : OpenKey) (mode : UInt8) (x y : Nat) (qr : Bytes × Bytes) : Prop where
  quotient : k.Holds mode ((min (x / y) (2 ^ 21 - 1) : Nat) : Int) qr.1
  rem : k.Holds mode ((x - min (x / y) (2 ^ 21 - 1) * y : Nat) : Int) qr.2

theorem sociSecureDiv_divides {c d x y : Nat} (hc : Encrypts k.key.pub.n c x)
    (hd : Encrypts k.key.pub.n d y) (hpos : 1 ≤ y) (hx : x * 2 ^ 130 < k.key.pub.n)
    (hy : y * 2 ^ 21 * 2 ^ 130 < k.key.pub.n) (draw : SecureDivDraw k.key.pub.n) :
    ∃ qr, sociSecureDiv k.key.toKeyNumbers c d draw = .ok qr ∧
      EncryptsPair k.key.pub.n qr (min (x / y) (2 ^ 21 - 1), x - min (x / y) (2 ^ 21 - 1) * y) := by
  have hdivisor : y * 2 ^ 130 < k.key.pub.n :=
    lt_of_le_of_lt (Nat.mul_le_mul_right _ (Nat.le_mul_of_pos_right y (Nat.two_pow_pos 21))) hy
  rw [sociSecureDiv_eq h.primes h.derived hd hpos hdivisor draw]
  rcases sociPlusDiv_restores h.primes h.derived hc hd hpos hx hy draw.div with ⟨qr, hqr, hpair⟩
  rcases Restoring.divide_spec hpos 21 x with ⟨hmin, htotal⟩
  have hrem : (Restoring.divide y 21 (0, x)).2 = x - min (x / y) (2 ^ 21 - 1) * y := by
    rw [← hmin]
    omega
  have hquotient := hpair.quotient
  have hdividend := hpair.dividend
  rw [hmin] at hquotient
  rw [hrem] at hdividend
  exact ⟨qr, hqr, hquotient, hdividend⟩

theorem divResult_spec {a b : Bytes} {x y : Nat} (ha : k.Holds mode x a) (hb : k.Holds mode y b)
    (hpos : 1 ≤ y) (hx : x * 2 ^ 130 < k.key.pub.n) (hy : y * 2 ^ 21 * 2 ^ 130 < k.key.pub.n) :
    Yields (Ready k mode experimental) (divResult a b) (Divided k mode x y) Never := by
  refine need_spec.bind fun k' hk' => ?_
  subst hk'
  refine (ct_spec h ha).bind fun c hc => (ct_spec h hb).bind fun d hd => ?_
  refine draw_spec.bind fun draws _ => ?_
  rcases sociSecureDiv_divides h hc hd hpos hx hy draws.div with ⟨qr, hqr, hpair⟩
  refine Triple.lift_bind hqr ?_
  refine (encct_spec h.one_lt hpair.quotient).bind fun qo hqo => ?_
  refine (encct_spec h.one_lt hpair.dividend).bind fun ro hro => ?_
  exact Yields.pure ⟨hqo, hro⟩

/-- A divisor that is not positive is refused. -/
theorem sociSecureDiv_refuses {c d : Nat} {y : Int} (hd : Encrypts k.key.pub.n d y) (hy : y ≤ 0)
    (hcomparable : Comparable k.key.pub.n y 1) (draw : SecureDivDraw k.key.pub.n) :
    sociSecureDiv k.key.toKeyNumbers c d draw =
      .error (.invalidArgument "divisor must be positive") := by
  rcases sociPlusLess_spec h.primes h.derived hd (encrypts_encrypt h.derived 1 draw.one)
    hcomparable draw.less with ⟨belowOne, hbelow, henc⟩
  have hbit : lessBit y 1 = 1 := if_pos (by omega)
  have hwide : (2 : Int) ^ 129 ≤ k.key.pub.n := by
    unfold Comparable at hcomparable
    have habs := abs_nonneg (y - 1)
    omega
  rw [hbit] at henc
  have hone := decrypt_nonneg h.primes h.derived henc (by decide) (by omega)
  unfold sociSecureDiv
  rw [ok_bind hbelow, ok_bind hone]
  exact error_bind (ensure_of_not (by decide))

theorem divResult_refuses {a b : Bytes} {x y : Int} (ha : k.Holds mode x a)
    (hb : k.Holds mode y b) (hy : y ≤ 0) (hcomparable : Comparable k.key.pub.n y 1) :
    Triple (Ready k mode experimental) (divResult a b) (fun _ _ => False) fun e s =>
      e = .invalidArgument "divisor must be positive" ∧ Ready k mode experimental s := by
  refine need_spec.ofNever.bind fun k' hk' => ?_
  subst hk'
  refine (ct_spec h ha).ofNever.bind fun c _ => (ct_spec h hb).ofNever.bind fun d hd => ?_
  refine draw_spec.ofNever.bind fun draws _ => ?_
  refine Triple.bind (Q := fun _ _ => False) (Triple.lift ?_ ?_) fun qr s hs => hs.elim
  · intro qr s hqr _
    rw [sociSecureDiv_refuses h hd hy hcomparable draws.div] at hqr
    cases hqr
  · intro e s he hs
    rw [sociSecureDiv_refuses h hd hy hcomparable draws.div] at he
    cases he
    exact ⟨rfl, hs⟩

end Calls
end Api

end Runtime
end SociSgx

import SociSgx.Runtime.Crypto
import SociSgx.Lib.BigEndian
import SociSgx.Basic

/-!
# Objects — key blobs

`save_off_key` writes the numbers and the description of a key, each number behind its length, and a
hash of all that; `load_off_key` checks the hash and reads them back.  The hash is a parameter.
-/

namespace SociSgx
namespace Runtime

open Exec BigEndian

/-- `soci_key_info_t`; `keyId` is the C string in the field. -/
structure KeyInfo where
  structVersion : UInt32 := 0
  modulusBits : UInt32 := 0
  keyVersion : UInt64 := 0
  role : UInt8 := 0
  runtimeMode : UInt8 := 0
  keyId : Bytes := []
  deriving DecidableEq, Repr

structure Key extends KeyNumbers where
  info : KeyInfo
  deriving DecidableEq, Repr

/-- What SHA-256 returns. -/
abbrev Digest : Type :=
  { bytes : Bytes // bytes.length = 32 }

/-- A stand-in for a hash. -/
def zeroDigest (_ : Bytes) : Digest :=
  ⟨List.replicate 32 0, List.length_replicate⟩

def kMaxObject : Nat := 1024 * 1024

def put32 (x : Nat) : Bytes :=
  toBytes 4 x

/-- A length and that many bytes. -/
def field (bytes : Bytes) : Bytes :=
  put32 bytes.length ++ bytes

/-- `valid_id` of the key store. -/
def validId (id : Bytes) : Bool :=
  !id.isEmpty && id.length ≤ 64 && id.all fun c => isAlnum c || c == 45 || c == 95

/-! ## Writing -/

/-- The part of the blob that is hashed. -/
def blobBody (k : Key) : Bytes :=
  ascii "SOCK" ++ [1, k.info.runtimeMode, k.info.role, 0] ++ put32 k.info.modulusBits.toNat ++
    toBytes 8 k.info.keyVersion.toNat ++ field k.info.keyId ++ field (magnitude k.pub.n) ++
    field (magnitude k.sec.lambda) ++ field (magnitude k.sec.mu)

/-- The bytes that `save_off_key` writes. -/
def keyBlob (sha256 : Bytes → Digest) (k : Key) : Bytes :=
  blobBody k ++ (sha256 (blobBody k)).val

/-- `encode_public`: the object of type 2. -/
def encodePublic (k : Key) : Bytes :=
  ascii "SOCI" ++ [1, 2, k.info.runtimeMode, 0] ++ field (magnitude k.pub.n)

/-! ## Reading -/

/-- The lambda `take`, on what is left before the hash. -/
def take (rest : Bytes) : Except Thrown (Bytes × Bytes) := do
  ensure (4 ≤ rest.length) (Thrown.other "truncated key")
  let n := ofBytes (rest.take 4)
  ensure (4 + n ≤ rest.length) (Thrown.other "truncated key")
  return ((rest.drop 4).take n, (rest.drop 4).drop n)

/-- The key id is read like a number, with a bound and another message. -/
def takeId (rest : Bytes) : Except Thrown (Bytes × Bytes) := do
  let il := ofBytes (rest.take 4)
  ensure (il ≤ 64 ∧ 4 + il ≤ rest.length) (Thrown.other "bad key id")
  return ((rest.drop 4).take il, (rest.drop 4).drop il)

/-- The fields from the key id on, and what is left after them. -/
def takeFields (rest : Bytes) : Except Thrown ((Bytes × Nat × Nat × Nat) × Bytes) := do
  let (id, rest) ← takeId rest
  let (n, rest) ← take rest
  let (lambda, rest) ← take rest
  let (mu, rest) ← take rest
  return ((id, ofBytes n, ofBytes lambda, ofBytes mu), rest)

/-- The characters of a C string. -/
def cString (bytes : Bytes) : Bytes :=
  bytes.takeWhile (· != 0)

/-- `load_off_key` on the content of the file. -/
def loadOffKey (sha256 : Bytes → Digest) (o : Bytes) (mode role : UInt8) : Except Thrown Key := do
  ensure (56 ≤ o.length ∧ o.length ≤ kMaxObject) (Thrown.other "missing/truncated key blob")
  let body := o.take (o.length - 32)
  ensure ((sha256 body).val = o.drop (o.length - 32)) (Thrown.other "key blob integrity failure")
  ensure (o.take 4 = ascii "SOCK" ∧ o.getD 4 0 = 1 ∧ o.getD 5 0 = mode ∧ o.getD 6 0 = role)
    (Thrown.other "key format/mode/role mismatch")
  -- magic, format, mode, role, bits and version take 20 bytes
  let ((id, n, lambda, mu), rest) ← takeFields (body.drop 20)
  ensure (rest = []) (Thrown.other "trailing key data")
  return {
    pub := { n := n, nsq := n * n }
    sec := { lambda := lambda, mu := mu }
    info := {
      structVersion := 1
      modulusBits := UInt32.ofNat (ofBytes ((body.drop 8).take 4))
      keyVersion := UInt64.ofNat (ofBytes ((body.drop 12).take 8))
      role := role
      runtimeMode := mode
      keyId := cString id } }

/-! ## Fields -/

@[simp]
theorem length_put32 (x : Nat) : (put32 x).length = 4 :=
  length_toBytes 4 x

/-- What the two readers look at when a field is in front. -/
theorem split_field {bytes : Bytes} (rest : Bytes) (h : bytes.length < 256 ^ 4) :
    ofBytes ((field bytes ++ rest).take 4) = bytes.length ∧
      (field bytes ++ rest).drop 4 = bytes ++ rest ∧
        (field bytes ++ rest).length = 4 + bytes.length + rest.length := by
  refine ⟨?_, ?_, by simp [field, Nat.add_assoc]⟩
  · rw [field, List.append_assoc, List.take_left' (length_put32 _)]
    exact ofBytes_toBytes_of_lt h
  · rw [field, List.append_assoc, List.drop_left' (length_put32 _)]

theorem take_field {bytes rest : Bytes} (h : bytes.length < 256 ^ 4) :
    take (field bytes ++ rest) = .ok (bytes, rest) := by
  obtain ⟨hlen, hrest, htotal⟩ := split_field rest h
  refine bind_eq_ok.2 ⟨(), ensure_eq_ok.2 (by omega), ?_⟩
  refine bind_eq_ok.2 ⟨(), ensure_eq_ok.2 (by omega), ?_⟩
  rw [hlen, hrest, List.take_left, List.drop_left]
  rfl

theorem takeId_field {bytes rest : Bytes} (h : bytes.length ≤ 64) :
    takeId (field bytes ++ rest) = .ok (bytes, rest) := by
  have hsmall : bytes.length < 256 ^ 4 := Nat.lt_of_le_of_lt h (by decide)
  obtain ⟨hlen, hrest, htotal⟩ := split_field rest hsmall
  refine bind_eq_ok.2 ⟨(), ensure_eq_ok.2 (by omega), ?_⟩
  rw [hlen, hrest, List.take_left, List.drop_left]
  rfl

/-- The first field is where it was when bytes follow. -/
theorem split_append {rest : Bytes} (hroom : 4 + ofBytes (rest.take 4) ≤ rest.length) (t : Bytes) :
    (rest ++ t).take 4 = rest.take 4 ∧
      ((rest ++ t).drop 4).take (ofBytes (rest.take 4)) =
        (rest.drop 4).take (ofBytes (rest.take 4)) ∧
      ((rest ++ t).drop 4).drop (ofBytes (rest.take 4)) =
        (rest.drop 4).drop (ofBytes (rest.take 4)) ++ t := by
  have hfour : 4 ≤ rest.length := by omega
  have hbehind : ofBytes (rest.take 4) ≤ (rest.drop 4).length := by
    rw [List.length_drop]
    omega
  rw [List.drop_append_of_le_length hfour]
  exact ⟨List.take_append_of_le_length hfour, List.take_append_of_le_length hbehind,
    List.drop_append_of_le_length hbehind⟩

/-- Bytes that follow are left alone. -/
theorem take_append {rest bytes rest' : Bytes} (h : take rest = .ok (bytes, rest')) (t : Bytes) :
    take (rest ++ t) = .ok (bytes, rest' ++ t) := by
  rcases bind_eq_ok.1 h with ⟨_, hfour, h⟩
  rcases bind_eq_ok.1 h with ⟨_, hlen, h⟩
  rw [ensure_eq_ok] at hfour hlen
  cases h
  obtain ⟨htake, hfirst, hbehind⟩ := split_append hlen t
  refine bind_eq_ok.2 ⟨(), ensure_eq_ok.2 (by rw [List.length_append]; omega), ?_⟩
  refine bind_eq_ok.2 ⟨(), ensure_eq_ok.2 (by rw [htake, List.length_append]; omega), ?_⟩
  rw [htake, hfirst, hbehind]
  rfl

theorem takeId_append {rest bytes rest' : Bytes} (h : takeId rest = .ok (bytes, rest'))
    (t : Bytes) : takeId (rest ++ t) = .ok (bytes, rest' ++ t) := by
  rcases bind_eq_ok.1 h with ⟨_, hlen, h⟩
  rw [ensure_eq_ok] at hlen
  cases h
  obtain ⟨htake, hfirst, hbehind⟩ := split_append hlen.2 t
  refine bind_eq_ok.2 ⟨(), ensure_eq_ok.2 (by rw [htake, List.length_append]; omega), ?_⟩
  rw [htake, hfirst, hbehind]
  rfl

theorem takeFields_append {rest rest' : Bytes} {fields : Bytes × Nat × Nat × Nat}
    (h : takeFields rest = .ok (fields, rest')) (t : Bytes) :
    takeFields (rest ++ t) = .ok (fields, rest' ++ t) := by
  rcases bind_eq_ok.1 h with ⟨⟨id, r1⟩, hid, h⟩
  rcases bind_eq_ok.1 h with ⟨⟨n, r2⟩, hn, h⟩
  rcases bind_eq_ok.1 h with ⟨⟨lambda, r3⟩, hlambda, h⟩
  rcases bind_eq_ok.1 h with ⟨⟨mu, r4⟩, hmu, h⟩
  cases h
  refine bind_eq_ok.2 ⟨_, takeId_append hid t, ?_⟩
  refine bind_eq_ok.2 ⟨_, take_append hn t, ?_⟩
  refine bind_eq_ok.2 ⟨_, take_append hlambda t, ?_⟩
  exact bind_eq_ok.2 ⟨_, take_append hmu t, rfl⟩

/-! ## Blobs -/

/-- A key that the store can hold: its numbers are of at most 8192 bits, its id is an id, and it
has the version that `load_off_key` gives. -/
structure Storable (k : Key) : Prop where
  structVersion : k.info.structVersion = 1
  square : k.pub.nsq = k.pub.n * k.pub.n
  keyId : validId k.info.keyId = true
  numbers : k.pub.n < 256 ^ 1024 ∧ k.sec.lambda < 256 ^ 1024 ∧ k.sec.mu < 256 ^ 1024

variable {sha256 : Bytes → Digest} {k : Key}

theorem Storable.lengths (h : Storable k) : k.info.keyId.length ≤ 64 ∧
    (magnitude k.pub.n).length ≤ 1024 ∧ (magnitude k.sec.lambda).length ≤ 1024 ∧
      (magnitude k.sec.mu).length ≤ 1024 := by
  have hid := h.keyId
  simp only [validId, Bool.and_eq_true, decide_eq_true_eq] at hid
  exact ⟨hid.1.2, length_magnitude_le (by decide) h.numbers.1,
    length_magnitude_le (by decide) h.numbers.2.1, length_magnitude_le (by decide) h.numbers.2.2⟩

theorem cString_validId {id : Bytes} (h : validId id = true) : cString id = id := by
  simp only [validId, Bool.and_eq_true] at h
  refine List.takeWhile_eq_self_iff.2 fun c hc => ?_
  have halnum := List.all_eq_true.1 h.2 c hc
  rcases eq_or_ne c 0 with rfl | hne
  · exact absurd halnum (by decide)
  · simpa using hne

theorem length_blobBody (k : Key) : (blobBody k).length = 20 + (field k.info.keyId).length +
    (field (magnitude k.pub.n)).length + (field (magnitude k.sec.lambda)).length +
      (field (magnitude k.sec.mu)).length := by
  simp [blobBody, ascii]
  omega

/-- A key whose blob is not too large to be loaded. -/
structure Loadable (k : Key) : Prop where
  structVersion : k.info.structVersion = 1
  square : k.pub.nsq = k.pub.n * k.pub.n
  keyId : validId k.info.keyId = true
  size : (blobBody k).length + 32 ≤ kMaxObject

theorem Storable.loadable (h : Storable k) : Loadable k := by
  have hlen := length_blobBody k
  rcases h.lengths with ⟨hid, hn, hlambda, hmu⟩
  simp only [field, List.length_append, length_put32] at hlen
  exact ⟨h.structVersion, h.square, h.keyId, by rw [kMaxObject]; omega⟩

theorem Loadable.lengths (h : Loadable k) : k.info.keyId.length ≤ 64 ∧
    (magnitude k.pub.n).length < 256 ^ 4 ∧ (magnitude k.sec.lambda).length < 256 ^ 4 ∧
      (magnitude k.sec.mu).length < 256 ^ 4 := by
  have hid := h.keyId
  have hsize := h.size
  have hlen := length_blobBody k
  simp only [validId, Bool.and_eq_true, decide_eq_true_eq] at hid
  simp only [field, List.length_append, length_put32] at hlen
  rw [kMaxObject] at hsize
  exact ⟨hid.1.2, by omega, by omega, by omega⟩

/-- The fields of a blob are read back, and nothing is left. -/
theorem takeFields_blob (h : Loadable k) :
    takeFields ((blobBody k).drop 20) =
      .ok ((k.info.keyId, k.pub.n, k.sec.lambda, k.sec.mu), []) := by
  rcases h.lengths with ⟨hid, hn, hlambda, hmu⟩
  have hdrop : (blobBody k).drop 20 = field k.info.keyId ++ (field (magnitude k.pub.n) ++
      (field (magnitude k.sec.lambda) ++ (field (magnitude k.sec.mu) ++ []))) := by
    rw [blobBody]
    simp only [List.append_assoc, List.append_nil]
    rw [← List.append_assoc, ← List.append_assoc, ← List.append_assoc]
    exact List.drop_left' (by simp [ascii])
  rw [hdrop]
  refine bind_eq_ok.2 ⟨_, takeId_field hid, ?_⟩
  refine bind_eq_ok.2 ⟨_, take_field hn, ?_⟩
  refine bind_eq_ok.2 ⟨_, take_field hlambda, ?_⟩
  refine bind_eq_ok.2 ⟨_, take_field hmu, ?_⟩
  simp only [ofBytes_magnitude]
  rfl

@[simp]
theorem length_keyBlob (sha256 : Bytes → Digest) (k : Key) :
    (keyBlob sha256 k).length = (blobBody k).length + 32 := by
  rw [keyBlob, List.length_append, (sha256 (blobBody k)).property]

/-- The size and the hash of a blob are right. -/
theorem Loadable.checked (sha256 : Bytes → Digest) (h : Loadable k) :
    (56 ≤ (keyBlob sha256 k).length ∧ (keyBlob sha256 k).length ≤ kMaxObject) ∧
      (keyBlob sha256 k).take ((keyBlob sha256 k).length - 32) = blobBody k ∧
      (keyBlob sha256 k).drop ((keyBlob sha256 k).length - 32) = (sha256 (blobBody k)).val := by
  have hlen := length_blobBody k
  have hsize := h.size
  simp only [field, List.length_append, length_put32] at hlen
  rw [length_keyBlob, Nat.add_sub_cancel]
  exact ⟨⟨by omega, hsize⟩, List.take_left' rfl, List.drop_left' rfl⟩

/-- The bytes that `load_off_key` compares. -/
theorem keyBlob_head (sha256 : Bytes → Digest) (k : Key) : ∃ rest, keyBlob sha256 k =
    83 :: 79 :: 67 :: 75 :: 1 :: k.info.runtimeMode :: k.info.role :: 0 :: rest :=
  ⟨_, rfl⟩

/-- What was written is read back. -/
theorem loadOffKey_blob (h : Loadable k) :
    loadOffKey sha256 (keyBlob sha256 k) k.info.runtimeMode k.info.role = .ok k := by
  rcases h.checked sha256 with ⟨hsize, hbody, hhash⟩
  have hbits : ofBytes (toBytes 4 k.info.modulusBits.toNat) = k.info.modulusBits.toNat :=
    ofBytes_toBytes_of_lt k.info.modulusBits.toNat_lt
  have hversion : ofBytes (toBytes 8 k.info.keyVersion.toNat) = k.info.keyVersion.toNat :=
    ofBytes_toBytes_of_lt k.info.keyVersion.toNat_lt
  have hbitBytes : ((blobBody k).drop 8).take 4 = toBytes 4 k.info.modulusBits.toNat := rfl
  have hversionBytes : ((blobBody k).drop 12).take 8 = toBytes 8 k.info.keyVersion.toNat := rfl
  refine bind_eq_ok.2 ⟨(), ensure_eq_ok.2 hsize, ?_⟩
  rw [hbody, hhash]
  refine bind_eq_ok.2 ⟨(), ensure_eq_ok.2 rfl, ?_⟩
  refine bind_eq_ok.2 ⟨(), ensure_eq_ok.2 ?_, ?_⟩
  · rcases keyBlob_head sha256 k with ⟨rest, hhead⟩
    rw [hhead]
    exact ⟨rfl, rfl, rfl, rfl⟩
  refine bind_eq_ok.2 ⟨_, takeFields_blob h, ?_⟩
  refine bind_eq_ok.2 ⟨(), ensure_eq_ok.2 rfl, ?_⟩
  simp only [hbitBytes, hversionBytes, hbits, hversion, cString_validId h.keyId, ← h.square,
    ← h.structVersion, UInt32.ofNat_toNat, UInt64.ofNat_toNat]
  rfl

/-- Another mode or role is rejected. -/
theorem loadOffKey_mismatch (h : Loadable k) {mode role : UInt8}
    (hother : mode ≠ k.info.runtimeMode ∨ role ≠ k.info.role) :
    loadOffKey sha256 (keyBlob sha256 k) mode role =
      .error (.other "key format/mode/role mismatch") := by
  rcases h.checked sha256 with ⟨hsize, hbody, hhash⟩
  rcases keyBlob_head sha256 k with ⟨rest, hhead⟩
  unfold loadOffKey
  rw [ok_bind (ensure_of hsize), hbody, hhash, ok_bind (ensure_of rfl)]
  refine error_bind (ensure_of_not ?_)
  rw [hhead]
  rintro ⟨_, _, hmode, hrole⟩
  exact hother.elim (fun hne => hne hmode.symm) fun hne => hne hrole.symm

/-- A blob whose end is missing is rejected, whatever the hash. -/
theorem loadOffKey_truncated (h : Storable k) (lost : Nat) (mode role : UInt8) (k' : Key) :
    loadOffKey sha256 ((keyBlob sha256 k).take ((keyBlob sha256 k).length - (lost + 1))) mode role ≠
      .ok k' := by
  intro hload
  rcases bind_eq_ok.1 hload with ⟨_, hsize, hload⟩
  rcases bind_eq_ok.1 hload with ⟨_, _, hload⟩
  rcases bind_eq_ok.1 hload with ⟨_, _, hload⟩
  rcases bind_eq_ok.1 hload with ⟨⟨fields, rest⟩, hfields, hload⟩
  rcases bind_eq_ok.1 hload with ⟨_, hrest, _⟩
  rw [ensure_eq_ok] at hsize hrest
  have hrest : rest = [] := hrest
  have hlen : ((keyBlob sha256 k).take ((keyBlob sha256 k).length - (lost + 1))).length =
      (blobBody k).length + 32 - (lost + 1) := by
    rw [List.length_take, length_keyBlob]
    omega
  rw [hlen] at hsize hfields
  let m := (blobBody k).length + 32 - (lost + 1) - 32
  have htaken : ((keyBlob sha256 k).take ((keyBlob sha256 k).length - (lost + 1))).take m =
      (blobBody k).take m := by
    rw [List.take_take, keyBlob, List.take_append_of_le_length (by omega)]
    congr 1
    rw [← keyBlob, length_keyBlob]
    omega
  -- What is read from the prefix would leave its missing end.
  have hwhole := takeFields_append hfields ((blobBody k).drop m)
  have hjoin :
      (((keyBlob sha256 k).take ((keyBlob sha256 k).length - (lost + 1))).take m).drop 20 ++
      (blobBody k).drop m = (blobBody k).drop 20 := by
    rw [htaken, ← List.drop_append_of_le_length (by rw [List.length_take]; omega),
      List.take_append_drop]
  rw [hjoin, takeFields_blob h.loadable, hrest] at hwhole
  have hnil := congrArg List.length (Prod.mk.inj (Except.ok.inj hwhole)).2
  rw [List.nil_append, List.length_drop, List.length_nil] at hnil
  omega

end Runtime
end SociSgx

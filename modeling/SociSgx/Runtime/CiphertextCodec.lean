import SociSgx.Protocol.Wire
import SociSgx.Runtime.Objects

/-!
# CiphertextCodec — the bytes of a ciphertext

`ciphertext_codec.hpp` writes a header of twelve bytes and the magnitude of the ciphertext.  The
reader takes nothing else: every string that it accepts is the one that the writer gives.
-/

namespace SociSgx
namespace Runtime

open Exec BigEndian Protocol

/-- GMP writes the magnitude, whatever the sign. -/
def encodeCanonicalCiphertext (mode : UInt8) (value : Int) : Except Thrown Bytes := do
  let size := exportedSize value.natAbs
  let output := ascii "SOCI" ++ [1, 1, mode, 0] ++ writeU32 size
  let written := if size ≠ 0 then mpzExport value.natAbs else []
  ensure (written.length = size) (Thrown.other "ciphertext export failed")
  return output ++ written

def decodeCanonicalCiphertext (data : Bytes) (mode : UInt8) : Except Thrown Int := do
  ensure (12 ≤ data.length ∧ data.take 4 = ascii "SOCI" ∧ data.getD 4 0 = 1 ∧ data.getD 5 0 = 1 ∧
    data.getD 6 0 = mode ∧ data.getD 7 0 = 0)
    (Thrown.invalidArgument "invalid ciphertext header/type/mode")
  let magnitudeSize := readU32 data 8
  ensure (magnitudeSize = data.length - 12) (Thrown.invalidArgument "invalid ciphertext length")
  ensure (magnitudeSize ≠ 0 ∧ data.getD 12 0 ≠ 0)
    (Thrown.invalidArgument "non-canonical ciphertext magnitude")
  return (ofBytes ((data.drop 12).take magnitudeSize) : Nat)

/-- The type of a ciphertext among the objects. -/
def ciphertextType : UInt8 := 1

/-- `encode_object` -/
def encodeObject (type mode : UInt8) (z : Int) : Except Thrown Bytes :=
  if type = ciphertextType then
    encodeCanonicalCiphertext mode z
  else
    .ok (ascii "SOCI" ++ [1, type, mode, 0] ++ field (magnitude z.natAbs))

/-- `decode_object`: a ciphertext goes through the canonical reader, after a bound on its size. -/
def decodeObject (data : Bytes) (type mode : UInt8) : Except Thrown Int := do
  ensure (data.length ≤ kMaxObject) (Thrown.invalidArgument "object too large")
  if type = ciphertextType then
    decodeCanonicalCiphertext data mode
  else
    ensure (12 ≤ data.length ∧ data.take 4 = ascii "SOCI" ∧ data.getD 4 0 = 1 ∧
      data.getD 5 0 = type ∧ data.getD 6 0 = mode)
      (Thrown.invalidArgument "invalid object header/type/mode")
    let size := readU32 data 8
    ensure (size = data.length - 12) (Thrown.invalidArgument "invalid object length")
    return (ofBytes ((data.drop 12).take size) : Nat)

/-! ## Writing -/

/-- The string of a positive number: its header, its size and its digits. -/
def canonicalBytes (mode : UInt8) (digits : Bytes) : Bytes :=
  ascii "SOCI" ++ [1, 1, mode, 0] ++ writeU32 digits.length ++ digits

theorem encode_positive (mode : UInt8) {z : Int} (hz : 0 < z) :
    encodeCanonicalCiphertext mode z = .ok (canonicalBytes mode (magnitude z.natAbs)) := by
  have hnat : 0 < z.natAbs := Int.natAbs_pos.2 hz.ne'
  have hexport : mpzExport z.natAbs = magnitude z.natAbs := if_neg hnat.ne'
  have hsize := exportedSize_pos z.natAbs
  unfold encodeCanonicalCiphertext
  dsimp only
  rw [if_pos hsize.ne', hexport, canonicalBytes, length_magnitude]
  exact bind_eq_ok.2 ⟨(), ensure_eq_ok.2 rfl, rfl⟩

/-- GMP counts one bit for zero and writes no byte. -/
theorem encode_zero (mode : UInt8) :
    encodeCanonicalCiphertext mode 0 = .error (Thrown.other "ciphertext export failed") :=
  rfl

/-! ## Reading -/

/-- A string is accepted exactly when it is canonical. -/
theorem decode_eq_ok {data : Bytes} {mode : UInt8} {z : Int} :
    decodeCanonicalCiphertext data mode = .ok z ↔
      ∃ b bytes, b ≠ 0 ∧ (b :: bytes).length < 2 ^ 32 ∧ data = canonicalBytes mode (b :: bytes) ∧
        z = (ofBytes (b :: bytes) : Nat) := by
  constructor
  · intro h
    rcases bind_eq_ok.1 h with ⟨_, hheader, h⟩
    rcases bind_eq_ok.1 h with ⟨_, hlength, h⟩
    rcases bind_eq_ok.1 h with ⟨_, hfirst, h⟩
    rw [ensure_eq_ok] at hheader hlength hfirst
    rcases hheader with ⟨hlen, hmagic, h4, h5, h6, h7⟩
    -- the twelve bytes of the header, and what follows
    rcases data with _ | ⟨a0, _ | ⟨a1, _ | ⟨a2, _ | ⟨a3, _ | ⟨a4, _ | ⟨a5, _ | ⟨a6, _ | ⟨a7,
      _ | ⟨a8, _ | ⟨a9, _ | ⟨a10, _ | ⟨a11, digits⟩⟩⟩⟩⟩⟩⟩⟩⟩⟩⟩⟩ <;>
      try (simp at hlen; done)
    have hread : readU32 (a0 :: a1 :: a2 :: a3 :: a4 :: a5 :: a6 :: a7 :: a8 :: a9 :: a10 :: a11 ::
        digits) 8 = ofBytes [a8, a9, a10, a11] := rfl
    have hsize : ofBytes [a8, a9, a10, a11] = digits.length := by simpa [hread] using hlength
    have hsmall : digits.length < 2 ^ 32 := by
      have hlt := ofBytes_lt [a8, a9, a10, a11]
      rw [hsize] at hlt
      exact lt_of_lt_of_eq hlt (by norm_num)
    cases digits with
    | nil => exact absurd hsize (by simpa [hread] using hfirst.1)
    | cons b bytes =>
        have hfield : writeU32 (b :: bytes).length = [a8, a9, a10, a11] := by
          rw [← hsize]
          exact toBytes_ofBytes [a8, a9, a10, a11]
        refine ⟨b, bytes, by simpa using hfirst.2, hsmall, ?_, ?_⟩
        · simp only [List.getD_cons_succ, List.getD_cons_zero] at h4 h5 h6 h7
          have hmagic' : [a0, a1, a2, a3] = ascii "SOCI" := hmagic
          rw [canonicalBytes, hfield, ← hmagic', h4, h5, h6, h7]
          rfl
        · cases h
          rw [hread, hsize]
          simp
  · rintro ⟨b, bytes, hb, hlen, rfl, rfl⟩
    have hshape : ∃ a8 a9 a10 a11, writeU32 (b :: bytes).length = [a8, a9, a10, a11] := by
      exact ⟨_, _, _, _, rfl⟩
    have hvalue : ofBytes (writeU32 (b :: bytes).length) = (b :: bytes).length :=
      ofBytes_toBytes_of_lt hlen
    rcases hshape with ⟨a8, a9, a10, a11, hshape⟩
    have hdata : canonicalBytes mode (b :: bytes) =
        83 :: 79 :: 67 :: 73 :: 1 :: 1 :: mode :: 0 :: a8 :: a9 :: a10 :: a11 :: b :: bytes := by
      rw [canonicalBytes, hshape]
      rfl
    have hread : readU32 (canonicalBytes mode (b :: bytes)) 8 = (b :: bytes).length := by
      rw [hdata, ← hvalue, hshape]
      rfl
    refine bind_eq_ok.2 ⟨(), ensure_eq_ok.2 ?_, ?_⟩
    · rw [hdata]
      exact ⟨by simp, rfl, rfl, rfl, rfl, rfl⟩
    refine bind_eq_ok.2 ⟨(), ensure_eq_ok.2 ?_, ?_⟩
    · rw [hread, hdata]
      rfl
    refine bind_eq_ok.2 ⟨(), ensure_eq_ok.2 ?_, ?_⟩
    · rw [hread, hdata]
      exact ⟨by simp, hb⟩
    rw [hread, hdata]
    simp
    rfl

theorem decode_canonicalBytes (mode : UInt8) {z : Int} (hz : 0 < z)
    (hsize : exportedSize z.natAbs < 2 ^ 32) :
    decodeCanonicalCiphertext (canonicalBytes mode (magnitude z.natAbs)) mode = .ok z := by
  rcases magnitude_cons (Int.natAbs_pos.2 hz.ne') with ⟨b, bytes, hdigits, hb⟩
  rw [← length_magnitude, hdigits] at hsize
  refine decode_eq_ok.2 ⟨b, bytes, hb, hsize, by rw [hdigits], ?_⟩
  rw [← hdigits, ofBytes_magnitude]
  omega

/-- The reader and the writer are inverse between the positive numbers whose size fits and the
accepted strings; a string is accepted under one mode, and zero has none. -/
theorem canonical_inverse (mode : UInt8) :
    (∀ z : Int, 0 < z → exportedSize z.natAbs < 2 ^ 32 →
      ∃ data, encodeCanonicalCiphertext mode z = .ok data ∧
        decodeCanonicalCiphertext data mode = .ok z) ∧
    (∀ data z, decodeCanonicalCiphertext data mode = .ok z →
      0 < z ∧ exportedSize z.natAbs < 2 ^ 32 ∧ encodeCanonicalCiphertext mode z = .ok data) ∧
    (∀ mode' data z z', decodeCanonicalCiphertext data mode = .ok z →
      decodeCanonicalCiphertext data mode' = .ok z' → mode' = mode) ∧
    ∃ thrown, encodeCanonicalCiphertext mode 0 = .error thrown := by
  refine ⟨fun z hz hsize => ?_, fun data z h => ?_, fun mode' data z z' h h' => ?_,
    ⟨_, encode_zero mode⟩⟩
  · exact ⟨_, encode_positive mode hz, decode_canonicalBytes mode hz hsize⟩
  · rcases decode_eq_ok.1 h with ⟨b, bytes, hb, hsize, rfl, rfl⟩
    have hdigits := magnitude_ofBytes bytes hb
    have hpos : 0 < ofBytes (b :: bytes) := by
      rcases Nat.eq_zero_or_pos (ofBytes (b :: bytes)) with hzero | hpos
      · rw [hzero] at hdigits
        exact absurd (List.head_eq_of_cons_eq hdigits).symm hb
      · exact hpos
    have hz : (0 : Int) < (ofBytes (b :: bytes) : Nat) := by exact_mod_cast hpos
    refine ⟨hz, ?_, ?_⟩
    · rw [Int.natAbs_natCast, ← length_magnitude, hdigits]
      exact hsize
    · rw [encode_positive mode hz, Int.natAbs_natCast, hdigits]
  · rcases decode_eq_ok.1 h with ⟨b, bytes, _, _, hdata, _⟩
    rcases decode_eq_ok.1 h' with ⟨b', bytes', _, _, hdata', _⟩
    have hbyte := congrArg (fun l : Bytes => l.getD 6 0) (hdata'.symm.trans hdata)
    exact hbyte

/-- A number of two bytes in mode 1, its string read back, and a string without digits. -/
theorem canonical_inverse_256 :
    (∃ data, encodeCanonicalCiphertext 1 256 = .ok data ∧
      decodeCanonicalCiphertext data 1 = .ok 256) ∧
    (0 < (256 : Int) ∧ exportedSize (256 : Int).natAbs < 2 ^ 32 ∧
      encodeCanonicalCiphertext 1 256 = .ok [83, 79, 67, 73, 1, 1, 1, 0, 0, 0, 0, 2, 1, 0]) :=
  ⟨(canonical_inverse 1).1 256 (by decide) (by decide),
    (canonical_inverse 1).2.1 [83, 79, 67, 73, 1, 1, 1, 0, 0, 0, 0, 2, 1, 0] 256 (by decide)⟩

/-- A ciphertext of an admissible size that `encode_object` wrote is read by `decode_object`. -/
theorem decodeObject_encodeObject {mode : UInt8} {z : Int} (hz : 0 < z)
    (hsize : 12 + exportedSize z.natAbs ≤ kMaxObject) :
    ∃ data, encodeObject ciphertextType mode z = .ok data ∧
      decodeObject data ciphertextType mode = .ok z := by
  have hlen : (canonicalBytes mode (magnitude z.natAbs)).length = 12 + exportedSize z.natAbs := by
    simp [canonicalBytes, ascii]
    omega
  refine ⟨_, encode_positive mode hz, ?_⟩
  refine bind_eq_ok.2 ⟨(), ensure_eq_ok.2 (by omega), decode_canonicalBytes mode hz ?_⟩
  unfold kMaxObject at hsize
  omega

end Runtime
end SociSgx

import SociSgx.Basic
import SociSgx.Lib.BigEndian
import SociSgx.Lib.OffsetCodec
import SociSgx.Protocol.Paillier

/-!
# Wire — integers in messages

The host appends to a vector and throws; the enclave writes into a buffer of a given capacity and
returns `false`.  Both write the size of the magnitude in four bytes and then the magnitude, most
significant byte first, and each has its own function that reads it back.
-/

namespace SociSgx
namespace Protocol

open Exec BigEndian OffsetCodec

/-! ## The pieces -/

def uint32Max : Nat := 2 ^ 32 - 1

/-- `SIZE_MAX` -/
def sizeMax : Nat := 2 ^ 64 - 1

/-- `writeU32` of the host and `put32` of the enclave: the higher bits are lost. -/
def writeU32 (value : Nat) : Bytes :=
  toBytes 4 value

/-- `readU32` of the host and `be32` of the enclave. -/
def readU32 (bytes : Bytes) (offset : Nat) : Nat :=
  ofBytes ((bytes.drop offset).take 4)

/-- `exported_size`: zero is taken to have one byte. -/
def exportedSize (z : Nat) : Nat :=
  (sizeInBase2 z + 7) / 8

/-- What `mpz_export` writes: nothing for zero. -/
def mpzExport (z : Nat) : Bytes :=
  if z = 0 then [] else magnitude z

/-! ## The host -/

/-- The vector is resized first, so a byte that `mpz_export` does not write is zero. -/
def appendInteger (output : Bytes) (value : Nat) : Except Error Bytes := do
  let size := exportedSize value
  ensure (size ≠ 0 ∧ size ≤ uint32Max ∧ output.length ≤ sizeMax - 4 - size)
    (Error.backend "integer too large")
  let written := mpzExport value
  return output ++ writeU32 size ++ written ++ List.replicate (size - written.length) 0

def takeInteger (input : Bytes) (offset : Nat) : Except Error (Nat × Nat) := do
  ensure (offset + 4 ≤ input.length) (Error.backend "short integer")
  let size := readU32 input offset
  let offset := offset + 4
  ensure (size ≠ 0 ∧ size ≤ input.length - offset) (Error.backend "bad integer")
  return (ofBytes ((input.drop offset).take size), offset + size)

/-- The integers of a message, one after the other. -/
def appendIntegers (output : Bytes) (values : List Nat) : Except Error Bytes :=
  values.foldlM appendInteger output

/-- The loop of `runThresholdCsp` over the rest of a request. -/
def takeIntegers (request : Bytes) (fuel offset : Nat) : Option (Except Error (List Nat)) :=
  readAll takeInteger request fuel offset

/-! ## The enclave -/

/-- `bytes` copied into a buffer. -/
def overwrite (out : Bytes) (pos : Nat) (bytes : Bytes) : Bytes :=
  out.take pos ++ bytes ++ out.drop (pos + bytes.length)

/-- `export_at` into a buffer of `out.length` bytes; `false` is the error. -/
def exportAt (out : Bytes) (pos z : Nat) : Except Unit (Bytes × Nat) := do
  let len := exportedSize z
  ensure (pos + 4 + len ≤ out.length) ()
  let out := overwrite out pos (writeU32 len)
  let pos := pos + 4
  let wrote := mpzExport z
  let wrote := if wrote.length = 0 ∧ z = 0 then [0] else wrote
  ensure (wrote.length = len) ()
  return (overwrite out pos wrote, pos + wrote.length)

/-- `import_at`; `false` is the error. -/
def importAt (input : Bytes) (pos : Nat) : Except Unit (Nat × Nat) := do
  ensure (pos ≤ input.length ∧ 4 ≤ input.length - pos) ()
  let len := readU32 input pos
  let pos := pos + 4
  ensure (len ≠ 0 ∧ len ≤ input.length - pos) ()
  return (ofBytes ((input.drop pos).take len), pos + len)

/-- A chain of `export_at` on one buffer. -/
def exportIntegers (out : Bytes) (pos : Nat) (values : List Nat) : Except Unit (Bytes × Nat) :=
  values.foldlM (fun at' z => exportAt at'.1 at'.2 z) (out, pos)

/-! ## The format -/

/-- What both encoders write for an integer. -/
def integerBytes (z : Nat) : Bytes :=
  writeU32 (exportedSize z) ++ magnitude z

/-- The integers whose size fits into its field. -/
def Writable (z : Nat) : Prop :=
  exportedSize z < 2 ^ 32

instance (z : Nat) : Decidable (Writable z) :=
  inferInstanceAs (Decidable (exportedSize z < 2 ^ 32))

@[simp]
theorem length_writeU32 (value : Nat) : (writeU32 value).length = 4 :=
  length_toBytes 4 value

@[simp]
theorem length_magnitude (z : Nat) : (magnitude z).length = exportedSize z :=
  length_toBytes _ z

theorem exportedSize_pos (z : Nat) : 0 < exportedSize z := by
  rw [← length_magnitude]
  exact length_magnitude_pos z

@[simp]
theorem length_integerBytes (z : Nat) : (integerBytes z).length = 4 + exportedSize z := by
  rw [integerBytes, List.length_append, length_writeU32, length_magnitude]

/-- Zero is the one integer that `mpz_export` leaves out; its byte is a zero byte. -/
theorem mpzExport_padded (z : Nat) :
    mpzExport z ++ List.replicate (exportedSize z - (mpzExport z).length) 0 = magnitude z := by
  unfold mpzExport
  split
  · rename_i hz
    subst hz
    rfl
  · rw [length_magnitude, Nat.sub_self, List.replicate_zero, List.append_nil]

theorem mpzExport_patched (z : Nat) :
    (if (mpzExport z).length = 0 ∧ z = 0 then [0] else mpzExport z) = magnitude z := by
  unfold mpzExport
  rcases Nat.eq_zero_or_pos z with rfl | hpos
  · rfl
  · rw [if_neg (fun h => absurd h.2 hpos.ne'), if_neg hpos.ne']

theorem exportedSize_mono {a b : Nat} (h : a ≤ b) : exportedSize a ≤ exportedSize b := by
  have hlt : a < 256 ^ exportedSize b := Nat.lt_of_le_of_lt h (lt_magnitude b)
  have hle := length_magnitude_le (exportedSize_pos b) hlt
  rwa [length_magnitude] at hle

theorem exportedSize_square_le {n k : Nat} (hk : 0 < k) (h : sizeInBase2 n ≤ 8 * k) :
    exportedSize (n * n) ≤ 2 * k := by
  have hn : n < 2 ^ (8 * k) := by
    have hlt : n < 2 ^ (n.log2 + 1) := Nat.lt_log2_self
    exact lt_of_lt_of_le hlt (Nat.pow_le_pow_right (by decide) h)
  have hnsq : n * n < 256 ^ (2 * k) := by
    calc
      n * n < 2 ^ (8 * k) * 2 ^ (8 * k) := Nat.mul_self_lt_mul_self hn
      _ = 256 ^ k * 256 ^ k := by rw [pow_mul, show 2 ^ 8 = 256 from rfl]
      _ = 256 ^ (2 * k) := by rw [two_mul, pow_add]
  have hle := length_magnitude_le (Nat.mul_pos two_pos hk) hnsq
  rwa [length_magnitude] at hle

/-- The numbers of a key of at most 8192 bits. -/
theorem exportedSize_square {n : Nat} (h : sizeInBase2 n ≤ 8192) : exportedSize (n * n) ≤ 2048 :=
  exportedSize_square_le (by decide : 0 < 1024) h

theorem appendInteger_eq (output : Bytes) {z : Nat} (hz : Writable z)
    (hroom : output.length + (integerBytes z).length ≤ sizeMax) :
    appendInteger output z = .ok (output ++ integerBytes z) := by
  have hpos := exportedSize_pos z
  have hsize : exportedSize z ≤ uint32Max := by
    unfold Writable at hz
    unfold uint32Max
    omega
  rw [length_integerBytes] at hroom
  refine bind_eq_ok.2 ⟨(), ensure_eq_ok.2 ⟨by omega, hsize, by omega⟩, ?_⟩
  dsimp only
  rw [List.append_assoc, mpzExport_padded, List.append_assoc]
  rfl

/-- Reading the size that stands at an offset. -/
theorem readU32_writeU32 {n : Nat} (hn : n < 2 ^ 32) (before after : Bytes) :
    readU32 (before ++ (writeU32 n ++ after)) before.length = n := by
  unfold readU32
  rw [List.drop_left, List.take_left' (length_writeU32 n)]
  exact ofBytes_toBytes_of_lt hn

theorem takeInteger_readsBack : ReadsBack takeInteger integerBytes Writable := by
  intro z hz before after
  have hlen : (before ++ (integerBytes z ++ after)).length =
      before.length + (4 + exportedSize z) + after.length := by
    rw [List.length_append, List.length_append, length_integerBytes]
    omega
  have hsize : readU32 (before ++ (integerBytes z ++ after)) before.length = exportedSize z := by
    rw [integerBytes, List.append_assoc]
    exact readU32_writeU32 hz _ _
  have hdigits : (before ++ (integerBytes z ++ after)).drop (before.length + 4) =
      magnitude z ++ after := by
    rw [List.drop_append, integerBytes, List.append_assoc]
    simp
  have hpos := exportedSize_pos z
  refine bind_eq_ok.2 ⟨(), ensure_eq_ok.2 (by omega), ?_⟩
  refine bind_eq_ok.2 ⟨(), ensure_eq_ok.2 ⟨by omega, by omega⟩, ?_⟩
  rw [hsize, hdigits, List.take_left' (length_magnitude z), ofBytes_magnitude, length_integerBytes,
    Nat.add_assoc]
  rfl

/-- What an item that was read looked like. -/
theorem takeInteger_eq_ok {input : Bytes} {offset z offset' : Nat} :
    takeInteger input offset = .ok (z, offset') ↔
      offset + 4 ≤ input.length ∧ readU32 input offset ≠ 0 ∧
        readU32 input offset ≤ input.length - (offset + 4) ∧
        z = ofBytes ((input.drop (offset + 4)).take (readU32 input offset)) ∧
        offset' = offset + 4 + readU32 input offset := by
  constructor
  · intro h
    rcases bind_eq_ok.1 h with ⟨_, hshort, h⟩
    rcases bind_eq_ok.1 h with ⟨_, hbad, h⟩
    rw [ensure_eq_ok] at hshort hbad
    cases h
    exact ⟨hshort, hbad.1, hbad.2, rfl, rfl⟩
  · rintro ⟨hshort, hzero, hbad, rfl, rfl⟩
    refine bind_eq_ok.2 ⟨(), ensure_eq_ok.2 hshort, ?_⟩
    exact bind_eq_ok.2 ⟨(), ensure_eq_ok.2 ⟨hzero, hbad⟩, rfl⟩

theorem takeInteger_advances : Advances takeInteger := by
  intro input offset z offset' _ h
  rcases takeInteger_eq_ok.1 h with ⟨hshort, hzero, hbad, _, rfl⟩
  omega

/-- The two decoders accept the same items and read the same numbers. -/
theorem importAt_eq_takeInteger (input : Bytes) (offset : Nat) :
    importAt input offset = (takeInteger input offset).mapError fun _ => () := by
  have hguard : (offset ≤ input.length ∧ 4 ≤ input.length - offset) ↔
      offset + 4 ≤ input.length := by omega
  unfold importAt takeInteger ensure
  by_cases hshort : offset + 4 ≤ input.length
  · rw [if_pos (hguard.2 hshort), if_pos hshort]
    by_cases hbad : readU32 input offset ≠ 0 ∧
        readU32 input offset ≤ input.length - (offset + 4)
    · simp only [if_pos hbad]
      rfl
    · simp only [if_neg hbad]
      rfl
  · rw [if_neg (fun h => hshort (hguard.1 h)), if_neg hshort]
    rfl

theorem importAt_eq_ok {input : Bytes} {offset z offset' : Nat} :
    importAt input offset = .ok (z, offset') ↔ takeInteger input offset = .ok (z, offset') := by
  rw [importAt_eq_takeInteger]
  cases takeInteger input offset <;> simp [Except.mapError]

theorem importAt_readsBack : ReadsBack importAt integerBytes Writable :=
  fun z hz before after => importAt_eq_ok.2 (takeInteger_readsBack z hz before after)

theorem importAt_advances : Advances importAt :=
  fun input offset z offset' hoffset h =>
    takeInteger_advances input offset z offset' hoffset (importAt_eq_ok.1 h)

/-! ## Buffers -/

section Overwrite

variable {out bytes : Bytes} {pos : Nat}

theorem length_overwrite (h : pos + bytes.length ≤ out.length) :
    (overwrite out pos bytes).length = out.length := by
  simp only [overwrite, List.length_append, List.length_take, List.length_drop]
  omega

/-- Up to the end of what was copied. -/
theorem take_overwrite (out bytes : Bytes) (pos : Nat) (h : pos + bytes.length ≤ out.length) :
    (overwrite out pos bytes).take (pos + bytes.length) = out.take pos ++ bytes := by
  rw [overwrite]
  refine List.take_left' ?_
  rw [List.length_append, List.length_take]
  omega

/-- A header written over the front of a buffer whose data end at `size`. -/
theorem take_overwrite_front (out bytes data : Bytes) (front : Bytes)
    (hfront : front.length = bytes.length)
    (h : out.take (bytes.length + data.length) = front ++ data) :
    (overwrite out 0 bytes).take (bytes.length + data.length) = bytes ++ data := by
  have hdata : (out.drop bytes.length).take data.length = data := by
    have hdrop := congrArg (List.drop bytes.length) h
    rw [List.drop_take, Nat.add_sub_cancel_left, List.drop_left' hfront] at hdrop
    exact hdrop
  rw [overwrite, List.take_zero, List.nil_append, Nat.zero_add, List.take_length_add_append, hdata]

end Overwrite

/-- With room in the buffer the item is written behind what stands there. -/
theorem exportAt_spec (out : Bytes) (pos z : Nat)
    (hroom : pos + (integerBytes z).length ≤ out.length) :
    ∃ out', exportAt out pos z = .ok (out', pos + (integerBytes z).length) ∧
      out'.length = out.length ∧
      out'.take (pos + (integerBytes z).length) = out.take pos ++ integerBytes z := by
  rw [length_integerBytes] at hroom ⊢
  have hsize : (writeU32 (exportedSize z)).length = 4 := length_writeU32 _
  let sized := overwrite out pos (writeU32 (exportedSize z))
  have hsized : sized.length = out.length := length_overwrite (by omega)
  have htake : sized.take (pos + 4) = out.take pos ++ writeU32 (exportedSize z) := by
    have h := take_overwrite out (writeU32 (exportedSize z)) pos (by omega)
    rwa [hsize] at h
  have hdigits : (pos + 4) + (magnitude z).length ≤ sized.length := by
    rw [length_magnitude]
    omega
  refine ⟨overwrite sized (pos + 4) (magnitude z), ?_, ?_, ?_⟩
  · refine bind_eq_ok.2 ⟨(), ensure_eq_ok.2 (by omega), ?_⟩
    dsimp only
    rw [mpzExport_patched]
    refine bind_eq_ok.2 ⟨(), ensure_eq_ok.2 (length_magnitude z), ?_⟩
    rw [length_magnitude, Nat.add_assoc]
    rfl
  · rw [length_overwrite hdigits, hsized]
  · have h := take_overwrite _ _ _ hdigits
    rw [length_magnitude, Nat.add_assoc, htake] at h
    rw [h, integerBytes, List.append_assoc]

/-! ## Lists of integers -/

theorem appendIntegers_eq : ∀ (zs : List Nat) (output : Bytes), (∀ z ∈ zs, Writable z) →
    output.length + (zs.flatMap integerBytes).length ≤ sizeMax →
      appendIntegers output zs = .ok (output ++ zs.flatMap integerBytes) := by
  intro zs
  induction zs with
  | nil =>
      intro output _ _
      rw [List.flatMap_nil, List.append_nil]
      rfl
  | cons z zs ih =>
      intro output hzs hroom
      rw [List.flatMap_cons, List.length_append] at hroom
      have hfirst := appendInteger_eq output (hzs z (by simp)) (by omega)
      have hrest := ih (output ++ integerBytes z) (fun w hw => hzs w (by simp [hw]))
        (by rw [List.length_append]; omega)
      rw [List.append_assoc] at hrest
      rw [List.flatMap_cons, appendIntegers, List.foldlM_cons]
      exact bind_eq_ok.2 ⟨_, hfirst, hrest⟩

theorem exportIntegers_spec : ∀ (zs : List Nat) (out : Bytes) (pos : Nat),
    pos + (zs.flatMap integerBytes).length ≤ out.length →
      ∃ out', exportIntegers out pos zs = .ok (out', pos + (zs.flatMap integerBytes).length) ∧
        out'.length = out.length ∧
        out'.take (pos + (zs.flatMap integerBytes).length) =
          out.take pos ++ zs.flatMap integerBytes := by
  intro zs
  induction zs with
  | nil =>
      intro out pos _
      exact ⟨out, rfl, rfl, by simp⟩
  | cons z zs ih =>
      intro out pos hroom
      rw [List.flatMap_cons, List.length_append] at hroom ⊢
      rcases exportAt_spec out pos z (by omega) with
        ⟨mid, hmid, hlen, htake⟩
      rcases ih mid (pos + (integerBytes z).length) (by omega) with
        ⟨out', hout, hlen', htake'⟩
      rw [htake, List.append_assoc, Nat.add_assoc] at htake'
      refine ⟨out', ?_, hlen'.trans hlen, htake'⟩
      rw [exportIntegers, List.foldlM_cons, ← Nat.add_assoc]
      exact bind_eq_ok.2 ⟨_, hmid, hout⟩

/-- Both decoders and the loop of the CSP find these integers from an offset to the end. -/
structure FoundBy (buffer : Bytes) (offset : Nat) (zs : List Nat) : Prop where
  host : readMany takeInteger zs.length buffer offset = .ok (zs, buffer.length)
  enclave : readMany importAt zs.length buffer offset = .ok (zs, buffer.length)
  loop : takeIntegers buffer (buffer.length + 1) offset = some (.ok zs)

theorem found_append {zs : List Nat} (hzs : ∀ z ∈ zs, Writable z) (before : Bytes) :
    FoundBy (before ++ zs.flatMap integerBytes) before.length zs := by
  have hhost := readMany_readsBack takeInteger_readsBack zs before [] hzs
  have henclave := readMany_readsBack importAt_readsBack zs before [] hzs
  rw [List.append_nil, ← List.length_append] at hhost henclave
  refine ⟨hhost, henclave, ?_⟩
  refine readAll_readsBack takeInteger_readsBack takeInteger_advances zs before _ hzs ?_
  have hcount : zs.length ≤ (zs.flatMap integerBytes).length := by
    rw [List.length_flatMap]
    have hone : ∀ z ∈ zs, 1 ≤ (integerBytes z).length := fun z _ => by
      rw [length_integerBytes]
      omega
    simpa using List.card_nsmul_le_sum (zs.map fun z => (integerBytes z).length) 1
      (by simpa using hone)
  rw [List.length_append]
  omega

/-- What either encoder appends, either decoder reads back to the last byte; and no decoder leaves
the buffer or stands still, so the loop over a request ends. -/
theorem decoders_invert_encoders :
    (∀ (zs : List Nat) (before : Bytes), (∀ z ∈ zs, Writable z) →
      before.length + (zs.map fun z => 4 + exportedSize z).sum ≤ sizeMax →
        ∃ buffer, appendIntegers before zs = .ok buffer ∧
          buffer.take before.length = before ∧ FoundBy buffer before.length zs) ∧
    (∀ (zs : List Nat) (out : Bytes) (pos : Nat), (∀ z ∈ zs, Writable z) →
      pos + (zs.map fun z => 4 + exportedSize z).sum ≤ out.length →
        ∃ out' pos', exportIntegers out pos zs = .ok (out', pos') ∧ out'.length = out.length ∧
          out'.take pos = out.take pos ∧ FoundBy (out'.take pos') pos zs) ∧
    (∀ (input : Bytes) (offset : Nat), offset ≤ input.length →
      (∀ z offset', takeInteger input offset = .ok (z, offset') →
        offset < offset' ∧ offset' ≤ input.length) ∧
      (∀ z offset', importAt input offset = .ok (z, offset') →
        offset < offset' ∧ offset' ≤ input.length) ∧
      ∃ outcome, takeIntegers input (input.length + 1) offset = some outcome) := by
  have hsum : ∀ zs : List Nat,
      (zs.flatMap integerBytes).length = (zs.map fun z => 4 + exportedSize z).sum := by
    intro zs
    simp only [List.length_flatMap, length_integerBytes]
  refine ⟨fun zs before hzs hroom => ?_, fun zs out pos hzs hroom => ?_,
    fun input offset hoffset => ⟨?_, ?_, ?_⟩⟩
  · rw [← hsum] at hroom
    exact ⟨_, appendIntegers_eq zs before hzs hroom, List.take_left, found_append hzs before⟩
  · rw [← hsum] at hroom
    rcases exportIntegers_spec zs out pos hroom with ⟨out', hout, hlen, htake⟩
    have hpos : (out.take pos).length = pos := by
      rw [List.length_take]
      omega
    have hfound := found_append hzs (out.take pos)
    rw [hpos, ← htake] at hfound
    refine ⟨out', _, hout, hlen, ?_, hfound⟩
    -- What was in front of the position is left as it was.
    have hshort := congrArg (List.take pos) htake
    rwa [List.take_take, Nat.min_eq_left (by omega), List.take_left' hpos] at hshort
  · exact fun z offset' h => takeInteger_advances input offset z offset' hoffset h
  · exact fun z offset' h => importAt_advances input offset z offset' hoffset h
  · exact readAll_terminates takeInteger_advances input _ offset hoffset (by omega)

/-- Zero, one byte and two bytes behind a byte. -/
theorem decoders_invert_encoders_threeIntegers :
    (∃ buffer, appendIntegers [7] [0, 255, 256] = .ok buffer ∧ buffer.take 1 = [7] ∧
      FoundBy buffer 1 [0, 255, 256]) ∧
    (∃ out' pos', exportIntegers [7, 0, 0, 0, 0, 0, 0, 0, 0, 0, 0, 0, 0, 0, 0, 0, 0] 1
        [0, 255, 256] = .ok (out', pos') ∧ out'.length = 17 ∧ out'.take 1 = [7] ∧
      FoundBy (out'.take pos') 1 [0, 255, 256]) := by
  have hwritable : ∀ z ∈ [0, 255, 256], Writable z := by decide
  exact ⟨decoders_invert_encoders.1 [0, 255, 256] [7] hwritable (by decide),
    decoders_invert_encoders.2.1 [0, 255, 256] _ 1 hwritable (by decide)⟩

end Protocol
end SociSgx

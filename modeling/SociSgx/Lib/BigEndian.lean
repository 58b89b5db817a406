import Mathlib

/-!
# BigEndian — numbers as byte strings

`toBytes k n` writes the last `k` base-256 digits of `n`, most significant first; `magnitude n`
writes as many as `n` needs, and one for zero.
-/

namespace SociSgx
namespace BigEndian

def ofBytes (bytes : List UInt8) : Nat :=
  bytes.foldl (fun value b => value * 256 + b.toNat) 0

def toBytes : Nat → Nat → List UInt8
  | 0, _ => []
  | k + 1, n => toBytes k (n / 256) ++ [UInt8.ofNat n]

def magnitude (n : Nat) : List UInt8 :=
  toBytes ((n.log2 + 1 + 7) / 8) n

@[simp]
theorem length_toBytes (k n : Nat) : (toBytes k n).length = k := by
  induction k generalizing n with
  | zero => rfl
  | succ k ih => simp [toBytes, ih]

@[simp]
theorem ofBytes_nil : ofBytes [] = 0 :=
  rfl

@[simp]
theorem ofBytes_concat (bytes : List UInt8) (b : UInt8) :
    ofBytes (bytes ++ [b]) = ofBytes bytes * 256 + b.toNat := by
  simp [ofBytes]

theorem ofBytes_lt (bytes : List UInt8) : ofBytes bytes < 256 ^ bytes.length := by
  induction bytes using List.reverseRecOn with
  | nil => simp
  | append_singleton bytes b ih =>
      have hb := b.toNat_lt
      rw [ofBytes_concat, List.length_append, List.length_singleton, pow_succ]
      omega

/-- Reading back gives the digits that were written. -/
theorem ofBytes_toBytes (k : Nat) : ∀ n, ofBytes (toBytes k n) = n % 256 ^ k := by
  induction k with
  | zero => intro n; simp [toBytes, Nat.mod_one]
  | succ k ih =>
      intro n
      have hlast : (UInt8.ofNat n).toNat = n % 256 := UInt8.toNat_ofNat'
      rw [toBytes, ofBytes_concat, ih, hlast, pow_succ, mul_comm (256 ^ k) 256, Nat.mod_mul]
      ring

theorem ofBytes_toBytes_of_lt {k n : Nat} (h : n < 256 ^ k) : ofBytes (toBytes k n) = n := by
  rw [ofBytes_toBytes, Nat.mod_eq_of_lt h]

theorem lt_magnitude (n : Nat) : n < 256 ^ ((n.log2 + 1 + 7) / 8) := by
  calc
    n < 2 ^ (n.log2 + 1) := Nat.lt_log2_self
    _ ≤ 2 ^ (8 * ((n.log2 + 1 + 7) / 8)) := Nat.pow_le_pow_right (by decide) (by omega)
    _ = 256 ^ ((n.log2 + 1 + 7) / 8) := by rw [pow_mul]; rfl

@[simp]
theorem ofBytes_magnitude (n : Nat) : ofBytes (magnitude n) = n :=
  ofBytes_toBytes_of_lt (lt_magnitude n)

theorem length_magnitude_pos (n : Nat) : 0 < (magnitude n).length := by
  rw [magnitude, length_toBytes]
  omega

/-- A number below `256 ^ k` needs at most `k` bytes, and one for zero. -/
theorem length_magnitude_le {n k : Nat} (hk : 0 < k) (h : n < 256 ^ k) :
    (magnitude n).length ≤ k := by
  rw [magnitude, length_toBytes]
  have hpow : (256 : Nat) ^ k = 2 ^ (8 * k) := by rw [pow_mul]; rfl
  rw [hpow] at h
  rcases Nat.eq_zero_or_pos n with rfl | hpos
  · simp only [Nat.log2_zero]
    omega
  · have hlog : n.log2 < 8 * k := (Nat.log2_lt hpos.ne').2 h
    omega

/-! ## Canonical strings -/

theorem ofBytes_cons (b : UInt8) (bytes : List UInt8) :
    ofBytes (b :: bytes) = b.toNat * 256 ^ bytes.length + ofBytes bytes := by
  induction bytes using List.reverseRecOn with
  | nil => simp [ofBytes]
  | append_singleton bytes c ih =>
      calc
        ofBytes (b :: (bytes ++ [c])) = ofBytes (b :: bytes) * 256 + c.toNat := by
          rw [← List.cons_append, ofBytes_concat]
        _ = b.toNat * 256 ^ (bytes ++ [c]).length + ofBytes (bytes ++ [c]) := by
          rw [ih, ofBytes_concat, List.length_append, List.length_singleton, pow_succ]
          ring

/-- Writing back what was read gives the digits again. -/
theorem toBytes_ofBytes (bytes : List UInt8) : toBytes bytes.length (ofBytes bytes) = bytes := by
  induction bytes using List.reverseRecOn with
  | nil => rfl
  | append_singleton bytes b ih =>
      have hb := b.toNat_lt
      have hquot : (ofBytes bytes * 256 + b.toNat) / 256 = ofBytes bytes := by omega
      have hlast : UInt8.ofNat (ofBytes bytes * 256 + b.toNat) = b := by
        apply UInt8.toNat_inj.1
        rw [UInt8.toNat_ofNat']
        omega
      rw [List.length_append, List.length_singleton, ofBytes_concat, toBytes, hquot, hlast, ih]

/-- A string without a leading zero byte is the magnitude of its number. -/
theorem magnitude_ofBytes {b : UInt8} (bytes : List UInt8) (hb : b ≠ 0) :
    magnitude (ofBytes (b :: bytes)) = b :: bytes := by
  have hpos : 1 ≤ b.toNat := by
    rcases Nat.eq_zero_or_pos b.toNat with hzero | hpos
    · exact absurd (UInt8.toNat_inj.1 hzero) hb
    · exact hpos
  have hpow : ∀ k : Nat, (256 : Nat) ^ k = 2 ^ (8 * k) := fun k => by rw [pow_mul]; rfl
  have hlow : 256 ^ bytes.length ≤ ofBytes (b :: bytes) := by
    rw [ofBytes_cons]
    calc
      256 ^ bytes.length = 1 * 256 ^ bytes.length := (Nat.one_mul _).symm
      _ ≤ b.toNat * 256 ^ bytes.length := Nat.mul_le_mul_right _ hpos
      _ ≤ _ := Nat.le_add_right _ _
  have hhigh := ofBytes_lt (b :: bytes)
  have hne : ofBytes (b :: bytes) ≠ 0 := by
    have h := Nat.pow_pos (n := bytes.length) (show 0 < 256 by decide)
    omega
  rw [hpow] at hlow hhigh
  rw [List.length_cons] at hhigh
  -- the bits of the number fill its bytes up to the first one
  have hlog : 8 * bytes.length ≤ (ofBytes (b :: bytes)).log2 := (Nat.le_log2 hne).2 hlow
  have hlog' : (ofBytes (b :: bytes)).log2 < 8 * (bytes.length + 1) := (Nat.log2_lt hne).2 hhigh
  have hsize : ((ofBytes (b :: bytes)).log2 + 1 + 7) / 8 = (b :: bytes).length := by
    rw [List.length_cons]
    omega
  rw [magnitude, hsize, toBytes_ofBytes]

/-- The first byte of a positive number is not zero. -/
theorem magnitude_cons {n : Nat} (h : 0 < n) : ∃ b bytes, magnitude n = b :: bytes ∧ b ≠ 0 := by
  have hlen := length_magnitude_pos n
  cases hdigits : magnitude n with
  | nil =>
      rw [hdigits] at hlen
      exact absurd hlen (Nat.lt_irrefl 0)
  | cons b bytes =>
      refine ⟨b, bytes, rfl, ?_⟩
      rintro rfl
      -- otherwise the rest of the bytes would be enough
      have hvalue : n = ofBytes bytes := by
        rw [← ofBytes_magnitude n, hdigits, ofBytes_cons]
        simp
      have hlt : n < 256 ^ bytes.length := hvalue ▸ ofBytes_lt bytes
      rcases Nat.eq_zero_or_pos bytes.length with hzero | hpos
      · rw [hzero, pow_zero] at hlt
        omega
      · have hle := length_magnitude_le hpos hlt
        rw [hdigits, List.length_cons] at hle
        omega

end BigEndian
end SociSgx

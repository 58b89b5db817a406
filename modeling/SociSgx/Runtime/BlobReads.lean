import SociSgx.Runtime.Objects
import SociSgx.Lib.GhostLog

/-!
# BlobReads — which bytes of a blob `load_off_key` reads

`load_off_key` walks over the blob with an offset, and compares it with the beginning of the hash
before it reads on.  Here every read of a field is written down.  The version without offsets, on
what is left of the blob, computes the same key and the same error.
-/

namespace SociSgx
namespace Runtime

open Exec BigEndian

/-- Some bytes of a blob. -/
structure Span where
  offset : Nat
  size : Nat
  deriving DecidableEq, Repr

abbrev BlobM : Type → Type :=
  EStateM Thrown (List Span)

/-- `o.size() - 32`, where the hash begins. -/
def hashOffset (o : Bytes) : Nat :=
  o.length - 32

def fieldAt (o : Bytes) (offset size : Nat) : BlobM Bytes := do
  modify fun spans => spans ++ [⟨offset, size⟩]
  return (o.drop offset).take size

/-- The lambda `take`, with the offset behind the number. -/
def takeAt (o : Bytes) (x : Nat) : BlobM (Nat × Nat) := do
  require (x + 4 ≤ hashOffset o) (Thrown.other "truncated key")
  let n ← fieldAt o x 4
  let x := x + 4
  require (x + ofBytes n ≤ hashOffset o) (Thrown.other "truncated key")
  let z ← fieldAt o x (ofBytes n)
  return (ofBytes z, x + ofBytes n)

def takeIdAt (o : Bytes) (x : Nat) : BlobM (Bytes × Nat) := do
  let il ← fieldAt o x 4
  let x := x + 4
  require (ofBytes il ≤ 64 ∧ x + ofBytes il ≤ hashOffset o) (Thrown.other "bad key id")
  let id ← fieldAt o x (ofBytes il)
  return (id, x + ofBytes il)

/-- A comparison with the head of the blob; the next one is made only if it holds. -/
def expectAt (o : Bytes) (offset : Nat) (bytes : Bytes) : BlobM PUnit := do
  let found ← fieldAt o offset bytes.length
  require (found = bytes) (Thrown.other "key format/mode/role mismatch")

/-- `load_off_key` with its reads. -/
def loadOffKeyAt (sha256 : Bytes → Digest) (o : Bytes) (mode role : UInt8) : BlobM Key := do
  require (56 ≤ o.length ∧ o.length ≤ kMaxObject) (Thrown.other "missing/truncated key blob")
  require ((sha256 (o.take (hashOffset o))).val = o.drop (hashOffset o))
    (Thrown.other "key blob integrity failure")
  -- `||` stops at the first difference, so the four comparisons are reads of their own
  expectAt o 0 (ascii "SOCK")
  expectAt o 4 [1]
  expectAt o 5 [mode]
  expectAt o 6 [role]
  let bits ← fieldAt o 8 4
  let version ← fieldAt o 12 8
  let (id, x) ← takeIdAt o 20
  let (n, x) ← takeAt o x
  let (lambda, x) ← takeAt o x
  let (mu, x) ← takeAt o x
  require (x = hashOffset o) (Thrown.other "trailing key data")
  return {
    pub := { n := n, nsq := n * n }
    sec := { lambda := lambda, mu := mu }
    info := {
      structVersion := 1
      modulusBits := UInt32.ofNat (ofBytes bits)
      keyVersion := UInt64.ofNat (ofBytes version)
      role := role
      runtimeMode := mode
      keyId := cString id } }

/-! ## The reads -/

/-- All reads lie in the hashed part. -/
def Inside (o : Bytes) (spans : List Span) : Prop :=
  ∀ span ∈ spans, span.offset + span.size ≤ hashOffset o

/-- The hashed part. -/
def hashed (o : Bytes) : Bytes :=
  o.take (hashOffset o)

variable {o : Bytes}

@[simp]
theorem length_hashed (o : Bytes) : (hashed o).length = hashOffset o := by
  rw [hashed, List.length_take, hashOffset]
  omega

/-- A field in the hashed part. -/
theorem fieldAt_spec {offset size : Nat} (h : offset + size ≤ hashOffset o) :
    Triple (Inside o) (fieldAt o offset size)
      (fun bytes spans => bytes = ((hashed o).drop offset).take size ∧ Inside o spans) Never := by
  have hbytes : (o.drop offset).take size = ((hashed o).drop offset).take size := by
    rw [hashed, List.drop_take, List.take_take, min_eq_left (by omega)]
  refine Triple.bind (Q := fun _ spans => Inside o spans) (Triple.modify fun spans hspans => ?_)
    fun _ => Triple.pure fun _ hspans => ⟨hbytes, hspans⟩
  intro span hspan
  rcases List.mem_append.1 hspan with hspan | hspan
  · exact hspans span hspan
  · rw [List.mem_singleton] at hspan
    rw [hspan]
    exact h

/-- A comparison with the head, as the version without offsets makes it. -/
theorem expectAt_mirrors {offset : Nat} {bytes : Bytes} {d : Prop} [Decidable d]
    (h : offset + bytes.length ≤ hashOffset o)
    (hd : (o.drop offset).take bytes.length = bytes ↔ d) :
    Mirrors (Inside o) (fun _ _ => d) (expectAt o offset bytes)
      (ensure d (Thrown.other "key format/mode/role mismatch")) := by
  have hbytes : (o.drop offset).take bytes.length = ((hashed o).drop offset).take bytes.length := by
    rw [hashed, List.drop_take, List.take_take, min_eq_left (by omega)]
  rw [hbytes] at hd
  refine Mirrors.step (fieldAt_spec h) (Triple.post (Mirrors.require hd) fun _ _ hs => ?_)
  exact ⟨⟨_, hs.1.choose_spec.1, hd.1 hs.1.choose_spec.2⟩, hs.2⟩

theorem byteAt_iff {i : Nat} (h : i < o.length) (b : UInt8) :
    (o.drop i).take [b].length = [b] ↔ o.getD i 0 = b := by
  rw [List.drop_eq_getElem_cons h, List.getD_eq_getElem _ _ h, List.length_singleton,
    List.take_succ_cons, List.take_zero, List.cons.injEq]
  exact and_iff_left rfl

/-- A number at `x` is the number at the front of what is left there. -/
theorem takeAt_mirrors {x : Nat} (hx : x ≤ hashOffset o) :
    Mirrors (Inside o) (fun (a : Nat × Nat) (b : Bytes × Bytes) => a.1 = ofBytes b.1 ∧
      b.2 = (hashed o).drop a.2 ∧ a.2 ≤ hashOffset o) (takeAt o x) (take ((hashed o).drop x)) := by
  have hlength : ((hashed o).drop x).length = hashOffset o - x := by simp
  unfold takeAt take
  rw [hlength]
  refine Mirrors.bind (Mirrors.require (by omega)) fun _ _ hfour => ?_
  refine Mirrors.step (fieldAt_spec hfour) ?_
  dsimp only
  generalize ofBytes (((hashed o).drop x).take 4) = n
  refine Mirrors.bind (Mirrors.require (by omega)) fun _ _ hn => ?_
  refine Mirrors.step (fieldAt_spec hn) (Mirrors.pure ⟨?_, ?_, hn⟩)
  · rw [List.drop_drop]
  · rw [List.drop_drop, List.drop_drop]

theorem takeIdAt_mirrors {x : Nat} (hx : x + 4 ≤ hashOffset o) :
    Mirrors (Inside o) (fun (a : Bytes × Nat) (b : Bytes × Bytes) => a.1 = b.1 ∧
      b.2 = (hashed o).drop a.2 ∧ a.2 ≤ hashOffset o) (takeIdAt o x)
        (takeId ((hashed o).drop x)) := by
  have hlength : ((hashed o).drop x).length = hashOffset o - x := by simp
  unfold takeIdAt takeId
  rw [hlength]
  refine Mirrors.step (fieldAt_spec hx) ?_
  dsimp only
  generalize ofBytes (((hashed o).drop x).take 4) = il
  refine Mirrors.bind (Mirrors.require (by omega)) fun _ _ hil => ?_
  refine Mirrors.step (fieldAt_spec hil.2) (Mirrors.pure ⟨?_, ?_, hil.2⟩)
  · rw [List.drop_drop]
  · rw [List.drop_drop, List.drop_drop]

/-- Under every mode and role the two versions agree, and only the hashed part is read. -/
theorem loadOffKeyAt_mirrors (sha256 : Bytes → Digest) (o : Bytes) (mode role : UInt8) :
    Mirrors (Inside o) Eq (loadOffKeyAt sha256 o mode role) (loadOffKey sha256 o mode role) := by
  refine Mirrors.bind (Mirrors.require Iff.rfl) fun _ _ hsize => ?_
  have hroom : 24 ≤ hashOffset o := by
    rw [hashOffset]
    omega
  refine Mirrors.bind (Mirrors.require Iff.rfl) fun _ _ _ => ?_
  -- The four tests of the header are four reads, one after the other.
  rw [ensure_and, ensure_and, ensure_and]
  simp only [bind_assoc]
  refine Mirrors.bind (expectAt_mirrors (le_trans (by decide) hroom) Iff.rfl) fun _ _ _ => ?_
  refine Mirrors.bind (expectAt_mirrors (le_trans (by simp) hroom) (byteAt_iff (by omega) 1))
    fun _ _ _ => ?_
  refine Mirrors.bind (expectAt_mirrors (le_trans (by simp) hroom) (byteAt_iff (by omega) mode))
    fun _ _ _ => ?_
  refine Mirrors.bind (expectAt_mirrors (le_trans (by simp) hroom) (byteAt_iff (by omega) role))
    fun _ _ _ => ?_
  refine Mirrors.step (fieldAt_spec (by omega)) (Mirrors.step (fieldAt_spec (by omega)) ?_)
  unfold takeFields
  simp only [bind_assoc, pure_bind]
  refine Mirrors.bind (takeIdAt_mirrors (by omega)) ?_
  rintro ⟨id, x⟩ ⟨idBytes, rest⟩ ⟨hid, hrest, hx⟩
  dsimp only at hid hrest hx
  subst hid hrest
  refine Mirrors.bind (takeAt_mirrors hx) ?_
  rintro ⟨n, x⟩ ⟨nBytes, rest⟩ ⟨hn, hrest, hx⟩
  dsimp only at hn hrest hx
  subst hn hrest
  refine Mirrors.bind (takeAt_mirrors hx) ?_
  rintro ⟨lambda, x⟩ ⟨lambdaBytes, rest⟩ ⟨hlambda, hrest, hx⟩
  dsimp only at hlambda hrest hx
  subst hlambda hrest
  refine Mirrors.bind (takeAt_mirrors hx) ?_
  rintro ⟨mu, x⟩ ⟨muBytes, rest⟩ ⟨hmu, hrest, hx⟩
  dsimp only at hmu hrest hx
  subst hmu hrest
  refine Mirrors.bind (Mirrors.require ?_) fun _ _ _ => Mirrors.pure rfl
  dsimp only
  rw [List.drop_eq_nil_iff, length_hashed]
  omega

/-! ## Blobs and their keys -/

/-- For every hash: the blob of a key is loaded as that key under its mode and its role, and under
no others; and no blob makes `load_off_key` read a field outside the hashed part. -/
theorem loadOffKey_exact (sha256 : Bytes → Digest) :
    (∀ k, Loadable k → ∀ mode role, loadOffKey sha256 (keyBlob sha256 k) mode role =
      if mode = k.info.runtimeMode ∧ role = k.info.role then .ok k
      else .error (.other "key format/mode/role mismatch")) ∧
    ∀ o mode role, ∃ spans,
      loadOffKeyAt sha256 o mode role [] = lift (loadOffKey sha256 o mode role) spans ∧
      ∀ span ∈ spans, span.offset + span.size ≤ o.length - 32 := by
  constructor
  · intro k hk mode role
    by_cases hsame : mode = k.info.runtimeMode ∧ role = k.info.role
    · rw [if_pos hsame, hsame.1, hsame.2]
      exact loadOffKey_blob hk
    · rw [if_neg hsame]
      exact loadOffKey_mismatch hk (not_and_or.1 hsame)
  · intro o mode role
    have hnothing : Inside o [] := fun span hspan => absurd hspan List.not_mem_nil
    rcases (loadOffKeyAt_mirrors sha256 o mode role).run hnothing with
      ⟨k, _, spans, hread, hload, rfl, hinside⟩ | ⟨e, spans, hread, hload, hinside⟩
    · exact ⟨spans, by rw [hread, hload]; rfl, hinside⟩
    · exact ⟨spans, by rw [hread, hload]; rfl, hinside⟩

/-- A small key of a store without an enclave. -/
def smallKey : Key where
  pub := { n := 35, nsq := 1225 }
  sec := { lambda := 12, mu := 3 }
  info := { structVersion := 1, modulusBits := 6, keyVersion := 2 ^ 40, keyId := ascii "k" }

theorem loadOffKey_exact_smallKey :
    loadOffKey zeroDigest (keyBlob zeroDigest smallKey) 0 0 = .ok smallKey ∧
      loadOffKey zeroDigest (keyBlob zeroDigest smallKey) 1 0 =
        .error (.other "key format/mode/role mismatch") := by
  have hsmall : Loadable smallKey := ⟨rfl, rfl, by decide, by decide⟩
  have hload := (loadOffKey_exact zeroDigest).1 smallKey hsmall
  exact ⟨(hload 0 0).trans (if_pos (by decide)), (hload 1 0).trans (if_neg (by decide))⟩

end Runtime
end SociSgx

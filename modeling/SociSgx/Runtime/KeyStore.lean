import SociSgx.Runtime.Calls
import SociSgx.Runtime.Objects

/-!
# KeyStore — the open key and the key files

A runtime keeps one key open and stores keys as `<id>.skey`, written through `<id>.skey.tmp`.  Every
file operation may fail: those of `std::filesystem` throw, those of a stream only set its state, and
nobody looks at that.
-/

namespace SociSgx
namespace Runtime

open Exec SociSgx.Modular Protocol

/-- The directory of the runtime: file names and contents. -/
abbrev Files : Type :=
  Bytes → Option Bytes

/-- The part of a `soci_runtime` that the key calls work on. -/
structure Store where
  mode : UInt8
  key : Option Key
  files : Files

def modeOff : UInt8 := 0

def roleFull : UInt8 := 0

/-! ## What the file operations do -/

/-- How the temporary file is written. -/
inductive Stream where
  /-- It is not opened. -/
  | unopened
  | complete
  /-- The last `lost + 1` bytes do not reach the file. -/
  | short (lost : Nat)
  deriving DecidableEq, Repr

/-- How a key file is read. -/
inductive Reading where
  | complete
  | unopened
  | failed (what : String)
  deriving DecidableEq, Repr

/-- The outcomes of the file operations of one call; a text is that of an exception. -/
structure Outcomes where
  directories : Option String := none
  stream : Stream := .complete
  permissions : Option String := none
  rename : Option String := none
  remove : Option String := none
  reading : Reading := .complete
  missing : String := "No such file or directory"
  deriving DecidableEq, Repr

/-- The content of the temporary file after the stream is closed. -/
def Stream.leaves (stream : Stream) (before : Option Bytes) (o : Bytes) : Option Bytes :=
  match stream with
  | .unopened => before
  | .complete => some o
  | .short lost => some (o.take (o.length - (lost + 1)))

abbrev StoreM : Type → Type :=
  EStateM Thrown Store

def raise (failure : Option String) : StoreM Unit :=
  match failure with
  | none => pure ()
  | some what => throw (.filesystemError what)

def Store.put (s : Store) (name : Bytes) (content : Option Bytes) : Store :=
  { s with files := Function.update s.files name content }

/-- `std::ofstream f(tmp)`, `f.write` and `f.close`. -/
def writeStream (outcomes : Outcomes) (tmp o : Bytes) : StoreM Unit :=
  modify fun s => s.put tmp (outcomes.stream.leaves (s.files tmp) o)

def setPermissions (outcomes : Outcomes) (tmp : Bytes) : StoreM Unit := do
  let s ← get
  require ((s.files tmp).isSome) (Thrown.filesystemError outcomes.missing)
  raise outcomes.permissions

def renameFile (outcomes : Outcomes) (tmp p : Bytes) : StoreM Unit := do
  let s ← get
  require ((s.files tmp).isSome) (Thrown.filesystemError outcomes.missing)
  raise outcomes.rename
  set ((s.put p (s.files tmp)).put tmp none)

/-- `std::filesystem::remove` -/
def removeFile (outcomes : Outcomes) (p : Bytes) : StoreM Bool := do
  let s ← get
  raise outcomes.remove
  set (s.put p none)
  return (s.files p).isSome

/-- The bytes that the stream of `load_off_key` gives. -/
def readFile (outcomes : Outcomes) (p : Bytes) : StoreM Bytes := do
  let s ← get
  match outcomes.reading with
  | .complete => return (s.files p).getD []
  | .unopened => return []
  | .failed what => throw (.other what)

/-! ## The calls -/

/-- The name of the file of a key. -/
def skeyFile (id : Bytes) : Bytes :=
  id ++ ascii ".skey"

def path (id : Bytes) : StoreM Bytes := do
  require (validId id = true) (Thrown.invalidArgument "invalid key id")
  return skeyFile id

def tmpFile (p : Bytes) : Bytes :=
  p ++ ascii ".tmp"

/-- `need`, with the key. -/
def need : StoreM Key := do
  match (← get).key with
  | none => throw (.logicError "no key is open")
  | some k => return k

/-- A call of the key store; `left` and `right` are the primes that `keygen` draws. -/
inductive KeyCall where
  | create (id : Bytes) (bits : UInt32) (role : UInt8) (left right : Nat)
  | «open» (id : Bytes) (role : UInt8)
  | rotate (id : Bytes) (left right : Nat)
  | delete (id : Bytes)
  deriving DecidableEq, Repr

/-- The key that `soci_create_key` generates. -/
def createdKey (mode : UInt8) (id : Bytes) (bits : UInt32) (role : UInt8) (left right : Nat) :
    Except Thrown Key := do
  let numbers ← keygen bits.toNat left right
  return { numbers with
    info := {
      structVersion := 1
      modulusBits := bits
      keyVersion := 1
      role := role
      runtimeMode := mode
      keyId := id.take 64 } }

/-- The key that `soci_rotate_key` generates. -/
def rotatedKey (current : Key) (left right : Nat) : Except Thrown Key := do
  let v := current.info.keyVersion + 1
  let numbers ← keygen current.info.modulusBits.toNat left right
  return { numbers with info := { current.info with keyVersion := v } }

section

variable (sha256 : Bytes → Digest) (outcomes : Outcomes)

def saveOffKey (p : Bytes) (k : Key) : StoreM Unit := do
  raise outcomes.directories
  writeStream outcomes (tmpFile p) (keyBlob sha256 k)
  setPermissions outcomes (tmpFile p)
  renameFile outcomes (tmpFile p) p

/-- `soci_create_key` -/
def createKey (id : Bytes) (bits : UInt32) (role : UInt8) (left right : Nat) : StoreM Unit := do
  let r ← get
  require (r.mode = modeOff) (Thrown.logicError "SGX keygen adapter required")
  require (role = roleFull) (Thrown.logicError "OFF test backend supports FULL role only")
  let k ← lift (createdKey r.mode id bits role left right)
  saveOffKey sha256 outcomes (← path id) k
  modify fun r => { r with key := some k }

/-- `soci_open_key` -/
def openKey (id : Bytes) (role : UInt8) : StoreM Unit := do
  let o ← readFile outcomes (← path id)
  let k ← lift (loadOffKey sha256 o (← get).mode role)
  modify fun r => { r with key := some k }

/-- `soci_rotate_key` -/
def rotateKey (id : Bytes) (left right : Nat) : StoreM Unit := do
  let current ← need
  require (current.info.keyId = id) (Thrown.invalidArgument "key id mismatch")
  let k ← lift (rotatedKey current left right)
  saveOffKey sha256 outcomes (← path id) k
  modify fun r => { r with key := some k }

/-- `soci_delete_key` -/
def deleteKey (id : Bytes) : StoreM Unit := do
  let p ← path id
  modify fun r => { r with key := r.key.filter fun k => k.info.keyId ≠ id }
  let removed ← removeFile outcomes p
  require (removed = true) (Thrown.invalidArgument "key not found")

def KeyCall.body : KeyCall → StoreM Unit
  | .create id bits role left right => createKey sha256 outcomes id bits role left right
  | .open id role => openKey sha256 outcomes id role
  | .rotate id left right => rotateKey sha256 outcomes id left right
  | .delete id => deleteKey outcomes id

end

/-! ## What a call leaves -/

variable {sha256 : Bytes → Digest} {outcomes : Outcomes} {s₀ : Store}

/-- The open key and the key files are as before. -/
structure Unharmed (before after : Store) : Prop where
  mode : after.mode = before.mode
  key : after.key = before.key
  files : ∀ id, after.files (skeyFile id) = before.files (skeyFile id)

theorem Unharmed.refl (s : Store) : Unharmed s s :=
  ⟨rfl, rfl, fun _ => rfl⟩

/-- The temporary file is no key file. -/
theorem skeyFile_ne_tmpFile (id id' : Bytes) : skeyFile id ≠ tmpFile (skeyFile id') := by
  intro h
  have hlast := congrArg List.getLast? h
  simp [tmpFile, skeyFile, ascii, byteOf] at hlast

theorem raise_spec {P : Store → Prop} {failure : Option String} :
    Triple P (raise failure) (fun _ s => failure = none ∧ P s)
      (fun _ s => failure ≠ none ∧ P s) := by
  cases failure with
  | none => exact Triple.pure fun _ hs => ⟨rfl, hs⟩
  | some what => exact Triple.throw fun _ hs => ⟨by simp, hs⟩

theorem path_spec {P : Store → Prop} (id : Bytes) :
    Triple P (path id) (fun p s => (validId id = true ∧ p = skeyFile id) ∧ P s)
      (fun _ s => validId id ≠ true ∧ P s) := by
  refine (Triple.require fun hid s hs => ⟨hid, hs⟩).bind fun _ => ?_
  exact Triple.assuming fun hid => Triple.pure fun _ hs => ⟨⟨hid, rfl⟩, hs⟩

theorem check_spec {c : Prop} [Decidable c] {e : Thrown} :
    Triple (fun s => s = s₀) (require c e : StoreM PUnit) (fun _ s => c ∧ s = s₀)
      (fun _ s => Unharmed s₀ s) :=
  Triple.require fun _ s hs => hs ▸ Unharmed.refl s

/-- The file of the key is what the stream left, under the name of the key. -/
structure Saved (sha256 : Bytes → Digest) (outcomes : Outcomes) (s₀ : Store) (id : Bytes) (k : Key)
    (s : Store) : Prop where
  mode : s.mode = s₀.mode
  file : s.files (skeyFile id) =
    outcomes.stream.leaves (s₀.files (tmpFile (skeyFile id))) (keyBlob sha256 k)
  present : (s.files (skeyFile id)).isSome

/-- Before the renaming only the temporary file has changed. -/
theorem saveOffKey_spec (id : Bytes) (k : Key) :
    Triple (fun s => s = s₀) (saveOffKey sha256 outcomes (skeyFile id) k)
      (fun _ s => Saved sha256 outcomes s₀ id k s) (fun _ s => Unharmed s₀ s) := by
  let tmp := tmpFile (skeyFile id)
  let content := outcomes.stream.leaves (s₀.files tmp) (keyBlob sha256 k)
  let written := s₀.put tmp content
  -- The name of a temporary file is no name of a key.
  have hharmless : Unharmed s₀ written :=
    ⟨rfl, rfl, fun id' => Function.update_of_ne (skeyFile_ne_tmpFile id' id) _ _⟩
  have hcontent : written.files tmp = content := Function.update_self ..
  have hdirectories : Triple (fun s => s = s₀) (raise outcomes.directories)
      (fun _ s => s = s₀) (fun _ s => Unharmed s₀ s) :=
    raise_spec.weaken (fun _ hs => hs) (fun _ _ hs => hs.2) (fun _ s hs => hs.2 ▸ Unharmed.refl s)
  have hwrite : Triple (fun s => s = s₀) (writeStream outcomes tmp (keyBlob sha256 k))
      (fun _ s => s = written) (fun _ s => Unharmed s₀ s) :=
    Triple.modify fun s hs => by rw [hs]
  refine hdirectories.bind fun _ => hwrite.bind fun _ => Triple.bind (Q := fun _ s => s = written)
    ?_ fun _ => ?_
  · refine Triple.get_bind fun s hs => ?_
    refine (Triple.require fun _ s' hs' => ?_).bind fun _ => Triple.assuming fun _ => ?_
    · rw [hs', hs]
      exact hharmless
    · refine raise_spec.weaken (fun _ hs' => hs'.trans hs) (fun _ _ hs' => hs'.2) fun _ s' hs' => ?_
      rw [hs'.2]
      exact hharmless
  · refine Triple.get_bind fun s hs => ?_
    refine (Triple.require fun _ s' hs' => ?_).bind fun _ => Triple.assuming fun hsome => ?_
    · rw [hs', hs]
      exact hharmless
    · refine (raise_spec.weaken (fun _ hs' => hs'.trans hs) (fun _ _ hs' => hs'.2) fun _ s' hs' =>
        hs'.2 ▸ hharmless).bind fun _ => ?_
      intro s' _
      subst hs
      -- The renaming puts what was written in the place of the key.
      have hfile : ((written.put (skeyFile id) (written.files tmp)).put tmp none).files
          (skeyFile id) = content := by
        exact (Function.update_of_ne (skeyFile_ne_tmpFile id id) _ _).trans
          ((Function.update_self ..).trans hcontent)
      exact ⟨rfl, hfile, by rw [hfile, ← hcontent]; exact hsome⟩

/-- A new key is open, and its file is what the stream left. -/
structure Installed (sha256 : Bytes → Digest) (outcomes : Outcomes) (s₀ : Store) (id : Bytes)
    (k : Key) (s : Store) : Prop extends Saved sha256 outcomes s₀ id k s where
  key : s.key = some k
  valid : validId id = true

/-- The common end of `soci_create_key` and `soci_rotate_key`. -/
theorem install_spec (id : Bytes) (k : Key) :
    Triple (fun s => s = s₀)
      (do saveOffKey sha256 outcomes (← path id) k; modify fun r => { r with key := some k })
      (fun _ s => Installed sha256 outcomes s₀ id k s) (fun _ s => Unharmed s₀ s) := by
  have hpath : Triple (fun s => s = s₀) (path id)
      (fun p s => (validId id = true ∧ p = skeyFile id) ∧ s = s₀) (fun _ s => Unharmed s₀ s) :=
    (path_spec id).weaken (fun _ hs => hs) (fun _ _ hs => hs) fun _ s hs => hs.2 ▸ Unharmed.refl s
  refine hpath.bind fun p => Triple.assuming fun hp => ?_
  rcases hp with ⟨hid, rfl⟩
  refine (saveOffKey_spec id k).bind fun _ => Triple.modify fun s hs => ?_
  exact ⟨⟨hs.mode, hs.file, hs.present⟩, rfl, hid⟩

theorem createKey_spec (id : Bytes) (bits : UInt32) (role : UInt8) (left right : Nat) :
    Triple (fun s => s = s₀) (createKey sha256 outcomes id bits role left right)
      (fun _ s => (s₀.mode = modeOff ∧ role = roleFull) ∧
        ∃ k, createdKey s₀.mode id bits role left right = .ok k ∧
          Installed sha256 outcomes s₀ id k s)
      (fun _ s => Unharmed s₀ s) := by
  refine Triple.get_bind fun r hr => ?_
  subst hr
  have hsame : ∀ s, s = r → Unharmed r s := fun s hs => hs ▸ Unharmed.refl s
  refine check_spec.bind fun _ => Triple.assuming fun hmode => ?_
  refine check_spec.bind fun _ => Triple.assuming fun hrole => ?_
  refine Triple.bind (Q := fun k s => createdKey r.mode id bits role left right = .ok k ∧ s = r)
    (Triple.lift (fun _ _ hk hs => ⟨hk, hs⟩) fun _ s _ => hsame s) fun k => ?_
  refine Triple.assuming fun hk => (install_spec id k).post fun _ s hs => ?_
  exact ⟨⟨hmode, hrole⟩, k, hk, hs⟩

theorem rotateKey_spec (id : Bytes) (left right : Nat) :
    Triple (fun s => s = s₀) (rotateKey sha256 outcomes id left right)
      (fun _ s => ∃ current k, (s₀.key = some current ∧ current.info.keyId = id) ∧
        rotatedKey current left right = .ok k ∧ Installed sha256 outcomes s₀ id k s)
      (fun _ s => Unharmed s₀ s) := by
  have hsame : ∀ s, s = s₀ → Unharmed s₀ s := fun s hs => hs ▸ Unharmed.refl s
  have hneed : Triple (fun s => s = s₀) need (fun current s => s₀.key = some current ∧ s = s₀)
      (fun _ s => Unharmed s₀ s) := by
    refine Triple.get_bind fun s hs => ?_
    subst hs
    cases hkey : s.key with
    | none => exact Triple.throw hsame
    | some current => exact Triple.pure fun _ hs => ⟨rfl, hs⟩
  refine hneed.bind fun current => Triple.assuming fun hcurrent => ?_
  refine check_spec.bind fun _ => Triple.assuming fun hid => ?_
  refine Triple.bind (Q := fun k s => rotatedKey current left right = .ok k ∧ s = s₀)
    (Triple.lift (fun _ _ hk hs => ⟨hk, hs⟩) fun _ s _ => hsame s) fun k => ?_
  refine Triple.assuming fun hk => (install_spec id k).post fun _ s hs => ?_
  exact ⟨current, k, ⟨hcurrent, hid⟩, hk, hs⟩

theorem openKey_spec (id : Bytes) (role : UInt8) :
    Triple (fun s => s = s₀) (openKey sha256 outcomes id role)
      (fun _ s => ∃ o k, loadOffKey sha256 o s₀.mode role = .ok k ∧ s = { s₀ with key := some k })
      (fun _ s => s = s₀) := by
  have hread : ∀ p, Triple (fun s => s = s₀) (readFile outcomes p) (fun _ s => s = s₀)
      (fun _ s => s = s₀) := by
    intro p
    refine Triple.get_bind fun s hs => ?_
    subst hs
    cases outcomes.reading with
    | complete => exact Triple.pure fun _ hs => hs
    | unopened => exact Triple.pure fun _ hs => hs
    | failed what => exact Triple.throw fun _ hs => hs
  refine ((path_spec id).weaken (fun _ hs => hs) (fun _ _ hs => hs.2) (fun _ _ hs => hs.2)).bind
    fun p => (hread p).bind fun o => Triple.get_bind fun s hs => ?_
  subst hs
  refine Triple.bind (Q := fun k s' => loadOffKey sha256 o s.mode role = .ok k ∧ s' = s)
    (Triple.lift (fun _ _ hk hs => ⟨hk, hs⟩) fun _ _ _ hs => hs) fun k => ?_
  refine Triple.assuming fun hk => Triple.modify fun s' hs' => ?_
  exact ⟨o, k, hk, by rw [hs']⟩

/-- A deletion that goes wrong after its checks has closed the key all the same. -/
def Dropped (outcomes : Outcomes) (id : Bytes) (s₀ s : Store) : Prop :=
  (outcomes.remove ≠ none ∨ s₀.files (skeyFile id) = none) ∧ s.files = s₀.files ∧
    s.key = s₀.key.filter fun k => k.info.keyId ≠ id

theorem deleteKey_spec (id : Bytes) :
    Triple (fun s => s = s₀) (deleteKey outcomes id)
      (fun _ s => s.mode = s₀.mode ∧ (∀ k, s.key = some k → s₀.key = some k) ∧
        outcomes.remove = none ∧ s₀.files (skeyFile id) ≠ none)
      (fun _ s => s.mode = s₀.mode ∧
        (validId id ≠ true ∧ s = s₀ ∨ validId id = true ∧ Dropped outcomes id s₀ s)) := by
  -- The open key is dropped first, whatever becomes of the file.
  let dropped : Store := { s₀ with key := s₀.key.filter fun k => k.info.keyId ≠ id }
  have hpath : Triple (fun s => s = s₀) (path id)
      (fun p s => (validId id = true ∧ p = skeyFile id) ∧ s = s₀) (fun _ s => s.mode = s₀.mode ∧
        (validId id ≠ true ∧ s = s₀ ∨ validId id = true ∧ Dropped outcomes id s₀ s)) :=
    (path_spec id).weaken (fun _ hs => hs) (fun _ _ hs => hs) fun _ s hs =>
      ⟨by rw [hs.2], Or.inl hs⟩
  refine hpath.bind fun p => Triple.assuming fun hp => ?_
  rcases hp with ⟨hid, rfl⟩
  refine Triple.bind (Q := fun _ s => s = dropped) (Triple.modify fun s hs => by rw [hs])
    fun _ => ?_
  have hremove : Triple (fun s => s = dropped) (removeFile outcomes (skeyFile id))
      (fun removed s => (outcomes.remove = none ∧
        removed = (s₀.files (skeyFile id)).isSome) ∧ s = dropped.put (skeyFile id) none)
      (fun _ s => s.mode = s₀.mode ∧
        (validId id ≠ true ∧ s = s₀ ∨ validId id = true ∧ Dropped outcomes id s₀ s)) := by
    refine Triple.get_bind fun s hs => ?_
    subst hs
    refine Triple.bind (Q := fun _ s => outcomes.remove = none ∧ s = dropped)
      (raise_spec.weaken (fun _ hs => hs) (fun _ _ hs => hs) fun _ s hs => ?_) fun _ => ?_
    · rw [hs.2]
      exact ⟨rfl, Or.inr ⟨hid, Or.inl hs.1, rfl, rfl⟩⟩
    · refine Triple.assuming fun hnone => ?_
      intro s _
      exact ⟨⟨hnone, rfl⟩, rfl⟩
  refine hremove.bind fun removed => Triple.assuming fun hremoved => ?_
  refine (Triple.require fun hmissing s hs => ?_).post fun _ s hs => ?_
  -- The key was dropped although there was no file to remove.
  · have hnone : s₀.files (skeyFile id) = none := by
      rw [hremoved.2] at hmissing
      simpa using hmissing
    rw [hs]
    refine ⟨rfl, Or.inr ⟨hid, Or.inr hnone, ?_, rfl⟩⟩
    change Function.update s₀.files (skeyFile id) none = s₀.files
    rw [← hnone, Function.update_eq_self]
  · rw [hs.2]
    refine ⟨rfl, fun k hk => ?_, hremoved.1, fun hnone => ?_⟩
    · exact (Option.eq_some_of_filter_eq_some hk)
    · rw [hnone] at hremoved
      exact absurd (hs.1.symm.trans hremoved.2) (by decide)

/-! ## Failed calls -/

/-- `soci_create_key`, `soci_open_key`, `soci_rotate_key` or `soci_delete_key`. -/
def KeyCall.run (sha256 : Bytes → Digest) (outcomes : Outcomes) (call : KeyCall)
    (r : Process Store) : Status × Process Store :=
  Runtime.run r (call.body sha256 outcomes)

/-- The call closes the key that it is to delete, and then finds no file or cannot remove it. -/
def LosesKey (outcomes : Outcomes) (r : Process Store) (call : KeyCall) : Prop :=
  ∃ id, call = .delete id ∧ r.closed = false ∧ validId id = true ∧
    (∃ k, r.state.key = some k ∧ k.info.keyId = id) ∧
      (outcomes.remove ≠ none ∨ r.state.files (skeyFile id) = none)

/-- A failed call that does not lose its key changes nothing. -/
theorem unharmed_of_failure (call : KeyCall) (r : Process Store)
    (hfailed : (call.run sha256 outcomes r).1 ≠ .ok) (hkept : ¬ LosesKey outcomes r call) :
    Unharmed r.state (call.run sha256 outcomes r).2.state := by
  have hgeneral : ∀ {f : StoreM Unit} {Q : Unit → Store → Prop},
      Triple (fun s => s = r.state) f Q (fun _ s => Unharmed r.state s) →
        (Runtime.run r f).1 ≠ .ok → Unharmed r.state (Runtime.run r f).2.state := by
    intro f Q hspec hf
    rcases run_cases hspec with ⟨hok, _⟩ | ⟨_, ⟨_, hsame⟩ | ⟨_, _, hharmless⟩⟩
    · exact absurd hok hf
    · rw [hsame]
      exact Unharmed.refl _
    · exact hharmless
  cases call with
  | create id bits role left right =>
      exact hgeneral (createKey_spec id bits role left right) hfailed
  | «open» id role =>
      exact hgeneral ((openKey_spec id role).weaken (fun _ hs => hs) (fun _ _ hs => hs)
        fun _ s hs => hs ▸ Unharmed.refl s) hfailed
  | rotate id left right => exact hgeneral (rotateKey_spec id left right) hfailed
  | delete id =>
      rcases run_cases (f := deleteKey outcomes id) (r := r) (deleteKey_spec id) with
        ⟨hok, _⟩ | ⟨_, ⟨_, hsame⟩ | ⟨hopen, _, hmode, ⟨_, hsame⟩ | ⟨hid, hdropped⟩⟩⟩
      · exact absurd hok hfailed
      · exact hsame ▸ Unharmed.refl _
      · exact hsame ▸ Unharmed.refl _
      · refine ⟨hmode, hdropped.2.2.trans ?_, fun id' => congrFun hdropped.2.1 _⟩
        -- The open key is another one, or the call would have lost it.
        cases hkey : r.state.key with
        | none => rfl
        | some k =>
            have hother : k.info.keyId ≠ id := fun hsame =>
              hkept ⟨id, rfl, hopen, hid, ⟨k, hkey, hsame⟩, hdropped.1⟩
            simp [Option.filter, hother]

/-- A call that loses its key fails, and the key is no longer open. -/
theorem harmed_of_losesKey (sha256 : Bytes → Digest) {call : KeyCall} {r : Process Store}
    (h : LosesKey outcomes r call) :
    (call.run sha256 outcomes r).1 ≠ .ok ∧
      (call.run sha256 outcomes r).2.state.key ≠ r.state.key := by
  rcases h with ⟨id, rfl, hopen, hid, ⟨k, hkey, hsame⟩, hfails⟩
  rcases run_cases (f := deleteKey outcomes id) (r := r) (deleteKey_spec id) with
    ⟨_, _, _, _, hremoved, hpresent⟩ |
      ⟨hfailed, ⟨hclosed, _⟩ | ⟨_, _, _, ⟨hinvalid, _⟩ | ⟨_, hdropped⟩⟩⟩
  · exact absurd hfails (by simp [hremoved, hpresent])
  · exact absurd (hopen.symm.trans hclosed) (by decide)
  · exact absurd hid hinvalid
  · refine ⟨hfailed, fun hkept => ?_⟩
    have hnone : (none : Option Key) = some k := by
      calc
        none = r.state.key.filter fun k => k.info.keyId ≠ id := by
          simp [hkey, Option.filter, hsame]
        _ = ((KeyCall.delete id).run sha256 outcomes r).2.state.key := hdropped.2.2.symm
        _ = some k := hkept.trans hkey
    cases hnone

/-- A call that fails leaves the open key and the key files as they were, except when it is a
deletion of the open key. -/
theorem failure_harmless_iff (sha256 : Bytes → Digest) (outcomes : Outcomes) (call : KeyCall)
    (r : Process Store) :
    ((call.run sha256 outcomes r).1 ≠ .ok →
      (call.run sha256 outcomes r).2.state.key = r.state.key ∧
        ∀ id, (call.run sha256 outcomes r).2.state.files (skeyFile id) =
          r.state.files (skeyFile id)) ↔
      ¬ LosesKey outcomes r call := by
  constructor
  · intro hharmless hloses
    rcases harmed_of_losesKey sha256 hloses with ⟨hfailed, hharmed⟩
    exact hharmed (hharmless hfailed).1
  · intro hkept hfailed
    have hsame := unharmed_of_failure call r hfailed hkept
    exact ⟨hsame.key, hsame.files⟩

/-! ## Calls that succeed -/

theorem saveOffKey_returns {s : Store} {p : Bytes} {k : Key}
    (hfine : outcomes.directories = none ∧ outcomes.permissions = none ∧ outcomes.rename = none)
    (hopen : (outcomes.stream.leaves (s.files (tmpFile p)) (keyBlob sha256 k)).isSome) :
    ∃ s', saveOffKey sha256 outcomes p k s = .ok () s' := by
  rcases hfine with ⟨hdirectories, hpermissions, hrename⟩
  let written := s.put (tmpFile p) (outcomes.stream.leaves (s.files (tmpFile p)) (keyBlob sha256 k))
  have hraise : ∀ s, raise none s = .ok () s := fun _ => rfl
  have hread : (get : StoreM Store) written = .ok written written := rfl
  have hthere : (written.files (tmpFile p)).isSome := by
    have hcontent : written.files (tmpFile p) =
        outcomes.stream.leaves (s.files (tmpFile p)) (keyBlob sha256 k) := Function.update_self ..
    rw [hcontent]
    exact hopen
  have hwrite : writeStream outcomes (tmpFile p) (keyBlob sha256 k) s = .ok () written := rfl
  have hset : setPermissions outcomes (tmpFile p) written = .ok () written := by
    refine (bind_of_ok hread).trans ((bind_of_ok (require_of_pos hthere)).trans ?_)
    rw [hpermissions]
    exact hraise written
  refine ⟨(written.put p (written.files (tmpFile p))).put (tmpFile p) none, ?_⟩
  rw [saveOffKey, hdirectories]
  refine (bind_of_ok (hraise s)).trans ((bind_of_ok hwrite).trans ((bind_of_ok hset).trans ?_))
  refine (bind_of_ok hread).trans ((bind_of_ok (require_of_pos hthere)).trans ?_)
  rw [hrename]
  exact (bind_of_ok (hraise written)).trans rfl

/-- A creation succeeds when nothing throws, however much of the blob was written. -/
theorem create_ok {r : Process Store} {id : Bytes} {bits : UInt32} {left right : Nat} {k : Key}
    (hclosed : r.closed = false) (hmode : r.state.mode = modeOff) (hid : validId id = true)
    (hk : createdKey r.state.mode id bits roleFull left right = .ok k)
    (hfine : outcomes.directories = none ∧ outcomes.permissions = none ∧ outcomes.rename = none)
    (hopen : (outcomes.stream.leaves (r.state.files (tmpFile (skeyFile id)))
      (keyBlob sha256 k)).isSome) :
    ((KeyCall.create id bits roleFull left right).run sha256 outcomes r).1 = .ok := by
  rcases saveOffKey_returns hfine hopen with ⟨s', hsave⟩
  have hread : (get : StoreM Store) r.state = .ok r.state r.state := rfl
  have hlift : lift (createdKey r.state.mode id bits roleFull left right) r.state =
      .ok k r.state := by rw [hk]; rfl
  have hpath : path id r.state = .ok (skeyFile id) r.state := bind_of_ok (require_of_pos hid)
  have hbody : createKey sha256 outcomes id bits roleFull left right r.state =
      .ok () { s' with key := some k } := by
    refine (bind_of_ok hread).trans ((bind_of_ok (require_of_pos hmode)).trans ?_)
    refine (bind_of_ok (require_of_pos rfl)).trans ((bind_of_ok hlift).trans ?_)
    exact (bind_of_ok hpath).trans ((bind_of_ok hsave).trans rfl)
  rcases r with ⟨error, closed, state⟩
  subst hclosed
  have hguarded : guarded false (createKey sha256 outcomes id bits roleFull left right) state =
      createKey sha256 outcomes id bits roleFull left right state := rfl
  simp only [KeyCall.run, KeyCall.body, Runtime.run, outcome, hguarded, hbody]
  rfl

/-! ## Stored keys -/

/-- `soci_runtime_open`, with the files that are already there. -/
def Process.opened (mode : UInt8) (files : Files) : Process Store :=
  { error := "", closed := false, state := { mode := mode, key := none, files := files } }

/-- The runtime after some calls, each with the outcomes of its file operations. -/
def Process.after (sha256 : Bytes → Digest) (r : Process Store)
    (calls : List (KeyCall × Outcomes)) : Process Store :=
  calls.foldl (fun r step => (step.1.run sha256 step.2 r).2) r

/-- What every open key has. -/
def Consistent (s : Store) : Prop :=
  ∀ k, s.key = some k → k.info.structVersion = 1 ∧ k.info.runtimeMode = s.mode

theorem createdKey_spec {mode : UInt8} {id : Bytes} {bits : UInt32} {role : UInt8}
    {left right : Nat} {k : Key} (h : createdKey mode id bits role left right = .ok k) :
    ∃ numbers, keygen bits.toNat left right = .ok numbers ∧ k.toKeyNumbers = numbers ∧
      k.info = ⟨1, bits, 1, role, mode, id.take 64⟩ := by
  rcases bind_eq_ok.1 h with ⟨numbers, hnumbers, h⟩
  cases h
  exact ⟨numbers, hnumbers, rfl, rfl⟩

theorem rotatedKey_spec {current k : Key} {left right : Nat}
    (h : rotatedKey current left right = .ok k) :
    ∃ numbers, keygen current.info.modulusBits.toNat left right = .ok numbers ∧
      k.toKeyNumbers = numbers ∧
        k.info = { current.info with keyVersion := current.info.keyVersion + 1 } := by
  rcases bind_eq_ok.1 h with ⟨numbers, hnumbers, h⟩
  cases h
  exact ⟨numbers, hnumbers, rfl, rfl⟩

theorem loadOffKey_info {o : Bytes} {mode role : UInt8} {k : Key}
    (h : loadOffKey sha256 o mode role = .ok k) :
    k.info.structVersion = 1 ∧ k.info.runtimeMode = mode := by
  rcases bind_eq_ok.1 h with ⟨_, _, h⟩
  rcases bind_eq_ok.1 h with ⟨_, _, h⟩
  rcases bind_eq_ok.1 h with ⟨_, _, h⟩
  rcases bind_eq_ok.1 h with ⟨_, _, h⟩
  rcases bind_eq_ok.1 h with ⟨_, _, h⟩
  cases h
  exact ⟨rfl, rfl⟩

/-- A key that is open before a call and the key that the call opens are consistent. -/
theorem Consistent.of_unharmed {s : Store} (h : Consistent s₀) (hs : Unharmed s₀ s) :
    Consistent s := by
  intro k hk
  rw [hs.mode]
  exact h k (hs.key ▸ hk)

theorem Consistent.of_installed {s : Store} {id : Bytes} {k : Key}
    (hk : k.info.structVersion = 1 ∧ k.info.runtimeMode = s₀.mode)
    (hs : Installed sha256 outcomes s₀ id k s) : Consistent s := by
  intro k' hk'
  cases hk'.symm.trans hs.key
  exact hs.mode ▸ hk

/-- Every body keeps the open key consistent, whether it returns or throws. -/
theorem body_consistent (call : KeyCall) (h : Consistent s₀) :
    Triple (fun s => s = s₀) (call.body sha256 outcomes) (fun _ s => Consistent s)
      (fun _ s => Consistent s) := by
  cases call with
  | create id bits role left right =>
      refine (createKey_spec id bits role left right).weaken (fun _ hs => hs) ?_
        fun _ s hs => h.of_unharmed hs
      rintro _ s ⟨_, k, hk, hs⟩
      rcases createdKey_spec hk with ⟨_, _, _, hinfo⟩
      exact Consistent.of_installed (by rw [hinfo]; exact ⟨rfl, rfl⟩) hs
  | «open» id role =>
      refine (openKey_spec id role).weaken (fun _ hs => hs) ?_ fun _ s hs => hs ▸ h
      rintro _ s ⟨o, k, hk, rfl⟩ k' hk'
      cases hk'
      exact loadOffKey_info hk
  | rotate id left right =>
      refine (rotateKey_spec id left right).weaken (fun _ hs => hs) ?_
        fun _ s hs => h.of_unharmed hs
      rintro _ s ⟨current, k, hcurrent, hk, hs⟩
      rcases rotatedKey_spec hk with ⟨_, _, _, hinfo⟩
      exact Consistent.of_installed (by rw [hinfo]; exact h current hcurrent.1) hs
  | delete id =>
      refine (deleteKey_spec id).weaken (fun _ hs => hs) ?_ ?_
      · rintro _ s ⟨hmode, hkey, _⟩ k hk
        rw [hmode]
        exact h k (hkey k hk)
      · rintro _ s ⟨hmode, ⟨_, rfl⟩ | ⟨_, hdropped⟩⟩
        · exact h
        · intro k hk
          rw [hmode]
          exact h k (Option.eq_some_of_filter_eq_some (hdropped.2.2.symm.trans hk))

theorem consistent_run (call : KeyCall) {r : Process Store} (h : Consistent r.state) :
    Consistent (call.run sha256 outcomes r).2.state := by
  rcases run_cases (f := call.body sha256 outcomes) (body_consistent call h) with
    ⟨_, _, hs⟩ | ⟨_, ⟨_, hsame⟩ | ⟨_, _, hs⟩⟩
  · exact hs
  · rw [KeyCall.run, hsame]
    exact h
  · exact hs

/-- In every run of calls the open key is consistent. -/
theorem consistent_after (mode : UInt8) (files : Files) (calls : List (KeyCall × Outcomes)) :
    Consistent ((Process.opened mode files).after sha256 calls).state := by
  have hgeneral : ∀ (calls : List (KeyCall × Outcomes)) (r : Process Store), Consistent r.state →
      Consistent (r.after sha256 calls).state := by
    intro calls
    induction calls with
    | nil => exact fun _ hr => hr
    | cons step calls ih => exact fun r hr => ih _ (consistent_run step.1 hr)
  refine hgeneral calls _ fun k hk => ?_
  cases hk

/-! ## Reloading -/

/-- The primes that `keygen` draws for a modulus have half its size. -/
def Drawn (bits left right : Nat) : Prop :=
  sizeInBase2 left = bits / 2 ∧ sizeInBase2 right = bits / 2

theorem keygen_bounds {bits left right : Nat} {numbers : KeyNumbers}
    (h : keygen bits left right = .ok numbers) (hdrawn : Drawn bits left right) :
    numbers.pub.nsq = numbers.pub.n * numbers.pub.n ∧ numbers.pub.n < 256 ^ 1024 ∧
      numbers.sec.lambda < 256 ^ 1024 ∧ numbers.sec.mu < 256 ^ 1024 := by
  rcases bind_eq_ok.1 h with ⟨_, hbits, h⟩
  rw [ensure_eq_ok] at hbits
  have hlt : ∀ {x : Nat}, sizeInBase2 x = bits / 2 → x < 2 ^ (bits / 2) := by
    intro x hx
    rw [← hx]
    exact Nat.lt_log2_self
  have hroom : ∀ k, bits / 2 + bits / 2 ≤ 8 * k → 2 ^ (bits / 2) * 2 ^ (bits / 2) ≤ 256 ^ k := by
    intro k hk
    calc
      2 ^ (bits / 2) * 2 ^ (bits / 2) = 2 ^ (bits / 2 + bits / 2) := (pow_add ..).symm
      _ ≤ 2 ^ (8 * k) := Nat.pow_le_pow_right (by decide) hk
      _ = 256 ^ k := pow_mul ..
  -- A prime of half the bits is at least two, so neither order is zero.
  have htwo : ∀ {x : Nat}, sizeInBase2 x = bits / 2 → 1 < x := by
    intro x hx
    have hlog : x.log2 ≠ 0 := by
      rw [sizeInBase2] at hx
      omega
    rcases x with _ | _ | x
    · exact absurd (by decide) hlog
    · exact absurd (by decide) hlog
    · omega
  have hleft := htwo hdrawn.1
  have hright := htwo hdrawn.2
  have hn : left * right < 256 ^ 1024 := by
    calc
      left * right < 2 ^ (bits / 2) * 2 ^ (bits / 2) :=
        Nat.mul_lt_mul'' (hlt hdrawn.1) (hlt hdrawn.2)
      _ ≤ 256 ^ 1024 := hroom 1024 (by omega)
  have hlcm : Nat.lcm (left - 1) (right - 1) < 256 ^ 1024 := by
    calc
      Nat.lcm (left - 1) (right - 1) ≤ (left - 1) * (right - 1) :=
        Nat.lcm_le_mul (by omega) (by omega)
      _ ≤ left * right := Nat.mul_le_mul (Nat.sub_le ..) (Nat.sub_le ..)
      _ < 256 ^ 1024 := hn
  rw [deriveKey] at h
  cases hmu : invMod ((powMod (left * right + 1) (Nat.lcm (left - 1) (right - 1))
      (left * right * (left * right)) - 1) / (left * right)) (left * right) with
  | none =>
      simp only [hmu] at h
      cases h
  | some mu =>
      simp only [hmu] at h
      cases h
      exact ⟨rfl, hn, hlcm, Nat.lt_trans (invMod_lt (Nat.mul_pos (by omega) (by omega)) hmu) hn⟩

/-- The id of the key that a call generates. -/
def KeyCall.target : KeyCall → Option Bytes
  | .create id _ _ _ _ | .rotate id _ _ => some id
  | .open _ _ | .delete _ => none

/-- The key that a call generates. -/
def KeyCall.generated (s : Store) : KeyCall → Option (Except Thrown Key)
  | .create id bits role left right => some (createdKey s.mode id bits role left right)
  | .rotate _ left right => s.key.map fun current => rotatedKey current left right
  | .open _ _ | .delete _ => none

/-- The primes that the call draws have the right size. -/
def KeyCall.Drawn (s : Store) : KeyCall → Prop
  | .create _ bits _ left right => Runtime.Drawn bits.toNat left right
  | .rotate _ left right =>
      ∀ current, s.key = some current → Runtime.Drawn current.info.modulusBits.toNat left right
  | .open _ _ | .delete _ => True

/-- `load_off_key` on a file. -/
def reload (sha256 : Bytes → Digest) (s : Store) (name : Bytes) (role : UInt8) :
    Except Thrown Key :=
  loadOffKey sha256 ((s.files name).getD []) s.mode role

/-- The temporary file is written completely, or it is not opened and an older one happens to hold
the generated key. -/
def Replaces (sha256 : Bytes → Digest) (outcomes : Outcomes) (s : Store) (call : KeyCall)
    (id : Bytes) : Prop :=
  outcomes.stream = .complete ∨ (outcomes.stream = .unopened ∧
    ∃ k, call.generated s = some (.ok k) ∧
      reload sha256 s (tmpFile (skeyFile id)) k.info.role = .ok k)

/-- What decides whether an installed key can be loaded again. -/
theorem Installed.loads_iff {id : Bytes} {k : Key} {s : Store}
    (h : Installed sha256 outcomes s₀ id k s) (hk : Storable k)
    (hmode : k.info.runtimeMode = s₀.mode) {call : KeyCall}
    (hgenerated : call.generated s₀ = some (.ok k)) :
    reload sha256 s (skeyFile id) k.info.role = .ok k ↔
      Replaces sha256 outcomes s₀ call id := by
  unfold reload Replaces
  rw [h.mode, h.file]
  cases hstream : outcomes.stream with
  | complete =>
      rw [← hmode]
      exact iff_of_true (loadOffKey_blob hk.loadable) (Or.inl rfl)
  | unopened =>
      constructor
      · exact fun hload => Or.inr ⟨rfl, k, hgenerated, hload⟩
      · rintro (hcomplete | ⟨_, k', hk', hload⟩)
        · cases hcomplete
        · cases hgenerated.symm.trans hk'
          exact hload
  | short lost =>
      refine iff_of_false (loadOffKey_truncated hk lost _ _ k) ?_
      rintro (hcomplete | ⟨hunopened, _⟩)
      · cases hcomplete
      · cases hunopened

/-- What a call that generates a key has done when it succeeds. -/
theorem generated_of_ok {call : KeyCall} {r : Process Store} {id : Bytes}
    (htarget : call.target = some id) (hconsistent : Consistent r.state)
    (hdrawn : call.Drawn r.state) (hok : (call.run sha256 outcomes r).1 = .ok) :
    ∃ k, call.generated r.state = some (.ok k) ∧ Storable k ∧
      k.info.runtimeMode = r.state.mode ∧
        Installed sha256 outcomes r.state id k (call.run sha256 outcomes r).2.state := by
  cases call with
  | create id' bits role left right =>
      cases htarget
      rcases run_cases (f := createKey sha256 outcomes id bits role left right) (r := r)
        (createKey_spec id bits role left right) with ⟨_, _, _, k, hk, hs⟩ | ⟨hfailed, _⟩
      · rcases createdKey_spec hk with ⟨numbers, hnumbers, hsame, hinfo⟩
        have hbounds := keygen_bounds hnumbers hdrawn
        -- A valid id is short enough to be stored as it is.
        have hid : id.take 64 = id := by
          have hvalid := hs.valid
          simp only [validId, Bool.and_eq_true, decide_eq_true_eq] at hvalid
          exact List.take_of_length_le hvalid.1.2
        refine ⟨k, congrArg some hk, ⟨?_, ?_, ?_, ?_⟩, ?_, hs⟩
        · rw [hinfo]
        · rw [hsame]
          exact hbounds.1
        · rw [hinfo]
          exact hid.symm ▸ hs.valid
        · rw [hsame]
          exact hbounds.2
        · rw [hinfo]
      · exact absurd hok hfailed
  | rotate id' left right =>
      cases htarget
      rcases run_cases (f := rotateKey sha256 outcomes id left right) (r := r)
        (rotateKey_spec id left right) with ⟨_, _, current, k, hcurrent, hk, hs⟩ | ⟨hfailed, _⟩
      · rcases rotatedKey_spec hk with ⟨numbers, hnumbers, hsame, hinfo⟩
        have hbounds := keygen_bounds hnumbers (hdrawn current hcurrent.1)
        have hold := hconsistent current hcurrent.1
        have hgenerated : (KeyCall.rotate id left right).generated r.state = some (.ok k) := by
          rw [KeyCall.generated, hcurrent.1, Option.map_some, hk]
        refine ⟨k, hgenerated, ⟨?_, ?_, ?_, ?_⟩, ?_, hs⟩
        · rw [hinfo]
          exact hold.1
        · rw [hsame]
          exact hbounds.1
        · rw [hinfo]
          exact hcurrent.2.symm ▸ hs.valid
        · rw [hsame]
          exact hbounds.2
        · rw [hinfo]
          exact hold.2
      · exact absurd hok hfailed
  | «open» id' role => cases htarget
  | delete id' => cases htarget

/-- In every run of calls: after a creation or a rotation that succeeds, the file of the key holds
the open key exactly when the temporary file was written completely, or was never opened and
already held that key. -/
theorem reload_iff (sha256 : Bytes → Digest) (mode : UInt8) (files : Files)
    (calls : List (KeyCall × Outcomes)) (call : KeyCall) (outcomes : Outcomes) {id : Bytes}
    (htarget : call.target = some id)
    (hdrawn : call.Drawn ((Process.opened mode files).after sha256 calls).state)
    (hok : (call.run sha256 outcomes ((Process.opened mode files).after sha256 calls)).1 = .ok) :
    let r := (Process.opened mode files).after sha256 calls
    let r' := (call.run sha256 outcomes r).2
    ∃ k, r'.state.key = some k ∧
      (reload sha256 r'.state (skeyFile id) k.info.role = .ok k ↔
        Replaces sha256 outcomes r.state call id) := by
  rcases generated_of_ok htarget (consistent_after mode files calls) hdrawn hok with
    ⟨k, hgenerated, hstorable, hmode, hinstalled⟩
  exact ⟨k, hinstalled.key, hinstalled.loads_iff hstorable hmode hgenerated⟩

/-! ## A store on which calls go wrong -/

def sampleId : Bytes := ascii "k"

def sampleCreate : KeyCall :=
  .create sampleId 3072 roleFull leftPrime rightPrime

/-- An empty store before its first call. -/
def freshProcess : Process Store :=
  Process.opened modeOff fun _ => none

theorem keygen_sample : ∃ numbers, keygen 3072 leftPrime rightPrime = .ok numbers := by
  rcases deriveKey_spec keyPrimes_3072 with ⟨numbers, hnumbers, _⟩
  exact ⟨numbers, bind_eq_ok.2 ⟨(), ensure_eq_ok.2 (by decide), hnumbers⟩⟩

/-- The creation succeeds in an empty store whenever the temporary file is opened. -/
theorem sampleCreate_ok (sha256 : Bytes → Digest) {stream : Stream} (h : stream ≠ .unopened) :
    (sampleCreate.run sha256 { stream := stream } freshProcess).1 = .ok := by
  rcases keygen_sample with ⟨numbers, hnumbers⟩
  have hk : createdKey modeOff sampleId 3072 roleFull leftPrime rightPrime =
      .ok { numbers with info := ⟨1, 3072, 1, roleFull, modeOff, sampleId.take 64⟩ } :=
    bind_eq_ok.2 ⟨numbers, hnumbers, rfl⟩
  refine create_ok rfl rfl (by decide) hk ⟨rfl, rfl, rfl⟩ ?_
  cases stream with
  | unopened => exact absurd rfl h
  | complete => rfl
  | short lost => rfl

theorem sampleCreate_drawn (s : Store) : sampleCreate.Drawn s := by
  constructor <;> decide +kernel

theorem reload_iff_sample :
    let r := (Process.opened modeOff fun _ => none).after zeroDigest []
    let r' := (sampleCreate.run zeroDigest {} r).2
    ∃ k, r'.state.key = some k ∧
      (reload zeroDigest r'.state (skeyFile sampleId) k.info.role = .ok k ↔
        Replaces zeroDigest {} r.state sampleCreate sampleId) :=
  reload_iff zeroDigest modeOff (fun _ => none) [] sampleCreate {} rfl (sampleCreate_drawn _)
    (sampleCreate_ok zeroDigest (by decide))

theorem sampleCreate_installed {stream : Stream} (h : stream ≠ .unopened) :
    ∃ k, sampleCreate.generated freshProcess.state = some (.ok k) ∧ Storable k ∧
      k.info.runtimeMode = modeOff ∧ k.info.keyId = sampleId ∧
        Installed zeroDigest { stream := stream } freshProcess.state sampleId k
          (sampleCreate.run zeroDigest { stream := stream } freshProcess).2.state := by
  have hfresh : Consistent freshProcess.state := fun k hk => by cases hk
  rcases generated_of_ok rfl hfresh (sampleCreate_drawn _) (sampleCreate_ok zeroDigest h) with
    ⟨k, hgenerated, hstorable, hmode, hinstalled⟩
  rcases createdKey_spec (Option.some.inj hgenerated) with ⟨_, _, _, hinfo⟩
  exact ⟨k, hgenerated, hstorable, hmode, by rw [hinfo]; rfl, hinstalled⟩

/-- Ten bytes do not reach the temporary file: the creation succeeds, and the file of the key cannot
be loaded. -/
theorem short_write_unnoticed :
    let created := sampleCreate.run zeroDigest { stream := .short 9 } freshProcess
    created.1 = .ok ∧ ∃ k, created.2.state.key = some k ∧
      reload zeroDigest created.2.state (skeyFile sampleId) k.info.role ≠ .ok k := by
  have hshort : Stream.short 9 ≠ .unopened := by decide
  rcases sampleCreate_installed hshort with ⟨k, hgenerated, hstorable, hmode, _, hinstalled⟩
  refine ⟨sampleCreate_ok zeroDigest hshort, k, hinstalled.key, fun hload => ?_⟩
  rcases (hinstalled.loads_iff hstorable hmode hgenerated).1 hload with hcomplete | ⟨hunopened, _⟩
  · cases hcomplete
  · cases hunopened

/-- The file of the open key cannot be removed: the deletion fails, and the key is closed. -/
theorem failed_deletion_closes_key :
    let r := (sampleCreate.run zeroDigest {} freshProcess).2
    let deleted := (KeyCall.delete sampleId).run zeroDigest
      { remove := some "Operation not permitted" } r
    deleted.1 ≠ .ok ∧ deleted.2.state.key ≠ r.state.key := by
  have hcomplete : Stream.complete ≠ .unopened := by decide
  rcases sampleCreate_installed hcomplete with ⟨k, _, _, _, hid, hinstalled⟩
  refine harmed_of_losesKey zeroDigest ⟨sampleId, rfl, rfl, by decide, ⟨k, ?_, hid⟩, Or.inl ?_⟩
  · exact hinstalled.key
  · exact fun hnone => by cases hnone

end Runtime
end SociSgx

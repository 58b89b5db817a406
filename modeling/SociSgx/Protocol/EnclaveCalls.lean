import SociSgx.Protocol.EnclaveKeygen

/-!
# EnclaveCalls — the enclave as a state machine

The remaining calls of `enclave_core.c`, and the runs of one enclave under any sequence of calls:
what its globals are, which key it can hold, and which of its calls can succeed.
-/

namespace SociSgx
namespace Protocol

open Exec SociSgx.Modular Paillier BigEndian OffsetCodec

namespace Enclave

/-! ## The remaining calls -/

variable (e : Enclave)

/-- `ecall_decrypt`: it does not ask for the role, and `u - 1` may be negative. -/
def ecallDecrypt (input : Bytes) (cap : Nat) : Except EnclaveCode Bytes := do
  let k ← e.loaded
  ensure (e.Header input (ascii "SDEC") ∧ 12 ≤ input.length) EnclaveCode.invalid
  ensure (input.getD 6 0 = 0) EnclaveCode.invalid
  let (c, pos) ← orInvalid (importAt input 8)
  ensure (pos = input.length ∧ 0 < c ∧ c < k.nsq) EnclaveCode.invalid
  let u : Int := ((powMod c k.lambdaZ k.nsq : Nat) : Int) - 1
  let m := (u / k.n * k.mu % k.n).toNat
  let len := exportedSize m
  ensure (12 + len ≤ cap) EnclaveCode.buffer
  let wrote := mpzExport m
  let wrote := if wrote.length = 0 ∧ m = 0 then [0] else wrote
  ensure (wrote.length = len) EnclaveCode.crypto
  return e.replyHeader (ascii "SPLN") 0 ++ writeU32 len ++ wrote

/-- The variables of the loop of `ecall_partial_decrypt_batch`. -/
structure BatchCursor where
  pos : Nat
  out : Bytes
  outPos : Nat

/-- A round of that loop; when it fails `out_pos` is where the last item ended. -/
def partialItem (k : EnclaveNumbers) (input : Bytes) (cursor : BatchCursor) (_ : Nat) :
    Except Nat BatchCursor :=
  let round : Except Unit BatchCursor := do
    let (c, pos) ← importAt input cursor.pos
    ensure (0 < c ∧ c < k.nsq) ()
    let (out, outPos) ← exportAt cursor.out cursor.outPos (powMod c k.lambdaZ k.nsq)
    return { pos := pos, out := out, outPos := outPos }
  round.mapError fun _ => cursor.outPos

/-- `good ? OK : (out_pos > cap ? BUFFER : INVALID)` -/
def batchCode (cap outPos : Nat) : EnclaveCode :=
  if cap < outPos then .buffer else .invalid

def ecallPartialDecryptBatch (input : Bytes) (cap : Nat) : Except EnclaveCode Bytes := do
  let k ← e.loaded
  ensure (e.role = cpRole ∨ e.role = cspRole) EnclaveCode.state
  ensure (e.Header input (ascii "SPDB") ∧ 12 ≤ input.length ∧ input.getD 6 0 = 0 ∧
    input.getD 7 0 = 0) EnclaveCode.invalid
  let count := readU32 input 8
  ensure (count ≠ 0 ∧ count ≤ thresholdMaxBatchSize) EnclaveCode.invalid
  let start : BatchCursor := { pos := 12, out := List.replicate cap 0, outPos := 12 }
  let cursor ← ((List.range count).foldlM (partialItem k input) start).mapError (batchCode cap)
  ensure (cursor.pos = input.length) (batchCode cap cursor.outPos)
  return (overwrite cursor.out 0 (e.replyHeader (ascii "SPBR") e.role ++ writeU32 count)).take
    cursor.outPos

/-- `if (!keyed) return STATE;` -/
def keyed : Except EnclaveCode EnclaveNumbers :=
  match e.key with
  | some k => .ok k
  | none => .error .state

def ecallGetPublicKey (cap : Nat) : Except EnclaveCode Bytes := do
  let k ← e.keyed
  let len := exportedSize k.n
  ensure (12 + len ≤ cap) EnclaveCode.buffer
  let wrote := mpzExport k.n
  ensure (wrote.length = len) EnclaveCode.crypto
  return e.replyHeader (ascii "SPUB") e.role ++ writeU32 len ++ wrote

def ecallGetKeyInfo (cap : Nat) : Except EnclaveCode Bytes := do
  let k ← e.keyed
  ensure (12 ≤ cap) EnclaveCode.buffer
  return e.replyHeader (ascii "SINF") e.role ++ writeU32 (sizeInBase2 k.n)

/-! ## Runs -/

/-- The globals of an enclave that was just created, and after `ecall_close`. -/
def blank : Enclave :=
  { initialized := false, runtimeMode := 0, role := 0, key := none }

/-- A call with what the host passes, and with the random bytes that it will read. -/
inductive Call where
  | ecallInitialize (p : Bytes)
  | ecallKeygen (random : List Bytes) (input : Bytes) (cap : Nat)
  | ecallThresholdKeygen (random : List Bytes) (input : Bytes) (cap : Nat)
  | ecallDecrypt (input : Bytes) (cap : Nat)
  | ecallPartialDecrypt (input : Bytes) (cap : Nat)
  | ecallPartialDecryptBatch (input : Bytes) (cap : Nat)
  | ecallCombineDecrypt (input : Bytes) (cap : Nat)
  | ecallThresholdDecryptBatch (input : Bytes) (cap : Nat)
  | ecallLoadSealedKey (input : Bytes)
  | ecallGetPublicKey (cap : Nat)
  | ecallGetKeyInfo (cap : Nat)
  | ecallClose

/-- A call that does not write the globals. -/
def reading (f : Enclave → Except EnclaveCode Bytes) : EStateM EnclaveCode Enclave Bytes := do
  let e ← get
  Exec.lift (f e)

/-- What a call does in an enclave that is built for the role `built`. -/
def call (platform : Platform) (built : UInt8) : Call → EStateM EnclaveCode Enclave Bytes
  | .ecallInitialize p => do
      let e ← Exec.lift (ecallInitialize built p)
      set e
      return []
  | .ecallKeygen random input cap => ecallKeygen platform built random input cap
  | .ecallThresholdKeygen random input cap => ecallThresholdKeygen platform built random input cap
  | .ecallDecrypt input cap => reading fun e => e.ecallDecrypt input cap
  | .ecallPartialDecrypt input cap => reading fun e => e.ecallPartialDecrypt input cap
  | .ecallPartialDecryptBatch input cap => reading fun e => e.ecallPartialDecryptBatch input cap
  | .ecallCombineDecrypt input cap => reading fun e => e.ecallCombineDecrypt input cap
  | .ecallThresholdDecryptBatch input cap => reading fun e => e.ecallThresholdDecryptBatch input cap
  | .ecallLoadSealedKey input => do
      ecallLoadSealedKey platform.sealer input
      return []
  | .ecallGetPublicKey cap => reading fun e => e.ecallGetPublicKey cap
  | .ecallGetKeyInfo cap => reading fun e => e.ecallGetKeyInfo cap
  | .ecallClose => do
      set blank
      return []

/-- The globals after a call, whether it succeeded or not. -/
def step (platform : Platform) (built : UInt8) (e : Enclave) (c : Call) : Enclave :=
  match call platform built c e with
  | .ok _ e' => e'
  | .error _ e' => e'

/-- The globals after the calls that an enclave has had since it was created. -/
def run (platform : Platform) (built : UInt8) (calls : List Call) : Enclave :=
  calls.foldl (step platform built) blank

/-! ## What one call can do -/

/-- A blob was unsealed, is for this enclave, and holds `k`. -/
structure Loaded (sealer : Sealer) (e : Enclave) (blob plain : Bytes) (k : EnclaveNumbers) :
    Prop where
  initialized : e.initialized = true
  unsealed : sealer.unsealData blob = some plain
  mode : plain.getD 5 0 = e.runtimeMode
  role : plain.getD 6 0 = e.role
  numbers : readNumbers plain (decide (20 ≤ plain.length ∧ plain.take 4 = ascii "TSHR")) e.role =
    .ok (k, plain.length)

/-- How a call that succeeds gives the enclave the key `k`. -/
inductive Installs (platform : Platform) (built : UInt8) (e : Enclave) :
    Call → EnclaveNumbers → Prop where
  | made {random : List Bytes} {input : Bytes} {cap bits : Nat} {k : EnclaveNumbers}
      {blob out : Bytes} (h : MadeKey platform built random input e bits k blob out) :
      Installs platform built e (.ecallKeygen random input cap) k
  | shared {random : List Bytes} {input : Bytes} {cap bits : Nat} {k : EnclaveNumbers}
      {keys : ThresholdKeys} {cp csp out : Bytes}
      (h : MadeShares platform built random input e bits k keys cp csp out) :
      Installs platform built e (.ecallThresholdKeygen random input cap) k
  | loaded {blob plain : Bytes} {k : EnclaveNumbers} (h : Loaded platform.sealer e blob plain k) :
      Installs platform built e (.ecallLoadSealedKey blob) k

/-- The globals after a call that succeeds. -/
inductive After (platform : Platform) (built : UInt8) (e : Enclave) (c : Call) :
    Enclave → Prop where
  | read : After platform built e c e
  | initialized (mode : UInt8) (h : 1 ≤ mode ∧ mode ≤ 2) :
      After platform built e c
        { initialized := true, runtimeMode := mode, role := built, key := none }
  | installed (k : EnclaveNumbers) (h : Installs platform built e c k) :
      After platform built e c { e with key := some k }
  | closed : After platform built e c blank

/-- The calls that an enclave of a role can answer. -/
def Permits (built : UInt8) : Call → Prop
  | .ecallKeygen .. | .ecallThresholdKeygen .. => built = 0
  | .ecallPartialDecrypt .. | .ecallPartialDecryptBatch .. => built = cpRole ∨ built = cspRole
  | .ecallCombineDecrypt .. | .ecallThresholdDecryptBatch .. => built = cspRole
  | _ => True

section Effects

variable {platform : Platform} {built : UInt8} {e : Enclave}

theorem ecallInitialize_eq_ok {p : Bytes} {e' : Enclave} (h : ecallInitialize built p = .ok e') :
    ∃ mode, (1 ≤ mode ∧ mode ≤ 2) ∧
      e' = { initialized := true, runtimeMode := mode, role := built, key := none } := by
  rcases bind_eq_ok.1 h with ⟨_, hp, h⟩
  rw [ensure_eq_ok] at hp
  cases h
  refine ⟨p.getD 5 0, ⟨hp.2.2.2.1, hp.2.2.2.2.1⟩, ?_⟩
  rw [hp.2.2.2.2.2]

theorem ecallLoadSealedKey_spec (input : Bytes) :
    Triple (fun t => t = e) (ecallLoadSealedKey platform.sealer input)
      (fun _ e' => ∃ plain k, Loaded platform.sealer e input plain k ∧
        e' = { e with key := some k }) fun _ e' => e.Cleared e' := by
  have hsame : e.Cleared e := Or.inl rfl
  have hcleared : e.Cleared { e with key := none } := Or.inr rfl
  refine get_at (require_at (fun hinit => require_at (fun _ => ?_) fun _ => hsame) fun _ => hsame)
  split
  · exact throw_at hsame
  · rename_i plain hplain
    refine require_at (fun hheader => set_at ?_) fun _ => hsame
    split
    · exact throw_at hcleared
    · rename_i k pos hread
      refine require_at (fun hpos => ?_) fun _ => hcleared
      subst hpos
      intro t ht
      exact ⟨plain, k, ⟨hinit.1, hplain, hheader.2.2.2.1, hheader.2.2.2.2, hread⟩, rfl⟩

theorem reading_spec (f : Enclave → Except EnclaveCode Bytes) :
    Triple (fun t => t = e) (reading f) (fun out e' => f e = .ok out ∧ e' = e)
      fun _ e' => e' = e := by
  refine get_at ?_
  intro t ht
  subst ht
  unfold Exec.lift
  cases f t with
  | ok out => exact ⟨rfl, rfl⟩
  | error code => rfl

/-- A call that succeeds has one of four effects, and one that fails can only lose the key. -/
theorem call_spec (c : Call) :
    Triple (fun t => t = e) (call platform built c) (fun _ e' => After platform built e c e')
      fun _ e' => e.Cleared e' := by
  have hreading : ∀ f : Enclave → Except EnclaveCode Bytes,
      Triple (fun t => t = e) (reading f) (fun _ e' => After platform built e c e')
        fun _ e' => e.Cleared e' := by
    intro f
    refine (reading_spec f).weaken (fun _ h => h) ?_ fun _ _ h => Or.inl h
    rintro out e' ⟨_, rfl⟩
    exact .read
  cases c with
  | ecallInitialize p =>
      refine lift_at (fun e' he' => set_at (pure_at ?_)) fun _ _ => Or.inl rfl
      rcases ecallInitialize_eq_ok he' with ⟨mode, hmode, rfl⟩
      exact .initialized mode hmode
  | ecallKeygen random input cap =>
      refine ecallKeygen_spec.post ?_
      rintro out e' ⟨bits, k, blob, hmade, rfl⟩
      exact .installed k (.made hmade)
  | ecallThresholdKeygen random input cap =>
      refine ecallThresholdKeygen_spec.post ?_
      rintro out e' ⟨bits, k, keys, cp, csp, hmade, rfl⟩
      exact .installed k (.shared hmade)
  | ecallDecrypt input cap => exact hreading _
  | ecallPartialDecrypt input cap => exact hreading _
  | ecallPartialDecryptBatch input cap => exact hreading _
  | ecallCombineDecrypt input cap => exact hreading _
  | ecallThresholdDecryptBatch input cap => exact hreading _
  | ecallLoadSealedKey input =>
      refine (ecallLoadSealedKey_spec input).bind fun _ => Triple.pure ?_
      rintro e' ⟨plain, k, hloaded, rfl⟩
      exact .installed k (.loaded hloaded)
  | ecallGetPublicKey cap => exact hreading _
  | ecallGetKeyInfo cap => exact hreading _
  | ecallClose => exact set_at (pure_at .closed)

variable (platform built e) in
theorem step_cases (c : Call) : ∃ e', step platform built e c = e' ∧
    (After platform built e c e' ∨ e.Cleared e') := by
  have hcall := @call_spec platform built e c e rfl
  unfold step
  cases h : call platform built c e with
  | ok out e' =>
      rw [h] at hcall
      exact ⟨e', rfl, Or.inl hcall⟩
  | error code e' =>
      rw [h] at hcall
      exact ⟨e', rfl, Or.inr hcall⟩

end Effects

/-! ## The globals in a run -/

/-- What the globals are between two calls. -/
def Sound (built : UInt8) (e : Enclave) : Prop :=
  e = blank ∨ (e.initialized = true ∧ e.role = built ∧ 1 ≤ e.runtimeMode ∧ e.runtimeMode ≤ 2)

section Runs

variable {platform : Platform} {built : UInt8} {e : Enclave}

theorem Installs.initialized {c : Call} {k : EnclaveNumbers} (h : Installs platform built e c k) :
    e.initialized = true := by
  cases h with
  | made h => exact h.checked.initialized
  | shared h => exact h.checked.initialized
  | loaded h => exact h.initialized

theorem Sound.cleared (h : Sound built e) : Sound built { e with key := none } := by
  rcases h with rfl | h
  · exact Or.inl rfl
  · exact Or.inr h

theorem Sound.step (h : Sound built e) (c : Call) : Sound built (step platform built e c) := by
  rcases step_cases platform built e c with ⟨e', he', hafter | hcleared⟩ <;> rw [he']
  · cases hafter with
    | read => exact h
    | initialized mode hmode => exact Or.inr ⟨rfl, rfl, hmode⟩
    | installed k hk =>
        rcases h with rfl | h
        · exact absurd hk.initialized (by decide)
        · exact Or.inr h
    | closed => exact Or.inl rfl
  · rcases hcleared with rfl | rfl
    · exact h
    · exact h.cleared

/-! ## The keys in a run -/

/-- What the key generations of provisioning enclaves seal. -/
inductive Sealed (probabPrime : Nat → Bool) : Bytes → Prop where
  | cp {bits : Nat} {random : List Bytes} {k : EnclaveNumbers} {keys : ThresholdKeys}
      (mode : UInt8) (hbits : bits ≤ 8192)
      (h : drawShares probabPrime bits random = some (k, keys)) :
      Sealed probabPrime
        (shareBytes mode cpRole k.n keys.lambda1 k.mu (UInt32.ofNat bits))
  | csp {bits : Nat} {random : List Bytes} {k : EnclaveNumbers} {keys : ThresholdKeys}
      (mode : UInt8) (hbits : bits ≤ 8192)
      (h : drawShares probabPrime bits random = some (k, keys)) :
      Sealed probabPrime
        (shareBytes mode cspRole k.n keys.lambda2 k.mu (UInt32.ofNat bits))
  | secret {bits p q : Nat} {random rest : List Bytes} {k : EnclaveNumbers} (mode : UInt8)
      (hbits : bits ≤ 8192) (h : drawPrimes probabPrime bits random = some ((p, q), rest))
      (hk : keyNumbers p q = some k) : Sealed probabPrime (secretBytes mode 0 k bits)

/-- Sealing is authentic: what unseals was sealed by a key generation. -/
def Authentic (platform : Platform) : Prop :=
  ∀ blob plain, platform.sealer.unsealData blob = some plain → Sealed platform.probabPrime plain

/-- The keys that an enclave of a role can hold: a full key, or the share of its party. -/
inductive Held : UInt8 → EnclaveNumbers → Prop where
  | full {p q : Nat} {k : EnclaveNumbers} (hkp : KeyPrimes p q) (hk : FullKey p q k)
      (hsize : sizeInBase2 k.n ≤ 8192) : Held 0 k
  | cp {p q : Nat} {keys : ThresholdKeys} (hkp : KeyPrimes p q) (hk : SplitKey p q keys)
      (hsize : sizeInBase2 keys.n ≤ 8192) :
      Held cpRole (installed cpRole keys.n keys.lambda1 keys.mu)
  | csp {p q : Nat} {keys : ThresholdKeys} (hkp : KeyPrimes p q) (hk : SplitKey p q keys)
      (hsize : sizeInBase2 keys.n ≤ 8192) :
      Held cspRole (installed cspRole keys.n keys.lambda2 keys.mu)

theorem Held.square {k : EnclaveNumbers} (h : Held built k) : k.nsq = k.n * k.n := by
  cases h with
  | full _ hk _ => exact hk.square
  | cp => rfl
  | csp => rfl

/-- The sizes of what is sealed fit into their fields. -/
theorem shareSize_small {n share mu : Nat} (role : UInt8) (hn : sizeInBase2 n ≤ 8192)
    (hshare : share ≤ n) (hmu : mu ≤ n) : shareSize role n share mu < 2 ^ 32 := by
  have h1 := exportedSize_le hn le_rfl
  have h2 := exportedSize_le hn hshare
  have h3 := exportedSize_le hn hmu
  unfold shareSize
  split <;> omega

/-- A full key is read back from its secret. -/
theorem readNumbers_secretBytes {k : EnclaveNumbers} (mode : UInt8) (bits : Nat)
    (hn : sizeInBase2 k.n ≤ 8192) (hk : WithinModulus k) (hsquare : k.nsq = k.n * k.n) :
    readNumbers (secretBytes mode 0 k bits) false 0 =
      .ok (k, (secretBytes mode 0 k bits).length) := by
  have hwritable : ∀ z ≤ k.n, Writable z := by
    intro z hz
    have hsize := exportedSize_le hn hz
    unfold Writable
    omega
  have hheader : (secretHeader mode 0 bits).length = 12 := by simp [secretHeader, ascii]
  have hstart : Behind (secretBytes mode 0 k bits) 12
      (integerBytes k.n ++ (integerBytes k.lambdaZ ++ (integerBytes k.mu ++ []))) := by
    have hbehind := behind_append (secretHeader mode 0 bits)
      ([k.n, k.lambdaZ, k.mu].flatMap integerBytes)
    rwa [hheader] at hbehind
  have hlambda := hstart.skip
  have hmu := hlambda.skip
  have hread1 := importAt_readsBack.next (hwritable _ le_rfl) hstart
  have hread2 := importAt_readsBack.next (hwritable _ hk.lambda) hlambda
  have hread3 := importAt_readsBack.next (hwritable _ hk.mu) hmu
  have hnumbers : (⟨k.n, k.n * k.n, k.lambdaZ, k.mu⟩ : EnclaveNumbers) = k := by
    rw [← hsquare]
  refine bind_eq_ok.2 ⟨_, hread1, bind_eq_ok.2 ⟨_, hread2, ?_⟩⟩
  dsimp only
  rw [if_pos (by decide)]
  refine bind_eq_ok.2 ⟨_, hread3, ?_⟩
  rw [← hmu.skip.end_eq]
  exact congrArg (fun k' => Except.ok (ε := Unit) (k', _)) hnumbers

/-- The key of a sealed plaintext that is for this enclave is one of its role. -/
theorem Sealed.held {plain : Bytes} {k : EnclaveNumbers}
    (hcertain : Certain platform.probabPrime) (h : Sealed platform.probabPrime plain)
    (hrole : plain.getD 6 0 = built)
    (hread : readNumbers plain (decide (20 ≤ plain.length ∧ plain.take 4 = ascii "TSHR")) built =
      .ok (k, plain.length)) : Held built k := by
  -- A share names its role in its header, and is read as it was written.
  have hshare : ∀ {mode role : UInt8} {n share mu bits : Nat}, sizeInBase2 n ≤ 8192 →
      share ≤ n → mu ≤ n → plain = shareBytes mode role n share mu (UInt32.ofNat bits) →
        role = built ∧ k = installed role n share mu := by
    rintro mode role n share mu bits hn hle hmu rfl
    have hbuilt : role = built := hrole
    subst hbuilt
    have hlong : 20 ≤ (shareBytes mode role n share mu (UInt32.ofNat bits)).length := by
      rw [length_shareBytes]
      unfold shareSize
      omega
    have hthreshold : decide (20 ≤ (shareBytes mode role n share mu (UInt32.ofNat bits)).length ∧
        (shareBytes mode role n share mu (UInt32.ofNat bits)).take 4 = ascii "TSHR") = true :=
      decide_eq_true ⟨hlong, rfl⟩
    rw [hthreshold, readNumbers_shareBytes mode (UInt32.ofNat bits)
      (shareSize_small role hn hle hmu)] at hread
    exact ⟨rfl, (Prod.mk.inj (Except.ok.inj hread)).1.symm⟩
  cases h with
  | @cp bits random k' keys mode hbits h =>
      rcases drawShares_spec hcertain h with ⟨p, q, hkp, _, _, hsplit, _, hshares⟩
      have hsmall := drawShares_small hcertain hbits h
      obtain ⟨rfl, rfl⟩ := hshare hsmall.size hsmall.lambda1 hsmall.mu rfl
      rw [← hshares.n, ← hshares.mu]
      exact .cp hkp hsplit (hshares.n ▸ hsmall.size)
  | @csp bits random k' keys mode hbits h =>
      rcases drawShares_spec hcertain h with ⟨p, q, hkp, _, _, hsplit, _, hshares⟩
      have hsmall := drawShares_small hcertain hbits h
      obtain ⟨rfl, rfl⟩ := hshare hsmall.size hsmall.lambda2 hsmall.mu rfl
      rw [← hshares.n, ← hshares.mu]
      exact .csp hkp hsplit (hshares.n ▸ hsmall.size)
  | @secret bits p q random rest k' mode hbits h hk =>
      have hkp := (drawPrimes_spec hcertain h).1
      have hsize := drawPrimes_small hcertain hbits h
      have hwithin := keyNumbers_within hkp hk
      have hfull := keyNumbers_full hkp hk
      have hbuilt : (0 : UInt8) = built := hrole
      subst hbuilt
      have hfalse : decide (20 ≤ (secretBytes mode 0 k' bits).length ∧
          (secretBytes mode 0 k' bits).take 4 = ascii "TSHR") = false :=
        decide_eq_false fun hmagic => absurd hmagic.2 (by decide : ¬ ascii "SKEY" = ascii "TSHR")
      rw [← hfull.modulus] at hsize
      rw [hfalse, readNumbers_secretBytes mode bits hsize hwithin hfull.square] at hread
      rw [← (Prod.mk.inj (Except.ok.inj hread)).1]
      exact .full hkp hfull hsize

/-- A call gives the enclave a key of its role only. -/
theorem Installs.held {c : Call} {k : EnclaveNumbers} (hcertain : Certain platform.probabPrime)
    (hauthentic : Authentic platform) (hsound : Sound built e)
    (h : Installs platform built e c k) : Held built k := by
  have hinit := h.initialized
  cases h with
  | made h =>
      obtain ⟨p, q, rest, hprimes, hk⟩ := h.drawn
      have hkp := (drawPrimes_spec hcertain hprimes).1
      have hfull := keyNumbers_full hkp hk
      have hsize := drawPrimes_small hcertain h.checked.range.2.1 hprimes
      rw [← hfull.modulus] at hsize
      rw [h.checked.provisioning]
      exact .full hkp hfull hsize
  | shared h =>
      rcases drawShares_spec hcertain h.drawn with ⟨p, q, hkp, _, _, _, hfull, _⟩
      have hsmall := drawShares_small hcertain h.checked.range.2.1 h.drawn
      rw [h.checked.provisioning]
      exact .full hkp hfull hsmall.size
  | loaded h =>
      rcases hsound with rfl | ⟨_, hrole, _⟩
      · exact absurd hinit (by decide)
      · have hplain := h.role
        have hread := h.numbers
        rw [hrole] at hplain hread
        exact (hauthentic _ _ h.unsealed).held hcertain hplain hread

/-- Where the key of an enclave comes from: one of its calls has installed it, in the same mode. -/
def Installed (platform : Platform) (built : UInt8) (calls : List Call) (e : Enclave)
    (k : EnclaveNumbers) : Prop :=
  ∃ before c after, calls = before ++ c :: after ∧
    Installs platform built (run platform built before) c k ∧
      (run platform built before).runtimeMode = e.runtimeMode

/-- What holds of an enclave after any calls. -/
structure Reached (platform : Platform) (built : UInt8) (calls : List Call) (e : Enclave) :
    Prop where
  sound : Sound built e
  key : ∀ k, e.key = some k → Held built k ∧ Installed platform built calls e k

theorem run_concat (calls : List Call) (c : Call) :
    run platform built (calls ++ [c]) = step platform built (run platform built calls) c := by
  unfold run
  rw [List.foldl_append]
  rfl

theorem Reached.step {calls : List Call} (hcertain : Certain platform.probabPrime)
    (hauthentic : Authentic platform)
    (h : Reached platform built calls (run platform built calls)) (c : Call) :
    Reached platform built (calls ++ [c]) (run platform built (calls ++ [c])) := by
  have hsound : Sound built (run platform built (calls ++ [c])) := by
    rw [run_concat]
    exact h.sound.step c
  refine ⟨hsound, fun k hk => ?_⟩
  rw [run_concat] at hk ⊢
  -- A key that was there before keeps its origin.
  have hkept : (run platform built calls).key = some k → Held built k ∧
      Installed platform built (calls ++ [c]) (run platform built calls) k := by
    intro hkey
    rcases h.key k hkey with ⟨hheld, before, c', after, hcalls, hinstalls, hmode⟩
    refine ⟨hheld, before, c', after ++ [c], ?_, hinstalls, hmode⟩
    rw [hcalls, List.append_assoc, List.cons_append]
  rcases step_cases platform built (run platform built calls) c with
    ⟨e', he', hafter | rfl | rfl⟩ <;> rw [he'] at hk ⊢
  · cases hafter with
    | read => exact hkept hk
    | initialized => cases hk
    | installed k' hinstalls =>
        cases hk
        refine ⟨hinstalls.held hcertain hauthentic h.sound, calls, c, [], rfl, hinstalls, rfl⟩
    | closed => cases hk
  · exact hkept hk
  · cases hk

theorem run_reached (hcertain : Certain platform.probabPrime) (hauthentic : Authentic platform)
    (calls : List Call) : Reached platform built calls (run platform built calls) := by
  induction calls using List.reverseRecOn with
  | nil => exact ⟨Or.inl rfl, fun k hk => nomatch hk⟩
  | append_singleton calls c ih => exact ih.step hcertain hauthentic c

/-! ## What the calls of a run answer -/

theorem loaded_eq_ok {k : EnclaveNumbers} (h : e.loaded = .ok k) :
    e.initialized = true ∧ e.key = some k := by
  unfold loaded at h
  split at h
  · rename_i hinit hkey
    cases h
    exact ⟨hinit, hkey⟩
  · cases h

theorem Sound.role_of_loaded {k : EnclaveNumbers} (h : Sound built e) (hk : e.loaded = .ok k) :
    e.role = built := by
  rcases h with rfl | ⟨_, hrole, _⟩
  · cases hk
  · exact hrole

theorem reading_ok {f : Enclave → Except EnclaveCode Bytes} {out : Bytes} {e' : Enclave}
    (h : reading f e = .ok out e') : f e = .ok out ∧ e' = e := by
  have hspec := reading_spec (e := e) f e rfl
  rw [h] at hspec
  exact hspec

/-- Only the calls of its role succeed in an enclave. -/
theorem Sound.permits {c : Call} {out : Bytes} {e' : Enclave} (hsound : Sound built e)
    (h : call platform built c e = .ok out e') : Permits built c := by
  -- A call that decrypts first asks for the key, and then for the role.
  have hrole : ∀ {f : EnclaveNumbers → Except EnclaveCode Bytes} {P : UInt8 → Prop}
      [DecidablePred P], (e.loaded >>= fun k => ensure (P e.role) EnclaveCode.state >>= fun _ =>
        f k) = .ok out → P built := by
    intro f P _ hf
    rcases bind_eq_ok.1 hf with ⟨k, hk, hf⟩
    rcases bind_eq_ok.1 hf with ⟨_, hP, _⟩
    rw [ensure_eq_ok, hsound.role_of_loaded hk] at hP
    exact hP
  cases c with
  | ecallKeygen random input cap =>
      have hspec := @ecallKeygen_spec platform built random input cap e e rfl
      rw [show ecallKeygen platform built random input cap e = .ok out e' from h] at hspec
      obtain ⟨bits, k, blob, hmade, _⟩ := hspec
      exact hmade.checked.provisioning
  | ecallThresholdKeygen random input cap =>
      have hspec := @ecallThresholdKeygen_spec platform built random input cap e e rfl
      rw [show ecallThresholdKeygen platform built random input cap e = .ok out e' from h] at hspec
      obtain ⟨bits, k, keys, cp, csp, hmade, _⟩ := hspec
      exact hmade.checked.provisioning
  | ecallPartialDecrypt input cap =>
      exact hrole (P := fun role => role = cpRole ∨ role = cspRole) (reading_ok h).1
  | ecallPartialDecryptBatch input cap =>
      exact hrole (P := fun role => role = cpRole ∨ role = cspRole) (reading_ok h).1
  | ecallCombineDecrypt input cap => exact hrole (P := fun role => role = cspRole) (reading_ok h).1
  | ecallThresholdDecryptBatch input cap =>
      exact hrole (P := fun role => role = cspRole) (reading_ok h).1
  | ecallInitialize | ecallDecrypt | ecallLoadSealedKey | ecallGetPublicKey | ecallGetKeyInfo
  | ecallClose => trivial

/-! ## Decryption with the key that is there -/

/-- `L(c ^ lambda) * mu`, from whatever the two numbers are. -/
def decrypted (k : EnclaveNumbers) (c : Nat) : Nat :=
  ((((powMod c k.lambdaZ k.nsq : Nat) : Int) - 1) / k.n * k.mu % k.n).toNat

theorem ecallDecrypt_ok {input out : Bytes} {cap : Nat} (h : e.ecallDecrypt input cap = .ok out) :
    ∃ k c, e.loaded = .ok k ∧
      out = e.replyHeader (ascii "SPLN") 0 ++ integerBytes (decrypted k c) := by
  rcases bind_eq_ok.1 h with ⟨k, hk, h⟩
  rcases bind_eq_ok.1 h with ⟨_, _, h⟩
  rcases bind_eq_ok.1 h with ⟨_, _, h⟩
  rcases bind_eq_ok.1 h with ⟨⟨c, pos⟩, _, h⟩
  rcases bind_eq_ok.1 h with ⟨_, _, h⟩
  rcases bind_eq_ok.1 h with ⟨_, _, h⟩
  rcases bind_eq_ok.1 h with ⟨_, _, h⟩
  cases h
  refine ⟨k, c, hk, ?_⟩
  rw [mpzExport_patched, reply_integer]
  rfl

/-- A full key decrypts. -/
theorem decrypted_full {p q c : Nat} {k : EnclaveNumbers} {m : Int} (hkp : KeyPrimes p q)
    (hk : FullKey p q k) (hc : Encrypts k.n c m) : decrypted k c = (m % k.n).toNat := by
  have hmod := hk.modulus
  have hn : 1 < k.n := hmod ▸ hkp.one_lt
  have hannihilates : ∀ x : Nat, x.Coprime k.n → x ^ k.lambdaZ ≡ 1 [MOD k.n] := by
    rw [hk.exponent, hmod]
    exact hkp.annihilates
  have hpower : ((powMod c k.lambdaZ (k.n * k.n) : Nat) : Residues k.n) =
      1 + ((k.lambdaZ * m : Int) : Residues k.n) * k.n := by
    rw [natCast_powMod, hc.pow_exponent hannihilates]
    push_cast
    rfl
  have hinverse : (k.lambdaZ : Int) * k.mu ≡ 1 [ZMOD k.n] := by
    rw [← ZMod.intCast_eq_intCast_iff, hk.exponent, hmod]
    push_cast
    exact hk.inverse
  have hvalue := (decoded hn hpower hinverse).2
  unfold decrypted
  rw [hk.square, hvalue]

/-- The call decrypts a request that it was meant for. -/
theorem ecallDecrypt_full {p q c cap : Nat} {k : EnclaveNumbers} {m : Int} (hkp : KeyPrimes p q)
    (hk : FullKey p q k) (hsize : sizeInBase2 k.n ≤ 8192) (hloaded : e.loaded = .ok k)
    (hc : Encrypts k.n c m) (hcap : 1036 ≤ cap) :
    e.ecallDecrypt (ascii "SDEC" ++ [1, e.runtimeMode, 0, 0] ++ integerBytes c) cap =
      .ok (e.replyHeader (ascii "SPLN") 0 ++ integerBytes (m % k.n).toNat) := by
  have hn : 1 < k.n := hk.modulus ▸ hkp.one_lt
  have hlt : c < k.n * k.n := hc.lt
  have hexported : exportedSize c ≤ 2048 :=
    (exportedSize_mono hlt.le).trans (exportedSize_square hsize)
  have hwritable : Writable c := by
    unfold Writable
    omega
  have hread := importAt_request (ascii "SDEC") rfl e.runtimeMode hwritable []
  rw [List.append_nil] at hread
  have hlen : (ascii "SDEC" ++ [1, e.runtimeMode, 0, 0] ++ integerBytes c).length =
      8 + (4 + exportedSize c) := by simp [ascii]; omega
  have hplain : exportedSize (decrypted k c) ≤ 1024 := by
    rw [decrypted_full hkp hk hc]
    refine exportedSize_le hsize ?_
    have hpos : (0 : Int) < k.n := by omega
    have hmod := Int.emod_lt_of_pos m hpos
    have hnonneg := Int.emod_nonneg m hpos.ne'
    omega
  refine bind_eq_ok.2 ⟨k, hloaded, ?_⟩
  refine bind_eq_ok.2 ⟨(), ensure_of ⟨?_, by rw [hlen]; omega⟩, ?_⟩
  · exact header_request (ascii "SDEC") rfl _ (by rw [length_integerBytes]; omega)
  refine bind_eq_ok.2 ⟨(), ensure_of rfl, bind_eq_ok.2 ⟨_, orInvalid_eq_ok.2 hread, ?_⟩⟩
  refine bind_eq_ok.2 ⟨(), ensure_of ⟨hlen.symm, hc.pos hn, hk.square ▸ hlt⟩, ?_⟩
  refine bind_eq_ok.2 ⟨(), ensure_of ?_, ?_⟩
  · exact (Nat.add_le_add_left hplain 12).trans hcap
  dsimp only
  rw [mpzExport_patched]
  refine bind_eq_ok.2 ⟨(), ensure_of (length_magnitude _), ?_⟩
  rw [reply_integer, ← decrypted_full hkp hk hc]
  rfl

/-! ## Every run of an enclave -/

theorem Held.mu_cp {k : EnclaveNumbers} (h : Held built k) (hbuilt : built = cpRole) :
    k.mu = 0 := by
  cases h with
  | full => exact absurd hbuilt (by decide)
  | cp => rfl
  | csp => exact absurd hbuilt (by decide)

theorem Held.full_of {k : EnclaveNumbers} (h : Held built k) (hbuilt : built = 0) :
    ∃ p q, KeyPrimes p q ∧ FullKey p q k ∧ sizeInBase2 k.n ≤ 8192 := by
  cases h with
  | full hkp hk hsize => exact ⟨_, _, hkp, hk, hsize⟩
  | cp => exact absurd hbuilt (by decide)
  | csp => exact absurd hbuilt (by decide)

theorem decrypted_cp {k : EnclaveNumbers} (h : k.mu = 0) (c : Nat) : decrypted k c = 0 := by
  simp [decrypted, h]

theorem call_decrypt (input : Bytes) (cap : Nat) :
    call platform built (.ecallDecrypt input cap) e =
      Exec.lift (ε := EnclaveCode) (e.ecallDecrypt input cap) e :=
  rfl

theorem Sound.loaded_of_key {k : EnclaveNumbers} (h : Sound built e) (hk : e.key = some k) :
    e.loaded = .ok k := by
  rcases h with rfl | ⟨hinit, _⟩
  · cases hk
  · unfold loaded
    rw [hinit, hk]

/-- After any calls an enclave holds no key but one of its role, which one of these calls installed
in the same mode; only the calls of its role succeed.  The decryption call, which asks for no role,
answers zero with the share of the CP, and the plaintext with a full key. -/
theorem run_calls (platform : Platform) (hcertain : Certain platform.probabPrime)
    (hauthentic : Authentic platform) (built : UInt8) (calls : List Call) :
    let e := run platform built calls
    Sound built e ∧
    (∀ k, e.key = some k → Held built k ∧ Installed platform built calls e k) ∧
    (∀ c out e', call platform built c e = .ok out e' → Permits built c) ∧
    (built = cpRole → ∀ input cap out e', call platform built (.ecallDecrypt input cap) e =
      .ok out e' → out = e.replyHeader (ascii "SPLN") 0 ++ integerBytes 0) ∧
    (built = 0 → ∀ k c m cap, e.key = some k → Encrypts k.n c m → 1036 ≤ cap →
      call platform built (.ecallDecrypt
          (ascii "SDEC" ++ [1, e.runtimeMode, 0, 0] ++ integerBytes c) cap) e =
        .ok (e.replyHeader (ascii "SPLN") 0 ++ integerBytes (m % k.n).toNat) e) := by
  have hreached : Reached platform built calls (run platform built calls) :=
    run_reached hcertain hauthentic calls
  refine ⟨hreached.sound, hreached.key, fun c out e' => hreached.sound.permits, ?_, ?_⟩
  · intro hbuilt input cap out e' hcall
    rcases ecallDecrypt_ok (reading_ok hcall).1 with ⟨k, c, hk, hout⟩
    have hheld := (hreached.key k (loaded_eq_ok hk).2).1
    rw [hout, decrypted_cp (hheld.mu_cp hbuilt)]
  · intro hbuilt k c m cap hkey hc hcap
    rcases (hreached.key k hkey).1.full_of hbuilt with ⟨p, q, hkp, hk, hsize⟩
    have hloaded := hreached.sound.loaded_of_key hkey
    rw [call_decrypt, ecallDecrypt_full hkp hk hsize hloaded hc hcap]
    rfl

theorem step_of_ok {c : Call} {out : Bytes} {e' : Enclave}
    (h : call platform built c e = .ok out e') : step platform built e c = e' := by
  unfold step
  rw [h]

theorem run_load (platform : Platform) (built : UInt8) {p blob : Bytes} {e e' : Enclave}
    (hload : ecallLoadSealedKey platform.sealer blob e = .ok () e')
    (hinit : ecallInitialize built p = .ok e) :
    run platform built [.ecallInitialize p, .ecallLoadSealedKey blob] = e' := by
  have hfirst : call platform built (.ecallInitialize p) blank = .ok [] e := by
    have hlift : (Exec.lift (ecallInitialize built p) : EStateM EnclaveCode Enclave Enclave) blank =
        .ok e blank := by
      rw [hinit]
      rfl
    exact (bind_of_ok hlift).trans rfl
  have hsecond : call platform built (.ecallLoadSealedKey blob) e = .ok [] e' :=
    bind_of_ok hload
  unfold run
  rw [List.foldl_cons, List.foldl_cons, List.foldl_nil, step_of_ok hfirst, step_of_ok hsecond]

open Classical in
/-- The CP's enclave with the share of a key of 3072 bits, where sealing is authentic. -/
theorem run_calls_3072 : ∃ (platform : Platform) (calls : List Call) (k : EnclaveNumbers),
    (run platform cpRole calls).key = some k ∧ 3071 ≤ sizeInBase2 k.n ∧
    (∀ k', (run platform cpRole calls).key = some k' → Held cpRole k' ∧
      Installed platform cpRole calls (run platform cpRole calls) k') ∧
    ∀ input cap out e', call platform cpRole (.ecallDecrypt input cap)
        (run platform cpRole calls) = .ok out e' →
      out = (run platform cpRole calls).replyHeader (ascii "SPLN") 0 ++ integerBytes 0 := by
  rcases drawShares_sample with ⟨k, keys, hdrawn, hsize⟩
  have hsmall := drawShares_small isPrime_certain (by decide) hdrawn
  let unsealed : Bytes → Option Bytes := fun blob =>
    if Sealed isPrime (blob.drop 560) then some (blob.drop 560) else none
  let sealer : Sealer := { copySealer with unsealData := unsealed }
  let platform : Platform := ⟨sealer, copySealer.sealDataEx, isPrime⟩
  have hauthentic : Authentic platform := by
    intro blob plain hplain
    by_cases hsealed : Sealed isPrime (blob.drop 560)
    · rw [show platform.sealer.unsealData blob = some (blob.drop 560) from if_pos hsealed] at hplain
      cases hplain
      exact hsealed
    · rw [show platform.sealer.unsealData blob = none from if_neg hsealed] at hplain
      cases hplain
  let share := shareBytes 1 cpRole k.n keys.lambda1 k.mu (UInt32.ofNat 3072)
  let blob := blankHeader ++ share
  have hlen : blob.length = 560 + shareSize cpRole k.n keys.lambda1 k.mu := by
    rw [List.length_append, length_blankHeader, length_shareBytes]
  have hdrop : blob.drop 560 = share := List.drop_left' length_blankHeader
  have hholds : HoldsShare sealer blob 1 cpRole k.n keys.lambda1 k.mu (UInt32.ofNat 3072) := by
    refine ⟨hlen, ?_, ?_⟩
    · exact (congrArg (· - 560) hlen).trans (Nat.add_sub_cancel_left _ _)
    · have hsealed : Sealed isPrime (blob.drop 560) := by
        rw [hdrop]
        exact .cp 1 (by decide) hdrawn
      exact (if_pos hsealed).trans (congrArg some hdrop)
  have hmin : 4 ≤ exportedSize k.n + exportedSize keys.lambda1 := by
    have hn : exportedSize k.n = (sizeInBase2 k.n + 7) / 8 := rfl
    omega
  have hmax : blob.length ≤ maxInput := by
    have h1 := exportedSize_le hsmall.size le_rfl
    have h2 := exportedSize_le hsmall.size hsmall.lambda1
    rw [hlen, shareSize, if_neg (by decide)]
    unfold maxInput
    omega
  have hrun := run_load platform cpRole (hholds.loads (e := ⟨true, 1, cpRole, none⟩) hmin hmax rfl
    rfl rfl) (by decide : ecallInitialize cpRole (ascii "SOCI" ++ [1, 1, 1, 0]) = _)
  have hruns := run_calls platform isPrime_certain hauthentic cpRole
    [.ecallInitialize (ascii "SOCI" ++ [1, 1, 1, 0]), .ecallLoadSealedKey blob]
  refine ⟨platform, _, installed cpRole k.n keys.lambda1 k.mu, congrArg Enclave.key hrun, ?_,
    hruns.2.1, hruns.2.2.2.1 rfl⟩
  exact hsize.ge.trans' (by decide)

end Runs

end Enclave
end Protocol
end SociSgx

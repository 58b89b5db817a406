import SociSgx.Protocol.EnclaveHost

/-!
# Provisioning — from the key generation to the two parties

`provisionThresholdKeys` writes three files; the client and the CSP start from them.  The parties
that start so decrypt what the hosts compute.
-/

namespace SociSgx
namespace Protocol

open Exec SociSgx.Modular Paillier BigEndian OffsetCodec

/-! ## Files -/

/-- The files by their paths, and the paths that can be written. -/
structure Disk where
  file : String → Option Bytes
  writable : String → Bool

def Disk.write (disk : Disk) (path : String) (bytes : Bytes) : Disk :=
  { disk with file := fun other => if other = path then some bytes else disk.file other }

def readFile (disk : Disk) (path : String) : Except Error Bytes :=
  match disk.file path with
  | some bytes => .ok bytes
  | none => .error (Error.backend ("cannot read " ++ path))

def writeFile (path : String) (bytes : Bytes) : EStateM Error Disk Unit := do
  let disk ← get
  require (disk.writable path = true) (Error.backend ("cannot write " ++ path))
  set (disk.write path bytes)

/-! ## The hosts -/

/-- `initializeEnclave` on an enclave that is built for the role `built`. -/
def initializeEnclave (built role mode : UInt8) : Except Error Enclave :=
  (ecallInitialize built (ascii "SOCI" ++ [1, mode, role, 0])).mapError fun _ =>
    Error.backend "initialize failed"

def loadModulus (disk : Disk) (path : String) : Except Error Nat := do
  let bytes ← readFile disk path
  return ofBytes bytes

def loadShare (sealer : Sealer) (enclave : Enclave) (disk : Disk) (path : String) :
    Except Error Enclave := do
  let bytes ← readFile disk path
  match ecallLoadSealedKey sealer bytes enclave with
  | .ok _ enclave => return enclave
  | .error _ _ => throw (Error.backend "sealed share rejected")

/-- The package of the provisioning enclave. -/
def keyPackage (platform : Enclave.Platform) (built : UInt8) (random : List Bytes)
    (enclave : Enclave) (request : Bytes) : Except Error Bytes :=
  match Enclave.ecallThresholdKeygen platform built random request (3 * 1024 * 1024) enclave with
  | .ok output _ => .ok output
  | .error _ _ => .error (Error.backend "threshold keygen failed")

def provisionThresholdKeys (platform : Enclave.Platform) (built : UInt8) (random : List Bytes)
    (directory : String) (bits : UInt32) (mode : UInt8) : EStateM Error Disk Unit := do
  let enclave ← Exec.lift (initializeEnclave built 0 mode)
  let request := ascii "SKGN" ++ [1, mode, 0, 0] ++ writeU32 bits.toNat
  let output ← Exec.lift (keyPackage platform built random enclave request)
  require (24 ≤ output.length ∧ output.take 4 = ascii "STKO")
    (Error.backend "threshold keygen failed")
  let publicSize := readU32 output 12
  let cpSize := readU32 output 16
  let cspSize := readU32 output 20
  require (24 + publicSize + cpSize + cspSize = output.length) (Error.backend "bad key package")
  writeFile (directory ++ "/public.bin") ((output.drop 24).take publicSize)
  writeFile (directory ++ "/cp.sealed") ((output.drop (24 + publicSize)).take cpSize)
  writeFile (directory ++ "/csp.sealed") ((output.drop (24 + publicSize + cpSize)).take cspSize)

/-- The constructor of the client, up to the connection: its enclave and its modulus. -/
def startClient (sealer : Sealer) (built : UInt8) (disk : Disk) (directory : String)
    (mode : UInt8) : Except Error (Enclave × Nat) := do
  let modulus ← loadModulus disk (directory ++ "/public.bin")
  let enclave ← initializeEnclave built 1 mode
  let enclave ← loadShare sealer enclave disk (directory ++ "/cp.sealed")
  return (enclave, modulus)

/-- `runThresholdCsp` up to the socket. -/
def startCsp (sealer : Sealer) (built : UInt8) (disk : Disk) (directory : String)
    (mode : UInt8) : Except Error (Enclave × Nat) := do
  let enclave ← initializeEnclave built 2 mode
  let enclave ← loadShare sealer enclave disk (directory ++ "/csp.sealed")
  let modulus ← loadModulus disk (directory ++ "/public.bin")
  return (enclave, modulus)

/-! ## The package -/

/-- A number at a known place of a message. -/
theorem readU32_at {input : Bytes} {n offset : Nat} (before after : Bytes)
    (hinput : input = before ++ (writeU32 n ++ after)) (hoffset : before.length = offset)
    (hn : n < 2 ^ 32) : readU32 input offset = n := by
  subst hinput hoffset
  exact readU32_writeU32 hn before after

/-- A piece at a known place of a message. -/
theorem piece_at {input piece : Bytes} {offset size : Nat} (before after : Bytes)
    (hinput : input = before ++ (piece ++ after)) (hoffset : before.length = offset)
    (hsize : piece.length = size) : (input.drop offset).take size = piece := by
  subst hinput hoffset
  rw [List.drop_left, List.take_left' hsize]

/-- What the host reads out of a package: the sizes of its three parts, and the parts. -/
structure Unpacks (output number cp csp : Bytes) : Prop where
  front : 24 ≤ output.length ∧ output.take 4 = ascii "STKO"
  publicSize : readU32 output 12 = number.length
  cpSize : readU32 output 16 = cp.length
  cspSize : readU32 output 20 = csp.length
  total : 24 + number.length + cp.length + csp.length = output.length
  publicPart : (output.drop 24).take number.length = number
  cpPart : (output.drop (24 + number.length)).take cp.length = cp
  cspPart : (output.drop (24 + number.length + cp.length)).take csp.length = csp

theorem unpacks {e : Enclave} {bits : Nat} {number cp csp : Bytes}
    (hnumber : number.length < 2 ^ 32) (hcp : cp.length < 2 ^ 32) (hcsp : csp.length < 2 ^ 32) :
    Unpacks (e.packageHeader bits number.length cp.length csp.length ++ number ++ cp ++ csp)
      number cp csp := by
  let head : Bytes := e.replyHeader (ascii "STKO") 0
  have hhead : head.length = 8 := by simp [head, Enclave.replyHeader, ascii]
  have hfull : (e.packageHeader bits number.length cp.length csp.length).length = 24 := by
    simp [Enclave.packageHeader, Enclave.replyHeader, ascii]
  refine ⟨⟨by simp [hfull], rfl⟩, ?_, ?_, ?_, by simp [hfull]; omega, ?_, ?_, ?_⟩
  · refine readU32_at (head ++ writeU32 bits) (writeU32 cp.length ++ (writeU32 csp.length ++
      (number ++ (cp ++ csp)))) ?_ (by simp [hhead]) hnumber
    simp only [Enclave.packageHeader, List.append_assoc, head]
  · refine readU32_at (head ++ writeU32 bits ++ writeU32 number.length) (writeU32 csp.length ++
      (number ++ (cp ++ csp))) ?_ (by simp [hhead]) hcp
    simp only [Enclave.packageHeader, List.append_assoc, head]
  · refine readU32_at (head ++ writeU32 bits ++ writeU32 number.length ++ writeU32 cp.length)
      (number ++ (cp ++ csp)) ?_ (by simp [hhead]) hcsp
    simp only [Enclave.packageHeader, List.append_assoc, head]
  · refine piece_at _ (cp ++ csp) ?_ hfull rfl
    simp only [List.append_assoc]
  · refine piece_at (e.packageHeader bits number.length cp.length csp.length ++ number) csp ?_
      (by rw [List.length_append, hfull]) rfl
    simp only [List.append_assoc]
  · refine piece_at (e.packageHeader bits number.length cp.length csp.length ++ number ++ cp) [] ?_
      (by simp only [List.length_append, hfull]) rfl
    rw [List.append_nil]

/-! ## What provisioning leaves behind -/

/-- `sizeof(sgx_sealed_data_t)` is small, and unsealing inverts sealing. -/
structure Sealer.Sane (sealer : Sealer) : Prop where
  inverts : sealer.Inverts
  small : sealer.headerSize ≤ 2 ^ 16

/-- The three files of a key: the modulus, and a sealed share for each party. -/
structure Provisioned (platform : Enclave.Platform) (directory : String) (bits : UInt32)
    (mode : UInt8) (disk : Disk) (k : EnclaveNumbers) (keys : ThresholdKeys)
    (cp csp : Bytes) : Prop where
  modeRange : 1 ≤ mode ∧ mode ≤ 2
  range : 3072 ≤ bits.toNat ∧ bits.toNat ≤ 8192 ∧ bits.toNat % 2 = 0
  drawn : ∃ random, drawShares platform.probabPrime bits.toNat random = some (k, keys)
  publicFile : disk.file (directory ++ "/public.bin") = some (magnitude k.n)
  cpFile : disk.file (directory ++ "/cp.sealed") = some cp
  cspFile : disk.file (directory ++ "/csp.sealed") = some csp
  cpShare : HoldsShare platform.sealer cp mode cpRole k.n keys.lambda1 k.mu bits
  cspShare : HoldsShare platform.sealer csp mode cspRole k.n keys.lambda2 k.mu bits

section Provisioning

variable {platform : Enclave.Platform} {built mode : UInt8} {random : List Bytes}
  {directory : String} {bits : UInt32}

theorem initializeEnclave_eq_ok {role : UInt8} {e : Enclave} :
    initializeEnclave built role mode = .ok e ↔
      (1 ≤ mode ∧ mode ≤ 2 ∧ role = built) ∧ e = ⟨true, mode, role, none⟩ := by
  have hpassed : initializeEnclave built role mode =
      (ensure (8 = 8 ∧ ascii "SOCI" = ascii "SOCI" ∧ (1 : UInt8) = 1 ∧ 1 ≤ mode ∧ mode ≤ 2 ∧
        role = built) EnclaveCode.invalid >>= fun _ =>
          .ok ⟨true, mode, role, none⟩).mapError fun _ => Error.backend "initialize failed" := rfl
  rw [hpassed, mapError_eq_ok]
  constructor
  · intro h
    rcases bind_eq_ok.1 h with ⟨_, hchecks, h⟩
    rw [ensure_eq_ok] at hchecks
    cases h
    exact ⟨hchecks.2.2.2, rfl⟩
  · rintro ⟨hchecks, rfl⟩
    exact bind_eq_ok.2 ⟨(), ensure_of ⟨rfl, rfl, rfl, hchecks⟩, rfl⟩

theorem keyPackage_eq_ok {e : Enclave} {request output : Bytes}
    (h : keyPackage platform built random e request = .ok output) :
    ∃ bits k keys cp csp,
      Enclave.MadeShares platform built random request e bits k keys cp csp output := by
  have hspec := @Enclave.ecallThresholdKeygen_spec platform built random request
    (3 * 1024 * 1024) e e rfl
  unfold keyPackage at h
  split at h
  · rename_i out e' hcall
    cases h
    rw [hcall] at hspec
    obtain ⟨bits, k, keys, cp, csp, hmade, _⟩ := hspec
    exact ⟨bits, k, keys, cp, csp, hmade⟩
  · cases h

theorem writeFile_at {α : Type} {disk : Disk} {path : String} {bytes : Bytes}
    {f : Unit → EStateM Error Disk α} {Q : α → Disk → Prop} {E : Error → Disk → Prop}
    (h : Triple (fun t => t = disk.write path bytes) (f ()) Q E)
    (herror : ¬ disk.writable path = true → ∀ e, E e disk) :
    Triple (fun t => t = disk) (writeFile path bytes >>= f) Q E := by
  refine Triple.bind (Q := fun _ t => t = disk.write path bytes) ?_ fun _ => h
  refine get_at (require_at (fun _ => ?_) fun hpath => herror hpath _)
  intro t _
  rfl

/-- A share of a key of at most 8192 bits. -/
theorem shareSize_le (role : UInt8) {n share mu : Nat} (hn : sizeInBase2 n ≤ 8192)
    (hshare : share ≤ n) (hmu : mu ≤ n) : shareSize role n share mu ≤ 4096 := by
  have h1 := exportedSize_le hn le_rfl
  have h2 := exportedSize_le hn hshare
  have h3 := exportedSize_le hn hmu
  unfold shareSize
  split <;> omega

/-- A share of a key that was drawn is sealed at its calculated size. -/
theorem sealed_share (hsealer : platform.sealer.Sane) {role : UInt8} {n share mu : Nat}
    {blob : Bytes} (hn : sizeInBase2 n ≤ 8192) (hshare : share ≤ n) (hmu : mu ≤ n)
    (h : sealShare platform.sealer mode role n share mu bits
      (Enclave.sealedSize platform.sealer role n share mu) = some blob) :
    HoldsShare platform.sealer blob mode role n share mu bits ∧
      blob.length = Enclave.sealedSize platform.sealer role n share mu ∧
      blob.length ≤ 2 ^ 16 + 4096 := by
  have hsize := shareSize_le role hn hshare hmu
  have hsmall := hsealer.small
  have hfits : platform.sealer.headerSize + shareSize role n share mu < uint32Max := by
    unfold uint32Max
    omega
  rcases sealShare_spec mode role n share mu bits hsealer.inverts hfits with
    ⟨blob', hblob', hholds⟩
  have hsame : blob' = blob := Option.some.inj (hblob'.symm.trans h)
  subst hsame
  refine ⟨hholds, ?_, ?_⟩
  · rw [hholds.length]
    exact (hsealer.inverts.size _ hfits).symm
  · rw [hholds.length]
    omega

/-- The request for a key of `bits` bits, as the host sends it. -/
def keygenRequest (mode : UInt8) (bits : UInt32) : Bytes :=
  ascii "SKGN" ++ [1, mode, 0, 0] ++ writeU32 bits.toNat

theorem keygenRequest_bits : readU32 (keygenRequest mode bits) 8 = bits.toNat :=
  readU32_at (ascii "SKGN" ++ [1, mode, 0, 0]) [] (by simp [keygenRequest]) (by simp [ascii])
    bits.toNat_lt

/-- The package holds a modulus and two shares that the host can take apart. -/
structure Packed (platform : Enclave.Platform) (mode : UInt8) (bits : UInt32) (output : Bytes)
    (k : EnclaveNumbers) (keys : ThresholdKeys) (cp csp : Bytes) : Prop where
  unpacks : Unpacks output (magnitude k.n) cp csp
  cpShare : HoldsShare platform.sealer cp mode cpRole k.n keys.lambda1 k.mu bits
  cspShare : HoldsShare platform.sealer csp mode cspRole k.n keys.lambda2 k.mu bits

theorem packed (hcertain : Certain platform.probabPrime) (hsealer : platform.sealer.Sane)
    {e : Enclave} {request output cp csp : Bytes} {k : EnclaveNumbers} {keys : ThresholdKeys}
    (hmade : Enclave.MadeShares platform built random request e bits.toNat k keys cp csp output) :
    Packed platform e.runtimeMode bits output k keys cp csp := by
  have hsmall := drawShares_small hcertain hmade.checked.range.2.1 hmade.drawn
  have hcp := hmade.sealedCp
  have hcsp := hmade.sealedCsp
  have hpackage := hmade.package
  rw [UInt32.ofNat_toNat] at hcp hcsp
  rcases sealed_share hsealer hsmall.size hsmall.lambda1 hsmall.mu hcp with
    ⟨hcpHolds, hcpLen, hcpSmall⟩
  rcases sealed_share hsealer hsmall.size hsmall.lambda2 hsmall.mu hcsp with
    ⟨hcspHolds, hcspLen, hcspSmall⟩
  have hnumber := exportedSize_le hsmall.size le_rfl
  rw [← hcpLen, ← hcspLen, ← length_magnitude k.n] at hpackage
  rw [← length_magnitude k.n] at hnumber
  refine ⟨?_, hcpHolds, hcspHolds⟩
  rw [hpackage]
  exact unpacks (by omega) (by omega) (by omega)

/-- A provisioning that returns has written the three files of one key. -/
theorem provisionThresholdKeys_spec (hcertain : Certain platform.probabPrime)
    (hsealer : platform.sealer.Sane) {disk : Disk} :
    Triple (fun t => t = disk)
      (provisionThresholdKeys platform built random directory bits mode)
      (fun _ disk' => ∃ k keys cp csp,
        Provisioned platform directory bits mode disk' k keys cp csp) fun _ _ => True := by
  refine lift_at (fun e he => lift_at (fun output houtput => ?_) fun _ _ => trivial)
    fun _ _ => trivial
  rcases initializeEnclave_eq_ok.1 he with ⟨hmode, rfl⟩
  rcases keyPackage_eq_ok houtput with ⟨asked, k, keys, cp, csp, hmade⟩
  have hasked : asked = bits.toNat := hmade.checked.asked.trans keygenRequest_bits
  subst hasked
  have hpacked := packed hcertain hsealer hmade
  have hunpacks := hpacked.unpacks
  refine require_at (fun _ => ?_) fun _ => trivial
  dsimp only
  rw [hunpacks.publicSize, hunpacks.cpSize, hunpacks.cspSize, hunpacks.publicPart,
    hunpacks.cpPart, hunpacks.cspPart]
  refine require_at (fun _ => ?_) fun _ => trivial
  refine writeFile_at (writeFile_at ?_ fun _ _ => trivial) fun _ _ => trivial
  have hpaths : ∀ {a b : String}, a ≠ b → directory ++ a ≠ directory ++ b := fun hne heq =>
    hne ((String.append_right_inj directory).1 heq)
  refine get_at (require_at (fun _ => ?_) fun _ => trivial)
  intro t _
  refine ⟨k, keys, cp, csp, ⟨hmode.1, hmode.2.1⟩, hmade.checked.range, ⟨random, hmade.drawn⟩,
    ?_, ?_, ?_, hpacked.cpShare, hpacked.cspShare⟩
  · simp [Disk.write, hpaths]
  · simp [Disk.write, hpaths]
  · simp [Disk.write]

/-! ## Provisioning returns -/

variable (mode bits) in
/-- The sealing of a share succeeds, at its calculated size. -/
theorem sealed_some (hsealer : platform.sealer.Sane) (role : UInt8) {n share mu : Nat}
    (hn : sizeInBase2 n ≤ 8192) (hshare : share ≤ n) (hmu : mu ≤ n) :
    ∃ blob, sealShare platform.sealer mode role n share mu bits
        (Enclave.sealedSize platform.sealer role n share mu) = some blob ∧
      Enclave.sealedSize platform.sealer role n share mu ≤ 2 ^ 16 + 4096 := by
  have hsize := shareSize_le role hn hshare hmu
  have hsmall := hsealer.small
  have hfits : platform.sealer.headerSize + shareSize role n share mu < uint32Max := by
    unfold uint32Max
    omega
  rcases sealShare_spec mode role n share mu bits hsealer.inverts hfits with ⟨blob, hblob, _⟩
  refine ⟨blob, hblob, ?_⟩
  have hcalculated := hsealer.inverts.size _ hfits
  unfold Enclave.sealedSize
  omega

theorem ecallThresholdKeygen_returns (hcertain : Certain platform.probabPrime)
    (hsealer : platform.sealer.Sane) {e : Enclave} {input : Bytes} {asked : Nat}
    {k : EnclaveNumbers} {keys : ThresholdKeys} (hchecked : e.Checked built input asked)
    (hdrawn : drawShares platform.probabPrime asked random = some (k, keys)) :
    Triple (fun t => t = e)
      (Enclave.ecallThresholdKeygen platform built random input (3 * 1024 * 1024))
      (fun _ _ => True) Never := by
  have hsmall := drawShares_small hcertain hchecked.range.2.1 hdrawn
  rcases sealed_some e.runtimeMode (UInt32.ofNat asked) hsealer cpRole
    hsmall.size hsmall.lambda1 hsmall.mu with ⟨cp, hcp, hcpSize⟩
  rcases sealed_some e.runtimeMode (UInt32.ofNat asked) hsealer cspRole
    hsmall.size hsmall.lambda2 hsmall.mu with ⟨csp, hcsp, hcspSize⟩
  have hnumber := exportedSize_le hsmall.size le_rfl
  have hsizes := Enclave.shareSize_sum k.n
  have hexport : mpzExport k.n = magnitude k.n := by
    rcases drawShares_spec hcertain hdrawn with ⟨p, q, hkp, _, _, _, hfull, _⟩
    have hone := hkp.one_lt
    rw [← hfull.modulus] at hone
    exact if_neg (by omega)
  refine get_at (Triple.lift_bind (Enclave.checkKeygen_eq_ok.2 hchecked) (set_at ?_))
  rw [hdrawn]
  dsimp only
  rw [(hsizes keys.lambda1 k.mu).1, (hsizes keys.lambda2 k.mu).2, hexport]
  unfold Enclave.sealedSize at hcp hcsp hcpSize hcspSize
  rw [hcp, hcsp]
  have hmax : uint32Max = 2 ^ 32 - 1 := rfl
  refine require_at (fun _ => ?_) fun hfull => absurd ⟨by omega, by omega⟩ hfull
  refine require_at (fun _ => ?_) fun hroom => absurd (by omega) hroom
  refine require_at (fun _ => ?_) fun hwrote => absurd (length_magnitude _) hwrote
  exact set_at (pure_at trivial)

/-- With the buffers of a key, a mode and a size that the enclave takes, and files that can be
written, provisioning returns. -/
theorem provisionThresholdKeys_returns (hcertain : Certain platform.probabPrime)
    (hsealer : platform.sealer.Sane) (hmode : 1 ≤ mode ∧ mode ≤ 2)
    (hrange : 3072 ≤ bits.toNat ∧ bits.toNat ≤ 8192 ∧ bits.toNat % 2 = 0)
    {k : EnclaveNumbers} {keys : ThresholdKeys}
    (hdrawn : drawShares platform.probabPrime bits.toNat random = some (k, keys)) {disk : Disk}
    (hwritable : ∀ path, disk.writable path = true) :
    ∃ written, provisionThresholdKeys platform 0 random directory bits mode disk =
      .ok () written := by
  let e : Enclave := ⟨true, mode, 0, none⟩
  have hinit : initializeEnclave 0 0 mode = .ok e :=
    initializeEnclave_eq_ok.2 ⟨⟨hmode.1, hmode.2, rfl⟩, rfl⟩
  have hchecked : e.Checked 0 (keygenRequest mode bits) bits.toNat :=
    ⟨rfl, rfl, ⟨by simp [keygenRequest, ascii], by simp [keygenRequest, ascii, maxInput],
      rfl, rfl, rfl⟩, by simp [keygenRequest, ascii], keygenRequest_bits.symm, hrange⟩
  rcases (ecallThresholdKeygen_returns hcertain hsealer hchecked hdrawn).returns rfl with
    ⟨output, e', hcall, _⟩
  have hpackage : keyPackage platform 0 random e (keygenRequest mode bits) = .ok output := by
    rw [keyPackage, hcall]
  rcases keyPackage_eq_ok hpackage with ⟨asked, k', keys', cp, csp, hmade⟩
  have hasked : asked = bits.toNat := hmade.checked.asked.trans keygenRequest_bits
  subst hasked
  have hunpacks := (packed hcertain hsealer hmade).unpacks
  have hreturns : Triple (fun t => t = disk)
      (provisionThresholdKeys platform 0 random directory bits mode) (fun _ _ => True) Never := by
    refine Triple.lift_bind hinit (Triple.lift_bind hpackage ?_)
    refine require_at (fun _ => ?_) fun hfront => absurd hunpacks.front hfront
    dsimp only
    rw [hunpacks.publicSize, hunpacks.cpSize, hunpacks.cspSize]
    refine require_at (fun _ => ?_) fun htotal => absurd hunpacks.total htotal
    refine writeFile_at (writeFile_at ?_ fun hpath => absurd (hwritable _) hpath)
      fun hpath => absurd (hwritable _) hpath
    refine get_at (require_at (fun _ => fun _ _ => trivial) fun hpath => ?_)
    exact absurd (hwritable _) hpath
  rcases hreturns.returns rfl with ⟨_, written, hwritten, _⟩
  exact ⟨written, hwritten⟩

/-! ## The parties start -/

/-- What is known of a key that was provisioned. -/
structure ProvisionedKey (bits : UInt32) (k : EnclaveNumbers) (keys : ThresholdKeys) : Prop where
  split : ∃ p q, KeyPrimes p q ∧ SplitKey p q keys
  shares : SharesOf k keys
  wide : bits.toNat - 1 ≤ sizeInBase2 k.n
  size : sizeInBase2 k.n ≤ bits.toNat
  bytes : 16 ∣ bits.toNat
  small : SmallShares k keys

variable {written : Disk} {k : EnclaveNumbers} {keys : ThresholdKeys} {cp csp : Bytes}

theorem Provisioned.key (h : Provisioned platform directory bits mode written k keys cp csp)
    (hcertain : Certain platform.probabPrime) : ProvisionedKey bits k keys := by
  rcases h.drawn with ⟨random, hdrawn⟩
  rcases drawShares_spec hcertain hdrawn with ⟨p, q, hkp, hsize, hbytes, hsplit, hfull, hshares⟩
  have hmodulus := modulus_size hkp hsize
  rw [← hfull.modulus] at hmodulus
  have heven := h.range.2.2
  have hhalf : bits.toNat / 2 + bits.toNat / 2 = bits.toNat := by omega
  rw [hhalf] at hmodulus
  refine ⟨⟨p, q, hkp, hsplit⟩, hshares, hmodulus.1, hmodulus.2, ?_,
    drawShares_small hcertain h.range.2.1 hdrawn⟩
  rcases hbytes with ⟨m, hm⟩
  exact ⟨m, by omega⟩

/-- The enclave of a party that has loaded its share. -/
def startedEnclave (mode role : UInt8) (n share mu : Nat) : Enclave :=
  ⟨true, mode, role, some (installed role n share mu)⟩

theorem readFile_of {path : String} {bytes : Bytes} (h : written.file path = some bytes) :
    readFile written path = .ok bytes := by
  rw [readFile, h]

theorem loadModulus_of {path : String} {n : Nat} (h : written.file path = some (magnitude n)) :
    loadModulus written path = .ok n :=
  bind_eq_ok.2 ⟨_, readFile_of h, congrArg Except.ok (ofBytes_magnitude n)⟩

/-- A sealed share is loaded in an enclave of its mode and role. -/
theorem loadShare_of (hsealer : platform.sealer.Sane) {role : UInt8} {path : String}
    {n share mu : Nat} {blob : Bytes} (hfile : written.file path = some blob)
    (hholds : HoldsShare platform.sealer blob mode role n share mu bits)
    (hwide : 3071 ≤ sizeInBase2 n) (hn : sizeInBase2 n ≤ 8192) (hshare : share ≤ n)
    (hmu : mu ≤ n) :
    loadShare platform.sealer ⟨true, mode, role, none⟩ written path =
      .ok (startedEnclave mode role n share mu) := by
  have hexported : exportedSize n = (sizeInBase2 n + 7) / 8 := rfl
  have hmin : 4 ≤ exportedSize n + exportedSize share := by omega
  have hmax : blob.length ≤ maxInput := by
    have hheader := hsealer.small
    have hsize := shareSize_le role hn hshare hmu
    have hlength := hholds.length
    unfold maxInput
    omega
  have hload := hholds.loads (e := ⟨true, mode, role, none⟩) hmin hmax rfl rfl rfl
  refine bind_eq_ok.2 ⟨blob, readFile_of hfile, ?_⟩
  rw [hload]
  rfl

theorem Provisioned.startClient
    (h : Provisioned platform directory bits mode written k keys cp csp)
    (hcertain : Certain platform.probabPrime) (hsealer : platform.sealer.Sane) :
    startClient platform.sealer cpRole written directory mode =
      .ok (startedEnclave mode cpRole k.n keys.lambda1 k.mu, k.n) := by
  have hkey := h.key hcertain
  have hrange := h.range
  have hwide := hkey.wide
  have hinit : initializeEnclave cpRole 1 mode = .ok ⟨true, mode, cpRole, none⟩ :=
    initializeEnclave_eq_ok.2 ⟨⟨h.modeRange.1, h.modeRange.2, rfl⟩, rfl⟩
  have hshare := loadShare_of hsealer h.cpFile h.cpShare (by omega) hkey.small.size
    hkey.small.lambda1 hkey.small.mu
  refine bind_eq_ok.2 ⟨k.n, loadModulus_of h.publicFile, bind_eq_ok.2 ⟨_, hinit, ?_⟩⟩
  exact bind_eq_ok.2 ⟨_, hshare, rfl⟩

theorem Provisioned.startCsp
    (h : Provisioned platform directory bits mode written k keys cp csp)
    (hcertain : Certain platform.probabPrime) (hsealer : platform.sealer.Sane) :
    startCsp platform.sealer cspRole written directory mode =
      .ok (startedEnclave mode cspRole k.n keys.lambda2 k.mu, k.n) := by
  have hkey := h.key hcertain
  have hrange := h.range
  have hwide := hkey.wide
  have hinit : initializeEnclave cspRole 2 mode = .ok ⟨true, mode, cspRole, none⟩ :=
    initializeEnclave_eq_ok.2 ⟨⟨h.modeRange.1, h.modeRange.2, rfl⟩, rfl⟩
  have hshare := loadShare_of hsealer h.cspFile h.cspShare (by omega) hkey.small.size
    hkey.small.lambda2 hkey.small.mu
  refine bind_eq_ok.2 ⟨_, hinit, bind_eq_ok.2 ⟨_, hshare, ?_⟩⟩
  exact bind_eq_ok.2 ⟨k.n, loadModulus_of h.publicFile, rfl⟩

/-! ## The parties decrypt -/

/-- The two started enclaves hold shares of one key. -/
structure Started (mode : UInt8) (n : Nat) (cp csp : Enclave) (parties : Parties) : Prop where
  wide : 1 < n
  size : sizeInBase2 n ≤ 8192
  modulus : parties.modulus = n
  decrypts : parties.DecryptsCorrectly
  cpMode : cp.runtimeMode = mode
  cspMode : csp.runtimeMode = mode
  cspRole : csp.role = cspRole
  cpShare : ∃ k, cp.LoadedShare k ∧ k.share = parties.cp
  cspShare : ∃ k, csp.LoadedShare k ∧ k.share = parties.csp.key

theorem ProvisionedKey.started (h : ProvisionedKey bits k keys) :
    Started mode k.n (startedEnclave mode cpRole k.n keys.lambda1 k.mu)
      (startedEnclave mode cspRole k.n keys.lambda2 k.mu) (Parties.ofKeys keys) := by
  rcases h.split with ⟨p, q, hkp, hsplit⟩
  have hn := h.shares.n
  have hmu := h.shares.mu
  have hwide : 1 < k.n := by
    rw [← hn, hsplit.modulus]
    exact hkp.one_lt
  have hcp : (installed cpRole k.n keys.lambda1 k.mu).share = keys.cp := by
    rw [← hn]
    rfl
  have hcsp : (installed cspRole k.n keys.lambda2 k.mu).share = keys.csp := by
    rw [← hn, ← hmu]
    rfl
  refine ⟨hwide, h.small.size, hn, ofKeys_decryptsCorrectly hkp hsplit, rfl, rfl, rfl, ?_, ?_⟩
  · exact ⟨_, ⟨rfl, Or.inl rfl, rfl, hwide, h.small.size⟩, hcp⟩
  · exact ⟨_, ⟨rfl, Or.inr rfl, rfl, hwide, h.small.size⟩, hcsp⟩

section Started

variable {n : Nat} {client server : Enclave} {parties : Parties}

/-- A ciphertext fits in a message. -/
theorem Started.writable (h : Started mode n client server parties) {c : Nat} {m : Int}
    (hc : Encrypts n c m) : Writable c ∧ exportedSize c ≤ 2048 := by
  have hmono := exportedSize_mono hc.lt.le
  have hsquare := exportedSize_square h.size
  have hle : exportedSize c ≤ 2048 := hmono.trans hsquare
  exact ⟨lt_of_le_of_lt hle (by decide), hle⟩

/-- A power of a ciphertext is not zero, so the single call does not fail. -/
theorem partialDecrypt_of {e : Enclave} {k : EnclaveNumbers} {c s : Nat} {m : Int}
    (h : e.LoadedShare k) (hc : Encrypts k.n c m) (hwritable : Writable c)
    (hs : k.share.ecallPartialDecrypt c = .ok s) : e.partialDecrypt e.runtimeMode c = .ok s := by
  have hpower := (hc.powMod k.lambdaZ).pos h.wide
  have hvalue : s = powMod c k.lambdaZ (k.n * k.n) := (ecallPartialDecrypt_eq_ok.1 hs).2
  have hdirect : Protocol.partialDecrypt k.share c = .ok s := by
    rw [Protocol.partialDecrypt, hs, hosted_ok]
  rw [Enclave.partialDecrypt_agrees h hwritable, ok_bind hdirect]
  refine bind_eq_ok.2 ⟨(), ensure_of ?_, rfl⟩
  rw [hvalue]
  exact hpower.ne'

/-- One ciphertext: each enclave takes its power, and that of the CSP combines the powers. -/
theorem Started.decrypts_one (h : Started mode n client server parties) {c : Nat} {m : Int}
    (hc : Encrypts n c m) : ∃ s1 s2, client.partialDecrypt mode c = .ok s1 ∧
      server.partialDecrypt mode c = .ok s2 ∧
        server.combineDecrypt mode s1 s2 = .ok (m % n).toNat := by
  rcases h.cpShare with ⟨k1, hk1, hcp⟩
  rcases h.cspShare with ⟨k2, hk2, hcsp⟩
  have hmod := h.modulus
  have hn1 : k1.n = n := (congrArg EnclaveKey.n hcp).trans (h.decrypts.cp_modulus.trans hmod)
  have hn2 : k2.n = n := (congrArg EnclaveKey.n hcsp).trans (h.decrypts.csp_modulus.trans hmod)
  have hwritable := (h.writable hc).1
  rw [← hmod] at hc
  rcases h.decrypts.decrypts hc with ⟨s1, s2, hs1, hs2, hcombine⟩
  rw [hmod] at hc hcombine
  rw [← hcp] at hs1
  rw [← hcsp] at hs2 hcombine
  have hsize1 : exportedSize s1 ≤ 2048 := by
    refine hk1.exported_le ?_
    rw [(ecallPartialDecrypt_eq_ok.1 hs1).2, hk1.share_nsq]
    exact powMod_lt hk1.nsq_pos
  have hsize2 : exportedSize s2 ≤ 2048 := by
    refine hk2.exported_le ?_
    rw [(ecallPartialDecrypt_eq_ok.1 hs2).2, hk2.share_nsq]
    exact powMod_lt hk2.nsq_pos
  have hinput : 16 + exportedSize s1 + exportedSize s2 ≤ maxInput := by
    unfold maxInput
    omega
  refine ⟨s1, s2, ?_, ?_, ?_⟩
  · rw [← h.cpMode]
    exact partialDecrypt_of hk1 (hn1 ▸ hc) hwritable hs1
  · rw [← h.cspMode]
    exact partialDecrypt_of hk2 (hn2 ▸ hc) hwritable hs2
  · rw [← h.cspMode, Enclave.combineDecrypt_agrees hk2 h.cspRole hinput, Protocol.combineDecrypt,
      hcombine, hosted_ok]

/-- A batch of ciphertexts, through the calls for batches. -/
theorem Started.decrypts_batch (h : Started mode n client server parties) {cs : List Nat}
    {ms : List Int} (hcs : List.Forall₂ (Encrypts n) cs ms)
    (hcount : 1 ≤ ms.length ∧ ms.length ≤ thresholdMaxBatchSize) :
    ∃ shares, client.partialDecryptBatch mode cs = .ok shares ∧
      server.thresholdDecryptBatch mode cs shares = .ok (ms.map fun m : Int => (m % n).toNat) := by
  rcases h.cpShare with ⟨k1, hk1, hcp⟩
  rcases h.cspShare with ⟨k2, hk2, hcsp⟩
  have hmod := h.modulus
  have hwritable : ∀ c ∈ cs, Writable c := by
    intro c hc
    rcases mem_right_of_forall₂ hcs.flip hc with ⟨m, _, hencrypts⟩
    exact (h.writable hencrypts).1
  have hentries : Entries ms.length cs fun i c => Encrypts parties.modulus c (ms.getD i 0) := by
    rw [hmod]
    exact Entries.of_forall₂ hcs
  rcases h.decrypts.partialDecryptBatch_cp hcount hentries with ⟨shares, hshares, hcpShares⟩
  rcases h.decrypts.thresholdDecryptBatch_csp (hmod.symm ▸ h.wide) hcount hentries hcpShares with
    ⟨plain, hplain, hvalues⟩
  have hsmall : ∀ s ∈ shares, Writable s := by
    intro s hs
    rcases hcpShares.mem hs with ⟨i, _, hvalue⟩
    have hlt : s < k1.nsq := by
      rw [hvalue, Parties.cpShare, ← hcp, hk1.share_nsq]
      exact powMod_lt hk1.nsq_pos
    exact lt_of_le_of_lt (hk1.exported_le hlt) (by decide)
  have hresult : plain = ms.map fun m : Int => (m % n).toNat := by
    rw [hmod] at hvalues
    have hall : List.Forall₂ (fun p m => p = (m % (n : Int)).toNat) plain ms := hvalues.forall₂
    rw [← List.forall₂_eq_eq_eq]
    exact List.forall₂_map_right_iff.2 hall
  refine ⟨shares, ?_, ?_⟩
  · rw [← h.cpMode, Enclave.partialDecryptBatch_agrees hk1 hwritable, hcp]
    exact hshares
  · rw [← h.cspMode, Enclave.combineBatch_agrees hk2 h.cspRole hwritable hsmall, hcsp, hplain,
      hresult]

end Started

/-- The values of a list of expressions. -/
theorem mapM_eval {n : Nat} (xs : List (Expression n)) : ∃ cs, xs.mapM Expression.eval = .ok cs ∧
    List.Forall₂ (Encrypts n) cs (xs.map Expression.value) := by
  induction xs with
  | nil => exact ⟨[], rfl, .nil⟩
  | cons x xs ih =>
      rcases x.eval_spec with ⟨c, hc, hencrypts⟩
      rcases ih with ⟨cs, hcs, hall⟩
      refine ⟨c :: cs, ?_, .cons hencrypts hall⟩
      rw [List.mapM_cons, ok_bind hc, ok_bind hcs]
      rfl

end Provisioning

theorem copySealer_sane : copySealer.Sane :=
  ⟨copySealer_inverts, by decide⟩

end Protocol
end SociSgx

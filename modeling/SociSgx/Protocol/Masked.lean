import SociSgx.Protocol.ThresholdKeys

/-!
# Masked — the masked operations compute on the plaintexts

The masks leave room below the modulus: a packed pair of masked factors never wraps, and a masked
difference stays on its side of half the modulus.
-/

namespace SociSgx
namespace Protocol

open Exec SociSgx.Modular Paillier

/-- The plaintexts that the protocols take. -/
def Small (x : Int) : Prop :=
  |x| < 2 ^ 127

variable {parties : Parties}

theorem two_pow_mul_le {j k n : Nat} (h : j + k + 1 < sizeInBase2 n) : 2 ^ j * 2 ^ k ≤ n := by
  unfold sizeInBase2 at h
  have hne : n ≠ 0 := by
    rintro rfl
    exact absurd h (by simp)
  calc
    2 ^ j * 2 ^ k = 2 ^ (j + k) := (pow_add 2 j k).symm
    _ ≤ 2 ^ n.log2 := Nat.pow_le_pow_right (by decide) (by omega)
    _ ≤ n := Nat.log2_self_le hne

/-- A modulus of 3072 bits is far above the square of the packing base. -/
theorem packing_room (hwide : 3072 ≤ sizeInBase2 parties.modulus) :
    (2 : Int) ^ 130 * 2 ^ 130 ≤ parties.modulus := by
  have hnat : 2 ^ 130 * 2 ^ 130 ≤ parties.modulus := two_pow_mul_le (by omega)
  exact_mod_cast hnat

theorem one_lt_modulus (hwide : 3072 ≤ sizeInBase2 parties.modulus) : 1 < parties.modulus := by
  have hroom := packing_room hwide
  omega

namespace Parties

/-! ## Multiplication -/

theorem packedOperands_spec {a b encryptedR1 encryptedR2 : Nat} {x y r1 r2 : Int}
    (ha : Encrypts parties.modulus a x) (hb : Encrypts parties.modulus b y)
    (hr1 : Encrypts parties.modulus encryptedR1 r1)
    (hr2 : Encrypts parties.modulus encryptedR2 r2) :
    ∃ c, parties.packedOperands a b encryptedR1 encryptedR2 = .ok c ∧
      Encrypts parties.modulus c ((packingBase : Int) * (x + r1) + (y + r2)) := by
  rcases scalarMultiply_spec (encrypts_add ha hr1) packingBase with ⟨c, hc, henc⟩
  exact ⟨_, bind_eq_ok.2 ⟨c, hc, rfl⟩, encrypts_add henc (encrypts_add hb hr2)⟩

/-- Both masked factors are positive and below the packing base, and the pack is below the
modulus, so that quotient and remainder give them back. -/
theorem unpack_masked {x y : Int} (hwide : 3072 ≤ sizeInBase2 parties.modulus) (hx : Small x)
    (hy : Small y) (r1 r2 : Mask) :
    let plaintext := ((packingBase * (x + r1.value) + (y + r2.value)) % parties.modulus : Int).toNat
    ((plaintext / packingBase * (plaintext % packingBase) : Nat) : Int) =
      (x + r1.value) * (y + r2.value) := by
  intro plaintext
  have hroom := packing_room hwide
  have hx' := abs_lt.1 hx
  have hy' := abs_lt.1 hy
  have h1 := r1.ge
  have h2 := r1.lt
  have h3 := r2.ge
  have h4 := r2.lt
  have hbase : packingBase = 2 ^ 130 := rfl
  obtain ⟨u, hu⟩ : ∃ u : Nat, x + r1.value = u := ⟨(x + r1.value).toNat, by omega⟩
  obtain ⟨v, hv⟩ : ∃ v : Nat, y + r2.value = v := ⟨(y + r2.value).toNat, by omega⟩
  have hult : u < 2 ^ 129 := by omega
  have hvlt : v < packingBase := by omega
  have hplain : plaintext = packingBase * u + v := by
    have hlt : (packingBase * u + v : Int) < parties.modulus := by
      rw [hbase]
      push_cast
      omega
    simp only [plaintext, hu, hv]
    rw [Int.emod_eq_of_lt (by positivity) hlt]
    norm_cast
  have hpos : 0 < packingBase := by rw [hbase]; positivity
  have hquot : plaintext / packingBase = u := by
    rw [hplain, Nat.mul_add_div hpos, Nat.div_eq_of_lt hvlt, Nat.add_zero]
  have hrem : plaintext % packingBase = v := by
    rw [hplain, Nat.mul_add_mod, Nat.mod_eq_of_lt hvlt]
  rw [hquot, hrem, hu, hv, Nat.cast_mul]

theorem unmaskProduct_spec {a b product encryptedCorrection : Nat} {x y : Int}
    {draw : MultiplyDraw} (ha : Encrypts parties.modulus a x) (hb : Encrypts parties.modulus b y)
    (hproduct : Encrypts parties.modulus product ((x + draw.r1.value) * (y + draw.r2.value)))
    (hcorr : Encrypts parties.modulus encryptedCorrection (-draw.r1.value * draw.r2.value)) :
    ∃ c, parties.unmaskProduct product a b draw encryptedCorrection = .ok c ∧
      Encrypts parties.modulus c (x * y) := by
  rcases scalarMultiply_spec ha (-draw.r2.value) with ⟨corrA, hcorrA, hencA⟩
  rcases scalarMultiply_spec hb (-draw.r1.value) with ⟨corrB, hcorrB, hencB⟩
  refine ⟨_, bind_eq_ok.2 ⟨corrA, hcorrA, bind_eq_ok.2 ⟨corrB, hcorrB, rfl⟩⟩, ?_⟩
  have hsum := encrypts_add (encrypts_add (encrypts_add hproduct hencA) hencB) hcorr
  have hcancel : (x + draw.r1.value) * (y + draw.r2.value) + -(draw.r2.value : Int) * x +
      -(draw.r1.value : Int) * y + -(draw.r1.value : Int) * draw.r2.value = x * y := by ring
  rw [hcancel] at hsum
  exact hsum

theorem secureMultiply_spec (h : parties.DecryptsCorrectly)
    (hwide : 3072 ≤ sizeInBase2 parties.modulus) {a b : Nat} {x y : Int}
    (ha : Encrypts parties.modulus a x) (hb : Encrypts parties.modulus b y) (hx : Small x)
    (hy : Small y) (draw : MultiplyDraw) (nonces : parties.MultiplyNonces) :
    ∃ c, parties.secureMultiply a b draw nonces = .ok c ∧
      Encrypts parties.modulus c (x * y) := by
  rcases packedOperands_spec ha hb (encrypts_paillierEncrypt draw.r1.value nonces.mask1)
    (encrypts_paillierEncrypt draw.r2.value nonces.mask2) with ⟨packed, hpacked, hencPacked⟩
  have hdecrypt := h.decrypt_csp hencPacked
  have hanswer : ∃ product, parties.csp.multiply packed (parties.cpShare packed) packingBase
      nonces.csp = .ok product ∧
        Encrypts parties.modulus product ((x + draw.r1.value) * (y + draw.r2.value)) := by
    have hbase : 1 < packingBase := by decide
    refine ⟨_, bind_eq_ok.2 ⟨(), ensure_eq_ok.2 hbase, bind_eq_ok.2 ⟨_, hdecrypt, rfl⟩⟩, ?_⟩
    rw [← unpack_masked hwide hx hy draw.r1 draw.r2]
    exact encrypts_paillierEncrypt _ nonces.csp
  rcases hanswer with ⟨product, hproduct, hencProduct⟩
  rcases unmaskProduct_spec ha hb hencProduct
    (encrypts_paillierEncrypt (-draw.r1.value * draw.r2.value) nonces.correction) with ⟨c, hc, henc⟩
  refine ⟨c, ?_, henc⟩
  refine bind_eq_ok.2 ⟨packed, hpacked, ?_⟩
  refine bind_eq_ok.2 ⟨_, h.partialDecrypt_cp hencPacked, ?_⟩
  exact bind_eq_ok.2 ⟨product, congrArg answered hproduct, hc⟩

/-! ## Batches -/

theorem encryptBatch_entries {n : Nat} {xs : List Int} {A : Nat → Int → Prop}
    (hxs : Entries n xs A) (nonces : Nat → Nonce parties.modulus) :
    Entries n (paillierEncryptBatch xs parties.modulus nonces) fun i c =>
      ∃ x, A i x ∧ Encrypts parties.modulus c x :=
  hxs.mapIdx fun i x _ hx => ⟨x, hx, encrypts_paillierEncrypt x (nonces i)⟩

/-- What a valid request `B` is answered with. -/
theorem batch_spec (h : parties.DecryptsCorrectly) (hmod : 1 < parties.modulus) {n : Nat}
    (hn : 1 ≤ n ∧ n ≤ thresholdMaxBatchSize) (kind : Csp.BatchKind) {cs shares : List Nat}
    {ms : Nat → Int} (base : Nat) (hbase : kind = .multiply → 1 < base)
    (hcs : Entries n cs fun i c => Encrypts parties.modulus c (ms i))
    (hshares : Entries n shares fun i s => s = parties.cpShare (cs.getD i 0))
    {request : List Csp.BatchItem}
    (hrequest : Entries n request fun i item => item = ⟨cs.getD i 0, shares.getD i 0, base⟩)
    (nonces : Nat → Nonce parties.modulus) :
    ∃ results, parties.csp.batch kind request nonces = .ok results ∧
      Entries n results fun i c => Encrypts parties.modulus c
        (parties.csp.resultPlaintext kind ⟨cs.getD i 0, shares.getD i 0, base⟩
          (ms i % parties.modulus).toNat) := by
  rcases h.thresholdDecryptBatch_csp hmod hn hcs hshares with ⟨plain, hplain, hentries⟩
  -- the handler splits the request into the two vectors it was built from
  have hcsBack : request.map Csp.BatchItem.ciphertext = cs :=
    (hrequest.map (S := fun i c => c = cs.getD i 0) fun i item _ hitem => by rw [hitem]).eq_of_getD
      hcs.length
  have hsharesBack : request.map Csp.BatchItem.cpShare = shares :=
    (hrequest.map (S := fun i s => s = shares.getD i 0)
      fun i item _ hitem => by rw [hitem]).eq_of_getD hshares.length
  have hvalid : ∀ item ∈ request, 0 < item.ciphertext ∧
      item.ciphertext < parties.csp.modulus * parties.csp.modulus ∧
        (kind = .multiply → 1 < item.base) := by
    intro item hitem
    rcases hrequest.mem hitem with ⟨i, hi, rfl⟩
    have hc := hcs.getD hi 0
    exact ⟨hc.pos hmod, hc.lt, hbase⟩
  have hlen := hrequest.length
  subst hlen
  rw [← hcsBack, ← hsharesBack] at hplain
  let results := tabulate request.length fun i => parties.csp.resultPlaintext kind
    (request.getD i { ciphertext := 0, cpShare := 0 }) (plain.getD i 0)
  have hresults : Entries request.length results fun i x => x = parties.csp.resultPlaintext kind
      ⟨cs.getD i 0, shares.getD i 0, base⟩ (ms i % parties.modulus).toNat := by
    refine entries_tabulate fun i hi => ?_
    rw [hrequest.getD hi, hentries.getD hi]
  refine ⟨paillierEncryptBatch results parties.csp.modulus nonces, ?_, ?_⟩
  · refine bind_eq_ok.2 ⟨(), ensure_eq_ok.2 hn, ?_⟩
    exact bind_eq_ok.2 ⟨(), ensure_eq_ok.2 hvalid, bind_eq_ok.2 ⟨plain, hplain, rfl⟩⟩
  · refine (encryptBatch_entries hresults nonces).imp ?_
    rintro i c hi ⟨x, rfl, hc⟩
    exact hc

/-- The pairs of ciphertexts that a batched call takes, and their plaintexts. -/
def Operands (parties : Parties) (items : List (Nat × Nat)) (xs : List (Int × Int)) : Prop :=
  List.Forall₂ (fun item x => (Encrypts parties.modulus item.1 x.1 ∧ Small x.1) ∧
    Encrypts parties.modulus item.2 x.2 ∧ Small x.2) items xs

/-- The operands at an index; the loops read `items` with a default. -/
theorem Operands.entries {items : List (Nat × Nat)} {xs : List (Int × Int)}
    (hitems : Operands parties items xs) {i : Nat} (hi : i < items.length) :
    (Encrypts parties.modulus (items.getD i (0, 0)).1 (xs.getD i (0, 0)).1 ∧
        Small (xs.getD i (0, 0)).1) ∧
      Encrypts parties.modulus (items.getD i (0, 0)).2 (xs.getD i (0, 0)).2 ∧
        Small (xs.getD i (0, 0)).2 := by
  have hlen := List.Forall₂.length_eq hitems
  exact (Entries.of_forall₂ (d := (0, 0)) hitems).getD (hlen ▸ hi) (0, 0)

theorem secureMultiplyBatch_spec (h : parties.DecryptsCorrectly)
    (hwide : 3072 ≤ sizeInBase2 parties.modulus) {items : List (Nat × Nat)}
    {xs : List (Int × Int)} (hitems : Operands parties items xs)
    (hn : 1 ≤ items.length ∧ items.length ≤ thresholdMaxBatchSize) (draws : Nat → MultiplyDraw)
    (nonces : parties.BatchNonces) :
    ∃ cs, parties.secureMultiplyBatch items draws nonces = .ok cs ∧
      List.Forall₂ (fun c x => Encrypts parties.modulus c (x.1 * x.2)) cs xs := by
  let item := fun i => items.getD i (0, 0)
  let x := fun i => xs.getD i (0, 0)
  -- Both operands under their masks, in one number: the second one in the low half.
  let masked := fun i => (packingBase : Int) * ((x i).1 + (draws i).r1.value) +
    ((x i).2 + (draws i).r2.value)
  have hencMasks := encryptBatch_entries (entries_flatMap_pair items.length
    (fun i => ((draws i).r1.value : Int)) fun i => ((draws i).r2.value : Int)) nonces.masks
  rcases tabulateM_entries (n := items.length)
    (f := fun i => parties.packedOperands (item i).1 (item i).2
      ((paillierEncryptBatch (maskPlaintexts draws items.length) parties.modulus
        nonces.masks).getD (2 * i) 0)
      ((paillierEncryptBatch (maskPlaintexts draws items.length) parties.modulus
        nonces.masks).getD (2 * i + 1) 0))
    (R := fun i c => Encrypts parties.modulus c (masked i)) (by
      intro i hi
      have hop := hitems.entries hi
      rcases hencMasks.getD (by omega : 2 * i < 2 * items.length) 0 with ⟨r1, hr1, henc1⟩
      rcases hencMasks.getD (by omega : 2 * i + 1 < 2 * items.length) 0 with ⟨r2, hr2, henc2⟩
      rw [(hr1 i).1 rfl] at henc1
      rw [(hr2 i).2 rfl] at henc2
      exact packedOperands_spec hop.1.1 hop.2.1 henc1 henc2) with ⟨packed, hpacked, hencPacked⟩
  rcases h.partialDecryptBatch_cp hn hencPacked with ⟨shares, hshares, hsharesEq⟩
  rcases batch_spec h (one_lt_modulus hwide) hn .multiply packingBase
    (fun _ => by decide) hencPacked hsharesEq (entries_tabulate fun i _ => rfl) nonces.csp
    with ⟨products, hproducts, hencProducts⟩
  have hencCorr := encryptBatch_entries (entries_tabulate (n := items.length)
    (f := fun i => -((draws i).r1.value : Int) * (draws i).r2.value) fun i _ => rfl) nonces.last
  rcases tabulateM_entries (n := items.length)
    (f := fun i => parties.unmaskProduct (products.getD i 0) (item i).1 (item i).2 (draws i)
      ((paillierEncryptBatch (tabulate items.length fun i =>
        -((draws i).r1.value : Int) * (draws i).r2.value) parties.modulus nonces.last).getD i 0))
    (R := fun i c => Encrypts parties.modulus c ((x i).1 * (x i).2)) (by
      intro i hi
      have hop := hitems.entries hi
      have hproduct := hencProducts.getD hi 0
      rcases hencCorr.getD hi 0 with ⟨corr, rfl, hcorr⟩
      -- The CSP takes the two halves apart, so it multiplies the masked operands.
      rw [Csp.resultPlaintext, unpack_masked hwide hop.1.2 hop.2.2] at hproduct
      exact unmaskProduct_spec hop.1.1 hop.2.1 hproduct hcorr) with ⟨cs, hcs, henc⟩
  refine ⟨cs, ?_, ?_⟩
  · refine bind_eq_ok.2 ⟨(), ensure_eq_ok.2 hn, bind_eq_ok.2 ⟨packed, hpacked, ?_⟩⟩
    refine bind_eq_ok.2 ⟨shares, hshares, bind_eq_ok.2 ⟨products, congrArg answered hproducts, ?_⟩⟩
    exact bind_eq_ok.2 ⟨(), ensure_eq_ok.2 hencProducts.length, hcs⟩
  · have hlen := List.Forall₂.length_eq hitems
    rw [hlen] at henc
    exact henc.forall₂

/-- Both paths return a ciphertext of the product. -/
theorem multiplies (h : parties.DecryptsCorrectly)
    (hwide : 3072 ≤ sizeInBase2 parties.modulus) :
    (∀ (a b : Nat) (x y : Int) (draw : MultiplyDraw) (nonces : parties.MultiplyNonces),
      Encrypts parties.modulus a x → Encrypts parties.modulus b y → Small x → Small y →
        ∃ c, parties.secureMultiply a b draw nonces = .ok c ∧
          Encrypts parties.modulus c (x * y)) ∧
    (∀ (items : List (Nat × Nat)) (xs : List (Int × Int)) (draws : Nat → MultiplyDraw)
      (nonces : parties.BatchNonces), Operands parties items xs → 1 ≤ items.length →
        items.length ≤ 32 → ∃ cs, parties.secureMultiplyBatch items draws nonces = .ok cs ∧
          List.Forall₂ (fun c x => Encrypts parties.modulus c (x.1 * x.2)) cs xs) :=
  ⟨fun _ _ _ _ draw nonces ha hb hx hy => secureMultiply_spec h hwide ha hb hx hy draw nonces,
    fun _ _ draws nonces hitems hlo hhi =>
      secureMultiplyBatch_spec h hwide hitems ⟨hlo, hhi⟩ draws nonces⟩

/-- The least randomizer and the least masks. -/
def unitNonce (hmod : 1 < parties.modulus) : Nonce parties.modulus :=
  ⟨1, Nat.one_pos, hmod, Nat.coprime_one_left _⟩

def leastMask : Mask :=
  ⟨2 ^ 127, le_rfl, by decide⟩

theorem multiplies_3072 : ∃ (parties : Parties) (a b c : Nat) (cs : List Nat)
    (draw : MultiplyDraw) (nonces : parties.MultiplyNonces) (batchNonces : parties.BatchNonces),
    sizeInBase2 parties.modulus = 3072 ∧ Encrypts parties.modulus a 3 ∧
      Encrypts parties.modulus b (-5) ∧ parties.secureMultiply a b draw nonces = .ok c ∧
      Encrypts parties.modulus c (3 * -5) ∧
      parties.secureMultiplyBatch [(a, b), (b, b)] (fun _ => draw) batchNonces = .ok cs ∧
      List.Forall₂ (fun c x => Encrypts parties.modulus c (x.1 * x.2)) cs
        [((3 : Int), (-5 : Int)), (-5, -5)] := by
  rcases exists_parties_3072 with ⟨parties, hcorrect, hsize⟩
  have hwide : 3072 ≤ sizeInBase2 parties.modulus := hsize.ge
  let nonce := unitNonce (one_lt_modulus hwide)
  have hthree : Small 3 ∧ Small (-5) := ⟨by norm_num [Small], by norm_num [Small]⟩
  have ha := encrypts_paillierEncrypt 3 nonce
  have hb := encrypts_paillierEncrypt (-5) nonce
  rcases (multiplies hcorrect hwide).1 _ _ 3 (-5) ⟨leastMask, leastMask⟩
    ⟨nonce, nonce, nonce, nonce⟩ ha hb hthree.1 hthree.2 with ⟨c, hc, henc⟩
  have hoperands : Operands parties
      [(paillierEncrypt 3 parties.modulus nonce, paillierEncrypt (-5) parties.modulus nonce),
        (paillierEncrypt (-5) parties.modulus nonce, paillierEncrypt (-5) parties.modulus nonce)]
      [(3, -5), (-5, -5)] :=
    .cons ⟨⟨ha, hthree.1⟩, hb, hthree.2⟩ (.cons ⟨⟨hb, hthree.2⟩, hb, hthree.2⟩ .nil)
  rcases (multiplies hcorrect hwide).2 _ _ (fun _ => ⟨leastMask, leastMask⟩)
    ⟨fun _ => nonce, fun _ => nonce, fun _ => nonce⟩ hoperands (by simp) (by simp)
    with ⟨cs, hcs, hencs⟩
  exact ⟨parties, _, _, c, cs, _, _, _, hsize, ha, hb, hc, henc, hcs, hencs⟩

/-! ## Comparison -/

/-- The plaintext behind a masked difference: `r3` times the difference, moved to half the
modulus less `r`. -/
def maskedValue (parties : Parties) (x y : Int) (draw : CompareDraw) : Int :=
  (if draw.orientation then x - y else y - x + 1) * draw.r3.value +
    (((parties.modulus / 2 : Nat) : Int) - draw.r.value)

theorem orientedDifference_spec {a b : Nat} {x y : Int} (ha : Encrypts parties.modulus a x)
    (hb : Encrypts parties.modulus b y) (draw : CompareDraw) :
    ∃ d, parties.orientedDifference b a draw = .ok d ∧
      Encrypts parties.modulus d (if draw.orientation then x - y else y - x) := by
  unfold orientedDifference
  cases draw.orientation
  · rcases scalarMultiply_spec ha (parties.modulus - 1) with ⟨c, hc, henc⟩
    refine ⟨add parties.modulus b c, by rw [if_neg (by decide), hc]; rfl, ?_⟩
    -- multiplying by `N - 1` negates modulo `N`
    refine (encrypts_add hb henc).congr (Int.modEq_iff_dvd.2 ⟨-x, ?_⟩)
    simp only [Bool.false_eq_true, if_false]
    ring
  · rcases scalarMultiply_spec hb (-1) with ⟨c, hc, henc⟩
    refine ⟨add parties.modulus a c, by rw [if_pos rfl, hc]; rfl, ?_⟩
    have hsub : x + -1 * y = x - y := by ring
    rw [if_pos rfl, ← hsub]
    exact encrypts_add ha henc

theorem maskedDifference_spec (hmod : 1 < parties.modulus) (message : String)
    {a b encryptedMask : Nat} {x y : Int} (ha : Encrypts parties.modulus a x)
    (hb : Encrypts parties.modulus b y) {draw : CompareDraw}
    (hmask : Encrypts parties.modulus encryptedMask (parties.compareMask draw)) :
    ∃ c, parties.maskedDifference message a b draw encryptedMask = .ok c ∧
      Encrypts parties.modulus c (maskedValue parties x y draw) := by
  rcases orientedDifference_spec ha hb draw with ⟨d, hd, hencD⟩
  rcases scalarMultiply_spec hencD draw.r3.value with ⟨scaled, hscaled, hencScaled⟩
  have henc := encrypts_add hencScaled hmask
  have hvalue : (draw.r3.value : Int) * (if draw.orientation then x - y else y - x) +
      parties.compareMask draw = maskedValue parties x y draw := by
    cases hori : draw.orientation <;> simp [maskedValue, compareMask, hori] <;> ring
  rw [hvalue] at henc
  have hvalid := And.intro (henc.pos hmod) (And.intro henc.lt henc.coprime_modulus)
  refine ⟨_, bind_eq_ok.2 ⟨d, hd, bind_eq_ok.2 ⟨scaled, hscaled, ?_⟩⟩, henc⟩
  exact bind_eq_ok.2 ⟨(), ensure_eq_ok.2 hvalid, rfl⟩

/-- A multiple of `r3` above half the modulus stays above it when `r` is taken away, and one that
is not positive stays below: neither leaves the residues. -/
theorem halfBit_masked (hwide : 3072 ≤ sizeInBase2 parties.modulus) {k : Int}
    (hk : |k| ≤ 2 ^ 128) (draw : CompareDraw) :
    parties.csp.halfBit ((k * draw.r3.value + (((parties.modulus / 2 : Nat) : Int) -
      draw.r.value)) % parties.modulus).toNat = if 0 < k then 0 else 1 := by
  have hroom := packing_room hwide
  have hr3 : (draw.r3.value : Int) < 2 ^ 128 := by exact_mod_cast draw.r3.lt
  have hr : 0 < draw.r.value := Nat.lt_of_lt_of_le (by positivity) draw.r.ge
  have hbelow := draw.below
  have hmodulus : parties.csp.modulus = parties.modulus := rfl
  have hbounds := abs_le.1 hk
  have hr3pos : (0 : Int) < draw.r3.value := by omega
  -- the product is the only term that is not linear
  obtain ⟨t, ht⟩ : ∃ t : Int, k * draw.r3.value = t := ⟨_, rfl⟩
  have habs : |t| ≤ 2 ^ 128 * 2 ^ 128 := by
    rw [← ht, abs_mul, abs_of_pos hr3pos]
    exact mul_le_mul hk hr3.le hr3pos.le (by positivity)
  have htbounds := abs_le.1 habs
  rw [ht, Csp.halfBit, hmodulus]
  by_cases hpos : 0 < k
  · have hge : (draw.r3.value : Int) ≤ t := by
      rw [← ht]
      exact le_mul_of_one_le_left hr3pos.le hpos
    rw [if_pos hpos, Int.emod_eq_of_lt (by omega) (by omega), if_pos (by omega)]
  · have hle : t ≤ 0 := by
      rw [← ht]
      exact mul_nonpos_of_nonpos_of_nonneg (by omega) hr3pos.le
    rw [if_neg hpos, Int.emod_eq_of_lt (by omega) (by omega), if_neg (by omega)]

/-- The strict comparison as an integer. -/
def greater (x y : Int) : Int :=
  if x > y then 1 else 0

/-- The bit of the CSP is the comparison, or its negation when the orientation was reversed. -/
theorem halfBit_difference (hwide : 3072 ≤ sizeInBase2 parties.modulus) {x y : Int}
    (hx : Small x) (hy : Small y) (draw : CompareDraw) :
    parties.csp.halfBit (maskedValue parties x y draw % parties.modulus).toNat =
      if draw.orientation then 1 - greater x y else greater x y := by
  have hx' := abs_lt.1 hx
  have hy' := abs_lt.1 hy
  have hhalf : (2 : Int) ^ 128 = 2 * 2 ^ 127 := by norm_num
  have hsize : |if draw.orientation then x - y else y - x + 1| ≤ 2 ^ 128 := by
    rw [hhalf, abs_le]
    cases draw.orientation <;> simp <;> omega
  rw [maskedValue, halfBit_masked hwide hsize draw]
  cases draw.orientation
  · simp only [Bool.false_eq_true, if_false, greater]
    split <;> split <;> omega
  · simp only [if_true, greater]
    split <;> split <;> omega

/-- Undoing the orientation gives the comparison. -/
theorem orientBit_spec {bit : Nat} {x y : Int} {draw : CompareDraw}
    (hbit : Encrypts parties.modulus bit
      (if draw.orientation then 1 - greater x y else greater x y))
    (nonce : Nonce parties.modulus) :
    ∃ c, parties.orientBit draw bit nonce = .ok c ∧
      Encrypts parties.modulus c (greater x y) := by
  unfold orientBit
  cases hori : draw.orientation
  · rw [hori, if_neg (by decide)] at hbit
    exact ⟨bit, rfl, hbit⟩
  · rw [hori, if_pos rfl] at hbit
    rcases scalarMultiply_spec hbit (-1) with ⟨c, hc, henc⟩
    refine ⟨_, by rw [if_pos rfl, hc]; rfl, ?_⟩
    have hflip : 1 + -1 * (1 - greater x y) = greater x y := by ring
    rw [← hflip]
    exact encrypts_add (encrypts_paillierEncrypt 1 nonce) henc

theorem greaterThan_spec (h : parties.DecryptsCorrectly)
    (hwide : 3072 ≤ sizeInBase2 parties.modulus) {a b : Nat} {x y : Int}
    (ha : Encrypts parties.modulus a x) (hb : Encrypts parties.modulus b y) (hx : Small x)
    (hy : Small y) (draw : CompareDraw) (nonces : parties.CompareNonces) :
    ∃ c, parties.greaterThan a b draw nonces = .ok c ∧
      Encrypts parties.modulus c (greater x y) := by
  rcases maskedDifference_spec (one_lt_modulus hwide) "SCMP produced invalid ciphertext" ha hb
    (encrypts_paillierEncrypt (parties.compareMask draw) nonces.mask) with ⟨d, hd, hencD⟩
  have hbit := encrypts_paillierEncrypt
    (parties.csp.halfBit (maskedValue parties x y draw % parties.modulus).toNat) nonces.csp
  have hanswer : parties.csp.compare d (parties.cpShare d) nonces.csp = .ok (paillierEncrypt
      (parties.csp.halfBit (maskedValue parties x y draw % parties.modulus).toNat)
        parties.csp.modulus nonces.csp) :=
    bind_eq_ok.2 ⟨_, h.decrypt_csp hencD, rfl⟩
  rw [halfBit_difference hwide hx hy] at hbit hanswer
  rcases orientBit_spec hbit nonces.orient with ⟨c, hc, henc⟩
  refine ⟨c, bind_eq_ok.2 ⟨d, hd, ?_⟩, henc⟩
  refine bind_eq_ok.2 ⟨_, h.partialDecrypt_cp hencD, ?_⟩
  exact bind_eq_ok.2 ⟨_, congrArg answered hanswer, hc⟩

/-- The masked differences of a batch, with the CP's shares. -/
theorem maskedDifferences_spec (h : parties.DecryptsCorrectly)
    (hwide : 3072 ≤ sizeInBase2 parties.modulus) (message : String) {items : List (Nat × Nat)}
    {xs : List (Int × Int)} (hitems : Operands parties items xs)
    (hn : 1 ≤ items.length ∧ items.length ≤ thresholdMaxBatchSize) (draws : Nat → CompareDraw)
    (nonces : Nat → Nonce parties.modulus) :
    ∃ ds shares, parties.maskedDifferences message items draws nonces = .ok (ds, shares) ∧
      Entries items.length ds (fun i d => Encrypts parties.modulus d
        (maskedValue parties (xs.getD i (0, 0)).1 (xs.getD i (0, 0)).2 (draws i))) ∧
      Entries items.length shares fun i s => s = parties.cpShare (ds.getD i 0) := by
  have hencMasks := encryptBatch_entries (entries_tabulate (n := items.length)
    (f := fun i => parties.compareMask (draws i)) fun i _ => rfl) nonces
  rcases tabulateM_entries (n := items.length)
    (f := fun i => parties.maskedDifference message (items.getD i (0, 0)).1
      (items.getD i (0, 0)).2 (draws i) ((paillierEncryptBatch (tabulate items.length fun i =>
        parties.compareMask (draws i)) parties.modulus nonces).getD i 0))
    (R := fun i d => Encrypts parties.modulus d
      (maskedValue parties (xs.getD i (0, 0)).1 (xs.getD i (0, 0)).2 (draws i))) (by
      intro i hi
      have hop := hitems.entries hi
      rcases hencMasks.getD hi 0 with ⟨mask, rfl, hmask⟩
      exact maskedDifference_spec (one_lt_modulus hwide) message hop.1.1 hop.2.1 hmask)
    with ⟨ds, hds, hencD⟩
  rcases h.partialDecryptBatch_cp hn hencD with ⟨shares, hshares, hsharesEq⟩
  exact ⟨ds, shares, bind_eq_ok.2 ⟨ds, hds, bind_eq_ok.2 ⟨shares, hshares, rfl⟩⟩, hencD, hsharesEq⟩

theorem greaterThanBatch_spec (h : parties.DecryptsCorrectly)
    (hwide : 3072 ≤ sizeInBase2 parties.modulus) {items : List (Nat × Nat)}
    {xs : List (Int × Int)} (hitems : Operands parties items xs)
    (hn : 1 ≤ items.length ∧ items.length ≤ thresholdMaxBatchSize) (draws : Nat → CompareDraw)
    (nonces : parties.BatchNonces) :
    ∃ cs, parties.greaterThanBatch items draws nonces = .ok cs ∧
      List.Forall₂ (fun c x => Encrypts parties.modulus c (greater x.1 x.2)) cs xs := by
  rcases maskedDifferences_spec h hwide "SCMP produced invalid ciphertext" hitems hn draws
    nonces.masks with ⟨ds, shares, hds, hencD, hsharesEq⟩
  rcases batch_spec h (one_lt_modulus hwide) hn .compare 0
    (fun hkind => absurd hkind (by decide)) hencD hsharesEq (entries_tabulate fun i _ => rfl)
    nonces.csp with ⟨bits, hbits, hencBits⟩
  rcases tabulateM_entries (n := items.length)
    (f := fun i => parties.orientBit (draws i) (bits.getD i 0) (nonces.last i))
    (R := fun i c => Encrypts parties.modulus c
      (greater (xs.getD i (0, 0)).1 (xs.getD i (0, 0)).2)) (by
      intro i hi
      have hop := hitems.entries hi
      have hbit := hencBits.getD hi 0
      rw [Csp.resultPlaintext, halfBit_difference hwide hop.1.2 hop.2.2] at hbit
      exact orientBit_spec hbit (nonces.last i)) with ⟨cs, hcs, henc⟩
  refine ⟨cs, ?_, ?_⟩
  · refine bind_eq_ok.2 ⟨(), ensure_eq_ok.2 hn, bind_eq_ok.2 ⟨(ds, shares), hds, ?_⟩⟩
    refine bind_eq_ok.2 ⟨bits, congrArg answered hbits, ?_⟩
    exact bind_eq_ok.2 ⟨(), ensure_eq_ok.2 hencBits.length, hcs⟩
  · have hlen := List.Forall₂.length_eq hitems
    rw [hlen] at henc
    exact henc.forall₂

/-- Both paths return a ciphertext of the comparison. -/
theorem compares (h : parties.DecryptsCorrectly)
    (hwide : 3072 ≤ sizeInBase2 parties.modulus) :
    (∀ (a b : Nat) (x y : Int) (draw : CompareDraw) (nonces : parties.CompareNonces),
      Encrypts parties.modulus a x → Encrypts parties.modulus b y → Small x → Small y →
        ∃ c, parties.greaterThan a b draw nonces = .ok c ∧
          Encrypts parties.modulus c (if x > y then 1 else 0)) ∧
    (∀ (items : List (Nat × Nat)) (xs : List (Int × Int)) (draws : Nat → CompareDraw)
      (nonces : parties.BatchNonces), Operands parties items xs → 1 ≤ items.length →
        items.length ≤ 32 → ∃ cs, parties.greaterThanBatch items draws nonces = .ok cs ∧
          List.Forall₂ (fun c x => Encrypts parties.modulus c (if x.1 > x.2 then 1 else 0))
            cs xs) :=
  ⟨fun _ _ _ _ draw nonces ha hb hx hy => greaterThan_spec h hwide ha hb hx hy draw nonces,
    fun _ _ draws nonces hitems hlo hhi =>
      greaterThanBatch_spec h hwide hitems ⟨hlo, hhi⟩ draws nonces⟩

/-- Equal operands, and a pair in either order. -/
theorem compares_3072 : ∃ (parties : Parties) (a b c : Nat) (cs : List Nat)
    (draw : CompareDraw) (nonces : parties.CompareNonces) (batchNonces : parties.BatchNonces),
    sizeInBase2 parties.modulus = 3072 ∧ Encrypts parties.modulus a 3 ∧
      Encrypts parties.modulus b (-5) ∧ parties.greaterThan a b draw nonces = .ok c ∧
      Encrypts parties.modulus c 1 ∧
      parties.greaterThanBatch [(a, a), (b, a)] (fun _ => draw) batchNonces = .ok cs ∧
      List.Forall₂ (fun c x => Encrypts parties.modulus c (if x.1 > x.2 then 1 else 0)) cs
        [((3 : Int), (3 : Int)), (-5, 3)] := by
  rcases exists_parties_3072 with ⟨parties, hcorrect, hsize⟩
  have hwide : 3072 ≤ sizeInBase2 parties.modulus := hsize.ge
  let nonce := unitNonce (one_lt_modulus hwide)
  let draw : CompareDraw := ⟨⟨2 ^ 127 + 1, by decide, by decide⟩, leastMask, by decide, true⟩
  have hthree : Small 3 ∧ Small (-5) := ⟨by norm_num [Small], by norm_num [Small]⟩
  have ha := encrypts_paillierEncrypt 3 nonce
  have hb := encrypts_paillierEncrypt (-5) nonce
  rcases (compares hcorrect hwide).1 _ _ 3 (-5) draw ⟨nonce, nonce, nonce⟩ ha hb hthree.1
    hthree.2 with ⟨c, hc, henc⟩
  have hoperands : Operands parties
      [(paillierEncrypt 3 parties.modulus nonce, paillierEncrypt 3 parties.modulus nonce),
        (paillierEncrypt (-5) parties.modulus nonce, paillierEncrypt 3 parties.modulus nonce)]
      [(3, 3), (-5, 3)] :=
    .cons ⟨⟨ha, hthree.1⟩, ha, hthree.1⟩ (.cons ⟨⟨hb, hthree.2⟩, ha, hthree.1⟩ .nil)
  rcases (compares hcorrect hwide).2 _ _ (fun _ => draw)
    ⟨fun _ => nonce, fun _ => nonce, fun _ => nonce⟩ hoperands (by simp) (by simp)
    with ⟨cs, hcs, hencs⟩
  exact ⟨parties, _, _, c, cs, draw, _, _, hsize, ha, hb, hc, henc, hcs, hencs⟩

end Parties
end Protocol
end SociSgx

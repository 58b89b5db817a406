import SociSgx.Optimizer.MaximumMu

/-!
# GridShape — the size of a grid of multipliers

`buildLagrangianGrid` collects the two anchors and equidistant points, and then drops points until
the requested size is reached.  It never drops 0 or an anchor, and there are three of these: with
a requested size of two, a grid of three multipliers can be left over.
-/

namespace SociSgx
namespace Optimization

open Exec Secure

/-! ## Trimming -/

/-- What `trim` never drops. -/
def Protected (alphaAnchor thresholdAnchor v : Int) : Prop :=
  v = 0 ∨ v = alphaAnchor ∨ v = thresholdAnchor

variable {alphaAnchor thresholdAnchor : Int} {values : List Int}

theorem victim_mem {v : Int} (hne : values ≠ [])
    (h : victim alphaAnchor thresholdAnchor values = some v) : v ∈ values := by
  unfold victim at h
  dsimp only at h
  split at h
  · have hmem := List.mem_of_find?_eq_some h
    exact List.mem_of_mem_dropLast (List.mem_reverse.1 hmem)
  · cases h
    rw [List.getLastD_eq_getLast?, List.getLast?_eq_some_getLast hne]
    exact List.getLast_mem hne

theorem protected_of_victim (h : victim alphaAnchor thresholdAnchor values = none) :
    ∀ v ∈ values, Protected alphaAnchor thresholdAnchor v := by
  unfold victim at h
  dsimp only at h
  split at h
  · rename_i hlast
    intro v hv
    rcases List.eq_nil_or_concat values with rfl | ⟨front, last, rfl⟩
    · cases hv
    · rw [List.concat_eq_append] at h hv hlast
      rw [List.getLastD_concat] at hlast
      rcases List.mem_append.1 hv with hv | hv
      · rw [List.dropLast_concat, List.find?_eq_none] at h
        have hno := h v (List.mem_reverse.2 hv)
        simp only [ne_eq, decide_eq_true_eq] at hno
        unfold Protected
        tauto
      · rw [List.mem_singleton.1 hv]
        exact Or.inr hlast
  · cases h

/-- Trimming stops at the requested size, or when only protected members are left. -/
theorem trim_stops (requestedSize : Nat) (fuel : Nat) : ∀ {values : List Int},
    values.length ≤ fuel →
    (trim requestedSize alphaAnchor thresholdAnchor fuel values).length ≤ requestedSize ∨
      ∀ v ∈ trim requestedSize alphaAnchor thresholdAnchor fuel values,
        Protected alphaAnchor thresholdAnchor v := by
  induction fuel with
  | zero =>
      intro values hfuel
      rw [List.length_eq_zero_iff.1 (Nat.le_zero.1 hfuel)]
      exact Or.inl (Nat.zero_le _)
  | succ fuel ih =>
      intro values hfuel
      rw [trim]
      split
      · exact Or.inl ‹_›
      · rename_i hlong
        split
        · rename_i hvictim
          exact Or.inr (protected_of_victim hvictim)
        · rename_i v hvictim
          have hne : values ≠ [] := by
            rintro rfl
            exact hlong (Nat.zero_le _)
          have herase := List.length_erase_of_mem (victim_mem hne hvictim)
          exact ih (by omega)

/-- Distinct protected members are at most three. -/
theorem length_le_three (hnodup : values.Nodup)
    (h : ∀ v ∈ values, Protected alphaAnchor thresholdAnchor v) : values.length ≤ 3 := by
  have hsubset : values ⊆ [0, alphaAnchor, thresholdAnchor] := by
    intro v hv
    simpa [Protected] using h v hv
  exact (List.Nodup.subperm hnodup hsubset).length_le

/-- The equidistant points of a grid of two are 0 and the upper end. -/
theorem addSteps_two {upper : Int} (hupper : 0 < upper) (values : List Int) :
    addSteps 2 upper values = setInsert upper values := by
  simp [addSteps, hupper]

/-- A grid of two grows to three multipliers when both anchors are in it and the larger one is the
upper end. -/
theorem length_two_iff {upper : Int} (halpha : 0 < alphaAnchor) (hthreshold : 0 < thresholdAnchor) :
    (trim 2 alphaAnchor thresholdAnchor (addSteps 2 upper (addAnchor 2 upper thresholdAnchor
        (addAnchor 2 upper alphaAnchor [0]))).length (addSteps 2 upper
        (addAnchor 2 upper thresholdAnchor (addAnchor 2 upper alphaAnchor [0])))).length ≤ 2 ↔
      ¬ (alphaAnchor < upper ∧ upper = thresholdAnchor) := by
  by_cases hupper : 0 < upper
  · rw [addSteps_two hupper]
    -- The cases of the source: which anchors are within the upper end, and whether they reach it.
    by_cases hfits : alphaAnchor ≤ upper
    · have hanchors : addAnchor 2 upper thresholdAnchor (addAnchor 2 upper alphaAnchor [0]) =
          [0, alphaAnchor] := by
        simp [addAnchor, setInsert, halpha, hfits, halpha.not_gt, halpha.ne']
      rw [hanchors]
      rcases hfits.eq_or_lt with rfl | hlt
      · have hinsert : setInsert alphaAnchor [0, alphaAnchor] = [0, alphaAnchor] := by
          simp [setInsert, halpha.not_gt, halpha.ne']
        rw [hinsert]
        simp [trim]
      · have hinsert : setInsert upper [0, alphaAnchor] = [0, alphaAnchor, upper] := by
          simp [setInsert, hupper.not_gt, hupper.ne', hlt.not_gt, hlt.ne']
        rw [hinsert]
        by_cases hend : upper = thresholdAnchor
        · subst hend
          simp [trim, victim, hlt]
        -- The upper end is no anchor, so it is dropped.
        · have hvictim : victim alphaAnchor thresholdAnchor [0, alphaAnchor, upper] =
              some upper := by
            simp [victim, hlt.ne', hend]
          have herase : [0, alphaAnchor, upper].erase upper = [0, alphaAnchor] := by
            simp [hupper.ne, hlt.ne]
          simp [trim, hvictim, herase, hend]
    · have hfirst : addAnchor 2 upper alphaAnchor [0] = [0] := by
        simp [addAnchor, hfits]
      rw [hfirst]
      by_cases hsecond : thresholdAnchor ≤ upper
      · have hanchors : addAnchor 2 upper thresholdAnchor [0] = [0, thresholdAnchor] := by
          simp [addAnchor, setInsert, hthreshold, hsecond, hthreshold.not_gt, hthreshold.ne']
        rw [hanchors]
        rcases hsecond.eq_or_lt with rfl | hlt
        · have hinsert : setInsert thresholdAnchor [0, thresholdAnchor] = [0, thresholdAnchor] := by
            simp [setInsert, hthreshold.not_gt, hthreshold.ne']
          rw [hinsert]
          simp [trim]
          omega
        · have hinsert : setInsert upper [0, thresholdAnchor] = [0, thresholdAnchor, upper] := by
            simp [setInsert, hupper.not_gt, hupper.ne', hlt.not_gt, hlt.ne']
          rw [hinsert]
          have hvictim : victim alphaAnchor thresholdAnchor [0, thresholdAnchor, upper] =
              some upper := by
            have halphaNe : upper ≠ alphaAnchor := by omega
            simp [victim, hlt.ne', halphaNe]
          have herase : [0, thresholdAnchor, upper].erase upper = [0, thresholdAnchor] := by
            simp [hupper.ne, hlt.ne]
          simp [trim, hvictim, herase, hlt.ne']
      · have hanchors : addAnchor 2 upper thresholdAnchor [0] = [0] := by
          simp [addAnchor, hsecond]
        have hinsert : setInsert upper [0] = [0, upper] := by
          simp [setInsert, hupper.not_gt, hupper.ne']
        rw [hanchors, hinsert]
        simp [trim]
        omega
  · have hnone : ∀ {anchor : Int}, 0 < anchor → addAnchor 2 upper anchor [0] = [0] := by
      intro anchor hanchor
      have hno : ¬ anchor ≤ upper := by omega
      simp [addAnchor, hno]
    have hsteps : addSteps 2 upper [0] = [0] := by
      simp [addSteps, hupper]
    rw [hnone halpha, hnone hthreshold, hsteps]
    simp [trim]
    omega

/-! ## The returned grid -/

/-- `roundedRatio` for a positive denominator. -/
def nearestRatio (a b denominator : Int) : Int :=
  min ((a * b + denominator / 2) / denominator) int64Max

theorem roundedRatio_eq {a b denominator : Int} (h : 0 < denominator) :
    roundedRatio a b denominator = .ok (nearestRatio a b denominator) := by
  rw [roundedRatio, ensure, if_pos h]
  rfl

/-- An anchor is at least one multiplier, since the scale exceeds its denominator's share. -/
theorem nearestRatio_pos {a b denominator : Int} (ha : 0 < a) (hdenominator : 0 < denominator)
    (hle : denominator ≤ b) : 0 < nearestRatio a b denominator := by
  have hprod : denominator ≤ a * b := by nlinarith
  have hquot : 1 ≤ (a * b + denominator / 2) / denominator :=
    Int.le_ediv_of_mul_le hdenominator (by omega)
  exact lt_min (by omega) (by decide)

/-- The shape that a returned grid should have. -/
structure GridShape (domain : NumericDomain) (threshold : Int) (config : LagrangianGridConfig)
    (grid : LagrangianGrid) : Prop where
  increasing : grid.mu.Pairwise (· < ·)
  zero : grid.mu.head? = some 0
  size : grid.mu.length ≤ config.requestedSize
  supported : ∃ m, IsGreatest (supportedMus domain threshold grid.q) m ∧ ∀ mu ∈ grid.mu, mu ≤ m
  accepted : ∃ bounds, deriveLagrangianNumericBounds domain threshold grid = .ok bounds

/-- Two multipliers are requested, the anchor of `alpha` is the smaller one, and the anchor of the
threshold is the upper end: it is supported, and nothing larger is wanted or supported. -/
structure AnchorsCollide (domain : NumericDomain) (threshold : Int)
    (config : LagrangianGridConfig) : Prop where
  two : config.requestedSize = 2
  positive : 0 < threshold
  anchors : nearestRatio config.denominator domain.scale (domain.scale - threshold) <
    nearestRatio config.denominator domain.scale threshold
  reachable : supported domain threshold (domain.scale * config.denominator)
    (nearestRatio config.denominator domain.scale threshold) = .ok true
  upperEnd : config.spanFactor = 1 ∨
    nearestRatio config.denominator domain.scale threshold = int64Max ∨
    supported domain threshold (domain.scale * config.denominator)
      (nearestRatio config.denominator domain.scale threshold + 1) ≠ .ok true

/-- When the larger anchor is the upper end. -/
theorem upper_eq_iff {domain : NumericDomain} {threshold q limit span : Int}
    (hlimit : IsGreatest (supportedMus domain threshold q) limit)
    (hbelow : ∀ mu, 0 ≤ mu → mu ≤ limit → supported domain threshold q mu = .ok true)
    (hspan : 0 < span) (hthreshold : 0 < thresholdAnchor)
    (hmax : thresholdAnchor ≤ int64Max) :
    (alphaAnchor < min limit (min (span * max alphaAnchor thresholdAnchor) int64Max) ∧
      min limit (min (span * max alphaAnchor thresholdAnchor) int64Max) = thresholdAnchor) ↔
    alphaAnchor < thresholdAnchor ∧ supported domain threshold q thresholdAnchor = .ok true ∧
      (span = 1 ∨ thresholdAnchor = int64Max ∨
        supported domain threshold q (thresholdAnchor + 1) ≠ .ok true) := by
  constructor
  · rintro ⟨hlt, heq⟩
    rw [heq] at hlt
    refine ⟨hlt, hbelow _ hthreshold.le (heq ▸ min_le_left _ _), ?_⟩
    rw [max_eq_right hlt.le] at heq
    by_contra hno
    push Not at hno
    -- Otherwise the next number is supported and in range too, and the minimum would be above.
    rcases hno with ⟨hone, hend, hnext⟩
    have hnextLe : thresholdAnchor + 1 ≤ limit := hlimit.2 ⟨by omega, by omega, hnext⟩
    have hproduct : thresholdAnchor + 1 ≤ span * thresholdAnchor := by
      have htwo : 2 ≤ span := by omega
      nlinarith
    have hle : thresholdAnchor + 1 ≤ min limit (min (span * thresholdAnchor) int64Max) :=
      le_min hnextLe (le_min hproduct (by omega))
    omega
  · rintro ⟨hlt, hsupported, hend⟩
    have hle : thresholdAnchor ≤ limit := hlimit.2 ⟨hthreshold.le, hmax, hsupported⟩
    have hproduct : thresholdAnchor ≤ span * thresholdAnchor := by nlinarith
    have heq : min limit (min (span * max alphaAnchor thresholdAnchor) int64Max) =
        thresholdAnchor := by
      rw [max_eq_right hlt.le]
      refine le_antisymm ?_ (le_min hle (le_min hproduct hmax))
      rcases hend with rfl | hend | hnext
      · rw [one_mul]
        exact (min_le_right _ _).trans (min_le_left _ _)
      · rw [hend]
        exact (min_le_right _ _).trans (min_le_right _ _)
      · refine (min_le_left _ _).trans ?_
        by_contra hgt
        exact hnext (hbelow _ (by omega) (by omega))
    rw [heq]
    exact ⟨hlt, rfl⟩

/-- What the last check has found out about the grid. -/
theorem derived_shape {domain : NumericDomain} {threshold : Int} {grid : LagrangianGrid}
    {bounds : LagrangianNumericBounds} (hreaches : Reaches domain threshold grid.q)
    (h : deriveLagrangianNumericBounds domain threshold grid = .ok bounds) :
    grid.mu.Pairwise (· < ·) ∧ grid.mu.head? = some 0 ∧
      ∃ m, IsGreatest (supportedMus domain threshold grid.q) m ∧
        (∀ mu, 0 ≤ mu → mu ≤ m → supported domain threshold grid.q mu = .ok true) ∧
        ∀ mu ∈ grid.mu, mu ≤ m := by
  rcases bind_eq_ok.1 h with ⟨_, _, h⟩
  rcases bind_eq_ok.1 h with ⟨_, _, h⟩
  rcases bind_eq_ok.1 h with ⟨_, _, h⟩
  rcases bind_eq_ok.1 h with ⟨_, _, h⟩
  rcases bind_eq_ok.1 h with ⟨_, hsorted, h⟩
  rcases bind_eq_ok.1 h with ⟨_, hdistinct, h⟩
  rcases bind_eq_ok.1 h with ⟨_, _, h⟩
  rcases bind_eq_ok.1 h with ⟨_, _, h⟩
  rcases bind_eq_ok.1 h with ⟨maximum, hmaximum, h⟩
  rcases bind_eq_ok.1 h with ⟨_, hback, _⟩
  rw [ensure_eq_ok] at hsorted hdistinct hback
  have hchain : grid.mu.IsChain (· < ·) := by
    rw [List.isChain_iff_getElem] at hdistinct ⊢
    have hle := List.isChain_iff_getElem.1 hsorted.1
    exact fun i hi => lt_of_le_of_ne (hle i hi) (hdistinct i hi)
  rcases bind_eq_ok.1 hmaximum with ⟨zeroSupported, hzero, hrest⟩
  rcases bind_eq_ok.1 hrest with ⟨_, htrue, _⟩
  rw [ensure_eq_ok] at htrue
  rw [htrue] at hzero
  rcases maximumMu_spec hreaches hzero with ⟨m, hm, _, hgreatest, hbelow⟩
  have heq : m = maximum := Except.ok.inj (hm.symm.trans hmaximum)
  refine ⟨hchain.pairwise, hsorted.2, m, hgreatest, hbelow, fun mu hmu => ?_⟩
  exact (le_getLastD hsorted.1.pairwise hmu).trans (hback.trans_eq heq.symm)

/-- A returned grid has the shape, unless it was built for two multipliers of which the anchors
take both. -/
theorem gridShape_iff {domain : NumericDomain} {threshold : Int} {config : LagrangianGridConfig}
    {grid : LagrangianGrid} (hscale : domain.scale ≤ int64Max) (hrows : domain.maxRows < 2 ^ 64)
    (h : buildLagrangianGrid domain threshold config = .ok grid) :
    GridShape domain threshold config grid ↔ ¬ AnchorsCollide domain threshold config := by
  rcases bind_eq_ok.1 h with ⟨_, hconfig, h⟩
  rcases bind_eq_ok.1 h with ⟨_, hrange, h⟩
  rcases bind_eq_ok.1 h with ⟨_, hq, h⟩
  rw [ensure_eq_ok] at hconfig hrange hq
  have hqpos : 0 < domain.scale * config.denominator := mul_pos hconfig.1 hconfig.2.1
  have hreaches : Reaches domain threshold (domain.scale * config.denominator) :=
    ⟨⟨hconfig.1, hscale⟩, hrange, ⟨hqpos, hq⟩, hrows⟩
  -- everything but the size follows from the check that the builder makes at its end
  have hsize : ∀ {grid bounds}, grid.q = domain.scale * config.denominator →
      deriveLagrangianNumericBounds domain threshold grid = .ok bounds →
      (GridShape domain threshold config grid ↔ grid.mu.length ≤ config.requestedSize) := by
    intro grid bounds hgrid hderive
    refine ⟨GridShape.size, fun hlength => ?_⟩
    rcases derived_shape (hgrid ▸ hreaches) hderive with ⟨hinc, hhead, m, hm, _, hle⟩
    exact ⟨hinc, hhead, hlength, ⟨m, hm, hle⟩, bounds, hderive⟩
  split at h
  · rename_i hsmall
    rcases bind_eq_ok.1 h with ⟨bounds, hderive, h⟩
    cases h
    rw [hsize rfl hderive]
    refine iff_of_true (Nat.pos_of_ne_zero hconfig.2.2.1) fun hcollide => ?_
    have htwo := hcollide.two
    have hpos := hcollide.positive
    omega
  · rename_i hlarge
    push Not at hlarge
    have hthreshold : 0 < threshold := lt_of_le_of_ne hrange.1 hlarge.1.symm
    rcases bind_eq_ok.1 h with ⟨limit, hlimit, h⟩
    rw [roundedRatio_eq (sub_pos.2 hrange.2), ok_bind rfl, roundedRatio_eq hthreshold,
      ok_bind rfl] at h
    rcases bind_eq_ok.1 h with ⟨bounds, hderive, h⟩
    cases h
    rw [hsize rfl hderive]
    rcases derived_shape hreaches hderive with ⟨hinc, _, m, hm, hbelow, _⟩
    have hzero := hbelow 0 le_rfl hm.1.1
    rcases maximumMu_spec hreaches hzero with ⟨m', hm', _, hgreatest, _⟩
    have heq : m' = limit := Except.ok.inj (hm'.symm.trans hlimit)
    have hlimitGreatest : m = limit := (hm.unique hgreatest).trans heq
    rw [hlimitGreatest] at hm hbelow
    have halphaPos := nearestRatio_pos hconfig.2.1 (sub_pos.2 hrange.2)
      (by linarith : domain.scale - threshold ≤ domain.scale)
    have hthresholdPos := nearestRatio_pos hconfig.2.1 hthreshold hrange.2.le
    have hends : _ ↔ nearestRatio config.denominator domain.scale (domain.scale - threshold) <
        nearestRatio config.denominator domain.scale threshold ∧ _ :=
      upper_eq_iff hm hbelow hconfig.2.2.2.2 hthresholdPos (min_le_right _ _)
    by_cases htwo : config.requestedSize = 2
    · rw [htwo, length_two_iff halphaPos hthresholdPos, hends]
      refine not_congr ⟨fun hall => ⟨htwo, hthreshold, hall.1, hall.2.1, hall.2.2⟩, fun hall => ?_⟩
      exact ⟨hall.anchors, hall.reachable, hall.upperEnd⟩
    · refine iff_of_true ?_ fun hcollide => htwo hcollide.two
      have hnodup := hinc.imp fun hxy => hxy.ne
      rcases trim_stops config.requestedSize _ le_rfl with hlength | hprotected
      · exact hlength
      · exact (length_le_three hnodup hprotected).trans (by omega)

/-- The grid of the tests. -/
theorem gridShape_iff_eightRows :
    GridShape ⟨100, 8, 8, 16, 24, 32⟩ 50 ⟨4, 5, 2⟩ ⟨400, 4, [0, 4, 8, 12, 16]⟩ ↔
      ¬ AnchorsCollide ⟨100, 8, 8, 16, 24, 32⟩ 50 ⟨4, 5, 2⟩ :=
  gridShape_iff (by decide) (by decide) (by decide +kernel)

/-- Two multipliers are requested, and three are returned. -/
theorem gridShape_three :
    buildLagrangianGrid ⟨100, 8, 8, 16, 24, 32⟩ 20 ⟨1, 2, 1⟩ = .ok ⟨100, 1, [0, 1, 5]⟩ ∧
      ¬ [0, 1, 5].length ≤ 2 := by
  decide +kernel

end Optimization
end SociSgx

import SociSgx.Pega.Result
import SociSgx.Optimizer.OperandRange

/-!
# Range — every operand of PEGA fits the masked protocols

The constructor of `ThresholdSecureOps` gives a total enough bits for the costs of all rows, and
`validate` gives the most expensive product, the penalty times the scaled extent, fewer than 127.
The other operands are a fourth of the limit that this leaves, or less.
-/

namespace SociSgx
namespace Optimization

open Exec Secure CountedOps Scalable Protocol

/-! ## The budget -/

theorem addBits_eq {a b sum : Nat} (h : addBits a b = some sum) : sum = a + b := by
  unfold addBits at h
  split at h
  · cases h
  · exact (Option.some.inj h).symm

/-- The product that an infeasible individual without method 3 pays. -/
theorem boundsFitness_bits {domain : NumericDomain} {penalty : Int}
    (h : boundsFitness domain penalty = true) :
    2 * (domain.maxTotalBits + 1) + penalty.toNat.size + domain.scale.toNat.size ≤
      domain.compareOperandBits := by
  unfold boundsFitness at h
  cases haboveTotal : addBits domain.maxTotalBits 1 with
  | none => simp [haboveTotal] at h
  | some aboveTotal =>
      cases hpenalty : addBits aboveTotal penalty.toNat.size with
      | none => simp [haboveTotal, hpenalty] at h
      | some penaltyBits =>
          cases hviolation : addBits penaltyBits domain.maxLinearBits with
          | none => simp [haboveTotal, hpenalty, hviolation] at h
          | some violationBits =>
              cases hextent : addBits aboveTotal domain.scale.toNat.size with
              | none => simp [haboveTotal, hpenalty, hextent] at h
              | some extentBits =>
                  cases hmissing : addBits penaltyBits extentBits with
                  | none => simp [haboveTotal, hpenalty, hviolation, hextent, hmissing] at h
                  | some missingBits =>
                      simp only [haboveTotal, hpenalty, hviolation, hextent, hmissing,
                        Option.bind_eq_bind, Option.bind_some, Option.pure_def, Bool.and_eq_true,
                        decide_eq_true_eq] at h
                      have haboveTotal := addBits_eq haboveTotal
                      have hpenalty := addBits_eq hpenalty
                      have hextent := addBits_eq hextent
                      have hmissing := addBits_eq hmissing
                      omega

theorem boundsIntermediates_compare {domain : NumericDomain}
    (h : boundsIntermediates domain = true) : domain.compareOperandBits < 127 := by
  unfold boundsIntermediates at h
  split at h
  · rw [Bool.and_eq_true, decide_eq_true_iff] at h
    exact h.2
  · cases h

theorem le_two_pow_size {x : Int} (hx : 0 ≤ x) : x ≤ 2 ^ x.toNat.size := by
  have hsize : x.toNat < 2 ^ x.toNat.size := Nat.lt_size_self _
  calc x = (x.toNat : Int) := (Int.toNat_of_nonneg hx).symm
    _ ≤ 2 ^ x.toNat.size := by exact_mod_cast hsize.le

/-- What the rows can cost together. -/
theorem extent_le {costBits rowBits totalBits n : Nat} (hn : (n : Int) ≤ 2 ^ rowBits)
    (hbits : costBits + rowBits ≤ totalBits) :
    (n : Int) * (2 ^ costBits - 1) + 1 ≤ 2 ^ totalBits := by
  have hcost : (1 : Int) ≤ 2 ^ costBits := one_le_pow₀ (by decide)
  have hrows : (1 : Int) ≤ 2 ^ rowBits := one_le_pow₀ (by decide)
  calc (n : Int) * (2 ^ costBits - 1) + 1
      ≤ 2 ^ rowBits * (2 ^ costBits - 1) + 1 := by
        gcongr
    _ = 2 ^ (costBits + rowBits) + (1 - 2 ^ rowBits) := by
        rw [pow_add]
        ring
    _ ≤ 2 ^ (costBits + rowBits) := by omega
    _ ≤ 2 ^ totalBits := pow_le_pow_right₀ (by decide) hbits

/-- The guards of the domain leave room for everything that PEGA computes. -/
theorem capacity_inRange {C : Type} [CiphertextLike C] {domain : NumericDomain}
    {config : ConfidentialScalableOptimizerConfig} {request : EncryptedOptimizationRequest C}
    (hdomain : checkNumericDomain domain = .ok ())
    (haccepted : Accepted domain config request) {rows : List (CostRow Int)}
    (hlength : request.costs.length = rows.length)
    (hcosts : CostsWithin domain.maxCostBits rows) :
    (plainOf domain config request rows).Capacity InRange (2 ^ domain.maxCostBits - 1) := by
  have hscale : 0 < domain.scale := lt_of_le_of_lt haccepted.threshold.1 haccepted.threshold.2
  have htotal := checkNumericDomain_total hdomain
  have hbudget := boundsFitness_bits haccepted.fitness
  have hcompare := boundsIntermediates_compare haccepted.intermediates
  have hcost : (1 : Int) ≤ 2 ^ domain.maxCostBits := one_le_pow₀ (by decide)
  have hrows : (rows.length : Int) ≤ 2 ^ Protocol.ceilLog2 domain.maxRows := by
    have hle : rows.length ≤ 2 ^ Protocol.ceilLog2 domain.maxRows :=
      (hlength ▸ haccepted.rows).trans (le_two_pow_ceilLog2 _)
    exact_mod_cast hle
  have hextent := extent_le hrows htotal
  refine ⟨by omega, fun row hrow c hc => ?_, haccepted.threshold, haccepted.penalty,
    fun x hx => lt_of_le_of_lt hx ?_, fun x hx => lt_of_le_of_lt hx ?_⟩
  · have hrange := hcosts row hrow c.method c.cost (mem_options.1 hc)
    rw [abs_of_nonneg hrange.1]
    omega
  · have hnonneg : 0 ≤ (rows.length : Int) * (2 ^ domain.maxCostBits - 1) + 1 := by
      have hproduct := mul_nonneg (Int.natCast_nonneg rows.length)
        (show (0 : Int) ≤ 2 ^ domain.maxCostBits - 1 by omega)
      omega
    have hpenalty := haccepted.penalty.le
    -- The budget of bits that the guards check is this product.
    calc 4 * domain.scale * config.infeasiblePenalty *
          ((rows.length : Int) * (2 ^ domain.maxCostBits - 1) + 1) ^ 2
        ≤ 4 * 2 ^ domain.scale.toNat.size * 2 ^ config.infeasiblePenalty.toNat.size *
          (2 ^ domain.maxTotalBits) ^ 2 := by
          have hscaleSize := le_two_pow_size hscale.le
          have hpenaltySize := le_two_pow_size hpenalty
          gcongr
      _ = 2 ^ (2 * (domain.maxTotalBits + 1) + config.infeasiblePenalty.toNat.size +
          domain.scale.toNat.size) := by
          rw [pow_add, pow_add, mul_add, pow_add, pow_mul']
          ring
      _ < 2 ^ 127 := pow_lt_pow_right₀ (by decide) (by omega)
  · have hsizes : 0 < domain.scale.toNat.size ∧ 0 < config.infeasiblePenalty.toNat.size := by
      have hpenalty := haccepted.penalty
      exact ⟨Nat.size_pos.2 (by omega), Nat.size_pos.2 (by omega)⟩
    have hsmall : (2 : Int) ^ Protocol.ceilLog2 domain.maxRows ≤ 2 ^ 61 :=
      pow_le_pow_right₀ (by decide) (by omega)
    change 3 * (rows.length : Int) + 2 < 2 ^ 127
    norm_num at hsmall ⊢
    omega

/-! ## The record of a run -/

/-- Whatever is drawn, every multiplication and every comparison of an accepted run has operands
below `2^127` and is sent in batches of 1 to 32 items, and the results of a batch come back in the
order of its items. -/
theorem operands_in_range {σ C : Type} [CiphertextLike C] {D : C → Int → Prop} {J : σ → Prop}
    {ops : SecureOps σ C} (hops : ExactOps ops D InRange BatchSize J)
    (hdomain : checkNumericDomain ops.domain = .ok ())
    {config : ConfidentialScalableOptimizerConfig} {request : EncryptedOptimizationRequest C}
    (haccepted : validate ops.domain config request = .ok ⟨⟩) {rows : List (CostRow Int)}
    (hrows : List.Forall₂ (RowHolds D) request.costs rows)
    (hcosts : CostsWithin ops.domain.maxCostBits rows) (factors : Factors)
    (draws : Nat → UInt64) {s : σ} (hs : J s) :
    (∃ logged s' record,
      ConfidentialScalableOptimizer.optimizeLogged (recorded ops) config factors draws request
        (s, []) = .ok logged (s', record) ∧ RecordGood D InRange BatchSize record) ∧
    (∀ {items : List (C × C)} {xs : List (Int × Int)},
      List.Forall₂ (fun item x => D item.1 x.1 ∧ D item.2 x.2) items xs →
      (∀ x ∈ xs, InRange x.1 ∧ InRange x.2) → ∀ drawn,
      Yields (Kept J drawn) (mulBatch ops items)
        (fun cs => List.Forall₂ (fun c x => D c (x.1 * x.2)) cs xs) Never ∧
      Yields (Kept J drawn) (greaterBatch ops items)
        (fun bits => List.Forall₂ (fun bit x => BitHolds D bit (decide (x.2 < x.1))) bits xs)
        Never) := by
  have hbatch : ∀ k, 1 ≤ k ∧ k ≤ 32 → BatchSize k := fun _ hk => hk
  refine ⟨?_, fun hitems hfit drawn => ⟨mulBatch_yields hops hbatch hitems hfit,
    greaterBatch_yields hops hbatch hitems hfit⟩⟩
  have hcapacity := capacity_inRange hdomain (validate_ok haccepted) hrows.length_eq hcosts
  have hrun := optimizeLogged_yields (recorded_exact hops batchSize_one) hbatch haccepted hrows
    hcapacity factors draws
  have hstart : RecordOk J D InRange BatchSize ((s, []) : Recording σ C) :=
    ⟨hs, fun call hcall => absurd hcall List.not_mem_nil⟩
  rcases hrun.returns hstart with ⟨logged, ⟨s', record⟩, hok, _, hrecord⟩
  exact ⟨logged, s', record, hok, hrecord.2⟩

theorem operands_in_range_pairRows :
    ∃ logged s' record,
      ConfidentialScalableOptimizer.optimizeLogged (recorded (clearOps pairDomain)) pairConfig
        ⟨fun _ _ => 1, fun _ _ => 1⟩ (fun drawn => UInt64.ofNat (3 * drawn))
        (clearRequest pairRows 20 "two-rows") (PUnit.unit, []) = .ok logged (s', record) ∧
      RecordGood (fun c x => c = some x) InRange BatchSize record := by
  have hcosts : CostsWithin (clearOps pairDomain).domain.maxCostBits pairRows := by
    unfold CostsWithin
    decide
  exact (operands_in_range (clearOps_exact pairDomain _ _) rfl pairRows_accepted
    (clearRequest_holds pairRows 20 "two-rows") hcosts ⟨fun _ _ => 1, fun _ _ => 1⟩
    (fun drawn => UInt64.ofNat (3 * drawn)) trivial).1

end Optimization
end SociSgx

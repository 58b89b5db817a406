import SociSgx.Pega.Plain

/-!
# Capacity — how large the operands of PEGA are

With costs up to `bound` in magnitude no operand of a multiplication or a comparison exceeds
`limit`, which is what the missing method 3 may cost the fitness, four times.  The other operands
are numbers of rows and methods.
-/

namespace SociSgx
namespace Optimization

open Scalable

namespace Plain

variable (p : Plain)

/-- The most that a sum of costs can be. -/
def extent (bound : Int) : Int :=
  p.costs.length * bound

def limit (bound : Int) : Int :=
  4 * p.scale * p.config.infeasiblePenalty * (p.extent bound + 1) ^ 2

/-- A plain request that the backend can hold. -/
structure Capacity (Fits : Int → Prop) (bound : Int) : Prop where
  nonneg : 0 ≤ bound
  costs : ∀ row ∈ p.costs, ∀ c ∈ options row, |c.cost| ≤ bound
  threshold : 0 ≤ p.threshold ∧ p.threshold < p.scale
  penalty : 0 < p.config.infeasiblePenalty
  values : ∀ x, |x| ≤ p.limit bound → Fits x
  numbers : ∀ x : Int, |x| ≤ 3 * p.costs.length + 2 → Fits x

/-- Costs have a bound, and everything fits when no size is asked for. -/
theorem capacity_exists (hthreshold : 0 ≤ p.threshold ∧ p.threshold < p.scale)
    (hpenalty : 0 < p.config.infeasiblePenalty) : ∃ bound, p.Capacity (fun _ => True) bound := by
  have hbound : ∃ bound : Int, 0 ≤ bound ∧
      ∀ c ∈ p.costs.flatMap options, |c.cost| ≤ bound := by
    induction p.costs.flatMap options with
    | nil => exact ⟨0, le_rfl, by simp⟩
    | cons c cs ih =>
        rcases ih with ⟨bound, hnonneg, hcs⟩
        refine ⟨max |c.cost| bound, hnonneg.trans (le_max_right _ _), ?_⟩
        rintro d (_ | ⟨_, hd⟩)
        · exact le_max_left _ _
        · exact (hcs d hd).trans (le_max_right _ _)
  rcases hbound with ⟨bound, hnonneg, hcosts⟩
  exact ⟨bound, hnonneg, fun row hrow c hc => hcosts c (List.mem_flatMap.2 ⟨row, hrow, hc⟩),
    hthreshold, hpenalty, fun _ _ => trivial, fun _ _ => trivial⟩

namespace Capacity

variable {p} {Fits : Int → Prop} {bound : Int} (h : p.Capacity Fits bound)
include h

theorem scale_pos : 0 < p.scale :=
  lt_of_le_of_lt h.threshold.1 h.threshold.2

theorem extent_nonneg : 0 ≤ p.extent bound :=
  mul_nonneg (Int.natCast_nonneg _) h.nonneg

theorem bound_le_extent {row : CostRow Int} (hrow : row ∈ p.costs) : bound ≤ p.extent bound := by
  have hlength : (1 : Int) ≤ p.costs.length := by
    exact_mod_cast List.length_pos_of_mem hrow
  exact le_mul_of_one_le_left h.nonneg hlength

theorem fits_zero : Fits 0 :=
  h.numbers 0 (by simp; omega)

theorem fits_one : Fits 1 :=
  h.numbers 1 (by simp; omega)

/-- A factor 1, as the penalty may be one. -/
theorem fits_square {x : Int} (hx : |x| ≤ 4 * p.scale * (p.extent bound + 1) ^ 2) : Fits x := by
  refine h.values x (hx.trans ?_)
  have hscale := h.scale_pos
  have hpenalty : 1 ≤ p.config.infeasiblePenalty := h.penalty
  calc 4 * p.scale * (p.extent bound + 1) ^ 2
      = 4 * p.scale * 1 * (p.extent bound + 1) ^ 2 := by ring
    _ ≤ p.limit bound := by
        unfold limit
        gcongr

theorem fits_linear {x : Int} (hx : |x| ≤ 4 * p.scale * (p.extent bound + 1)) : Fits x := by
  refine h.fits_square (hx.trans ?_)
  have hscale := h.scale_pos
  have hextent := h.extent_nonneg
  have hone : 1 ≤ p.extent bound + 1 := by omega
  calc 4 * p.scale * (p.extent bound + 1)
      = 4 * p.scale * (p.extent bound + 1) * 1 := by ring
    _ ≤ 4 * p.scale * (p.extent bound + 1) * (p.extent bound + 1) := by gcongr
    _ = 4 * p.scale * (p.extent bound + 1) ^ 2 := by ring

theorem fits_cost {x : Int} (hx : |x| ≤ 4 * (p.extent bound + 1)) : Fits x := by
  refine h.fits_linear (hx.trans ?_)
  have hscale : 1 ≤ p.scale := h.scale_pos
  have hextent := h.extent_nonneg
  calc 4 * (p.extent bound + 1) = 4 * 1 * (p.extent bound + 1) := by ring
    _ ≤ 4 * p.scale * (p.extent bound + 1) := by gcongr

/-! ### Sums -/

theorem abs_factor_le (method : Method) :
    |coefficient p.scale p.threshold method| ≤ p.scale := by
  have hthreshold := h.threshold
  unfold coefficient
  split
  · rw [abs_le]
    omega
  · rw [abs_le]
    omega

theorem abs_contribution_le {c : Choice Int} (hc : |c.cost| ≤ bound) :
    |contribution p.scale p.threshold c| ≤ p.scale * bound := by
  rw [contribution, abs_mul]
  exact mul_le_mul (h.abs_factor_le _) hc (abs_nonneg _) h.scale_pos.le

/-- Sums over a path, member by member. -/
structure Small (p : Plain) (cost : Int) (s : Scalable.Sums) : Prop where
  total : |s.total| ≤ cost
  c12 : |s.c12| ≤ cost
  c3 : |s.c3| ≤ cost
  linear : |s.linear| ≤ p.scale * cost

theorem small_part {c : Choice Int} (hc : |c.cost| ≤ bound) : Small p bound (p.part c) where
  total := hc
  c12 := by
    unfold part
    split
    · exact hc
    · simpa using h.nonneg
  c3 := by
    unfold part
    split
    · simpa using h.nonneg
    · exact hc
  linear := h.abs_contribution_le hc

theorem within_cost {f : Choice Int → Int} {factor : Int} (hfactor : 0 ≤ factor)
    (hf : ∀ c : Choice Int, |c.cost| ≤ bound → |f c| ≤ factor * bound) :
    Within f (fun _ => factor * bound) p.costs :=
  fun row hrow => ⟨mul_nonneg hfactor h.nonneg, fun c hc => hf c (h.costs row hrow c hc)⟩

theorem small_sums {genes : List Method} (hgenes : Available p.model genes) :
    Small p (p.extent bound) (p.sums genes) := by
  have hleaf : IsAssignment p.costs (choices p.model genes) := choices_assignment hgenes
  have hsum : ∀ {f : Choice Int → Int} {factor : Int}, 0 ≤ factor →
      (∀ c : Choice Int, |c.cost| ≤ bound → |f c| ≤ factor * bound) →
      |sumOf f (choices p.model genes)| ≤ factor * p.extent bound := by
    intro f factor hfactor hf
    refine (abs_sumOf_le (h.within_cost hfactor hf) hleaf).trans (le_of_eq ?_)
    rw [List.map_const', List.sum_replicate, nsmul_eq_mul, extent]
    ring
  have hone : ∀ {f : Choice Int → Int}, (∀ c : Choice Int, |c.cost| ≤ bound → |f c| ≤ bound) →
      |sumOf f (choices p.model genes)| ≤ p.extent bound := by
    intro f hf
    simpa using hsum zero_le_one fun c hc => by simpa using hf c hc
  exact ⟨hone fun c hc => (h.small_part hc).total, hone fun c hc => (h.small_part hc).c12,
    hone fun c hc => (h.small_part hc).c3,
    hsum h.scale_pos.le fun c hc => (h.small_part hc).linear⟩

theorem abs_maximumTotal_le : |p.maximumTotal| ≤ p.extent bound := by
  have hwithin : Within Choice.cost (fun _ => bound) p.costs :=
    fun row hrow => ⟨h.nonneg, h.costs row hrow⟩
  refine (abs_suffix_le selective_max hwithin).trans (le_of_eq ?_)
  rw [List.map_const', List.sum_replicate, nsmul_eq_mul, extent]

theorem abs_aboveMaximum_le : |p.maximumTotal + 1| ≤ p.extent bound + 1 :=
  (abs_add_le _ _).trans (add_le_add h.abs_maximumTotal_le (by simp))

theorem abs_penalty_le : |p.penalty| ≤ p.config.infeasiblePenalty * (p.extent bound + 1) := by
  rw [Plain.penalty, abs_mul, abs_of_pos h.penalty]
  exact mul_le_mul_of_nonneg_left h.abs_aboveMaximum_le h.penalty.le

theorem abs_missingExtentScaled_le :
    |p.missingExtentScaled| ≤ p.scale * (p.extent bound + 1) := by
  rw [missingExtentScaled, abs_mul, abs_of_pos h.scale_pos]
  exact mul_le_mul_of_nonneg_left h.abs_aboveMaximum_le h.scale_pos.le

theorem fits_missingExtentScaled : Fits p.missingExtentScaled := by
  refine h.fits_linear (h.abs_missingExtentScaled_le.trans ?_)
  have hproduct := mul_nonneg h.scale_pos.le (add_nonneg h.extent_nonneg zero_le_one)
  linarith

/-- A quarter of the limit. -/
theorem fits_quarter {x : Int}
    (hx : |x| ≤ p.scale * p.config.infeasiblePenalty * (p.extent bound + 1) ^ 2) : Fits x := by
  refine h.values x (hx.trans ?_)
  have hproduct : 0 ≤ p.scale * p.config.infeasiblePenalty * (p.extent bound + 1) ^ 2 :=
    mul_nonneg (mul_nonneg h.scale_pos.le h.penalty.le) (sq_nonneg _)
  unfold limit
  linarith

theorem fits_penalty : Fits p.penalty := by
  refine h.fits_quarter (h.abs_penalty_le.trans ?_)
  have hextent := h.extent_nonneg
  have hpenalty := h.penalty
  have hscale : 1 ≤ p.scale := h.scale_pos
  have hone : 1 ≤ p.extent bound + 1 := by omega
  calc p.config.infeasiblePenalty * (p.extent bound + 1)
      = 1 * p.config.infeasiblePenalty * ((p.extent bound + 1) * 1) := by ring
    _ ≤ p.scale * p.config.infeasiblePenalty * ((p.extent bound + 1) * (p.extent bound + 1)) := by
        gcongr
    _ = p.scale * p.config.infeasiblePenalty * (p.extent bound + 1) ^ 2 := by ring

theorem abs_missingPenalty_le : |p.penalty * p.missingExtentScaled| ≤
    p.scale * p.config.infeasiblePenalty * (p.extent bound + 1) ^ 2 := by
  rw [abs_mul]
  calc |p.penalty| * |p.missingExtentScaled|
      ≤ p.config.infeasiblePenalty * (p.extent bound + 1) * (p.scale * (p.extent bound + 1)) :=
        mul_le_mul h.abs_penalty_le h.abs_missingExtentScaled_le (abs_nonneg _)
          (mul_nonneg h.penalty.le (add_nonneg h.extent_nonneg zero_le_one))
    _ = p.scale * p.config.infeasiblePenalty * (p.extent bound + 1) ^ 2 := by ring

theorem abs_violation_le {s : Scalable.Sums} (hs : Small p (p.extent bound) s) :
    |violation s| ≤ p.scale * p.extent bound := by
  unfold violation
  split
  · rw [abs_neg]
    exact hs.linear
  · simpa using mul_nonneg h.scale_pos.le h.extent_nonneg

theorem abs_fitnessOf_le {s : Scalable.Sums} (hs : Small p (p.extent bound) s) :
    |p.fitnessOf s| ≤ p.limit bound := by
  have hextent := h.extent_nonneg
  have hscale := h.scale_pos
  have hpenalty : 1 ≤ p.config.infeasiblePenalty := h.penalty
  have hone : 1 ≤ p.extent bound + 1 := by omega
  -- Each of the four summands of the fitness stays within a quarter of the limit.
  set u := p.extent bound + 1 with hu
  set quarter := p.scale * p.config.infeasiblePenalty * u ^ 2 with hquarter
  have hbase : |p.scale * s.total| ≤ quarter := by
    rw [abs_mul, abs_of_pos hscale]
    calc p.scale * |s.total| ≤ p.scale * (1 * (u * 1)) := by
          have htotal := hs.total
          gcongr
          linarith
      _ ≤ p.scale * (p.config.infeasiblePenalty * (u * u)) := by gcongr
      _ = quarter := by rw [hquarter]; ring
  have hpenaltyScaled : |p.scale * p.penalty| ≤ quarter := by
    rw [abs_mul, abs_of_pos hscale]
    calc p.scale * |p.penalty| ≤ p.scale * (p.config.infeasiblePenalty * (u * 1)) := by
          have hle := h.abs_penalty_le
          gcongr
          linarith
      _ ≤ p.scale * (p.config.infeasiblePenalty * (u * u)) := by gcongr
      _ = quarter := by rw [hquarter]; ring
  have hviolation : |p.penalty * violation s| ≤ quarter := by
    rw [abs_mul]
    calc |p.penalty| * |violation s|
        ≤ p.config.infeasiblePenalty * u * (p.scale * u) := by
          refine mul_le_mul h.abs_penalty_le ?_ (abs_nonneg _) (by positivity)
          refine (h.abs_violation_le hs).trans ?_
          gcongr
          omega
      _ = quarter := by rw [hquarter]; ring
  have hmissing : |p.penalty * p.missingExtentScaled * (missing s).toInt| ≤ quarter := by
    rw [abs_mul]
    refine le_trans ?_ h.abs_missingPenalty_le
    cases missing s
    · simpa using abs_nonneg (p.penalty * p.missingExtentScaled)
    · simp
  have hlimit : p.limit bound = quarter + quarter + (quarter + quarter) := by
    rw [hquarter, limit]
    ring
  rw [hlimit]
  refine (abs_add_le _ _).trans (add_le_add ((abs_add_le _ _).trans ?_) ((abs_add_le _ _).trans ?_))
  · exact add_le_add hbase hpenaltyScaled
  · exact add_le_add hviolation hmissing

end Capacity

end Plain

end Optimization
end SociSgx

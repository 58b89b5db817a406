import SociSgx.Pega.Run

/-!
# Result — what PEGA returns

The result is an individual that has been in a population: it is one-hot, its sums are those of its
genes, and no member of any population comes before it.
-/

namespace SociSgx
namespace Optimization

open Exec Secure CountedOps Scalable Scalable.Evaluator

namespace Plain

variable {p : Plain}

/-- The best individual of a run has been a member, and none comes before it. -/
theorem bestOf_least {history : History Int} (hne : history.flatten ≠ [])
    (hproper : ∀ x ∈ history.flatten, p.Proper x) :
    p.bestOf history ∈ history.flatten ∧
      ∀ x ∈ history.flatten, order x (p.bestOf history) = false := by
  unfold bestOf trackBest
  generalize history.flatten = members at hne hproper
  cases members with
  | nil => exact absurd rfl hne
  | cons first rest =>
      have hfirst : p.Proper first := hproper first List.mem_cons_self
      have hrest : ∀ x ∈ rest, p.Proper x := fun x hx => hproper x (List.mem_cons_of_mem first hx)
      rcases ranks.foldl_least hfirst hrest with ⟨hmem, hleast⟩
      refine ⟨hmem, fun x hx => ?_⟩
      exact (ranks.before_eq_false_iff (hproper x hx) (hproper _ hmem)).2 (hleast x hx)

end Plain

section Program

variable {σ C : Type} [CiphertextLike C] {D : C → Int → Prop} {Fits : Int → Prop}
  {Batch : Nat → Prop} {I : σ → Prop} {ops : SecureOps σ C} {bound : Int}
  {config : ConfidentialScalableOptimizerConfig} {request : EncryptedOptimizationRequest C}
  {rows : List (CostRow Int)}

/-- The whole call, on an accepted request. -/
theorem optimizeLogged_yields (h : ExactOps ops D Fits Batch I)
    (hbatch : ∀ k, 1 ≤ k ∧ k ≤ 32 → Batch k)
    (haccepted : validate ops.domain config request = .ok ⟨⟩)
    (hcosts : List.Forall₂ (RowHolds D) request.costs rows)
    (hcapacity : (plainOf ops.domain config request rows).Capacity Fits bound)
    (factors : Factors) (draws : Nat → UInt64) :
    Yields I (ConfidentialScalableOptimizer.optimizeLogged ops config factors draws request)
      (fun logged => ∃ history tally,
        (plainOf ops.domain config request rows).history draws {} = .ok history tally ∧
        RunHolds D (plainOf ops.domain config request rows) logged.1 history) Never := by
  let p := plainOf ops.domain config request rows
  have hprogram : Triple (fun w : σ × Progress => I w.1 ∧ w.2 = {})
      (ConfidentialScalableOptimizer.program ops config factors draws request)
      (fun r w => (∃ history tally, p.history draws {} = .ok history tally ∧
        RunHolds D p r history) ∧ I w.1) Never := by
    refine Triple.lift_bind haccepted ?_
    have hconstruct : Triple (fun w : σ × Progress => I w.1 ∧ w.2 = {})
        (constructPega ops config request draws)
        (fun pega w => (Runs D Fits Batch I pega p bound ∧ pega.draws = draws) ∧
          InPace I w ({} : Tally)) Never :=
      (constructPega_runs h hbatch (validate_ok haccepted) hcosts hcapacity draws).pre
        fun w hw => ⟨hw.1, by rw [hw.2]⟩
    refine hconstruct.bind fun pega => Triple.assuming fun hpega => ?_
    rcases hpega with ⟨hpega, rfl⟩
    refine ((run_follows hpega factors).triple {}).post fun r w hr => ?_
    rcases hr with ⟨history, tally, hhistory, hholds, hstep⟩
    exact ⟨⟨history, tally, hhistory, hholds⟩, hstep.1⟩
  exact Triple.withLocals (P := I) (E := Never) hprogram

end Program

/-! ## The returned individual -/

/-- The individual that a result describes. -/
def returned {C : Type} (result : ConfidentialScalableOptimizationResult C) : Individual C where
  genes := result.chromosome
  totals := ⟨result.totalCost, result.c12, result.c3, result.linear⟩

/-- PEGA returns an available method for every row, with the sums that `evaluate` finds for it, and
`better` puts no member of any population before it. -/
theorem optimize_result {σ C : Type} [CiphertextLike C] {D : C → Int → Prop} {I : σ → Prop}
    {ops : SecureOps σ C} (h : ExactOps ops D (fun _ => True) (fun _ => True) I)
    {config : ConfidentialScalableOptimizerConfig} {request : EncryptedOptimizationRequest C}
    (haccepted : validate ops.domain config request = .ok ⟨⟩) {rows : List (CostRow Int)}
    (hcosts : List.Forall₂ (RowHolds D) request.costs rows) (factors : Factors)
    (draws : Nat → UInt64) :
    let p := plainOf ops.domain config request rows
    ∀ s, I s → ∃ logged s' genes,
      ConfidentialScalableOptimizer.optimizeLogged ops config factors draws request s =
        .ok logged s' ∧
      Available p.model genes ∧ GenesHold D logged.1.1.chromosome genes ∧
      TotalsHold D (returned logged.1.1).totals (p.sums genes) ∧
      (∀ drawn, Yields (Kept I drawn)
        (constructPega ops config request draws >>= fun pega =>
          pega.evaluate (returned logged.1.1))
        (fun value => TotalsHold D value.totals (p.sums genes)) Never) ∧
      ∀ population ∈ logged.1.2, ∀ value ∈ population, ∃ genes' : List Method,
        Available p.model genes' ∧ Holds D value (p.individual genes') ∧
        order (p.individual genes') (p.individual genes) = false ∧
        ∀ drawn, Yields (Kept I drawn)
          (constructPega ops config request draws >>= fun pega =>
            pega.better value (returned logged.1.1))
          (fun r => BitHolds D r.1 false) Never := by
  intro p
  have haccepted' := validate_ok haccepted
  rcases haccepted'.capacity rows with ⟨bound, hcapacity⟩
  have hconstruct : ∀ drawn, Yields (Kept I drawn) (constructPega ops config request draws)
      (fun pega => Runs D (fun _ => True) (fun _ => True) I pega p bound ∧ pega.draws = draws)
      Never :=
    fun drawn => constructPega_runs h (fun _ _ => trivial) haccepted' hcosts hcapacity draws
  intro s hs
  rcases (optimizeLogged_yields h (fun _ _ => trivial) haccepted hcosts hcapacity factors
    draws).returns hs with ⟨logged, s', hok, ⟨history, tally, _, hrun⟩, _⟩
  have hproper : ∀ x ∈ history.flatten, p.Proper x := by
    intro x hx
    rcases List.mem_flatten.1 hx with ⟨xs, hxs, hx⟩
    rcases mem_right_of_forall₂ hrun.populations hxs with ⟨population, _, hpopulation⟩
    exact hpopulation.proper x hx
  have hbest : Holds D (returned logged.1.1) (p.bestOf history) :=
    ⟨hrun.chromosome, hrun.totals, fun _ hbit => (by cases hbit),
      fun _ hscore => (by cases hscore)⟩
  have hgenes : p.individual (p.bestOf history).genes = p.bestOf history := hrun.proper.individual
  refine ⟨logged, s', (p.bestOf history).genes, hok, hrun.proper.available, hrun.chromosome,
    ?_, ?_, ?_⟩
  · rw [hrun.proper.sums_eq]
    exact hrun.totals
  · intro drawn
    refine (hconstruct drawn).bind fun pega hpega => ?_
    exact (evaluate_yields hpega.1 hrun.chromosome hrun.proper.available).post
      fun value hvalue => hvalue.1.totals
  · intro population hpopulation value hvalue
    rcases mem_right_of_forall₂ hrun.populations.flip hpopulation with ⟨xs, hxs, hmembers⟩
    rcases mem_right_of_forall₂ hmembers.members.flip hvalue with ⟨x, hx, hmember⟩
    have hflat : x ∈ history.flatten := List.mem_flatten.2 ⟨xs, hxs, hx⟩
    -- The best of the history is not after any member of it.
    have hleast := (Plain.bestOf_least (List.ne_nil_of_mem hflat) hproper).2 x hflat
    refine ⟨x.genes, hmember.available, ?_, ?_, fun drawn => ?_⟩
    · rw [hmember.proper.individual]
      exact hmember.holds
    · rw [hmember.proper.individual, hgenes]
      exact hleast
    · refine (hconstruct drawn).bind fun pega hpega => ?_
      refine (better_yields hpega.1 hmember.proper hrun.proper hmember.holds hbest).post
        fun r hr => ?_
      have hbit := hr.bit
      rwa [hleast] at hbit

theorem optimize_result_pairRows :
    let p := plainOf pairDomain pairConfig (clearRequest pairRows 20 "two-rows") pairRows
    ∃ logged s' genes, ConfidentialScalableOptimizer.optimizeLogged (clearOps pairDomain) pairConfig
        ⟨fun _ _ => 1, fun _ _ => 1⟩ (fun drawn => UInt64.ofNat (3 * drawn))
        (clearRequest pairRows 20 "two-rows") PUnit.unit = .ok logged s' ∧
      Available p.model genes ∧ logged.1.1.totalCost = some (p.sums genes).total := by
  intro p
  rcases optimize_result (clearOps_exact pairDomain _ _) pairRows_accepted
    (clearRequest_holds pairRows 20 "two-rows") ⟨fun _ _ => 1, fun _ _ => 1⟩
    (fun drawn => UInt64.ofNat (3 * drawn)) PUnit.unit trivial with
    ⟨logged, s', genes, hok, havailable, _, htotals, _⟩
  exact ⟨logged, s', genes, hok, havailable, htotals.total⟩

end Optimization
end SociSgx

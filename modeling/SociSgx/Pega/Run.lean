import SociSgx.Pega.Repair
import SociSgx.Scalable.Search
import SociSgx.Lib.TwoRuns

/-!
# Run — a whole run of PEGA

A run of PEGA follows the plain run on the same draws: it takes the draws in the same places, and
every individual that it keeps holds the plain one, with the sums of its genes.
-/

namespace SociSgx
namespace Optimization

open Exec Secure CountedOps Scalable Scalable.Evaluator

/-- Both runs have taken the same number of draws. -/
abbrev InPace {σ : Type} (I : σ → Prop) (w : σ × Progress) (tally : Tally) : Prop :=
  Kept I tally.drawn w

/-! ## Draws -/

section Draws

variable {σ C α β γ δ : Type} {I : σ → Prop}

theorem random_follows (draws : Nat → UInt64) :
    Follows (InPace I) (random draws) (rng draws) Eq := by
  refine Follows.ofRun fun w tally hw => ⟨draws tally.drawn, draws tally.drawn,
    (w.1, { w.2 with drawn := w.2.drawn + 1 }), { tally with drawn := tally.drawn + 1 },
    ?_, rfl, rfl, hw.1, ?_⟩
  · rw [← hw.2]
    rfl
  · exact congrArg (· + 1) hw.2

/-- A draw that the plain run reduces at once. -/
theorem random_index {draws : Nat → UInt64} {size : Nat} {f : UInt64 → PegaM σ γ}
    {g : Nat → RunM δ} {T : γ → δ → Prop}
    (h : ∀ draw : UInt64, Follows (InPace I) (f draw) (g (draw.toNat % size)) T) :
    Follows (InPace I) (random draws >>= f) (index draws size >>= g) T := by
  have hindex : index draws size >>= g = rng draws >>= fun draw => g (draw.toNat % size) := by
    rw [index, bind_assoc]
    rfl
  rw [hindex]
  exact (random_follows draws).bind fun draw draw' heq => heq ▸ h draw

/-- `items[draw % items.size()]` of lists that are related. -/
theorem pick_eq {R : α → β → Prop} {items : List α} {xs : List β} (h : List.Forall₂ R items xs)
    (hne : xs ≠ []) (draw : Nat) (fallback : β) :
    ∃ item, (pick items draw : PegaM σ α) = pure item ∧
      R item (xs.getD (draw % xs.length) fallback) := by
  have hlength := h.length_eq
  have hlt : draw % xs.length < xs.length := Nat.mod_lt _ (List.length_pos_iff.2 hne)
  have hlt' : draw % items.length < items.length := by rwa [hlength]
  refine ⟨items[draw % items.length], ?_, ?_⟩
  · rw [pick, List.getElem?_eq_getElem hlt']
  · rw [List.getD_eq_getElem _ _ hlt]
    have hget := h.get (i := draw % items.length) hlt' (by rwa [hlength])
    simp only [List.get_eq_getElem] at hget
    convert hget using 2
    rw [hlength]

end Draws

section Runs

variable {σ C : Type} [CiphertextLike C] {D : C → Int → Prop} {Fits : Int → Prop}
  {Batch : Nat → Prop} {I : σ → Prop} {drawn : Nat} {p : Plain} {bound : Int} {pega : Pega σ C}
  (h : Runs D Fits Batch I pega p bound)
include h

/-! ## The first population -/

omit [CiphertextLike C] h in
/-- A method of a row, by a draw. -/
theorem pickMethod_eq {row : CostRow C} {row' : CostRow Int} (hrow : RowHolds D row row')
    (hne : options row' ≠ []) (draw : Nat) :
    ∃ choice, (pick (options row) draw : PegaM σ (Choice C)) = pure choice ∧
      choice.method = ((options row').map Choice.method).getD (draw % (options row').length) 0 ∧
      (row' choice.method).isSome = true := by
  rcases pick_eq (σ := σ) (options_rel hrow) hne draw ⟨0, 0⟩ with ⟨choice, hpick, hchoice⟩
  have hlt : draw % (options row').length < ((options row').map Choice.method).length := by
    rw [List.length_map]
    exact Nat.mod_lt _ (List.length_pos_iff.2 hne)
  have hmethod : choice.method =
      ((options row').map Choice.method).getD (draw % (options row').length) 0 :=
    hchoice.1.trans (List.getD_map _ _ _).symm
  refine ⟨choice, hpick, hmethod, ?_⟩
  rw [hmethod]
  exact available_getD hlt

theorem randomGene_follows {row : CostRow C} {row' : CostRow Int} (hrow : RowHolds D row row')
    (hne : options row' ≠ []) :
    Follows (InPace I)
      (do
        let draw ← random pega.draws
        let choice ← pick (options row) draw.toNat
        oneHot pega.ops choice.method)
      (randomGene pega.draws row')
      (fun gene method => GeneHolds D gene method ∧ (row' method).isSome = true) := by
  refine random_index fun draw => ?_
  rcases pickMethod_eq (σ := σ) hrow hne draw.toNat with ⟨choice, hpick, hmethod, havailable⟩
  rw [hpick, pure_bind, ← hmethod]
  exact Follows.left fun _ => (oneHot_yields h.exact choice.method).post
    fun gene hgene => ⟨hgene, havailable⟩

theorem randomIndividual_follows :
    Follows (InPace I) pega.randomIndividual (p.randomIndividual pega.draws)
      (Repairable D p) := by
  refine (Follows.mapM h.costs fun row row' hmem hrow =>
    randomGene_follows h hrow (h.choosable row' hmem)).bind fun genes methods hgenes => ?_
  exact Follows.left fun _ => (evaluate_yields h hgenes.1 hgenes.2).post
    fun value hvalue => ⟨⟨.ofGenes hgenes.2, hvalue.1⟩, hvalue.2⟩

theorem randomPopulation_follows (count : Nat) :
    Follows (InPace I) (pega.randomPopulation count) (p.randomPopulation pega.draws count)
      (List.Forall₂ (Member D p)) := by
  induction count with
  | zero => exact Follows.pure .nil
  | succ count ih =>
      refine (randomIndividual_follows h).bind fun value x hvalue => ?_
      refine Follows.bind_left (fun _ => repair_yields h hvalue) fun value hvalue => ?_
      exact ih.bind fun rest xs hrest => Follows.pure (.cons hvalue.toMember hrest)

/-- The first of the least costs of a row. -/
theorem cheapestRow_yields {row : CostRow C} {row' : CostRow Int} (hmem : row' ∈ p.costs)
    (hrow : RowHolds D row row') (hne : options row' ≠ []) :
    Yields (Kept I drawn) (pega.cheapestRow (options row))
      (fun gene => GeneHolds D gene (cheapestGene row')) Never := by
  have h0 := h.capacity.fits_zero
  have h1 := h.capacity.fits_one
  have hextent := h.capacity.bound_le_extent hmem
  have hnonneg := h.capacity.nonneg
  have hsmall := h.capacity.costs row' hmem
  have hrel := options_rel hrow
  unfold cheapestGene
  revert hne hrel hsmall
  generalize options row = cs
  generalize options row' = xs
  intro hne hsmall hrel
  cases hrel with
  | nil => exact absurd rfl hne
  | @cons first x cs xs hfirst hrest =>
      let cheaper := fun (least c : Choice Int) => if c.cost < least.cost then c else least
      -- The least cost so far belongs to an option of the row, so it is small.
      have hleast : ∀ done : List (Choice Int), (∀ c ∈ done, c ∈ x :: xs) →
          done.foldl cheaper x ∈ x :: xs := by
        intro done hdone
        refine List.foldlRecOn (motive := fun c => c ∈ x :: xs) done _ (by simp) ?_
        intro least hmem c hc
        dsimp only [cheaper]
        split
        · exact hdone c hc
        · exact hmem
      have hcostFits : ∀ {v : Int}, |v| ≤ bound → Fits v := fun hv =>
        h.capacity.fits_cost (by linarith)
      refine (oneHot_yields h.exact first.method).bind fun genes hgenes => ?_
      rw [hfirst.1] at hgenes
      have hloop := Yields.foldlM (E := Never) (I := Kept I drawn)
        (fun done (state : Gene C × C) => GeneHolds D state.1 (done.foldl cheaper x).method ∧
          D state.2 (done.foldl cheaper x).cost) hrest
        (f := fun (state : Gene C × C) choice => do
          let isCheaper ← less pega.ops choice.cost state.2
          let chosen ← select pega.ops isCheaper choice.cost state.2
          let replacement ← oneHot pega.ops choice.method
          let genes ← eachMethod fun bit =>
            select pega.ops isCheaper (replacement bit) (state.1 bit)
          return (genes, chosen))
        (fun done c rest choice state hsplit hchoice hstate => ?_) (b := (genes, first.cost))
        ⟨hgenes, hfirst.2⟩
      · exact hloop.bind fun state hstate => Yields.pure hstate.1
      · have hold : |(done.foldl cheaper x).cost| ≤ bound := hsmall _ (hleast done fun d hd => by
          rw [hsplit]
          simp [hd])
        have hnew : |c.cost| ≤ bound := hsmall c (by rw [hsplit]; simp)
        refine (less_yields h.exact hchoice.2 hstate.2 (hcostFits hnew) (hcostFits hold)).bind
          fun isCheaper hcheaper => ?_
        have hdifference : Fits (c.cost - (done.foldl cheaper x).cost) :=
          h.capacity.fits_cost ((abs_sub _ _).trans (by linarith))
        refine (select_yields h.exact h0 h1 hcheaper hchoice.2 hstate.2 hdifference).bind
          fun chosen hchosen => ?_
        refine (oneHot_yields h.exact choice.method).bind fun replacement hreplacement => ?_
        rw [hchoice.1] at hreplacement
        have hbits : ∀ bit, Yields (Kept I drawn)
            (select pega.ops isCheaper (replacement bit) (state.1 bit)) _ Never := fun bit =>
          select_yields h.exact h0 h1 hcheaper (hreplacement bit) (hstate.1 bit) (by
            refine h.capacity.numbers _ (le_trans ?_
              (show (1 : Int) ≤ 3 * p.costs.length + 2 by omega))
            split <;> split <;> decide)
        refine (eachMethod_yields hbits).bind fun genes hgenes => Yields.pure ?_
        rw [List.foldl_append, List.foldl_cons, List.foldl_nil]
        dsimp only [cheaper] at hgenes hchosen ⊢
        by_cases hless : c.cost < (done.foldl cheaper x).cost
        · simp only [cheaper, hless, decide_true, if_true] at hgenes hchosen ⊢
          exact ⟨hgenes, hchosen⟩
        · simp only [cheaper, hless, decide_false, Bool.false_eq_true, if_false]
            at hgenes hchosen ⊢
          exact ⟨hgenes, hchosen⟩

theorem cheapest_yields :
    Yields (Kept I drawn) pega.cheapest (fun value => Repairable D p value p.cheapest) Never := by
  have hgenes := Yields.mapM (E := Never) (I := Kept I drawn)
    (f := fun row => pega.cheapestRow (options row))
    (S := fun gene row => GeneHolds D gene (cheapestGene row))
    h.costs fun row row' _ hmem hrow => cheapestRow_yields h hmem hrow (h.choosable row' hmem)
  refine hgenes.bind fun genes hgenes => ?_
  have havailable : Available p.model (p.costs.map cheapestGene) :=
    List.forall₂_map_right_iff.2 (List.forall₂_same.2 fun row hrow =>
      cheapestGene_available (h.choosable row hrow))
  exact (evaluate_yields h (List.forall₂_map_right_iff.2 hgenes) havailable).post
    fun value hvalue => ⟨⟨.ofGenes havailable, hvalue.1⟩, hvalue.2⟩

/-! ## Tournaments -/

omit [CiphertextLike C] h in
theorem Member.available {value : Individual C} {x : Scalable.Individual Int}
    (hvalue : Member D p value x) : Available p.model x.genes :=
  hvalue.proper.available

theorem tournamentTurns_follows (turns : Nat) : ∀ {population : List (Individual C)}
    {xs : List (Scalable.Individual Int)} {winner : Individual C} {x : Scalable.Individual Int},
    List.Forall₂ (Member D p) population xs → xs ≠ [] → Member D p winner x →
    Follows (InPace I) (pega.tournamentTurns turns population winner)
      (selectRounds pega.draws xs turns x)
      (fun r x => Member D p r.1 x ∧ List.Forall₂ (Member D p) r.2 xs) := by
  induction turns with
  | zero => exact fun hpopulation _ hwinner => Follows.pure ⟨hwinner, hpopulation⟩
  | succ turns ih =>
      intro population xs winner x hpopulation hne hwinner
      refine random_index fun draw => ?_
      rcases pick_eq (σ := σ) hpopulation hne draw.toNat x with ⟨challenger, hpick, hchallenger⟩
      rw [hpick, pure_bind]
      dsimp only
      have hlt : draw.toNat % xs.length < xs.length := Nat.mod_lt _ (List.length_pos_iff.2 hne)
      generalize hi : xs.getD (draw.toNat % xs.length) x = y at hchallenger ⊢
      rw [List.getD_eq_getElem _ _ hlt] at hi
      refine Follows.bind_left (fun _ => better_yields h hchallenger.proper hwinner.proper
        hchallenger.holds hwinner.holds) fun r hr => ?_
      rcases r with ⟨wins, challenger, winner⟩
      refine Follows.bind_left (fun _ => choose_yields h hr.bit hchallenger.proper hwinner.proper
        hr.first hr.second) fun winner hwinner' => ?_
      refine ih ?_ hne ⟨?_, hwinner'⟩
      · have hset := set_rel hpopulation (show Member D p challenger y from
          ⟨hchallenger.proper, hr.first⟩) (draw.toNat % population.length)
        rw [hpopulation.length_eq, ← hi, List.set_getElem_self] at hset
        rw [hpopulation.length_eq]
        exact hset
      · split
        · exact hchallenger.proper
        · exact hwinner.proper

theorem tournament_follows {population : List (Individual C)}
    {xs : List (Scalable.Individual Int)} (hpopulation : List.Forall₂ (Member D p) population xs)
    (hne : xs ≠ []) :
    Follows (InPace I) (pega.tournament population) (p.tournament pega.draws xs)
      (fun r x => Member D p r.1 x ∧ List.Forall₂ (Member D p) r.2 xs) := by
  refine random_index fun draw => ?_
  rcases pick_eq (σ := σ) hpopulation hne draw.toNat (p.individual []) with
    ⟨winner, hpick, hwinner⟩
  rw [hpick, pure_bind, h.config]
  exact tournamentTurns_follows h _ hpopulation hne hwinner

/-! ## Children -/

/-- The genes of a child, before its evaluation. -/
structure GenesOf (D : C → Int → Prop) (p : Plain) (value : Individual C) (genes : List Method) :
    Prop where
  holds : GenesHold D value.genes genes
  available : Available p.model genes

omit [CiphertextLike C] h in
/-- Genes that are available row by row. -/
theorem available_of_zip {genes genes' : List Method} (hgenes : Available p.model genes)
    (h : List.Forall₂ (fun item method => (item.1 method).isSome = true) (p.costs.zip genes)
      genes') :
    Available p.model genes' := by
  have hlength : p.costs.length = genes.length := hgenes.length_eq
  have hfst : (p.costs.zip genes).map Prod.fst = p.costs := List.map_fst_zip hlength.le
  have hmap : List.Forall₂ (fun row method => (row method).isSome = true)
      ((p.costs.zip genes).map Prod.fst) genes' := List.forall₂_map_left_iff.2 h
  rwa [hfst] at hmap

omit [CiphertextLike C] h in
/-- Genes that come from one of two parents. -/
theorem available_of_parents {xs ys zs : List Method} (hxs : Available p.model xs)
    (hys : Available p.model ys)
    (h : List.Forall₂ (fun item method => method = item.1 ∨ method = item.2) (xs.zip ys) zs) :
    Available p.model zs := by
  unfold Available at hxs hys ⊢
  generalize p.model.costs = rows at hxs hys ⊢
  induction hxs generalizing ys zs with
  | nil =>
      cases h
      exact .nil
  | cons hx _ ih =>
      cases hys with
      | cons hy hys =>
          rw [List.zip_cons_cons] at h
          cases h with
          | cons hmethod hrest =>
              refine .cons ?_ (ih hrest hys)
              rcases hmethod with rfl | rfl
              · exact hx
              · exact hy

theorem crossover_follows {child other : Individual C} {x y : Scalable.Individual Int}
    (hchild : Member D p child x) (hother : Member D p other y) :
    Follows (InPace I) (pega.crossover child other)
      (crossover pega.draws p.config.crossoverRate x.genes y.genes) (GenesOf D p) := by
  refine (random_follows pega.draws).bind fun draw draw' heq => ?_
  subst heq
  rw [h.config]
  by_cases hexceeds : p.config.crossoverRate.exceeds draw = true
  · rw [if_pos hexceeds, if_pos hexceeds]
    have hzip := zip_rel hchild.holds.genes hother.holds.genes
    have hloop := Follows.mapM (S := InPace I) (B := GeneHolds D)
      (K := fun (item : Method × Method) method => method = item.1 ∨ method = item.2)
      (f := fun (genes : Gene C × Gene C) => do
        let draw ← random pega.draws
        return if draw &&& 1 = 1 then genes.2 else genes.1)
      (g := fun (pair : Method × Method) => do
        let draw ← rng pega.draws
        return if draw &&& 1 = 1 then pair.2 else pair.1)
      hzip fun genes item _ hitem => ?_
    · rw [← bind_pure (List.mapM _ (x.genes.zip y.genes))]
      refine hloop.bind fun genes methods hgenes => Follows.pure ⟨hgenes.1, ?_⟩
      exact available_of_parents hchild.available hother.available hgenes.2
    · refine (random_follows pega.draws).bind fun draw draw' heq => ?_
      subst heq
      by_cases hbit : draw &&& 1 = 1
      · rw [if_pos hbit, if_pos hbit]
        exact Follows.pure ⟨hitem.2, Or.inr rfl⟩
      · rw [if_neg hbit, if_neg hbit]
        exact Follows.pure ⟨hitem.1, Or.inl rfl⟩
  · rw [if_neg hexceeds, if_neg hexceeds]
    exact Follows.pure ⟨hchild.holds.genes, hchild.available⟩

omit [CiphertextLike C] h in
/-- The number of a method among the available ones of a row. -/
theorem idxOf_getD {row : CostRow Int} {i : Nat} (hi : i < (options row).length) :
    ((options row).map Choice.method).idxOf (((options row).map Choice.method).getD i 0) = i := by
  have hnodup : ((options row).map Choice.method).Nodup := by
    refine List.Pairwise.map _ (fun c d hless => ?_) (options_sorted row)
    exact hless.ne
  rw [List.getD_eq_getElem _ _ (by rwa [List.length_map])]
  exact hnodup.idxOf_getElem _ _

theorem mutateRow_follows {row : CostRow C} {row' : CostRow Int} (hrow : RowHolds D row row')
    {gene : Gene C} {method : Method} (hgene : GeneHolds D gene method)
    (havailable : (row' method).isSome = true) :
    Follows (InPace I) (pega.mutateRow row gene)
      (mutateGene pega.draws p.config.mutationRate row' method)
      (fun gene method => GeneHolds D gene method ∧ (row' method).isSome = true) := by
  have h0 := h.capacity.fits_zero
  have h1 := h.capacity.fits_one
  have hlength : (options row).length = (options row').length := (options_rel hrow).length_eq
  refine (random_follows pega.draws).bind fun draw draw' heq => ?_
  subst heq
  dsimp only
  rw [h.config, hlength, List.length_map]
  -- The draw decides on both sides alike; only then is a target drawn.
  by_cases hmutates : p.config.mutationRate.exceeds draw = true ∧ 1 < (options row').length
  · rw [if_pos hmutates, if_pos hmutates]
    have hne : options row' ≠ [] := List.ne_nil_of_length_pos (by omega)
    refine random_index fun selected => ?_
    rcases pickMethod_eq (σ := σ) hrow hne selected.toNat with ⟨choice, hpick, hmethod, hchoice⟩
    rcases pickMethod_eq (σ := σ) hrow hne (selected.toNat % (options row').length + 1) with
      ⟨fallback, hpickFallback, hfallback, hfallbackChoice⟩
    rw [hpick, hpickFallback, pure_bind, pure_bind]
    have hlt : selected.toNat % (options row').length < (options row').length :=
      Nat.mod_lt _ (by omega)
    have hindex := idxOf_getD hlt
    rw [← hmethod] at hindex
    rw [← hmethod, hindex, ← hfallback]
    refine Follows.bind_left (fun _ => oneHot_yields h.exact choice.method) fun target htarget => ?_
    refine Follows.bind_left (fun _ => oneHot_yields h.exact fallback.method)
      fun replacement hreplacement => ?_
    have hbitFits : Fits (if choice.method = method then 1 else 0) := by
      split
      · exact h1
      · exact h0
    refine Follows.bind_left
      (fun _ => greater_yields h.exact (hgene choice.method) h.one hbitFits h1)
      fun above habove => ?_
    refine Follows.bind_left
      (fun _ => greater_yields h.exact h.one (hgene choice.method) h1 hbitFits)
      fun below hbelow => ?_
    refine Follows.bind_left (fun _ => orBit_yields h.exact h0 h1 habove hbelow)
      fun different hdifferent => ?_
    refine Follows.bind_left (fun _ => notBit_yields h.exact hdifferent) fun same hsame => ?_
    rw [neither_eq] at hsame
    -- If the draw hits the present method, the next option is taken.
    have hselected : ∀ drawn, Yields (Kept I drawn)
        (eachMethod fun m => select pega.ops same (replacement m) (target m))
        (fun gene => GeneHolds D gene
          (if choice.method = method then fallback.method else choice.method)) Never := by
      intro drawn
      refine (eachMethod_yields fun m => select_yields h.exact h0 h1 hsame (hreplacement m)
        (htarget m) ?_).post fun gene hgene m => ?_
      · refine h.capacity.numbers _ (le_trans ?_ (show (1 : Int) ≤ 3 * p.costs.length + 2 by omega))
        split <;> split <;> decide
      · have hbit := hgene m
        by_cases heq : choice.method = method
        · rw [if_pos heq]
          simpa [heq] using hbit
        · rw [if_neg heq]
          simpa [heq] using hbit
    by_cases heq : choice.method = method
    · rw [if_pos heq] at hselected ⊢
      exact Follows.left fun _ => (hselected _).post fun gene hgene => ⟨hgene, hfallbackChoice⟩
    · rw [if_neg heq] at hselected ⊢
      exact Follows.left fun _ => (hselected _).post fun gene hgene => ⟨hgene, hchoice⟩
  · rw [if_neg hmutates, if_neg hmutates]
    exact Follows.pure ⟨hgene, havailable⟩

theorem mutate_follows {value : Individual C} {genes : List Method}
    (hvalue : GenesOf D p value genes) :
    Follows (InPace I) (pega.mutate value) (p.mutate pega.draws genes) (GenesOf D p) := by
  have hloop := Follows.mapM (S := InPace I) (B := GeneHolds D)
    (K := fun (item : CostRow Int × Method) method => (item.1 method).isSome = true)
    (f := fun (item : CostRow C × Gene C) => pega.mutateRow item.1 item.2)
    (g := fun (item : CostRow Int × Method) =>
      mutateGene pega.draws p.config.mutationRate item.1 item.2)
    (zip_rel h.costs hvalue.holds) fun item item' hmem hitem =>
      mutateRow_follows h hitem.1 hitem.2 (zip_available hvalue.available hmem).2
  rw [Plain.mutate, ← bind_pure (List.mapM _ (p.costs.zip genes))]
  exact hloop.bind fun genes' methods hgenes =>
    Follows.pure ⟨hgenes.1, available_of_zip hvalue.available hgenes.2⟩

theorem children_follows (count : Nat) : ∀ {population : List (Individual C)}
    {xs : List (Scalable.Individual Int)}, List.Forall₂ (Member D p) population xs → xs ≠ [] →
    Follows (InPace I) (pega.children count population) (p.children pega.draws xs count)
      (fun r ys => List.Forall₂ (Member D p) r.1 ys ∧ List.Forall₂ (Member D p) r.2 xs) := by
  induction count with
  | zero => exact fun hpopulation _ => Follows.pure ⟨.nil, hpopulation⟩
  | succ count ih =>
      intro population xs hpopulation hne
      rw [Plain.children, Plain.child]
      simp only [bind_assoc, pure_bind]
      refine (tournament_follows h hpopulation hne).bind fun r x hr => ?_
      rcases r with ⟨child, population⟩
      refine (tournament_follows h hr.2 hne).bind fun r' y hr' => ?_
      rcases r' with ⟨other, population⟩
      refine (crossover_follows h hr.1 hr'.1).bind fun child genes hchild => ?_
      refine (mutate_follows h hchild).bind fun child genes hchild => ?_
      refine Follows.bind_left (fun _ => evaluate_yields h hchild.holds hchild.available)
        fun child hevaluated => ?_
      refine Follows.bind_left (fun _ => repair_yields h
        ⟨⟨.ofGenes hchild.available, hevaluated.1⟩, hevaluated.2⟩) fun child hrepaired => ?_
      exact (ih hr'.2 hne).bind fun rest ys hrest =>
        Follows.pure ⟨.cons hrepaired.toMember hrest.1, hrest.2⟩

/-! ## Generations -/

theorem trackBest_yields {population : List (Individual C)} {xs : List (Scalable.Individual Int)}
    (hpopulation : List.Forall₂ (Member D p) population xs) : ∀ {best : Individual C}
    {x : Scalable.Individual Int}, Member D p best x →
    Yields (Kept I drawn) (pega.trackBest population best)
      (fun r => Member D p r.1 (Plain.trackBest xs x) ∧ List.Forall₂ (Member D p) r.2 xs)
      Never := by
  induction hpopulation with
  | nil => exact fun hbest => Yields.pure ⟨hbest, .nil⟩
  | @cons value y population xs hvalue _ ih =>
      intro best x hbest
      refine (better_yields h hvalue.proper hbest.proper hvalue.holds hbest.holds).bind
        fun r hr => ?_
      rcases r with ⟨wins, value, best⟩
      refine (choose_yields h hr.bit hvalue.proper hbest.proper hr.first hr.second).bind
        fun best hbest' => ?_
      have hproper : p.Proper (if order y x = true then y else x) := by
        split
        · exact hvalue.proper
        · exact hbest.proper
      refine (ih ⟨hproper, hbest'⟩).bind fun r hr' => Yields.pure ⟨hr'.1, ?_⟩
      exact .cons ⟨hvalue.proper, hr.first⟩ hr'.2

/-- A population with one member at least. -/
structure PopulationIs (D : C → Int → Prop) (p : Plain) (population : List (Individual C))
    (xs : List (Scalable.Individual Int)) : Prop where
  members : List.Forall₂ (Member D p) population xs
  nonempty : xs ≠ []

omit [CiphertextLike C] h in
theorem PopulationIs.proper {population : List (Individual C)} {xs : List (Scalable.Individual Int)}
    (hpopulation : PopulationIs D p population xs) : ∀ x ∈ xs, p.Proper x := by
  intro x hx
  rcases mem_right_of_forall₂ hpopulation.members hx with ⟨value, _, hvalue⟩
  exact hvalue.proper

theorem generation_follows {population : List (Individual C)}
    {xs : List (Scalable.Individual Int)} (hpopulation : PopulationIs D p population xs)
    {best : Individual C} {x : Scalable.Individual Int} (hbest : Member D p best x) :
    Follows (InPace I) (pega.generation population best) (p.nextPopulation pega.draws xs)
      (fun r ys => Member D p r.1 (Plain.trackBest ys x) ∧ PopulationIs D p r.2 ys) := by
  have hproper := hpopulation.proper
  have hheld : List.Forall₂ (Holds D) population xs :=
    hpopulation.members.imp fun _ _ hvalue => hvalue.holds
  refine Follows.bind_left (fun _ => eliteSet_yields h hheld hproper hpopulation.nonempty)
    fun elite helite => ?_
  have hmembers : List.Forall₂ (Member D p) elite (Plain.eliteSet p.config.elitism xs) := by
    rw [List.forall₂_iff_zip] at helite ⊢
    exact ⟨helite.1, fun hmem => ⟨hproper _ (InsertionNetwork.mem_top (List.of_mem_zip hmem).2),
      helite.2 hmem⟩⟩
  rw [h.config, hmembers.length_eq]
  refine (children_follows h _ hpopulation.members hpopulation.nonempty).bind fun r next hnext => ?_
  rcases r with ⟨children, population⟩
  have hall := List.rel_append hmembers hnext.1
  refine Follows.left fun _ => (trackBest_yields h hall hbest).post fun r hr => ⟨hr.1, hr.2, ?_⟩
  exact List.append_ne_nil_of_left_ne_nil (InsertionNetwork.top_ne_nil hpopulation.nonempty) _

theorem generations_follows (count : Nat) : ∀ {population : List (Individual C)}
    {xs : List (Scalable.Individual Int)} {best : Individual C} {x : Scalable.Individual Int},
    PopulationIs D p population xs → Member D p best x →
    Follows (InPace I) (pega.generations count population best) (p.generations pega.draws count xs)
      (fun r later => Member D p r.1 (Plain.trackBest later.flatten x) ∧
        List.Forall₂ (PopulationIs D p) r.2 later) := by
  induction count with
  | zero => exact fun _ hbest => Follows.pure ⟨hbest, .nil⟩
  | succ count ih =>
      intro population xs best x hpopulation hbest
      refine (generation_follows h hpopulation hbest).bind fun r ys hr => ?_
      rcases r with ⟨best, population⟩
      refine (ih hr.2 hr.1).bind fun r later hlater => Follows.pure ⟨?_, .cons hr.2 hlater.2⟩
      rw [List.flatten_cons, Plain.trackBest, List.foldl_append]
      exact hlater.1

/-! ## The run -/

/-- What a run has returned, with the populations that it has gone through. -/
structure RunHolds (D : C → Int → Prop) (p : Plain)
    (r : ConfidentialScalableOptimizationResult C × Pega.History C) (history : History Int) :
    Prop where
  chromosome : GenesHold D r.1.chromosome (p.bestOf history).genes
  totals : TotalsHold D ⟨r.1.totalCost, r.1.c12, r.1.c3, r.1.linear⟩ (p.bestOf history).toSums
  proper : p.Proper (p.bestOf history)
  populations : List.Forall₂ (PopulationIs D p) r.2 history

/-- PEGA follows the plain run. -/
theorem run_follows (factors : Factors) :
    Follows (InPace I) (pega.run factors) (p.history pega.draws) (RunHolds D p) := by
  refine Follows.bind_left (fun _ => cheapest_yields h) fun first hfirst => ?_
  refine Follows.bind_left (fun _ => repair_yields h hfirst) fun front hfront => ?_
  rw [h.config]
  refine (randomPopulation_follows h _).bind fun rest xs hrest => ?_
  refine Follows.bind_left (fun _ => trackBest_yields h hrest hfront.toMember) fun r hr => ?_
  rcases r with ⟨best, rest⟩
  have hread : ∀ drawn, Yields (Kept I drawn) (locals : PegaM σ Progress) (fun _ => True) Never :=
    fun _ _ hw => ⟨trivial, hw⟩
  refine Follows.bind_left (fun _ => hread _) fun initialization _ => ?_
  have hpopulation : PopulationIs D p (front :: rest) (p.repair p.cheapest :: xs) :=
    ⟨.cons hfront.toMember hr.2, List.cons_ne_nil _ _⟩
  refine (generations_follows h _ hpopulation hr.1).bind fun r later hlater => ?_
  rcases r with ⟨best, history⟩
  refine Follows.bind_left (fun _ => hread _) fun progress _ => Follows.pure ?_
  have hbest : p.bestOf ((p.repair p.cheapest :: xs) :: later) =
      Plain.trackBest later.flatten (Plain.trackBest xs (p.repair p.cheapest)) := by
    rw [Plain.bestOf, List.flatten_cons, List.cons_append, List.tail_cons, List.headD_cons,
      Plain.trackBest, List.foldl_append]
    rfl
  rw [← hbest] at hlater
  exact ⟨hlater.1.holds.genes, hlater.1.holds.totals, hlater.1.proper,
    .cons hpopulation hlater.2⟩

end Runs

end Optimization
end SociSgx

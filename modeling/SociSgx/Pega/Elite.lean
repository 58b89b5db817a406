import SociSgx.Pega.OrderRefines

/-!
# Elite — selection, and the elite set

`choose` selects an individual by an encrypted bit, with the sums that belong to it.  The insertion
network of `eliteSet` keeps the first individuals of the population in order.
-/

namespace SociSgx
namespace Optimization

open Exec Secure CountedOps Scalable Scalable.Evaluator

section Selection

variable {σ C : Type} [CiphertextLike C] {D : C → Int → Prop} {Fits : Int → Prop}
  {Batch : Nat → Prop} {I : σ → Prop} {drawn : Nat} {p : Plain} {bound : Int} {pega : Pega σ C}
  (h : Runs D Fits Batch I pega p bound)
include h

/-! ## `choose` -/

omit h [CiphertextLike C] in
/-- The values behind the pairs of a selection of genes. -/
theorem genePairs_hold {as bs : List (Gene C)} {xs ys : List Method} (ha : GenesHold D as xs)
    (hb : GenesHold D bs ys) :
    List.Forall₂ (fun (value : C × C) (v : Int × Int) => D value.1 v.1 ∧ D value.2 v.2)
      (Pega.genePairs as bs) ((xs.zip ys).flatMap fun item =>
        [0, 1, 2].map fun m : Method =>
          (if m = item.1 then 1 else 0, if m = item.2 then 1 else 0)) := by
  unfold Pega.genePairs
  have hzip := zip_rel ha hb
  revert hzip
  generalize as.zip bs = pairs
  generalize xs.zip ys = items
  intro hzip
  induction hzip with
  | nil => exact .nil
  | cons hhead _ ih =>
      rw [List.flatMap_cons, List.flatMap_cons]
      refine List.rel_append ?_ ih
      exact .cons ⟨hhead.1 0, hhead.2 0⟩ (.cons ⟨hhead.1 1, hhead.2 1⟩
        (.cons ⟨hhead.1 2, hhead.2 2⟩ .nil))

omit h [CiphertextLike C] in
/-- Three selected values make the gene that is selected. -/
theorem regroup_holds {c : Bool} {xs ys : List Method} (hlength : xs.length = ys.length) :
    ∀ {cs : List C}, List.Forall₂ (fun value (v : Int × Int) => D value (if c then v.1 else v.2)) cs
      ((xs.zip ys).flatMap fun item => [0, 1, 2].map fun m : Method =>
        (if m = item.1 then 1 else 0, if m = item.2 then 1 else 0)) →
      GenesHold D (Pega.regroup cs) (if c then xs else ys) := by
  induction xs generalizing ys with
  | nil =>
      intro cs hcs
      cases hcs
      have hys : ys = [] := List.length_eq_zero_iff.1 hlength.symm
      subst hys
      cases c <;> exact .nil
  | cons x xs ih =>
      intro cs hcs
      cases ys with
      | nil => cases hlength
      | cons y ys =>
          rw [List.zip_cons_cons, List.flatMap_cons] at hcs
          cases hcs with
          | @cons first _ cs _ hfirst hcs =>
              cases hcs with
              | @cons second _ cs _ hsecond hcs =>
                  cases hcs with
                  | @cons third _ cs _ hthird hcs =>
                      have hrest := ih (Nat.succ.inj hlength) hcs
                      have hgene : GeneHolds D ![first, second, third] (if c then x else y) := by
                        intro m
                        match m with
                        | 0 => cases c <;> exact hfirst
                        | 1 => cases c <;> exact hsecond
                        | 2 => cases c <;> exact hthird
                      cases c
                      · exact .cons hgene hrest
                      · exact .cons hgene hrest

/-- The selected individual with its own sums; the caches are empty. -/
theorem choose_yields {condition : EncryptedBit C} {c : Bool} (hcondition : BitHolds D condition c)
    {yes no : Individual C} {x y : Scalable.Individual Int} (hx : p.Proper x) (hy : p.Proper y)
    (hyes : Holds D yes x) (hno : Holds D no y) :
    Yields (Kept I drawn) (pega.choose condition yes no)
      (fun value => Holds D value (if c then x else y)) Never := by
  have h0 := h.capacity.fits_zero
  have h1 := h.capacity.fits_one
  have hextent := h.capacity.extent_nonneg
  have hproduct := mul_nonneg h.capacity.scale_pos.le hextent
  have hsmallX := hx.small h.capacity
  have hsmallY := hy.small h.capacity
  -- Two selection bits differ by at most one.
  have hgeneFits : ∀ v ∈ (x.genes.zip y.genes).flatMap (fun item : Method × Method =>
      [0, 1, 2].map fun m : Method => ((if m = item.1 then (1 : Int) else 0),
        (if m = item.2 then (1 : Int) else 0))), Fits (v.1 - v.2) := by
    intro v hv
    rcases List.mem_flatMap.1 hv with ⟨item, _, hv⟩
    rcases List.mem_map.1 hv with ⟨m, _, rfl⟩
    refine h.capacity.numbers _ ?_
    have habs : |(if m = item.1 then (1 : Int) else 0) - if m = item.2 then 1 else 0| ≤ 1 := by
      split <;> split <;> decide
    exact habs.trans (by omega)
  refine (selectBatch_yields h.exact h0 h1 h.batch hcondition
    (genePairs_hold hyes.genes hno.genes) hgeneFits).bind fun genes hgenes => ?_
  have hcostFits : ∀ {v w : Int}, |v| ≤ p.extent bound → |w| ≤ p.extent bound → Fits (v - w) :=
    fun hv hw => h.capacity.fits_cost ((abs_sub _ _).trans (by linarith))
  have hlinearFits : Fits (x.linear - y.linear) := by
    refine h.capacity.fits_linear ((abs_sub _ _).trans ?_)
    have hscale := h.capacity.scale_pos
    linarith [hsmallX.linear, hsmallY.linear]
  have hsummary : List.Forall₂
      (fun (value : C × C) (v : Int × Int) => D value.1 v.1 ∧ D value.2 v.2)
      [(yes.totals.total, no.totals.total), (yes.totals.c12, no.totals.c12),
        (yes.totals.c3, no.totals.c3), (yes.totals.linear, no.totals.linear)]
      [(x.total, y.total), (x.c12, y.c12), (x.c3, y.c3), (x.linear, y.linear)] :=
    .cons ⟨hyes.totals.total, hno.totals.total⟩ (.cons ⟨hyes.totals.c12, hno.totals.c12⟩
      (.cons ⟨hyes.totals.c3, hno.totals.c3⟩ (.cons ⟨hyes.totals.linear, hno.totals.linear⟩ .nil)))
  have hsummaryFits : ∀ v ∈ [(x.total, y.total), (x.c12, y.c12), (x.c3, y.c3),
      (x.linear, y.linear)], Fits (v.1 - v.2) := by
    intro v hv
    simp only [List.mem_cons, List.not_mem_nil, or_false] at hv
    rcases hv with rfl | rfl | rfl | rfl
    · exact hcostFits hsmallX.total hsmallY.total
    · exact hcostFits hsmallX.c12 hsmallY.c12
    · exact hcostFits hsmallX.c3 hsmallY.c3
    · exact hlinearFits
  refine (selectBatch_yields h.exact h0 h1 h.batch hcondition hsummary hsummaryFits).bind
    fun summary hselected => Yields.pure ?_
  have hlength : x.genes.length = y.genes.length := hx.length_eq.trans hy.length_eq.symm
  have hregrouped := regroup_holds hlength hgenes
  cases hselected with
  | cons htotal hselected =>
      cases hselected with
      | cons hc12 hselected =>
          cases hselected with
          | cons hc3 hselected =>
              cases hselected with
              | cons hlinear hselected =>
                  refine ⟨?_, ?_, fun _ hbit => (by cases hbit), fun _ hscore => (by cases hscore)⟩
                  · cases c <;> exact hregrouped
                  · cases c <;> exact ⟨htotal, hc12, hc3, hlinear⟩

/-! ## The insertion network -/

/-- One pass: the slots and what is carried out. -/
theorem insertElite_yields {elite : List (Individual C)} {xs : List (Scalable.Individual Int)}
    (helite : List.Forall₂ (Holds D) elite xs) : ∀ {carry : Individual C}
    {x : Scalable.Individual Int}, (∀ y ∈ xs, p.Proper y) → p.Proper x → Holds D carry x →
    Yields (Kept I drawn) (pega.insertElite elite carry)
      (fun r => List.Forall₂ (Holds D) r.1 (InsertionNetwork.pass order xs x).1 ∧
        Holds D r.2 (InsertionNetwork.pass order xs x).2) Never := by
  induction helite with
  | nil => exact fun _ _ hcarry => Yields.pure ⟨.nil, hcarry⟩
  | @cons old y elite ys hold _ ih =>
      intro carry x hproper hx hcarry
      have hy := hproper y List.mem_cons_self
      have hys : ∀ z ∈ ys, p.Proper z := fun z hz => hproper z (List.mem_cons_of_mem y hz)
      refine (better_yields h hx hy hcarry hold).bind fun r hr => ?_
      rcases r with ⟨wins, carry, old⟩
      refine (choose_yields h hr.bit hx hy hr.first hr.second).bind fun kept hkept => ?_
      refine (choose_yields h hr.bit hy hx hr.second hr.first).bind fun carry hcarry => ?_
      have hpassed : p.Proper (if order x y then y else x) := by
        split
        · exact hy
        · exact hx
      exact (ih hys hpassed hcarry).bind fun rest hrest =>
        Yields.pure ⟨.cons hkept hrest.1, hrest.2⟩

/-- A new value, when the slots hold proper individuals. -/
theorem eliteStep_yields {elite : List (Individual C)} {slots : List (Scalable.Individual Int)}
    (helite : List.Forall₂ (Holds D) elite slots) (hslots : ∀ y ∈ slots, p.Proper y)
    {value : Individual C} {x : Scalable.Individual Int} (hx : p.Proper x)
    (hvalue : Holds D value x) :
    Yields (Kept I drawn)
      (do
        let (elite, carry) ← pega.insertElite elite value
        return if elite.length < pega.config.elitism then elite ++ [carry] else elite)
      (fun elite => List.Forall₂ (Holds D) elite
          (InsertionNetwork.step order p.config.elitism slots x) ∧
        ∀ y ∈ InsertionNetwork.step order p.config.elitism slots x, p.Proper y) Never := by
  refine (insertElite_yields h helite hslots hx hvalue).bind fun r hr => Yields.pure ⟨?_, ?_⟩
  · unfold InsertionNetwork.step
    dsimp only
    rw [h.config, hr.1.length_eq]
    split
    · exact List.rel_append hr.1 (.cons hr.2 .nil)
    · exact hr.1
  · intro y hy
    rcases List.mem_cons.1 (InsertionNetwork.mem_step hy) with rfl | hy
    · exact hx
    · exact hslots y hy

theorem eliteSet_yields {population : List (Individual C)} {xs : List (Scalable.Individual Int)}
    (hpopulation : List.Forall₂ (Holds D) population xs) (hproper : ∀ x ∈ xs, p.Proper x)
    (hne : xs ≠ []) :
    Yields (Kept I drawn) (pega.eliteSet population)
      (fun elite => List.Forall₂ (Holds D) elite (Plain.eliteSet p.config.elitism xs)) Never := by
  cases hpopulation with
  | nil => exact absurd rfl hne
  | @cons front x population xs hfront hrest =>
      have hloop := Yields.foldlM (E := Never) (I := Kept I drawn)
        (fun done (elite : List (Individual C)) =>
          List.Forall₂ (Holds D) elite
              (done.foldl (InsertionNetwork.step order p.config.elitism) [x]) ∧
            ∀ y ∈ done.foldl (InsertionNetwork.step order p.config.elitism) [x], p.Proper y)
        hrest (f := fun elite value => do
          let (elite, carry) ← pega.insertElite elite value
          return if elite.length < pega.config.elitism then elite ++ [carry] else elite)
        (fun done y rest value elite hsplit hvalue hdone => ?_) (b := [front])
        ⟨.cons hfront .nil, fun y hy => ?_⟩
      · exact hloop.post fun elite helite => helite.1
      · have hy : p.Proper y := hproper y (by rw [hsplit]; simp)
        rw [List.foldl_append, List.foldl_cons, List.foldl_nil]
        exact eliteStep_yields h hdone.1 hdone.2 hy hvalue
      · rw [List.mem_singleton.1 hy]
        exact hproper x List.mem_cons_self

end Selection

/-! ## The sorted population -/

namespace Plain

variable {p : Plain}

/-- `order` compares ranks. -/
theorem ranks : InsertionNetwork.Ranks p.Proper order Scalable.Individual.rank where
  before_iff := fun _ hb => order_iff hb.total_pos
  injective := fun ha hb hrank => ha.ext hb (rank_injective hrank)

theorem eliteSet_eq {elitism : Nat} (helitism : 0 < elitism) {xs : List (Scalable.Individual Int)}
    (hproper : ∀ x ∈ xs, p.Proper x) : eliteSet elitism xs = (sorted xs).take elitism :=
  ranks.top_eq helitism hproper

/-- Both optimizers sort the method vectors in the same way. -/
theorem sorted_genes (hscale : 0 < p.scale) (hchoosable : ∀ row ∈ p.costs, options row ≠ [])
    (hnonneg : p.NonNegative) {vectors : List (List Method)}
    (hvectors : ∀ genes ∈ vectors, Available p.model genes) :
    (sorted (vectors.map p.plaintext)).map Scalable.Individual.genes =
      (sorted (vectors.map p.individual)).map Scalable.Individual.genes := by
  have hplaintext : (sorted (vectors.map p.plaintext)).map Scalable.Individual.genes =
      vectors.insertionSort fun a b => order (p.individual b) (p.individual a) = false := by
    rw [sorted, ← List.map_insertionSort
      (fun a b => order (p.individual b) (p.individual a) = false)
      (fun a b => order b a = false) p.plaintext vectors fun a ha b hb => by
        rw [order_plaintext hscale hchoosable hnonneg (hvectors b hb) (hvectors a ha)],
      List.map_map]
    exact List.map_id _
  have hindividual : (sorted (vectors.map p.individual)).map Scalable.Individual.genes =
      vectors.insertionSort fun a b => order (p.individual b) (p.individual a) = false := by
    rw [sorted, ← List.map_insertionSort
      (fun a b => order (p.individual b) (p.individual a) = false)
      (fun a b => order b a = false) p.individual vectors fun a _ b _ => Iff.rfl, List.map_map]
    exact List.map_id _
  rw [hplaintext, hindividual]

end Plain

/-! ## The elite set -/

/-- The individuals are consistent and hold these method vectors. -/
abbrev PopulationHolds {C : Type} (D : C → Int → Prop) (p : Plain)
    (population : List (Individual C)) (vectors : List (List Method)) : Prop :=
  List.Forall₂ (fun value genes => Available p.model genes ∧ Holds D value (p.individual genes))
    population vectors

/-- `eliteSet` returns the beginning of the sorted population, each individual with its own sums;
where the costs are not negative the plaintext optimizer keeps the same method vectors. -/
theorem eliteSet_refines_sort {σ C : Type} [CiphertextLike C] {D : C → Int → Prop} {I : σ → Prop}
    {ops : SecureOps σ C} (h : ExactOps ops D (fun _ => True) (fun _ => True) I)
    {config : ConfidentialScalableOptimizerConfig} {request : EncryptedOptimizationRequest C}
    (haccepted : validate ops.domain config request = .ok ⟨⟩) {rows : List (CostRow Int)}
    (hcosts : List.Forall₂ (RowHolds D) request.costs rows) (draws : Nat → UInt64)
    {population : List (Individual C)} {vectors : List (List Method)}
    (hpopulation : PopulationHolds D (plainOf ops.domain config request rows) population vectors)
    (hsize : config.elitism < population.length) :
    let p := plainOf ops.domain config request rows
    let ranked := sorted (vectors.map p.individual)
    ranked.Perm (vectors.map p.individual) ∧
    ranked.Pairwise (fun x y => order y x = false) ∧
    (ranked.take config.elitism).length = config.elitism ∧
    (∀ drawn, Yields (Kept I drawn)
      (constructPega ops config request draws >>= fun pega => pega.eliteSet population)
      (fun elite => List.Forall₂ (Holds D) elite (ranked.take config.elitism)) Never) ∧
    (p.NonNegative → (ranked.take config.elitism).map Scalable.Individual.genes =
      ((sorted (vectors.map p.plaintext)).take config.elitism).map Scalable.Individual.genes) := by
  intro p ranked
  have haccepted := validate_ok haccepted
  have hchoosable : ∀ row ∈ p.costs, options row ≠ [] := haccepted.choosable_plain hcosts
  have hscale : 0 < p.scale := lt_of_le_of_lt haccepted.threshold.1 haccepted.threshold.2
  have havailable : ∀ genes ∈ vectors, Available p.model genes := by
    intro genes hgenes
    rcases mem_right_of_forall₂ hpopulation hgenes with ⟨_, _, hheld⟩
    exact hheld.1
  have hproper : ∀ x ∈ vectors.map p.individual, p.Proper x := by
    intro x hx
    rcases List.mem_map.1 hx with ⟨genes, hgenes, rfl⟩
    exact .ofGenes (havailable genes hgenes)
  have hheld : List.Forall₂ (Holds D) population (vectors.map p.individual) :=
    List.forall₂_map_right_iff.2 (hpopulation.imp fun _ _ hvalue => hvalue.2)
  have hperm : ranked.Perm (vectors.map p.individual) := List.perm_insertionSort _ _
  have hlength : ranked.length = population.length := by
    rw [hperm.length_eq, hheld.length_eq]
  rcases haccepted.capacity rows with ⟨bound, hcapacity⟩
  refine ⟨hperm, ?_, ?_, fun drawn => ?_, fun hnonneg => ?_⟩
  · refine (Plain.ranks.ordered_insertionSort hproper).imp_of_mem fun {x y} hx hy hle => ?_
    have hmem : ∀ {z}, z ∈ ranked → p.Proper z := fun hz => hproper _ (hperm.subset hz)
    exact (Plain.ranks.before_eq_false_iff (hmem hy) (hmem hx)).2 hle
  · rw [List.length_take, hlength]
    omega
  · have hne : vectors.map p.individual ≠ [] := by
      refine List.ne_nil_of_length_pos ?_
      rw [← hheld.length_eq]
      omega
    refine (constructPega_runs h (fun _ _ => trivial) haccepted hcosts hcapacity draws).bind
      fun pega hpega => ?_
    refine (eliteSet_yields hpega.1 hheld hproper hne).post fun elite helite => ?_
    -- The rounds of the selection take the best of what is left, which is the sorted beginning.
    have htop : Plain.eliteSet config.elitism (vectors.map p.individual) =
        ranked.take config.elitism := Plain.eliteSet_eq haccepted.elitism.1 hproper
    rw [← htop]
    exact helite
  · have hsame := Plain.sorted_genes hscale hchoosable hnonneg havailable
    rw [List.map_take, List.map_take, hsame]

/-- The better one of two assignments is kept. -/
theorem eliteSet_refines_sort_pairRows :
    let p := plainOf pairDomain pairConfig (clearRequest pairRows 20 "two-rows") pairRows
    ∀ drawn, ∃ R : List (Individual (Option Int)) → Prop,
      Yields (Kept (fun _ => True) drawn)
        (constructPega (clearOps pairDomain) pairConfig (clearRequest pairRows 20 "two-rows")
          (fun _ => 0) >>= fun pega => pega.eliteSet
            [clearIndividual p [0, 0], clearIndividual p [2, 0]]) R Never ∧
      ∀ elite, R elite → List.Forall₂ (Holds fun c x => c = some x) elite
        [p.individual [2, 0]] := by
  intro p drawn
  have hpopulation : PopulationHolds (fun c x => c = some x) p
      [clearIndividual p [0, 0], clearIndividual p [2, 0]] [[0, 0], [2, 0]] :=
    .cons ⟨.cons rfl (.cons rfl .nil), clearIndividual_holds p _⟩
      (.cons ⟨.cons rfl (.cons rfl .nil), clearIndividual_holds p _⟩ .nil)
  have helite := eliteSet_refines_sort (clearOps_exact pairDomain _ _) pairRows_accepted
    (clearRequest_holds pairRows 20 "two-rows") (fun _ => 0) hpopulation (by decide)
  have hranked : (sorted ([[0, 0], [2, 0]].map p.individual)).take 1 = [p.individual [2, 0]] := by
    decide +kernel
  generalize constructPega (clearOps pairDomain) pairConfig
    (clearRequest pairRows 20 "two-rows") (fun _ => 0) = construct at helite ⊢
  refine ⟨_, helite.2.2.2.1 drawn, fun elite hheld => ?_⟩
  rw [← hranked]
  exact hheld

end Optimization
end SociSgx

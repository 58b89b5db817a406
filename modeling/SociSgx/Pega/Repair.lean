import SociSgx.Pega.Elite

/-!
# Repair — the masked scans

A round of `repair` scans all targets twice.  The first scan selects a target under encryption, the
second one applies it under a mask that is 1 for at most one target.  Whatever the target is, the
genes stay one-hot and the sums stay those of the genes.
-/

namespace SociSgx
namespace Optimization

open Exec Secure CountedOps Scalable Scalable.Evaluator

/-! ## Rows with their numbers -/

section Lists

variable {α β : Type}

theorem zipIdx_rel {R : α → β → Prop} {xs : List α} {ys : List β} (h : List.Forall₂ R xs ys) :
    List.Forall₂ (fun a b => R a.1 b.1 ∧ a.2 = b.2) xs.zipIdx ys.zipIdx := by
  suffices hgen : ∀ k, List.Forall₂ (fun (a : α × Nat) (b : β × Nat) => R a.1 b.1 ∧ a.2 = b.2)
      (xs.zipIdx k) (ys.zipIdx k) from hgen 0
  induction h with
  | nil => exact fun _ => .nil
  | cons hhead _ ih => exact fun k => .cons ⟨hhead, rfl⟩ (ih (k + 1))

/-- A list related to the first list of a pairing. -/
theorem rel_zip_fst {γ : Type} {R : α → β → Prop} {xs : List α} {ys : List β} {zs : List γ}
    (h : List.Forall₂ R xs ys) (hlength : ys.length = zs.length) :
    List.Forall₂ (fun a item => R a item.1) xs (ys.zip zs) := by
  induction h generalizing zs with
  | nil => exact .nil
  | cons hhead _ ih =>
      cases zs with
      | nil => cases hlength
      | cons z zs => exact .cons hhead (ih (Nat.succ.inj hlength))

/-- A list related to the second list of a pairing. -/
theorem rel_zip_snd {γ : Type} {R : α → β → Prop} {xs : List α} {ys : List β} {zs : List γ}
    (h : List.Forall₂ R xs ys) (hlength : zs.length = ys.length) :
    List.Forall₂ (fun a item => R a item.2) xs (zs.zip ys) := by
  induction h generalizing zs with
  | nil =>
      rw [List.zip_nil_right]
      exact .nil
  | cons hhead _ ih =>
      cases zs with
      | nil => cases hlength
      | cons z zs => exact .cons hhead (ih (Nat.succ.inj hlength))

end Lists

/-- Two methods belong to `c12`, the third one to `c3`. -/
theorem method3_iff {method : Method} : method = 2 ↔ ¬ method < 2 := by
  revert method
  decide

/-- A row of an individual with what it holds. -/
structure ViewHolds {C : Type} (D : C → Int → Prop) (p : Plain) (view : Pega.RowView C × Nat)
    (item : Plain.RowGene) : Prop where
  row : RowHolds D view.1.1 item.1.1
  gene : GeneHolds D view.1.2.1 item.1.2
  totals : TotalsHold D view.1.2.2 (p.geneSums item.1.1 item.1.2)
  number : view.2 = item.2

/-- A row of the matrix with an available gene. -/
structure Plain.Valid (p : Plain) (item : Plain.RowGene) : Prop where
  mem : item.1.1 ∈ p.costs
  available : (item.1.1 item.1.2).isSome = true
  number : item.2 < p.costs.length

namespace Plain

variable {p : Plain}

theorem valid_of_mem {genes : List Method} (hgenes : Available p.model genes) {item : RowGene}
    (h : item ∈ p.rowGenes genes) : p.Valid item := by
  have hentry := List.mem_zipIdx_iff_getElem?.1 h
  have hmem : (item.1.1, item.1.2) ∈ p.costs.zip genes := List.mem_of_getElem? hentry
  have havailable := zip_available hgenes hmem
  have hlt := (List.getElem?_eq_some_iff.1 hentry).1
  rw [List.length_zip] at hlt
  exact ⟨havailable.1, havailable.2, lt_of_lt_of_le hlt (min_le_left _ _)⟩

variable {item : RowGene} {Fits : Int → Prop} {bound : Int} (h : p.Capacity Fits bound)
  (hitem : p.Valid item)
include h hitem

theorem Valid.small_gene : Capacity.Small p bound (p.geneSums item.1.1 item.1.2) :=
  h.small_part (h.costs _ hitem.mem _ (mem_options.2 (chosen_of_available hitem.available)))

variable {c : Choice Int} (hc : c ∈ options item.1.1)
include hc

theorem Valid.small_option : Capacity.Small p bound (p.part c) :=
  h.small_part (h.costs _ hitem.mem c hc)

theorem Valid.abs_deltaCost_le : |deltaCost item c| ≤ 2 * bound := by
  have hgene : |(chosen item.1.1 item.1.2).cost| ≤ bound := (hitem.small_gene h).total
  have hoption : |c.cost| ≤ bound := (hitem.small_option h hc).total
  refine (abs_sub _ _).trans ?_
  linarith

theorem Valid.abs_deltaLinear_le : |p.deltaLinear item c| ≤ 2 * p.scale * bound := by
  have hgene : |contribution p.scale p.threshold (chosen item.1.1 item.1.2)| ≤ p.scale * bound :=
    (hitem.small_gene h).linear
  have hoption : |contribution p.scale p.threshold c| ≤ p.scale * bound :=
    (hitem.small_option h hc).linear
  refine (abs_sub _ _).trans ?_
  linarith

end Plain

/-! ## The first scan -/

/-- The candidates of a scan, with what they hold. -/
structure CandidatesHold {C : Type} (D : C → Int → Prop) (scan : Pega.Scan C) (s : Plain.Scan) :
    Prop where
  selectedCost : D scan.selectedCost s.selectedCost
  selectedLinear : D scan.selectedLinear s.selectedLinear
  selectedId : D scan.selectedId s.selectedId
  haveSelected : BitHolds D scan.haveSelected s.haveSelected
  best3Cost : D scan.best3Cost s.best3Cost
  best3Linear : D scan.best3Linear s.best3Linear
  best3Id : D scan.best3Id s.best3Id
  have3 : BitHolds D scan.have3 s.have3

namespace Plain

/-- The number of a target, or 0 where none has been selected. -/
def IdWithin (p : Plain) (id : Int) : Prop :=
  0 ≤ id ∧ id ≤ 3 * p.costs.length

/-- How large the candidates of a scan are. -/
structure ScanWithin (p : Plain) (bound : Int) (s : Scan) : Prop where
  selectedCost : |s.selectedCost| ≤ 2 * bound
  selectedLinear : |s.selectedLinear| ≤ 2 * p.scale * bound
  selectedId : p.IdWithin s.selectedId
  best3Cost : |s.best3Cost| ≤ 2 * bound
  best3Linear : |s.best3Linear| ≤ 2 * p.scale * bound
  best3Id : p.IdWithin s.best3Id

variable {p : Plain} {item : RowGene} {Fits : Int → Prop} {bound : Int}

theorem Valid.id_within (hitem : p.Valid item) (method : Method) :
    p.IdWithin (Pega.targetId item.2 method) := by
  have hnumber := hitem.number
  have hmethod := method.isLt
  unfold IdWithin Pega.targetId
  omega

theorem ScanWithin.start (h : p.Capacity Fits bound) : p.ScanWithin bound {} := by
  have hnonneg := h.nonneg
  have hscale := h.scale_pos
  have hproduct : 0 ≤ 2 * p.scale * bound := by positivity
  have hid : p.IdWithin 0 := ⟨le_rfl, by omega⟩
  refine ⟨?_, ?_, hid, ?_, ?_, hid⟩ <;> simp <;> assumption

theorem within_ite {f : Int → Prop} {u : Bool} {a b : Int} (ha : f a) (hb : f b) :
    f (if u then a else b) := by
  cases u
  · exact hb
  · exact ha

variable {c : Choice Int}

theorem ScanWithin.keepMethod3 (h : p.Capacity Fits bound) (hitem : p.Valid item)
    (hc : c ∈ options item.1.1) {s : Scan} (hs : p.ScanWithin bound s) :
    p.ScanWithin bound (p.keepMethod3 item c s) where
  selectedCost := hs.selectedCost
  selectedLinear := hs.selectedLinear
  selectedId := hs.selectedId
  best3Cost := within_ite (f := fun v => |v| ≤ 2 * bound) (hitem.abs_deltaCost_le h hc) hs.best3Cost
  best3Linear := within_ite (f := fun v => |v| ≤ 2 * p.scale * bound)
    (hitem.abs_deltaLinear_le h hc)
    hs.best3Linear
  best3Id := within_ite (f := p.IdWithin) (hitem.id_within c.method) hs.best3Id

theorem ScanWithin.keepSelected (h : p.Capacity Fits bound) (hitem : p.Valid item)
    (hc : c ∈ options item.1.1) {s : Scan} (hs : p.ScanWithin bound s) (valid : Bool) :
    p.ScanWithin bound (p.keepSelected valid item c s) where
  selectedCost := within_ite (f := fun v => |v| ≤ 2 * bound) (hitem.abs_deltaCost_le h hc)
    hs.selectedCost
  selectedLinear := within_ite (f := fun v => |v| ≤ 2 * p.scale * bound)
    (hitem.abs_deltaLinear_le h hc)
    hs.selectedLinear
  selectedId := within_ite (f := p.IdWithin) (hitem.id_within c.method) hs.selectedId
  best3Cost := hs.best3Cost
  best3Linear := hs.best3Linear
  best3Id := hs.best3Id

theorem ScanWithin.scanTarget (h : p.Capacity Fits bound) (hitem : p.Valid item)
    (hc : c ∈ options item.1.1) {s : Scan} (hs : p.ScanWithin bound s) (u : Bool) (k : Int) :
    p.ScanWithin bound (p.scanTarget u k item s c) := by
  unfold Plain.scanTarget
  split
  · exact hs.keepSelected h hitem hc _
  · exact (hs.keepMethod3 h hitem hc).keepSelected h hitem hc _

/-! ### Operands -/

section Operands

variable (h : p.Capacity Fits bound) (hitem : p.Valid item)
include h hitem

theorem Valid.fits_cost {v : Int} (hv : |v| ≤ 4 * bound) : Fits v := by
  have hextent := h.bound_le_extent hitem.mem
  exact h.fits_cost (by linarith)

theorem Valid.fits_linear {v : Int} (hv : |v| ≤ 4 * p.scale * bound) : Fits v := by
  have hextent := h.bound_le_extent hitem.mem
  have hscale := h.scale_pos
  refine h.fits_linear (hv.trans ?_)
  gcongr
  omega

/-- A cross product of a cost and a linear value. -/
theorem Valid.fits_product {v w : Int} (hv : |v| ≤ 2 * bound) (hw : |w| ≤ 2 * p.scale * bound) :
    Fits (v * w) := by
  have hextent := h.bound_le_extent hitem.mem
  have hnonneg := h.nonneg
  have hscale := h.scale_pos
  refine h.fits_square ?_
  rw [abs_mul]
  calc |v| * |w| ≤ 2 * bound * (2 * p.scale * bound) :=
        mul_le_mul hv hw (abs_nonneg _) (by positivity)
    _ = 4 * p.scale * (bound * bound) := by ring
    _ ≤ 4 * p.scale * ((p.extent bound + 1) * (p.extent bound + 1)) := by
        have hle : bound ≤ p.extent bound + 1 := by omega
        have hpositive : 0 ≤ p.extent bound + 1 := by omega
        gcongr
    _ = 4 * p.scale * (p.extent bound + 1) ^ 2 := by ring

omit hitem in
theorem fits_id {v w : Int} (hv : p.IdWithin v) (hw : p.IdWithin w) : Fits (v - w) := by
  refine h.numbers _ ?_
  rw [abs_le]
  rcases hv with ⟨hv0, hv⟩
  rcases hw with ⟨hw0, hw⟩
  omega

end Operands

/-! ### Targets -/

/-- The gene of a row after all its targets. -/
def applyRow (target : Int × Bool) (item : RowGene) : Method :=
  (options item.1.1).foldl (applyTarget target.1 target.2 item.2) item.1.2

/-- A target is an available method. -/
theorem applyTargets_available {v : Int} {a : Bool} {row : CostRow Int} {number : Nat}
    {gene : Method}
    (hgene : (row gene).isSome = true) {done : List (Choice Int)}
    (hdone : ∀ c ∈ done, c ∈ options row) :
    (row (done.foldl (applyTarget v a number) gene)).isSome = true := by
  refine List.foldlRecOn (motive := fun gene => (row gene).isSome = true) done _ hgene ?_
  intro gene hgene c hc
  unfold applyTarget
  split
  · rw [mem_options.1 (hdone c hc)]
    rfl
  · exact hgene

theorem map_rowGenes {α : Type} (genes : List Method) (f : CostRow Int × Method → α) :
    (p.rowGenes genes).map (fun item => f item.1) = (p.costs.zip genes).map f := by
  have hfst : (p.rowGenes genes).map Prod.fst = p.costs.zip genes := List.zipIdx_map_fst 0 _
  rw [← hfst, List.map_map]
  rfl

/-- The rows with their genes after a round. -/
theorem zip_applyTargets {target : Int × Bool} {genes : List Method}
    (hgenes : Available p.model genes) :
    p.costs.zip (p.applyTargets target genes) =
      (p.rowGenes genes).map fun item => (item.1.1, applyRow target item) := by
  have hcosts : p.costs = (p.rowGenes genes).map fun item => item.1.1 := by
    rw [map_rowGenes genes Prod.fst, List.map_fst_zip]
    exact hgenes.length_eq.le
  conv_lhs => rw [hcosts]
  exact List.zip_map'

theorem available_applyTargets {target : Int × Bool} {genes : List Method}
    (hgenes : Available p.model genes) : Available p.model (p.applyTargets target genes) := by
  have hlength : p.costs.length = (p.applyTargets target genes).length := by
    rw [applyTargets, List.length_map, rowGenes, List.length_zipIdx, List.length_zip,
      ← hgenes.length_eq]
    exact (min_self _).symm
  refine List.forall₂_iff_zip.2 ⟨hlength, fun {row method} hmem => ?_⟩
  have hmem : (row, method) ∈ p.costs.zip (p.applyTargets target genes) := hmem
  rw [zip_applyTargets hgenes] at hmem
  rcases List.mem_map.1 hmem with ⟨item, hitem, heq⟩
  cases heq
  exact applyTargets_available (valid_of_mem hgenes hitem).available fun _ hc => hc

end Plain

/-- A member of a population. -/
structure Member {C : Type} (D : C → Int → Prop) (p : Plain) (value : Individual C)
    (x : Scalable.Individual Int) : Prop where
  proper : p.Proper x
  holds : Holds D value x

/-- An individual that a repair may start with, or has ended with. -/
structure Repairable {C : Type} (D : C → Int → Prop) (p : Plain) (value : Individual C)
    (x : Scalable.Individual Int) : Prop extends Member D p value x where
  rows : RowsHold D p value.rows x.genes

section Scans

variable {σ C : Type} [CiphertextLike C] {D : C → Int → Prop} {Fits : Int → Prop}
  {Batch : Nat → Prop} {I : σ → Prop} {drawn : Nat} {p : Plain} {bound : Int} {pega : Pega σ C}
  (h : Runs D Fits Batch I pega p bound)
include h

theorem rowViews_hold {value : Individual C} {x : Scalable.Individual Int}
    (hx : p.Proper x) (hvalue : Holds D value x) (hrows : RowsHold D p value.rows x.genes) :
    List.Forall₂ (ViewHolds D p) (pega.rowViews value) (p.rowGenes x.genes) := by
  have hcosts := rel_zip_fst h.costs hx.length_eq.symm
  have hgenes := rel_zip_snd hvalue.genes hx.length_eq.symm
  have hviews := zip_left_rel hcosts (zip_left_rel hgenes hrows)
  exact (zipIdx_rel hviews).imp fun _ _ hview =>
    ⟨hview.1.1, hview.1.2.1, hview.1.2.2, hview.2⟩

section Target

variable {needMethod3 : EncryptedBit C} {u : Bool} (hneed : BitHolds D needMethod3 u)
  {method3Count : C} {k : Int} (hcount : D method3Count k) (hk : 0 ≤ k ∧ k ≤ p.costs.length)
  {view : Pega.RowView C × Nat} {item : Plain.RowGene} (hitem : p.Valid item)
  (hview : ViewHolds D p view item) {choice : Choice C} {c : Choice Int}
  (hmethod : choice.method = c.method) (hc : c ∈ options item.1.1)
  {deltaCost deltaLinear : C} (hdeltaCost : D deltaCost (Plain.deltaCost item c))
  (hdeltaLinear : D deltaLinear (p.deltaLinear item c))
  {scan : Pega.Scan C} {s : Plain.Scan} (hscan : CandidatesHold D scan s)
  (hwithin : p.ScanWithin bound s)
include hneed hcount hk hitem hview hmethod hc hdeltaCost hdeltaLinear hscan hwithin

theorem validTarget_yields :
    Yields (Kept I drawn)
      (pega.validTarget needMethod3 method3Count view.1.2.1 view.2 choice deltaCost deltaLinear
        scan)
      (fun r => BitHolds D r.1 (p.validTarget u k item c) ∧
        CandidatesHold D r.2 (if c.method ≠ 2 then s else p.keepMethod3 item c s)) Never := by
  have h0 := h.capacity.fits_zero
  have h1 := h.capacity.fits_one
  have hcost := hitem.abs_deltaCost_le h.capacity hc
  have hlinear := hitem.abs_deltaLinear_le h.capacity hc
  have hnonneg := h.capacity.nonneg
  have hscale := h.capacity.scale_pos
  have hproduct : 0 ≤ p.scale * bound := mul_nonneg hscale.le hnonneg
  have hlinearFits : Fits (p.deltaLinear item c) :=
    hitem.fits_linear h.capacity (hlinear.trans (by linarith))
  refine (greater_yields h.exact hdeltaLinear h.zero hlinearFits h0).bind
    fun positiveDelta hpositiveDelta => ?_
  rw [hmethod]
  unfold Plain.validTarget
  by_cases hthree : c.method ≠ 2
  -- Away from method 3: another row must keep it.
  · rw [if_pos hthree, if_pos hthree, if_pos hthree]
    refine (sub_yields h.exact hcount (hview.gene 2)).bind fun remaining hremaining => ?_
    have hremainingFits : Fits (k - if 2 = item.1.2 then 1 else 0) := by
      refine h.capacity.numbers _ ?_
      rw [abs_le]
      split <;> omega
    refine (greater_yields h.exact hremaining h.zero hremainingFits h0).bind
      fun another hanother => ?_
    refine (andBit_yields h.exact h0 h1 hpositiveDelta hanother).bind fun valid hvalid => ?_
    exact Yields.pure ⟨hvalid, hscan⟩
  -- To method 3: the cheapest such target is kept beside the verdict.
  · rw [if_neg hthree, if_neg hthree, if_neg hthree]
    have hcostFits : ∀ {v : Int}, |v| ≤ 2 * bound → Fits v := fun hv =>
      hitem.fits_cost h.capacity (hv.trans (by linarith))
    refine (less_yields h.exact hdeltaCost hscan.best3Cost (hcostFits hcost)
      (hcostFits hwithin.best3Cost)).bind fun better3 hbetter3 => ?_
    refine (notBit_yields h.exact hscan.have3).bind fun first3 hfirst3 => ?_
    refine (orBit_yields h.exact h0 h1 hfirst3 hbetter3).bind fun replace3 hreplace3 => ?_
    have hcostDifference : Fits (Plain.deltaCost item c - s.best3Cost) :=
      hitem.fits_cost h.capacity ((abs_sub _ _).trans (by linarith [hwithin.best3Cost]))
    refine (select_yields h.exact h0 h1 hreplace3 hdeltaCost hscan.best3Cost hcostDifference).bind
      fun best3Cost hbest3Cost => ?_
    have hlinearDifference : Fits (p.deltaLinear item c - s.best3Linear) :=
      hitem.fits_linear h.capacity ((abs_sub _ _).trans (by linarith [hwithin.best3Linear]))
    refine (select_yields h.exact h0 h1 hreplace3 hdeltaLinear hscan.best3Linear
      hlinearDifference).bind fun best3Linear hbest3Linear => ?_
    refine (constant_yields h.exact _).bind fun id hid => ?_
    rw [hview.number] at hid
    refine (select_yields h.exact h0 h1 hreplace3 hid hscan.best3Id
      (Plain.fits_id h.capacity (hitem.id_within _) hwithin.best3Id)).bind
      fun best3Id hbest3Id => ?_
    refine (orBit_yields h.exact h0 h1 hscan.have3 hreplace3).bind fun have3 hhave3 => ?_
    refine (notBit_yields h.exact hneed).bind fun enough3 henough3 => ?_
    refine (andBit_yields h.exact h0 h1 hpositiveDelta henough3).bind fun valid hvalid => ?_
    exact Yields.pure ⟨hvalid, hscan.selectedCost, hscan.selectedLinear, hscan.selectedId,
      hscan.haveSelected, hbest3Cost, hbest3Linear, hbest3Id, hhave3⟩

end Target

/-- One target of the first scan. -/
theorem scanTarget_yields {needMethod3 : EncryptedBit C} {u : Bool}
    (hneed : BitHolds D needMethod3 u) {method3Count : C} {k : Int} (hcount : D method3Count k)
    (hk : 0 ≤ k ∧ k ≤ p.costs.length) {view : Pega.RowView C × Nat} {item : Plain.RowGene}
    (hitem : p.Valid item) (hview : ViewHolds D p view item) {choice : Choice C} {c : Choice Int}
    (hchoice : Choice.Rel D choice c) (hc : c ∈ options item.1.1) {scan : Pega.Scan C}
    {s : Plain.Scan} (hscan : CandidatesHold D scan s) (hwithin : p.ScanWithin bound s) :
    Yields (Kept I drawn)
      (pega.scanTarget needMethod3 method3Count view.1.2.1 view.1.2.2 view.2 scan choice)
      (fun scan => CandidatesHold D scan (p.scanTarget u k item s c)) Never := by
  have h0 := h.capacity.fits_zero
  have h1 := h.capacity.fits_one
  have hcost := hitem.abs_deltaCost_le h.capacity hc
  have hlinear := hitem.abs_deltaLinear_le h.capacity hc
  have hnonneg := h.capacity.nonneg
  have hproduct : 0 ≤ p.scale * bound := mul_nonneg h.capacity.scale_pos.le hnonneg
  refine (sub_yields h.exact hchoice.2 hview.totals.total).bind fun deltaCost hdeltaCost => ?_
  refine (scalar_yields h.exact _ hchoice.2).bind fun targetLinear htargetLinear => ?_
  rw [factor_eq h.toPegaHolds, hchoice.1] at htargetLinear
  refine (sub_yields h.exact htargetLinear hview.totals.linear).bind
    fun deltaLinear hdeltaLinear => ?_
  have hkept : p.ScanWithin bound (if c.method ≠ 2 then s else p.keepMethod3 item c s) := by
    split
    · exact hwithin
    · exact hwithin.keepMethod3 h.capacity hitem hc
  refine (validTarget_yields h hneed hcount hk hitem hview hchoice.1 hc hdeltaCost hdeltaLinear
    hscan hwithin).bind fun r hr => ?_
  rcases r with ⟨valid, scan⟩
  rcases hr with ⟨hvalid, hscan⟩
  change Yields _ _ (fun scan => CandidatesHold D scan (p.keepSelected
    (p.validTarget u k item c) item c (if c.method ≠ 2 then s else p.keepMethod3 item c s))) Never
  -- From here on the candidates are those after the verdict.
  generalize (if c.method ≠ 2 then s else p.keepMethod3 item c s) = s at hscan hkept ⊢
  have hcostFits : ∀ {v : Int}, |v| ≤ 2 * bound → Fits v := fun hv =>
    hitem.fits_cost h.capacity (hv.trans (by linarith))
  have hlinearFits : ∀ {v : Int}, |v| ≤ 2 * p.scale * bound → Fits v := fun hv =>
    hitem.fits_linear h.capacity (hv.trans (by linarith))
  -- The ratio of cost and gain is compared by products.
  refine (mul_yields h.exact hdeltaCost hscan.selectedLinear (hcostFits hcost)
    (hlinearFits hkept.selectedLinear)).bind fun lhs hlhs => ?_
  refine (mul_yields h.exact hscan.selectedCost hdeltaLinear (hcostFits hkept.selectedCost)
    (hlinearFits hlinear)).bind fun rhs hrhs => ?_
  refine (less_yields h.exact hlhs hrhs (hitem.fits_product h.capacity hcost hkept.selectedLinear)
    (hitem.fits_product h.capacity hkept.selectedCost hlinear)).bind fun smaller hsmaller => ?_
  refine (notBit_yields h.exact hscan.haveSelected).bind fun first hfirst => ?_
  refine (orBit_yields h.exact h0 h1 hfirst hsmaller).bind fun preferred hpreferred => ?_
  refine (andBit_yields h.exact h0 h1 hvalid hpreferred).bind fun replace hreplace => ?_
  have hcostDifference : Fits (Plain.deltaCost item c - s.selectedCost) :=
    hitem.fits_cost h.capacity ((abs_sub _ _).trans (by linarith [hkept.selectedCost]))
  refine (select_yields h.exact h0 h1 hreplace hdeltaCost hscan.selectedCost hcostDifference).bind
    fun selectedCost hselectedCost => ?_
  have hlinearDifference : Fits (p.deltaLinear item c - s.selectedLinear) :=
    hitem.fits_linear h.capacity ((abs_sub _ _).trans (by linarith [hkept.selectedLinear]))
  refine (select_yields h.exact h0 h1 hreplace hdeltaLinear hscan.selectedLinear
    hlinearDifference).bind fun selectedLinear hselectedLinear => ?_
  refine (constant_yields h.exact _).bind fun id hid => ?_
  rw [hview.number, hchoice.1] at hid
  refine (select_yields h.exact h0 h1 hreplace hid hscan.selectedId
    (Plain.fits_id h.capacity (hitem.id_within _) hkept.selectedId)).bind
    fun selectedId hselectedId => ?_
  refine (orBit_yields h.exact h0 h1 hscan.haveSelected hvalid).bind
    fun haveSelected hhaveSelected => Yields.pure ?_
  exact ⟨hselectedCost, hselectedLinear, hselectedId, hhaveSelected, hscan.best3Cost,
    hscan.best3Linear, hscan.best3Id, hscan.have3⟩

/-- The options of a row, one after the other. -/
theorem scanRow_yields {needMethod3 : EncryptedBit C} {u : Bool}
    (hneed : BitHolds D needMethod3 u) {method3Count : C} {k : Int} (hcount : D method3Count k)
    (hk : 0 ≤ k ∧ k ≤ p.costs.length) {view : Pega.RowView C × Nat} {item : Plain.RowGene}
    (hitem : p.Valid item) (hview : ViewHolds D p view item) {scan : Pega.Scan C} {s : Plain.Scan}
    (hscan : CandidatesHold D scan s) (hwithin : p.ScanWithin bound s) :
    Yields (Kept I drawn)
      ((options view.1.1).foldlM
        (pega.scanTarget needMethod3 method3Count view.1.2.1 view.1.2.2 view.2) scan)
      (fun scan => CandidatesHold D scan ((options item.1.1).foldl (p.scanTarget u k item) s) ∧
        p.ScanWithin bound ((options item.1.1).foldl (p.scanTarget u k item) s)) Never := by
  refine Yields.foldlM (fun done scan =>
    CandidatesHold D scan (done.foldl (p.scanTarget u k item) s) ∧
    p.ScanWithin bound (done.foldl (p.scanTarget u k item) s)) (options_rel hview.row)
    (fun done c rest choice scan hsplit hchoice hdone => ?_) ⟨hscan, hwithin⟩
  have hc : c ∈ options item.1.1 := by
    rw [hsplit]
    simp
  rw [List.foldl_append, List.foldl_cons, List.foldl_nil]
  exact (scanTarget_yields h hneed hcount hk hitem hview hchoice hc hdone.1 hdone.2).post
    fun scan hscan => ⟨hscan, hdone.2.scanTarget h.capacity hitem hc u k⟩

omit h [CiphertextLike C] in
theorem count_three (methods : List Method) (method : Method) :
    ((methods ++ [method]).count 2 : Int) = methods.count 2 + if 2 = method then 1 else 0 := by
  rw [List.count_append, List.count_singleton]
  by_cases hmethod : 2 = method
  · simp [← hmethod]
  · have hne : ¬ method = 2 := fun heq => hmethod heq.symm
    simp [hmethod, hne]

/-- The number of rows with method 3. -/
theorem method3Count_yields {genes : List (Gene C)} {methods : List Method}
    (hgenes : GenesHold D genes methods) :
    Yields (Kept I drawn) (genes.foldlM (fun count gene => add pega.ops count (gene 2)) pega.zero)
      (fun c => D c (methods.count 2 : Nat)) Never := by
  refine Yields.foldlM (fun done c => D c (done.count 2 : Nat)) hgenes
    (fun done method rest gene count _ hgene hcount => ?_) h.zero
  refine (add_yields h.exact hcount (hgene 2)).post fun c hc => ?_
  rwa [count_three]

/-- The first scan finds the target of the round. -/
theorem findTarget_yields {value : Individual C} {x : Scalable.Individual Int}
    (hx : p.Proper x) (hvalue : Holds D value x) (hrows : RowsHold D p value.rows x.genes)
    {wasFeasible : EncryptedBit C} (hfeasible : BitHolds D wasFeasible x.feasible) :
    Yields (Kept I drawn) (pega.findTarget value wasFeasible)
      (fun r => (D r.1 (p.findTarget x).1 ∧ p.IdWithin (p.findTarget x).1) ∧
        BitHolds D r.2 (p.findTarget x).2) Never := by
  have h0 := h.capacity.fits_zero
  have h1 := h.capacity.fits_one
  have hsmall := hx.small h.capacity
  have hextent := h.capacity.extent_nonneg
  have hcount : 0 ≤ ((x.genes.count 2 : Nat) : Int) ∧
      ((x.genes.count 2 : Nat) : Int) ≤ p.costs.length := by
    have hle : x.genes.count 2 ≤ x.genes.length := List.count_le_length
    rw [hx.length_eq] at hle
    omega
  refine (greater_yields h.exact h.zero h.zero h0 h0).bind fun none₁ hnone₁ => ?_
  refine (greater_yields h.exact hvalue.totals.c3 h.zero
    (h.capacity.fits_cost (by linarith [hsmall.c3])) h0).bind fun present hpresent => ?_
  refine (notBit_yields h.exact hpresent).bind fun needMethod3 hneed => ?_
  refine (greater_yields h.exact h.zero h.zero h0 h0).bind fun none₂ hnone₂ => ?_
  refine (method3Count_yields h hvalue.genes).bind fun method3Count hmethod3Count => ?_
  have hneed : BitHolds D needMethod3 (Plain.missing x.toSums) := hneed
  -- The scan over all rows and options keeps the candidates and their bounds.
  have hscans : Yields (Kept I drawn)
      ((pega.rowViews value).foldlM (fun scan view => (options view.1.1).foldlM
        (pega.scanTarget needMethod3 method3Count view.1.2.1 view.1.2.2 view.2) scan)
        ⟨pega.zero, pega.zero, pega.zero, none₁, pega.zero, pega.zero, pega.zero, none₂⟩)
      (fun scan => CandidatesHold D scan (p.scanRows (Plain.missing x.toSums) x.genes) ∧
        p.ScanWithin bound (p.scanRows (Plain.missing x.toSums) x.genes)) Never := by
    refine Yields.foldlM (fun done scan => CandidatesHold D scan
        (done.foldl (fun scan item => (options item.1.1).foldl
          (p.scanTarget (Plain.missing x.toSums) (x.genes.count 2 : Nat) item) scan) {}) ∧
      p.ScanWithin bound (done.foldl (fun scan item => (options item.1.1).foldl
          (p.scanTarget (Plain.missing x.toSums) (x.genes.count 2 : Nat) item) scan) {}))
      (rowViews_hold h hx hvalue hrows) (fun done item rest view scan hsplit hview hdone => ?_) ?_
    · have hitem : p.Valid item :=
        Plain.valid_of_mem hx.available (by rw [hsplit]; simp)
      rw [List.foldl_append, List.foldl_cons, List.foldl_nil]
      exact scanRow_yields h hneed hmethod3Count hcount hitem hview hdone.1 hdone.2
    · exact ⟨⟨h.zero, h.zero, h.zero, hnone₁, h.zero, h.zero, h.zero, hnone₂⟩,
        .start h.capacity⟩
  refine hscans.bind fun scan hscan => ?_
  rcases hscan with ⟨hscan, hwithin⟩
  generalize hs : p.scanRows (Plain.missing x.toSums) x.genes = s at hscan hwithin
  refine (select_yields h.exact h0 h1 hneed hscan.best3Id hscan.selectedId
    (Plain.fits_id h.capacity hwithin.best3Id hwithin.selectedId)).bind
    fun selectedId hselectedId => ?_
  rcases List.exists_mem_of_ne_nil _ h.nonempty with ⟨row, hrow⟩
  have hbound := h.capacity.bound_le_extent hrow
  have hcostDifference : Fits (s.best3Cost - s.selectedCost) := by
    refine h.capacity.fits_cost ((abs_sub _ _).trans ?_)
    linarith [hwithin.best3Cost, hwithin.selectedCost]
  have hlinearDifference : Fits (s.best3Linear - s.selectedLinear) := by
    have hscale := h.capacity.scale_pos
    refine h.capacity.fits_linear ((abs_sub _ _).trans ?_)
    calc |s.best3Linear| + |s.selectedLinear| ≤ 4 * p.scale * bound := by
          linarith [hwithin.best3Linear, hwithin.selectedLinear]
      _ ≤ 4 * p.scale * (p.extent bound + 1) := by
          gcongr
          omega
  refine (select_yields h.exact h0 h1 hneed hscan.best3Cost hscan.selectedCost
    hcostDifference).bind fun _ _ => ?_
  refine (select_yields h.exact h0 h1 hneed hscan.best3Linear hscan.selectedLinear
    hlinearDifference).bind fun _ _ => ?_
  refine (andBit_yields h.exact h0 h1 hneed hscan.have3).bind fun needed3 hneeded3 => ?_
  refine (orBit_yields h.exact h0 h1 hscan.haveSelected hneeded3).bind
    fun haveSelected hhaveSelected => ?_
  refine (notBit_yields h.exact hfeasible).bind fun infeasible hinfeasible => ?_
  refine (andBit_yields h.exact h0 h1 hinfeasible hhaveSelected).bind fun apply happly =>
    Yields.pure ?_
  unfold Plain.findTarget
  dsimp only
  rw [hs]
  exact ⟨⟨hselectedId, Plain.within_ite hwithin.best3Id hwithin.selectedId⟩, happly⟩

/-! ## The second scan -/

/-- A masked update. -/
theorem addMasked_yields {mask sum delta : C} {q : Bool} {a d : Int} (hmask : D mask q.toInt)
    (hsum : D sum a) (hdelta : D delta d) (hd : Fits d) :
    Yields (Kept I drawn) (pega.addMasked mask sum delta)
      (fun c => D c (if q then a + d else a)) Never := by
  refine (mul_yields h.exact hmask hdelta (fits_toInt h.capacity.fits_zero h.capacity.fits_one q)
    hd).bind fun product hproduct => ?_
  refine (add_yields h.exact hsum hproduct).post fun c hc => ?_
  cases q <;> simpa using hc

/-- Whether the target is the one to apply. -/
theorem targetMask_yields {selectedId : C} {v : Int} (hselected : D selectedId v)
    (hv : p.IdWithin v) {apply : EncryptedBit C} {a : Bool} (happly : BitHolds D apply a)
    {item : Plain.RowGene} (hitem : p.Valid item) (method : Method) :
    Yields (Kept I drawn) (pega.targetMask selectedId apply item.2 method)
      (fun c => D c (a && decide (v = Pega.targetId item.2 method)).toInt) Never := by
  have h0 := h.capacity.fits_zero
  have h1 := h.capacity.fits_one
  have hfits : ∀ {w : Int}, p.IdWithin w → Fits w := fun {w} hw => by
    refine h.capacity.numbers w ?_
    rw [abs_of_nonneg hw.1]
    exact hw.2.trans (by omega)
  have hid := hitem.id_within method
  refine (constant_yields h.exact _).bind fun id hidHolds => ?_
  refine (greater_yields h.exact hselected hidHolds (hfits hv) (hfits hid)).bind
    fun above habove => ?_
  refine (greater_yields h.exact hidHolds hselected (hfits hid) (hfits hv)).bind
    fun below hbelow => ?_
  refine (orBitExclusive_yields h.exact habove hbelow (below_above _ _)).bind
    fun different hdifferent => ?_
  refine (notBit_yields h.exact hdifferent).bind fun eq heq => ?_
  rw [neither_eq] at heq
  refine (mul_yields h.exact happly heq (fits_toInt h0 h1 _) (fits_toInt h0 h1 _)).post
    fun c hc => ?_
  revert hc
  cases a <;> cases decide (v = Pega.targetId item.2 method) <;> exact fun hc => hc

/-- The sums and the row of an individual whose row `row` has the gene `g`. -/
structure PatchHolds (D : C → Int → Prop) (p : Plain) (patch : Pega.Patch C) (row : CostRow Int)
    (s : Scalable.Sums) (g : Method) : Prop where
  totals : TotalsHold D patch.totals s
  gene : GeneHolds D patch.gene g
  row : TotalsHold D patch.row (p.geneSums row g)

/-- A masked change of the gene, or none: the sums follow the gene. -/
theorem applyTarget_yields {selectedId : C} {v : Int} (hselected : D selectedId v)
    (hv : p.IdWithin v) {apply : EncryptedBit C} {a : Bool} (happly : BitHolds D apply a)
    {item : Plain.RowGene} (hitem : p.Valid item) {choice : Choice C} {c : Choice Int}
    (hchoice : Choice.Rel D choice c) (hc : c ∈ options item.1.1) {patch : Pega.Patch C}
    {s : Scalable.Sums} {g : Method} (hg : (item.1.1 g).isSome = true)
    (hpatch : PatchHolds D p patch item.1.1 s g) :
    Yields (Kept I drawn) (pega.applyTarget selectedId apply item.2 patch choice)
      (fun patch => PatchHolds D p patch item.1.1
        (s - p.geneSums item.1.1 g + p.geneSums item.1.1 (Plain.applyTarget v a item.2 g c))
        (Plain.applyTarget v a item.2 g c)) Never := by
  have hgene : Plain.Capacity.Small p bound (p.geneSums item.1.1 g) :=
    h.capacity.small_part (h.capacity.costs _ hitem.mem _ (mem_options.2 (chosen_of_available hg)))
  have hoption := hitem.small_option h.capacity hc
  have hpart : p.geneSums item.1.1 c.method = p.part c := by
    rw [Plain.geneSums, chosen_method hc]
  have hcostFits : ∀ {x y : Int}, |x| ≤ bound → |y| ≤ bound → Fits (x - y) := fun hx hy =>
    hitem.fits_cost h.capacity ((abs_sub _ _).trans (by linarith [h.capacity.nonneg]))
  have hlinearFits : Fits ((p.part c).linear - (p.geneSums item.1.1 g).linear) := by
    have hproduct := mul_nonneg h.capacity.scale_pos.le h.capacity.nonneg
    refine hitem.fits_linear h.capacity ((abs_sub _ _).trans ?_)
    linarith [hgene.linear, hoption.linear]
  refine (targetMask_yields h hselected hv happly hitem _).bind fun mask hmask => ?_
  rw [hchoice.1] at hmask
  refine (scalar_yields h.exact _ hchoice.2).bind fun targetLinear htargetLinear => ?_
  rw [factor_eq h.toPegaHolds, hchoice.1] at htargetLinear
  refine (sub_yields h.exact htargetLinear hpatch.row.linear).bind
    fun deltaLinear hdeltaLinear => ?_
  refine (sub_yields h.exact hchoice.2 hpatch.row.total).bind fun deltaCost hdeltaCost => ?_
  -- The cost of the target enters the one part or the other.
  have htarget12 : D (if choice.method < 2 then choice.cost else pega.zero) (p.part c).c12 := by
    rw [hchoice.1]
    change D _ (if c.method < 2 then c.cost else 0)
    split
    · exact hchoice.2
    · exact h.zero
  have htarget3 : D (if choice.method = 2 then choice.cost else pega.zero) (p.part c).c3 := by
    rw [hchoice.1]
    change D _ (if c.method < 2 then 0 else c.cost)
    by_cases hmethod : c.method < 2
    · rw [if_neg (fun heq => method3_iff.1 heq hmethod), if_pos hmethod]
      exact h.zero
    · rw [if_pos (method3_iff.2 hmethod), if_neg hmethod]
      exact hchoice.2
  refine (sub_yields h.exact htarget12 hpatch.row.c12).bind fun deltaC12 hdeltaC12 => ?_
  refine (sub_yields h.exact htarget3 hpatch.row.c3).bind fun deltaC3 hdeltaC3 => ?_
  have hcostDelta := hcostFits hoption.total hgene.total
  have hc12Delta := hcostFits hoption.c12 hgene.c12
  have hc3Delta := hcostFits hoption.c3 hgene.c3
  refine (addMasked_yields h hmask hpatch.totals.total hdeltaCost hcostDelta).bind
    fun total htotal => ?_
  refine (addMasked_yields h hmask hpatch.totals.linear hdeltaLinear hlinearFits).bind
    fun linear hlinear => ?_
  refine (addMasked_yields h hmask hpatch.row.total hdeltaCost hcostDelta).bind
    fun rowCost hrowCost => ?_
  refine (addMasked_yields h hmask hpatch.row.linear hdeltaLinear hlinearFits).bind
    fun rowLinear hrowLinear => ?_
  refine (addMasked_yields h hmask hpatch.row.c12 hdeltaC12 hc12Delta).bind
    fun rowC12 hrowC12 => ?_
  refine (addMasked_yields h hmask hpatch.row.c3 hdeltaC3 hc3Delta).bind fun rowC3 hrowC3 => ?_
  refine (addMasked_yields h hmask hpatch.totals.c12 hdeltaC12 hc12Delta).bind fun c12 hc12 => ?_
  refine (addMasked_yields h hmask hpatch.totals.c3 hdeltaC3 hc3Delta).bind fun c3 hc3 => ?_
  -- The gene moves to the target bit by bit, under the same mask.
  have hgenes : Yields (Kept I drawn) (eachMethod fun method => do
      let target ← constant pega.ops (if method = choice.method then 1 else 0)
      let delta ← sub pega.ops target (patch.gene method)
      pega.addMasked mask (patch.gene method) delta)
      (fun gene => GeneHolds D gene (Plain.applyTarget v a item.2 g c)) Never := by
    refine eachMethod_yields fun m => ?_
    refine (constant_yields h.exact _).bind fun target htarget => ?_
    refine (sub_yields h.exact htarget (hpatch.gene m)).bind fun delta hdelta => ?_
    have hdeltaFits : Fits ((if m = choice.method then (1 : Int) else 0) -
        if m = g then 1 else 0) := by
      refine h.capacity.numbers _ (le_trans ?_ (show (1 : Int) ≤ 3 * p.costs.length + 2 by omega))
      split <;> split <;> decide
    refine (addMasked_yields h hmask (hpatch.gene m) hdelta hdeltaFits).post fun bit hbit => ?_
    rw [hchoice.1] at hbit
    unfold Plain.applyTarget
    cases hq : a && decide (v = Pega.targetId item.2 c.method)
    · rw [hq] at hbit
      exact hbit
    · rw [hq] at hbit
      simpa using hbit
  refine hgenes.bind fun gene hgeneHolds => Yields.pure ⟨?_, hgeneHolds, ?_⟩
  · have hcost : (p.part c).total = c.cost := rfl
    unfold Plain.applyTarget
    cases hq : a && decide (v = Pega.targetId item.2 c.method)
    · simp only [hq, Bool.false_eq_true, if_false] at htotal hlinear hc12 hc3 ⊢
      rw [sub_add_cancel]
      exact ⟨htotal, hc12, hc3, hlinear⟩
    · simp only [hq, if_true] at htotal hlinear hc12 hc3 ⊢
      rw [hpart, sub_add_eq_add_sub, add_sub_assoc]
      exact ⟨htotal, hc12, hc3, hlinear⟩
  · unfold Plain.applyTarget
    cases hq : a && decide (v = Pega.targetId item.2 c.method)
    · simp only [hq, Bool.false_eq_true, if_false] at hrowCost hrowLinear hrowC12 hrowC3 ⊢
      exact ⟨hrowCost, hrowC12, hrowC3, hrowLinear⟩
    · simp only [hq, if_true, add_sub_cancel] at hrowCost hrowLinear hrowC12 hrowC3 ⊢
      rw [hpart]
      exact ⟨hrowCost, hrowC12, hrowC3, hrowLinear⟩

/-- The targets of a row, one after the other. -/
theorem applyRow_yields {selectedId : C} {v : Int} (hselected : D selectedId v)
    (hv : p.IdWithin v) {apply : EncryptedBit C} {a : Bool} (happly : BitHolds D apply a)
    {view : Pega.RowView C × Nat} {item : Plain.RowGene} (hitem : p.Valid item)
    (hview : ViewHolds D p view item) {totals : Totals C} {s : Scalable.Sums}
    (htotals : TotalsHold D totals s) :
    Yields (Kept I drawn)
      ((options view.1.1).foldlM (pega.applyTarget selectedId apply view.2)
        ⟨totals, view.1.2.1, view.1.2.2⟩)
      (fun patch => PatchHolds D p patch item.1.1
        (s - p.geneSums item.1.1 item.1.2 + p.geneSums item.1.1 (Plain.applyRow (v, a) item))
        (Plain.applyRow (v, a) item)) Never := by
  -- The gene after the targets that were applied so far.
  let gene := fun done : List (Choice Int) =>
    done.foldl (Plain.applyTarget v a item.2) item.1.2
  have havailable : ∀ done : List (Choice Int), (∀ c ∈ done, c ∈ options item.1.1) →
      (item.1.1 (gene done)).isSome = true :=
    fun done hdone => Plain.applyTargets_available hitem.available hdone
  refine Yields.foldlM (fun done patch => PatchHolds D p patch item.1.1
    (s - p.geneSums item.1.1 item.1.2 + p.geneSums item.1.1 (gene done)) (gene done))
    (options_rel hview.row) (fun done c rest choice patch hsplit hchoice hpatch => ?_) ?_
  · have hc : c ∈ options item.1.1 := by
      rw [hsplit]
      simp
    have hdone := havailable done fun d hd => by
      rw [hsplit]
      simp [hd]
    rw [hview.number]
    refine (applyTarget_yields h hselected hv happly hitem hchoice hc hdone hpatch).post
      fun patch hpatch => ?_
    have hgene : gene (done ++ [c]) = Plain.applyTarget v a item.2 (gene done) c :=
      List.foldl_append
    rw [add_sub_cancel_right] at hpatch
    rw [hgene]
    exact hpatch
  · change PatchHolds D p _ item.1.1 (s - p.geneSums item.1.1 item.1.2 +
      p.geneSums item.1.1 item.1.2) item.1.2
    rw [sub_add_cancel]
    exact ⟨htotals, hview.gene, hview.totals⟩

/-- Whatever is applied, the sums stay those of the genes. -/
theorem applyTargets_yields {value : Individual C} {x : Scalable.Individual Int}
    (hx : p.Proper x) (hvalue : Holds D value x) (hrows : RowsHold D p value.rows x.genes)
    {selectedId : C} {v : Int} (hselected : D selectedId v) (hv : p.IdWithin v)
    {apply : EncryptedBit C} {a : Bool} (happly : BitHolds D apply a) :
    Yields (Kept I drawn) (pega.applyTargets value selectedId apply)
      (fun value => Holds D value (p.individual (p.applyTargets (v, a) x.genes)) ∧
        RowsHold D p value.rows (p.applyTargets (v, a) x.genes)) Never := by
  let old := fun item : Plain.RowGene => p.geneSums item.1.1 item.1.2
  let new := fun item : Plain.RowGene => p.geneSums item.1.1 (Plain.applyRow (v, a) item)
  have hloop : Yields (Kept I drawn)
      ((pega.rowViews value).foldlM
        (fun (state : Totals C × List (Gene C × Totals C)) view => do
          let patch ← (options view.1.1).foldlM (pega.applyTarget selectedId apply view.2)
            ⟨state.1, view.1.2.1, view.1.2.2⟩
          return (patch.totals, state.2 ++ [(patch.gene, patch.row)])) (value.totals, []))
      (fun state => TotalsHold D state.1 (x.toSums - ((p.rowGenes x.genes).map old).sum +
          ((p.rowGenes x.genes).map new).sum) ∧
        List.Forall₂ (fun entry item => GeneHolds D entry.1 (Plain.applyRow (v, a) item) ∧
          TotalsHold D entry.2 (new item)) state.2 (p.rowGenes x.genes)) Never := by
    refine Yields.foldlM (fun (done : List Plain.RowGene)
        (state : Totals C × List (Gene C × Totals C)) =>
      TotalsHold D state.1 (x.toSums - (done.map old).sum + (done.map new).sum) ∧
        List.Forall₂ (fun entry item => GeneHolds D entry.1 (Plain.applyRow (v, a) item) ∧
          TotalsHold D entry.2 (new item)) state.2 done)
      (rowViews_hold h hx hvalue hrows)
      (fun done item rest view state hsplit hview hstate => ?_) ?_
    · have hitem : p.Valid item :=
        Plain.valid_of_mem hx.available (by rw [hsplit]; simp)
      refine (applyRow_yields h hselected hv happly hitem hview hstate.1).bind
        fun patch hpatch => Yields.pure ⟨?_, ?_⟩
      -- A row takes its old sums out and puts its new ones in.
      · have hsum : x.toSums - ((done ++ [item]).map old).sum + ((done ++ [item]).map new).sum =
            x.toSums - (done.map old).sum + (done.map new).sum - old item + new item := by
          rw [List.map_append, List.map_append, List.sum_append, List.sum_append,
            List.map_singleton, List.map_singleton, List.sum_singleton, List.sum_singleton]
          abel
        rw [hsum]
        exact hpatch.totals
      · exact List.rel_append hstate.2 (.cons ⟨hpatch.gene, hpatch.row⟩ .nil)
    · simpa using hvalue.totals
  refine hloop.bind fun state hstate => Yields.pure ⟨⟨?_, ?_, ?_, ?_⟩, ?_⟩
  · rw [GenesHold, Plain.individual, Plain.applyTargets, List.forall₂_map_left_iff,
      List.forall₂_map_right_iff]
    exact hstate.2.imp fun _ _ hentry => hentry.1
  -- Over all rows the old sums cancel and the new ones are those of the new genes.
  · have hold : ((p.rowGenes x.genes).map old).sum = x.toSums := by
      rw [← hx.sums_eq, sums_eq_zip]
      exact congrArg List.sum (Plain.map_rowGenes x.genes fun item => p.geneSums item.1 item.2)
    have hnew : ((p.rowGenes x.genes).map new).sum = p.sums (p.applyTargets (v, a) x.genes) := by
      rw [sums_eq_zip, Plain.zip_applyTargets hx.available, List.map_map]
      rfl
    have htotals := hstate.1
    rw [hold, hnew, sub_self, zero_add] at htotals
    exact htotals
  · intro bit hbit
    cases hbit
  · intro c hc
    cases hc
  · rw [RowsHold, Plain.zip_applyTargets hx.available, List.forall₂_map_left_iff,
      List.forall₂_map_right_iff]
    exact hstate.2.imp fun _ _ hentry => hentry.2

/-! ## The rounds -/

/-- A round of `repair`. -/
theorem repairRound_yields {value : Individual C} {x : Scalable.Individual Int}
    (hvalue : Repairable D p value x) :
    Yields (Kept I drawn) (pega.repairRound value)
      (fun value => Repairable D p value (p.repairRound x)) Never := by
  refine (feasible_yields h hvalue.proper hvalue.holds).bind fun r hr => ?_
  rcases r with ⟨wasFeasible, value⟩
  rcases hr with ⟨hwasFeasible, hholds, hkept⟩
  have hrows : RowsHold D p value.rows x.genes := by
    have hold := hvalue.rows
    rwa [← hkept] at hold
  refine (findTarget_yields h hvalue.proper hholds hrows hwasFeasible).bind fun target htarget => ?_
  refine (applyTargets_yields h hvalue.proper hholds hrows htarget.1.1 htarget.1.2 htarget.2).post
    fun value hround => ⟨⟨?_, hround.1⟩, hround.2⟩
  exact .ofGenes (Plain.available_applyTargets hvalue.proper.available)

theorem repairRounds_yields (rounds : Nat) {value : Individual C} {x : Scalable.Individual Int}
    (hvalue : Repairable D p value x) :
    Yields (Kept I drawn) (pega.repairRounds rounds value)
      (fun value => Repairable D p value (p.repairRound^[rounds] x)) Never := by
  induction rounds generalizing value x with
  | zero => exact Yields.pure hvalue
  | succ rounds ih =>
      exact (repairRound_yields h hvalue).bind fun value hround => ih hround

theorem rounds_eq : pega.rounds = p.rounds := by
  rw [Pega.rounds, Plain.rounds, h.config, h.costs.length_eq]

/-- `repair` does to an encrypted individual what it does to the plain one. -/
theorem repair_yields {value : Individual C} {x : Scalable.Individual Int}
    (hvalue : Repairable D p value x) :
    Yields (Kept I drawn) (pega.repair value)
      (fun value => Repairable D p value (p.repair x)) Never := by
  rw [Pega.repair, rounds_eq h]
  exact repairRounds_yields h p.rounds hvalue

end Scans

end Optimization
end SociSgx

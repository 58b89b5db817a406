import SociSgx.Lib.BranchBound
import SociSgx.Secure.Ops

/-!
# Assignment — the problem the optimizers solve

A cost matrix has a row per item and up to three methods per row.  An assignment picks one
available method per row; methods 1 and 2 contribute to `C12`, method 3 to `C3`.  This module says
on plain integers what is feasible, what is optimal, and why the bounds of the search are sound.
-/

namespace SociSgx
namespace Optimization

open BranchBound

/-- Method `m` of the source's report is `m + 1`. -/
abbrev Method := Fin 3

-- The numerals of `Method` name this instance in every module.
instance neZero_methods : NeZero 3 :=
  ⟨by decide⟩

/-- A method of a row with its cost. -/
structure Choice (α : Type) where
  method : Method
  cost : α
  deriving DecidableEq, Repr

/-- The costs of a row; a method without a cost is not available. -/
abbrev CostRow (α : Type) := Method → Option α

/-- The available methods, in the order of the source's loops. -/
def options {α : Type} (row : CostRow α) : List (Choice α) :=
  (List.finRange 3).filterMap fun m => (row m).map (Choice.mk m)

/-- The same method, at related costs. -/
def Choice.Rel {α β : Type} (R : α → β → Prop) (c : Choice α) (d : Choice β) : Prop :=
  c.method = d.method ∧ R c.cost d.cost

/-- Rows with the same available methods have the same options. -/
theorem options_rel {α β : Type} {R : α → β → Prop} {row : CostRow α} {row' : CostRow β}
    (h : ∀ m, Option.Rel R (row m) (row' m)) :
    List.Forall₂ (Choice.Rel R) (options row) (options row') := by
  unfold options
  induction List.finRange 3 with
  | nil => exact List.Forall₂.nil
  | cons m ms ih =>
      have hm := h m
      cases hrow : row m with
      | none =>
          rw [hrow] at hm
          cases hrow' : row' m with
          | none => simpa [hrow, hrow'] using ih
          | some x => rw [hrow'] at hm; cases hm
      | some c =>
          rw [hrow] at hm
          cases hrow' : row' m with
          | none => rw [hrow'] at hm; cases hm
          | some x =>
              rw [hrow'] at hm
              cases hm with
              | some hd =>
                  have hhead : Choice.Rel R ⟨m, c⟩ ⟨m, x⟩ := ⟨rfl, hd⟩
                  simpa [hrow, hrow'] using List.Forall₂.cons hhead ih

theorem mem_options {α : Type} {row : CostRow α} {c : Choice α} :
    c ∈ options row ↔ row c.method = some c.cost := by
  simp only [options, List.mem_filterMap, List.mem_finRange, true_and, Option.map_eq_some_iff]
  constructor
  · rintro ⟨m, x, hx, rfl⟩
    exact hx
  · intro h
    exact ⟨c.method, c.cost, h, rfl⟩

/-- The methods of the options increase. -/
theorem options_sorted {α : Type} (row : CostRow α) :
    (options row).Pairwise fun c d => c.method < d.method := by
  unfold options
  rw [List.pairwise_filterMap]
  refine (List.pairwise_lt_finRange 3).imp fun {m k} hmk c hc d hd => ?_
  rcases Option.map_eq_some_iff.1 hc with ⟨_, _, rfl⟩
  rcases Option.map_eq_some_iff.1 hd with ⟨_, _, rfl⟩
  exact hmk

theorem options_ne_nil {α : Type} {row : CostRow α} {m : Method} {x : α} (h : row m = some x) :
    options row ≠ [] := by
  have hmem : (⟨m, x⟩ : Choice α) ∈ options row := mem_options.2 h
  exact List.ne_nil_of_mem hmem

/-! ## Sums -/

def sumOf (f : Choice Int → Int) (path : List (Choice Int)) : Int :=
  (path.map f).sum

@[simp] theorem sumOf_nil (f : Choice Int → Int) : sumOf f [] = 0 := rfl

@[simp] theorem sumOf_cons (f : Choice Int → Int) (c : Choice Int) (path : List (Choice Int)) :
    sumOf f (c :: path) = f c + sumOf f path := by
  simp [sumOf]

@[simp] theorem sumOf_append (f : Choice Int → Int) (path path' : List (Choice Int)) :
    sumOf f (path ++ path') = sumOf f path + sumOf f path' := by
  simp [sumOf]

/-- `total_cost` -/
def total (path : List (Choice Int)) : Int :=
  sumOf Choice.cost path

def c12 (path : List (Choice Int)) : Int :=
  sumOf (fun c => if c.method < 2 then c.cost else 0) path

def c3 (path : List (Choice Int)) : Int :=
  sumOf (fun c => if c.method < 2 then 0 else c.cost) path

/-- The factor of a cost in the linear constraint. -/
def coefficient (scale threshold : Int) (m : Method) : Int :=
  if m < 2 then scale - threshold else -threshold

def contribution (scale threshold : Int) (c : Choice Int) : Int :=
  coefficient scale threshold c.method * c.cost

/-- `linear = (scale - T) * C12 - T * C3`, as the solver accumulates it. -/
def linear (scale threshold : Int) (path : List (Choice Int)) : Int :=
  sumOf (contribution scale threshold) path

theorem total_eq (path : List (Choice Int)) : total path = c12 path + c3 path := by
  induction path with
  | nil => rfl
  | cons c path ih =>
      simp only [total, c12, c3, sumOf_cons] at ih ⊢
      split <;> linarith

theorem linear_eq (scale threshold : Int) (path : List (Choice Int)) :
    linear scale threshold path = (scale - threshold) * c12 path - threshold * c3 path := by
  induction path with
  | nil => simp [linear, c12, c3]
  | cons c path ih =>
      simp only [linear, c12, c3, sumOf_cons, contribution, coefficient] at ih ⊢
      split <;> linarith

/-! ## Feasible and optimal assignments -/

/-- One available method per row. -/
abbrev IsAssignment (rows : List (CostRow Int)) (leaf : List (Choice Int)) : Prop :=
  List.Forall₂ (fun row (c : Choice Int) => row c.method = some c.cost) rows leaf

def Feasible (scale threshold : Int) (leaf : List (Choice Int)) : Prop :=
  0 ≤ linear scale threshold leaf ∧ 0 < c3 leaf

instance (scale threshold : Int) (leaf : List (Choice Int)) :
    Decidable (Feasible scale threshold leaf) :=
  inferInstanceAs (Decidable (_ ∧ _))

/-- `result.solution`: the methods, counted from 0. -/
def methods (leaf : List (Choice Int)) : List Method :=
  leaf.map Choice.method

/-- The pair that the search minimises. -/
def key (leaf : List (Choice Int)) : Int ×ₗ Int :=
  toLex (total leaf, c12 leaf)

/-- A feasible assignment of least cost and then least `C12`; among these the lexicographically
first one. -/
structure IsOptimal (scale threshold : Int) (rows : List (CostRow Int))
    (leaf : List (Choice Int)) : Prop where
  assignment : IsAssignment rows leaf
  feasible : Feasible scale threshold leaf
  least : ∀ other, IsAssignment rows other → Feasible scale threshold other →
    total leaf < total other ∨ (total leaf = total other ∧ c12 leaf ≤ c12 other)
  first : ∀ other, IsAssignment rows other → Feasible scale threshold other →
    total other = total leaf → c12 other = c12 leaf → methods leaf ≤ methods other

/-- The leaves of the search are the assignments. -/
theorem mem_leaves_iff {rows : List (CostRow Int)} {leaf : List (Choice Int)} :
    leaf ∈ leaves options rows [] ↔ IsAssignment rows leaf := by
  rw [mem_leaves]
  constructor
  · rintro ⟨cs, hcs, rfl⟩
    exact hcs.imp fun _ _ hc => mem_options.1 hc
  · intro h
    exact ⟨leaf, h.imp fun _ _ hc => mem_options.2 hc, rfl⟩

/-- The search meets the assignments in lexicographic order. -/
theorem leaves_sorted (rows : List (CostRow Int)) (path : List (Choice Int)) :
    (leaves options rows path).Pairwise fun a b => methods a < methods b := by
  induction rows generalizing path with
  | nil => simp [leaves]
  | cons row rest ih =>
      simp only [leaves]
      rw [List.pairwise_flatMap]
      refine ⟨fun c _ => ih (path ++ [c]), ?_⟩
      refine (options_sorted row).imp fun {c d} hcd a ha b hb => ?_
      rcases mem_leaves.1 ha with ⟨cs, _, rfl⟩
      rcases mem_leaves.1 hb with ⟨ds, _, rfl⟩
      have hlex : methods (c :: cs) < methods (d :: ds) := List.Lex.rel hcd
      simpa [methods] using List.append_left_lt hlex

/-- The first least leaf is the optimal assignment. -/
theorem isOptimal_of_firstLeast {scale threshold : Int} {rows : List (CostRow Int)}
    {leaf : List (Choice Int)}
    (h : FirstLeast (Feasible scale threshold) key (leaves options rows []) leaf) :
    IsOptimal scale threshold rows leaf where
  assignment := mem_leaves_iff.1 h.mem
  feasible := h.holds
  least := by
    intro other hother hfeasible
    have hle := h.least other (mem_leaves_iff.2 hother) hfeasible
    exact (Prod.Lex.toLex_le_toLex).1 hle
  first := by
    intro other hother hfeasible htotal hc12
    rcases h.first with ⟨before, after, hsplit, hbefore⟩
    have hmem := mem_leaves_iff.2 hother
    have hkey : key leaf = key other := by
      unfold key
      rw [htotal, hc12]
    have hsorted := leaves_sorted rows []
    rw [hsplit] at hmem hsorted
    rcases List.mem_append.1 hmem with hin | hin
    · exact absurd hkey (hbefore other hin hfeasible).ne
    · rcases List.mem_cons.1 hin with rfl | hin
      · exact le_rfl
      · have hafter := (List.pairwise_append.1 hsorted).2.1
        exact ((List.pairwise_cons.1 hafter).1 other hin).le

end Optimization
end SociSgx

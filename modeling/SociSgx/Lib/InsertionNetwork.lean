import Mathlib

/-!
# InsertionNetwork — the first elements of a list, by compare and exchange

A number of slots is kept in order.  A new value passes through the slots; at each of them the
smaller value stays and the other one is carried on.  What is left after the last slot opens a new
slot, or it is dropped when there are slots enough.  The slots end up as the beginning of the sorted
list.

The comparison is a function to `Bool`; `Ranks` says that on the values with `P` it compares keys
of a linear order, and that a value is known by its key.
-/

namespace SociSgx
namespace InsertionNetwork

variable {α κ : Type}

section Network

variable (before : α → α → Bool)

/-- A value passes through the slots. -/
def pass : List α → α → List α × α
  | [], carry => ([], carry)
  | old :: slots, carry =>
      let wins := before carry old
      let rest := pass slots (if wins then old else carry)
      ((if wins then carry else old) :: rest.1, rest.2)

def step (capacity : Nat) (slots : List α) (value : α) : List α :=
  let passed := pass before slots value
  if passed.1.length < capacity then passed.1 ++ [passed.2] else passed.1

/-- The slots after all values of a list. -/
def top (capacity : Nat) : List α → List α
  | [] => []
  | first :: values => values.foldl (step before capacity) [first]

variable {before}

/-- Nothing is lost, and nothing is there twice. -/
theorem pass_perm (slots : List α) (carry : α) :
    ((pass before slots carry).1 ++ [(pass before slots carry).2]).Perm (carry :: slots) := by
  induction slots generalizing carry with
  | nil => exact .refl _
  | cons old slots ih =>
      unfold pass
      dsimp only
      rw [List.cons_append]
      cases before carry old
      · exact ((ih carry).cons old).trans (.swap carry old slots)
      · exact (ih old).cons carry

theorem pass_length (slots : List α) (carry : α) :
    (pass before slots carry).1.length = slots.length := by
  have hperm : ((pass before slots carry).1 ++ [_]).Perm (carry :: slots) := pass_perm slots carry
  have hlength := hperm.length_eq
  rw [List.length_append, List.length_singleton, List.length_cons] at hlength
  omega

/-- A step makes no values of its own. -/
theorem mem_step {capacity : Nat} {slots : List α} {value a : α}
    (h : a ∈ step before capacity slots value) : a ∈ value :: slots := by
  have hperm : ((pass before slots value).1 ++ [_]).Perm (value :: slots) := pass_perm slots value
  refine hperm.subset ?_
  unfold step at h
  dsimp only at h
  split at h
  · exact h
  · exact List.mem_append_left _ h

theorem mem_top {capacity : Nat} {l : List α} {a : α} (h : a ∈ top before capacity l) : a ∈ l := by
  cases l with
  | nil => exact h
  | cons first values =>
      have hkept : ∀ a ∈ top before capacity (first :: values), a ∈ first :: values := by
        refine List.foldlRecOn (motive := fun slots => ∀ a ∈ slots, a ∈ first :: values) values _
          (fun a ha => ?_) fun slots hslots value hvalue a ha => ?_
        · rw [List.mem_singleton.1 ha]
          exact List.mem_cons_self
        · rcases List.mem_cons.1 (mem_step ha) with rfl | ha
          · exact List.mem_cons_of_mem _ hvalue
          · exact hslots a ha
      exact hkept a h

/-- A slot stays. -/
theorem top_ne_nil {capacity : Nat} {l : List α} (h : l ≠ []) : top before capacity l ≠ [] := by
  cases l with
  | nil => exact absurd rfl h
  | cons first values =>
      refine List.foldlRecOn (motive := (· ≠ [])) values _ (List.cons_ne_nil _ _) ?_
      intro slots hslots value _
      unfold step
      dsimp only
      split
      · exact List.append_ne_nil_of_right_ne_nil _ (List.cons_ne_nil _ _)
      · refine List.ne_nil_of_length_pos ?_
        rw [pass_length]
        exact List.length_pos_iff.2 hslots

end Network

variable [LinearOrder κ]

/-- The comparison is the one of the keys. -/
structure Ranks (P : α → Prop) (before : α → α → Bool) (key : α → κ) : Prop where
  before_iff : ∀ {a b}, P a → P b → (before a b = true ↔ key a < key b)
  injective : ∀ {a b}, P a → P b → key a = key b → a = b

/-- Sorted by the key. -/
abbrev Ordered (key : α → κ) (l : List α) : Prop :=
  l.Pairwise fun a b => key a ≤ key b

namespace Ranks

variable {P : α → Prop} {before : α → α → Bool} {key : α → κ} (h : Ranks P before key)
include h

theorem before_eq_false_iff {a b : α} (ha : P a) (hb : P b) :
    before a b = false ↔ key b ≤ key a := by
  rw [← Bool.not_eq_true, h.before_iff ha hb, not_lt]

/-- The value that is kept while a list is gone through has the least key. -/
theorem foldl_least {l : List α} : ∀ {a : α}, P a → (∀ b ∈ l, P b) →
    (l.foldl (fun best b => if before b best then b else best) a) ∈ a :: l ∧
      ∀ b ∈ a :: l, key (l.foldl (fun best b => if before b best then b else best) a) ≤ key b := by
  induction l with
  | nil =>
      intro a _ _
      refine ⟨List.mem_cons_self, fun b hb => ?_⟩
      rw [List.mem_singleton.1 hb]
      rfl
  | cons b l ih =>
      intro a ha hl
      have hb : P b := hl b List.mem_cons_self
      have hrest : ∀ c ∈ l, P c := fun c hc => hl c (List.mem_cons_of_mem b hc)
      rw [List.foldl_cons]
      -- The kept value is `b` from here on, or it stays `a`; the other one is not less.
      cases hbefore : before b a with
      | true =>
          rw [if_pos rfl]
          rcases ih hb hrest with ⟨hmem, hleast⟩
          refine ⟨List.mem_cons_of_mem a hmem, fun c hc => ?_⟩
          rcases List.mem_cons.1 hc with rfl | hc
          · exact (hleast b List.mem_cons_self).trans ((h.before_iff hb ha).1 hbefore).le
          · exact hleast c hc
      | false =>
          rw [if_neg Bool.false_ne_true]
          rcases ih ha hrest with ⟨hmem, hleast⟩
          refine ⟨?_, fun c hc => ?_⟩
          · rcases List.mem_cons.1 hmem with heq | hmem
            · rw [heq]
              exact List.mem_cons_self
            · exact List.mem_cons_of_mem a (List.mem_cons_of_mem b hmem)
          · rcases List.mem_cons.1 hc with rfl | hc
            · exact hleast c List.mem_cons_self
            · rcases List.mem_cons.1 hc with rfl | hc
              · exact (hleast a List.mem_cons_self).trans
                  ((h.before_eq_false_iff hb ha).1 hbefore)
              · exact hleast c (List.mem_cons_of_mem a hc)

/-- Two sorted lists with the same values are the same. -/
theorem eq_of_perm {l k : List α} (hperm : l.Perm k) (hP : ∀ a ∈ l, P a) (hl : Ordered key l)
    (hk : Ordered key k) : l = k :=
  hperm.eq_of_pairwise (fun a b ha hb hab hba =>
    h.injective (hP a ha) (hP b (hperm.symm.subset hb)) (le_antisymm hab hba)) hl hk

/-- Insertion sort by the comparison sorts by the key. -/
theorem ordered_insertionSort {l : List α} (hP : ∀ a ∈ l, P a) :
    Ordered key (l.insertionSort fun a b => before b a = false) := by
  have hinsert : ∀ {x : α} {l : List α}, P x → (∀ a ∈ l, P a) → Ordered key l →
      Ordered key (l.orderedInsert (fun a b => before b a = false) x) := by
    intro x l hx hl hordered
    have hmap := List.map_orderedInsert (fun a b => before b a = false) (· ≤ ·) key l x
      (fun a ha => h.before_eq_false_iff hx (hl a ha))
      (fun a ha => h.before_eq_false_iff (hl a ha) hx)
    have hkeys : (l.map key).Pairwise (· ≤ ·) := List.pairwise_map.2 hordered
    have hsorted := hkeys.orderedInsert (key x)
    rw [← hmap] at hsorted
    exact List.pairwise_map.1 hsorted
  induction l with
  | nil => exact .nil
  | cons x l ih =>
      have hl : ∀ a ∈ l, P a := fun a ha => hP a (List.mem_cons_of_mem x ha)
      refine hinsert (hP x List.mem_cons_self) (fun a ha => hl a ?_) (ih hl)
      exact ((List.perm_insertionSort _ l).mem_iff).1 ha

/-- The slots stay sorted, and what is carried out comes after them. -/
theorem ordered_pass {slots : List α} : ∀ {carry : α}, P carry → (∀ a ∈ slots, P a) →
    Ordered key slots →
    Ordered key ((pass before slots carry).1 ++ [(pass before slots carry).2]) := by
  induction slots with
  | nil => exact fun _ _ _ => List.pairwise_singleton _ _
  | cons old slots ih =>
      intro carry hcarry hP hordered
      have hold := hP old List.mem_cons_self
      have hslots : ∀ a ∈ slots, P a := fun a ha => hP a (List.mem_cons_of_mem old ha)
      rcases List.pairwise_cons.1 hordered with ⟨hfirst, hrest⟩
      unfold pass
      dsimp only
      rw [List.cons_append]
      cases hwins : before carry old with
      | true =>
          have hless := ((h.before_iff hcarry hold).1 hwins).le
          refine List.pairwise_cons.2 ⟨fun a ha => ?_, ih hold hslots hrest⟩
          rcases List.mem_cons.1 ((pass_perm slots old).subset ha) with rfl | ha
          · exact hless
          · exact hless.trans (hfirst a ha)
      | false =>
          have hle := (h.before_eq_false_iff hcarry hold).1 hwins
          refine List.pairwise_cons.2 ⟨fun a ha => ?_, ih hcarry hslots hrest⟩
          rcases List.mem_cons.1 ((pass_perm slots carry).subset ha) with rfl | ha
          · exact hle
          · exact hfirst a ha

/-- The slots after the values `done`: the others, `rest`, come after them. -/
structure Slots (key : α → κ) (capacity : Nat) (done slots rest : List α) : Prop where
  perm : (slots ++ rest).Perm done
  ordered : Ordered key slots
  before_rest : ∀ a ∈ slots, ∀ b ∈ rest, key a ≤ key b
  length : slots.length = min capacity done.length

theorem step_slots {capacity : Nat} {done slots rest : List α}
    (hs : Slots key capacity done slots rest) (hP : ∀ a ∈ done, P a) {value : α}
    (hvalue : P value) :
    ∃ rest', Slots key capacity (done ++ [value]) (step before capacity slots value) rest' := by
  have hslots : ∀ a ∈ slots, P a :=
    fun a ha => hP a (hs.perm.subset (List.mem_append_left rest ha))
  have hordered := h.ordered_pass hvalue hslots hs.ordered
  have hperm : ((pass before slots value).1 ++ [_]).Perm (value :: slots) := pass_perm slots value
  have hlength : (pass before slots value).1.length = slots.length := pass_length slots value
  have htotal := hs.perm.length_eq
  rw [List.length_append] at htotal
  have hmin := hs.length
  have hall : ((pass before slots value).1 ++ [(pass before slots value).2] ++ rest).Perm
      (done ++ [value]) :=
    ((hperm.append_right rest).trans (hs.perm.cons value)).trans
      (List.perm_append_singleton value done).symm
  unfold step
  dsimp only
  split
  · -- A slot is free: all values so far are in slots.
    have hnil : rest = [] := List.length_eq_zero_iff.1 (by omega)
    subst hnil
    refine ⟨[], hall, hordered, fun _ _ _ hb => (by cases hb), ?_⟩
    rw [List.length_append, List.length_append, List.length_singleton, List.length_singleton]
    omega
  · refine ⟨(pass before slots value).2 :: rest, ?_, (List.pairwise_append.1 hordered).1, ?_, ?_⟩
    · rwa [List.append_assoc, List.singleton_append] at hall
    · intro a ha b hb
      have hcarried := (List.pairwise_append.1 hordered).2.2 a ha _ (List.mem_singleton_self _)
      rcases List.mem_cons.1 hb with rfl | hb
      · exact hcarried
      -- Either an old slot is carried out, or the value itself is and the slots are the old ones.
      have hout := hperm.subset (List.mem_append_right _ (List.mem_singleton_self _))
      rcases List.mem_cons.1 hout with hvalue | hout
      · rw [hvalue] at hperm
        have hsame := (List.perm_append_singleton value _).symm.trans hperm
        exact hs.before_rest a (hsame.cons_inv.subset ha) b hb
      · exact hcarried.trans (hs.before_rest _ hout b hb)
    · rw [List.length_append, List.length_singleton]
      omega

/-- The slots are the beginning of the sorted list. -/
theorem top_eq {capacity : Nat} (hcapacity : 0 < capacity) {l : List α} (hP : ∀ a ∈ l, P a) :
    top before capacity l = (l.insertionSort fun a b => before b a = false).take capacity := by
  cases l with
  | nil => simp [top]
  | cons first values =>
      have hrun : ∀ (values done slots rest : List α), (∀ a ∈ done ++ values, P a) →
          Slots key capacity done slots rest →
          ∃ rest', Slots key capacity (done ++ values) (values.foldl (step before capacity) slots)
            rest' := by
        intro values
        induction values with
        | nil =>
            intro done slots rest _ hs
            exact ⟨rest, by rwa [List.append_nil]⟩
        | cons value values ih =>
            intro done slots rest hP hs
            rcases h.step_slots hs (fun a ha => hP a (List.mem_append_left _ ha))
              (hP value (by simp)) with ⟨rest', hstep⟩
            have hrest := ih (done ++ [value]) _ rest' (by simpa using hP) hstep
            rwa [List.append_assoc, List.singleton_append] at hrest
      have hstart : Slots key capacity [first] [first] [] :=
        ⟨.refl _, List.pairwise_singleton _ _, fun _ _ _ hb => (by cases hb), by simp; omega⟩
      rcases hrun values [first] [first] [] hP hstart with ⟨rest, hs⟩
      change values.foldl (step before capacity) [first] = _
      generalize values.foldl (step before capacity) [first] = slots at hs
      rw [List.singleton_append] at hs
      -- The slots and the sorted rest are the sorted list.
      have hrestP : ∀ a ∈ rest, P a :=
        fun a ha => hP a (hs.perm.subset (List.mem_append_right slots ha))
      have hsortedRest := List.perm_insertionSort (fun a b => before b a = false) rest
      have hjoined : Ordered key (slots ++ rest.insertionSort fun a b => before b a = false) :=
        List.pairwise_append.2 ⟨hs.ordered, h.ordered_insertionSort hrestP, fun a ha b hb =>
          hs.before_rest a ha b (hsortedRest.subset hb)⟩
      have hperm := ((List.Perm.append_left slots hsortedRest).trans hs.perm).trans
        (List.perm_insertionSort (fun a b => before b a = false) (first :: values)).symm
      have heq := h.eq_of_perm hperm (fun a ha => by
        rcases List.mem_append.1 ha with ha | ha
        · exact hP a (hs.perm.subset (List.mem_append_left _ ha))
        · exact hrestP a (hsortedRest.subset ha)) hjoined (h.ordered_insertionSort hP)
      rw [← heq]
      by_cases hfull : capacity ≤ (first :: values).length
      · have hlength : slots.length = capacity := by rw [hs.length, min_eq_left hfull]
        rw [← hlength, List.take_left]
      · have hlength : slots.length = (first :: values).length := by
          rw [hs.length, min_eq_right (by omega)]
        have hnil : rest = [] := by
          have htotal := hs.perm.length_eq
          rw [List.length_append] at htotal
          exact List.length_eq_zero_iff.1 (by omega)
        subst hnil
        rw [List.insertionSort_nil, List.append_nil, List.take_of_length_le (by omega)]

end Ranks

end InsertionNetwork
end SociSgx

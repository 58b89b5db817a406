import Mathlib

/-!
# Histories — lists of events that have reasons

A system writes down what it does.  `Each P events` says that every event has a reason `P` in the
events before it; a step that appends an event has to give its reason only.  `Since quiet events i`
says that nothing but quiet events came after event number `i`.
-/

namespace SociSgx
namespace Histories

variable {α : Type} {P Q : List α → α → Prop} {events : List α} {a b : α}

/-- Every event has `P` with the events before it. -/
def Each (P : List α → α → Prop) (events : List α) : Prop :=
  ∀ before a after, events = before ++ a :: after → P before a

theorem each_nil (P : List α → α → Prop) : Each P [] := by
  intro before a after h
  cases List.append_eq_nil_iff.1 h.symm |>.2

theorem Each.concat (h : Each P events) (ha : P events a) : Each P (events ++ [a]) := by
  intro before b after hsplit
  rcases List.eq_nil_or_concat after with rfl | ⟨middle, last, rfl⟩
  · rcases List.append_inj' hsplit rfl with ⟨rfl, hlast⟩
    cases hlast
    exact ha
  · have hall : events ++ [a] = (before ++ b :: middle) ++ [last] := by
      simpa [List.append_assoc] using hsplit
    exact h before b middle (List.append_inj' hall rfl).1

theorem Each.imp (h : Each P events) (himp : ∀ before a, P before a → Q before a) :
    Each Q events :=
  fun before a after hsplit => himp before a (h before a after hsplit)

theorem Each.init (h : Each P (events ++ [a])) : Each P events := by
  intro before b after hsplit
  refine h before b (after ++ [a]) ?_
  rw [hsplit, List.append_assoc, List.cons_append]

theorem Each.last (h : Each P (events ++ [a])) : P events a :=
  h events a [] rfl

/-- The reason of the event with a number. -/
theorem Each.at (h : Each P events) {j : Nat} (hj : events[j]? = some a) :
    P (events.take j) a := by
  rcases List.getElem?_eq_some_iff.1 hj with ⟨hlt, rfl⟩
  refine h _ _ (events.drop (j + 1)) ?_
  rw [List.getElem_cons_drop hlt, List.take_append_drop]

section Counts

variable [DecidableEq α]

/-- An event that only happens for the first time happens once. -/
theorem Each.count_le_one (h : Each (fun before a => a = b → b ∉ before) events) :
    events.count b ≤ 1 := by
  induction events using List.reverseRecOn with
  | nil => exact Nat.zero_le 1
  | append_singleton events a ih =>
      have hinit := ih h.init
      rw [List.count_append, List.count_singleton]
      by_cases hab : a = b
      · have hnone : events.count b = 0 := List.count_eq_zero.2 (h.last hab)
        rw [hnone]
        split <;> decide
      · rw [if_neg (by simpa using hab)]
        exact hinit

/-- An event that only happens right behind another one happens no more often. -/
theorem Each.count_le_count {c : α} (hne : b ≠ c)
    (h : Each (fun before a => a = b → before.getLast? = some c) events) :
    events.count b ≤ events.count c := by
  -- An occurrence of `c` at the end of the history is still free.
  suffices hfree : events.count b + (if events.getLast? = some c then 1 else 0) ≤
      events.count c from (Nat.le_add_right ..).trans hfree
  induction events using List.reverseRecOn with
  | nil => exact Nat.le_refl 0
  | append_singleton events a ih =>
      have hinit := ih h.init
      rw [List.getLast?_concat, List.count_append, List.count_append, List.count_singleton,
        List.count_singleton]
      by_cases hab : a = b
      · rw [if_pos (h.last hab)] at hinit
        subst hab
        simp only [beq_self_eq_true, if_true, Option.some.injEq, if_neg hne, Nat.add_zero,
          beq_iff_eq]
        exact hinit
      · have hle : events.count b ≤ events.count c := (Nat.le_add_right ..).trans hinit
        simp only [beq_iff_eq, if_neg hab, Option.some.injEq, Nat.add_zero]
        exact Nat.add_le_add_right hle _

end Counts

/-! ## Quiet events -/

/-- Only quiet events came after event `i`. -/
def Since (quiet : α → Prop) (events : List α) (i : Nat) : Prop :=
  ∀ k a, i < k → events[k]? = some a → quiet a

variable {quiet : α → Prop} {i j : Nat}

theorem since_last (quiet : α → Prop) (events : List α) (a : α) :
    Since quiet (events ++ [a]) events.length := by
  intro k b hk hb
  have hlt := (List.getElem?_eq_some_iff.1 hb).1
  rw [List.length_append, List.length_singleton] at hlt
  omega

theorem Since.concat (h : Since quiet events i) (ha : quiet a) : Since quiet (events ++ [a]) i := by
  intro k b hk hb
  by_cases hlt : k < events.length
  · rw [List.getElem?_append_left hlt] at hb
    exact h k b hk hb
  · rw [List.getElem?_append_right (Nat.le_of_not_lt hlt)] at hb
    cases List.mem_singleton.1 (List.mem_of_getElem? hb)
    exact ha

/-- There is one last event that is not quiet. -/
theorem Since.unique (hi : Since quiet events i) (hj : Since quiet events j)
    (ha : events[i]? = some a) (hb : events[j]? = some b) (hqa : ¬ quiet a) (hqb : ¬ quiet b) :
    i = j := by
  rcases Nat.lt_trichotomy i j with hlt | heq | hlt
  · exact absurd (hi j b hlt hb) hqb
  · exact heq
  · exact absurd (hj i a hlt ha) hqa

end Histories
end SociSgx

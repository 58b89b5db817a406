import SociSgx.Lib.Exec

/-!
# IndexLoop — loops over the indices of vectors

`for (i = 0; i < n; ++i) ys.push_back(f(i))` where the body reads other vectors at `i`.  `Entries`
states what the vector holds at every index, whatever the order in which the loops were run.
-/

namespace SociSgx
namespace Exec

universe u w

variable {ε α : Type u} {ι χ : Type w}

/-- The vector that `for (i = 0; i < n; ++i) push_back(f(i))` builds. -/
def tabulate {γ : Type w} (n : Nat) (f : Nat → γ) : List γ :=
  (List.range n).map f

/-- The same loop with a body that may throw. -/
def tabulateM (n : Nat) (f : Nat → Except ε α) : Except ε (List α) :=
  (List.range n).mapM f

/-- The vector `ys` has `n` members, and the one at index `i` has `P i`. -/
structure Entries {γ : Type w} (n : Nat) (ys : List γ) (P : Nat → γ → Prop) : Prop where
  length : ys.length = n
  entry : ∀ (i : Nat) (h : i < ys.length), P i ys[i]

namespace Entries

variable {γ : Type w} {n : Nat} {ys : List γ} {R R' : Nat → γ → Prop}

theorem getD (h : Entries n ys R) {i : Nat} (hi : i < n) (d : γ) : R i (ys.getD i d) := by
  have hlt : i < ys.length := h.length ▸ hi
  rw [List.getD_eq_getElem _ _ hlt]
  exact h.entry i hlt

theorem imp (h : Entries n ys R) (himp : ∀ i y, i < n → R i y → R' i y) : Entries n ys R' :=
  ⟨h.length, fun i hi => himp i _ (h.length ▸ hi) (h.entry i hi)⟩

theorem mem (h : Entries n ys R) {y : γ} (hy : y ∈ ys) : ∃ i < n, R i y := by
  rcases List.mem_iff_getElem.1 hy with ⟨i, hi, rfl⟩
  exact ⟨i, h.length ▸ hi, h.entry i hi⟩

theorem map {δ : Type*} {f : γ → δ} {S : Nat → δ → Prop} (h : Entries n ys R)
    (hf : ∀ i y, i < n → R i y → S i (f y)) : Entries n (ys.map f) S := by
  refine ⟨by simpa using h.length, fun i hi => ?_⟩
  have hlt : i < ys.length := by simpa using hi
  simpa using hf i _ (h.length ▸ hlt) (h.entry i hlt)

theorem mapIdx {δ : Type*} {f : Nat → γ → δ} {S : Nat → δ → Prop} (h : Entries n ys R)
    (hf : ∀ i y, i < n → R i y → S i (f i y)) : Entries n (ys.mapIdx f) S := by
  refine ⟨by simpa using h.length, fun i hi => ?_⟩
  have hlt : i < ys.length := by simpa using hi
  simpa using hf i _ (h.length ▸ hlt) (h.entry i hlt)

/-- A vector that is read at every index is that vector. -/
theorem eq_of_getD {zs : List γ} {d : γ} (h : Entries n ys fun i y => y = zs.getD i d)
    (hlen : zs.length = n) : ys = zs := by
  refine List.ext_getElem (h.length.trans hlen.symm) fun i hi hi' => ?_
  rw [h.entry i hi, List.getD_eq_getElem _ _ hi']

/-- Two lists agree in length and in every entry. -/
theorem of_forall₂ {xs : List χ} {A : γ → χ → Prop} {d : χ} (h : List.Forall₂ A ys xs) :
    Entries xs.length ys fun i y => A y (xs.getD i d) := by
  rcases List.forall₂_iff_get.1 h with ⟨hlen, hget⟩
  refine ⟨hlen, fun i hi => ?_⟩
  rw [List.getD_eq_getElem _ _ (hlen ▸ hi)]
  exact hget i hi (hlen ▸ hi)

theorem forall₂ {xs : List χ} {A : γ → χ → Prop} {d : χ}
    (h : Entries xs.length ys fun i y => A y (xs.getD i d)) : List.Forall₂ A ys xs := by
  refine List.forall₂_iff_get.2 ⟨h.length, fun i hi hi' => ?_⟩
  have hentry := h.entry i hi
  rwa [List.getD_eq_getElem _ _ hi'] at hentry

end Entries

theorem entries_tabulate {γ : Type w} {n : Nat} {f : Nat → γ} {R : Nat → γ → Prop}
    (h : ∀ i < n, R i (f i)) : Entries n (tabulate n f) R := by
  refine ⟨by simp [tabulate], fun i hi => ?_⟩
  have hlt : i < n := by simpa [tabulate] using hi
  simpa [tabulate] using h i hlt

/-- A loop that appends two members for each index. -/
theorem entries_flatMap_pair {γ : Type w} (n : Nat) (f g : Nat → γ) :
    Entries (2 * n) ((List.range n).flatMap fun i => [f i, g i])
      fun j y => ∀ i, (j = 2 * i → y = f i) ∧ (j = 2 * i + 1 → y = g i) := by
  induction n with
  | zero => exact ⟨rfl, fun i hi => absurd hi (Nat.not_lt_zero i)⟩
  | succ n ih =>
      rw [List.range_succ, List.flatMap_append]
      refine ⟨by simp [ih.length]; omega, fun j hj => ?_⟩
      rw [List.length_append, ih.length] at hj
      rcases Nat.lt_or_ge j (2 * n) with hlt | hge
      · have hlt' : j < ((List.range n).flatMap fun i => [f i, g i]).length := ih.length ▸ hlt
        rw [List.getElem_append_left hlt']
        exact ih.entry j hlt'
      · rw [List.getElem_append_right (ih.length ▸ hge)]
        have hcases : j = 2 * n ∨ j = 2 * n + 1 := by
          simp at hj
          omega
        intro i
        rcases hcases with rfl | rfl
        · refine ⟨fun hi => ?_, fun hi => absurd hi (by omega)⟩
          have hni : n = i := by omega
          have hfirst : 2 * i - i * 2 = 0 := by omega
          simp [hni, hfirst]
        · refine ⟨fun hi => absurd hi (by omega), fun hi => ?_⟩
          have hni : n = i := by omega
          have hsecond : 2 * i + 1 - i * 2 = 1 := by omega
          simp [hni, hsecond]

/-- A loop whose every iteration succeeds. -/
theorem mapM_entries {n : Nat} {xs : List ι} {f : ι → Except ε α} {A : Nat → ι → Prop}
    {R : Nat → α → Prop} (hxs : Entries n xs A)
    (h : ∀ i x, i < n → A i x → ∃ y, f x = .ok y ∧ R i y) :
    ∃ ys, xs.mapM f = .ok ys ∧ Entries n ys R := by
  induction xs generalizing n A R with
  | nil =>
      refine ⟨[], rfl, ⟨hxs.length, fun i hi => absurd hi (Nat.not_lt_zero i)⟩⟩
  | cons x xs ih =>
      have hn : n = xs.length + 1 := by simpa using hxs.length.symm
      -- the rest of the loop, with its indices moved down by one
      have hrest : Entries xs.length xs fun i => A (i + 1) :=
        ⟨rfl, fun i hi => hxs.entry (i + 1) (by simpa using hi)⟩
      rcases h 0 x (by omega) (hxs.entry 0 (by simp)) with ⟨y, hy, hR⟩
      rcases ih (R := fun i => R (i + 1)) hrest
        (fun i x hi hA => h (i + 1) x (by omega) hA) with ⟨ys, hys, hentries⟩
      refine ⟨y :: ys, ?_, ?_⟩
      · rw [List.mapM_cons, hy]
        change (xs.mapM f >>= fun ys => Except.ok (y :: ys)) = _
        rw [hys]
        rfl
      · refine ⟨by simp [hentries.length, hn], fun i hi => ?_⟩
        cases i with
        | zero => exact hR
        | succ i => exact hentries.entry i (by simpa using hi)

theorem tabulateM_entries {n : Nat} {f : Nat → Except ε α} {R : Nat → α → Prop}
    (h : ∀ i < n, ∃ y, f i = .ok y ∧ R i y) :
    ∃ ys, tabulateM n f = .ok ys ∧ Entries n ys R := by
  have hrange : Entries n (List.range n) fun i j => i = j :=
    ⟨by simp, fun i hi => by simp⟩
  refine mapM_entries hrange fun i j hi hij => ?_
  subst hij
  exact h i hi

/-- A loop with an iteration that throws ends with the error of one that does. -/
theorem mapM_error {xs : List ι} {f : ι → Except ε α} (h : ∃ x ∈ xs, ∃ e, f x = .error e) :
    ∃ x ∈ xs, ∃ e, f x = .error e ∧ xs.mapM f = .error e := by
  induction xs with
  | nil =>
      rcases h with ⟨x, hx, -⟩
      cases hx
  | cons first rest ih =>
      cases hfirst : f first with
      | error e =>
          refine ⟨first, List.mem_cons_self, e, hfirst, ?_⟩
          rw [List.mapM_cons, hfirst]
          rfl
      | ok y =>
          rcases h with ⟨x, hx, e, he⟩
          have hrest : x ∈ rest := by
            rcases List.mem_cons.1 hx with rfl | hrest
            · cases hfirst.symm.trans he
            · exact hrest
          rcases ih ⟨x, hrest, e, he⟩ with ⟨x', hx', e', he', hmap⟩
          refine ⟨x', List.mem_cons_of_mem _ hx', e', he', ?_⟩
          rw [List.mapM_cons, hfirst]
          change (rest.mapM f >>= fun ys => Except.ok (y :: ys)) = _
          rw [hmap]
          rfl

end Exec
end SociSgx

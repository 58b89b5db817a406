import SociSgx.Lib.Exec

/-!
# Folds — loops over a list whose steps may fail

A loop returns if its steps do, as long as an invariant of the accumulator holds; two loops over
related lists keep a relation of their accumulators.
-/

namespace SociSgx
namespace Exec

/-- A loop whose steps succeed under an invariant. -/
theorem foldlM_pure {m : Type → Type} [Monad m] [LawfulMonad m] {α β : Type} {f : β → α → m β}
    {g : β → α → β} {I : β → Prop} {l : List α}
    (h : ∀ a ∈ l, ∀ b, I b → f b a = pure (g b a) ∧ I (g b a)) :
    ∀ {b : β}, I b → l.foldlM f b = pure (l.foldl g b) ∧ I (l.foldl g b) := by
  induction l with
  | nil => exact fun hb => ⟨rfl, hb⟩
  | cons a l ih =>
      intro b hb
      rcases h a List.mem_cons_self b hb with ⟨hstep, hI⟩
      rw [List.foldlM_cons, hstep, pure_bind, List.foldl_cons]
      exact ih (fun a' ha' => h a' (List.mem_cons_of_mem _ ha')) hI

section Related

variable {ε α β γ δ : Type} {f : β → α → Except ε β} {g : γ → δ → γ} {R : δ → α → Prop}
  {S : γ → β → Prop}

/-- Two loops over related lists keep a relation of their accumulators. -/
theorem foldlM_related {xs : List δ} {ys : List α} (hxs : List.Forall₂ R xs ys)
    (h : ∀ x ∈ xs, ∀ y c b, R x y → S c b → ∃ b', f b y = .ok b' ∧ S (g c x) b') :
    ∀ {c : γ} {b : β}, S c b → ∃ b', ys.foldlM f b = .ok b' ∧ S (xs.foldl g c) b' := by
  induction hxs with
  | nil => exact fun {c b} hb => ⟨b, rfl, hb⟩
  | @cons x y xs ys hxy _ ih =>
      intro c b hb
      rcases h x List.mem_cons_self y c b hxy hb with ⟨mid, hmid, hS⟩
      rcases ih (fun x' hx' => h x' (List.mem_cons_of_mem _ hx')) hS with ⟨b', hb', hS'⟩
      refine ⟨b', ?_, hS'⟩
      rw [List.foldlM_cons]
      exact bind_eq_ok.2 ⟨mid, hmid, hb'⟩

/-- A loop with a step that always throws does not return. -/
theorem foldlM_throws {ys : List α} {y : α} (hy : y ∈ ys) (h : ∀ b b', f b y ≠ .ok b') (b b' : β) :
    ys.foldlM f b ≠ .ok b' := by
  intro hrun
  rcases List.append_of_mem hy with ⟨before, after, rfl⟩
  rw [List.foldlM_append] at hrun
  rcases bind_eq_ok.1 hrun with ⟨mid, _, hrest⟩
  rw [List.foldlM_cons] at hrest
  rcases bind_eq_ok.1 hrest with ⟨b'', hstep, _⟩
  exact h mid b'' hstep

end Related

theorem forall₂_replicate {α β : Type} {R : α → β → Prop} {a : α} {b : β} (h : R a b) (k : Nat) :
    List.Forall₂ R (List.replicate k a) (List.replicate k b) := by
  induction k with
  | zero => exact List.Forall₂.nil
  | succ k ih => exact List.Forall₂.cons h ih

end Exec
end SociSgx

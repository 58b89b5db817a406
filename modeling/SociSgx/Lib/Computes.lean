import SociSgx.Lib.Exec

/-!
# Computes — a program that does in one state what a function does without

`Computes P F s m x`: run from `s`, the program returns what `x` returns and leaves a state with
`P`, or it throws what `x` throws and leaves one with `F`.  Value and state are one clause, so that
a program is taken apart step by step along the function.
-/

namespace SociSgx
namespace Exec

universe u

variable {ε σ α β γ : Type u}

/-- From `s` the program `m` returns or throws as `x` does. -/
def Computes (P : σ → Prop) (F : σ → Prop) (s : σ) (m : EStateM ε σ α) (x : Except ε α) : Prop :=
  match x with
  | .ok a => ∃ s', m s = .ok a s' ∧ P s'
  | .error e => ∃ s', m s = .error e s' ∧ F s'

variable {P F : σ → Prop} {s s' : σ} {m : EStateM ε σ α} {x : Except ε α}

theorem bind_of_error {f : α → EStateM ε σ β} {e : ε} (h : m s = .error e s') :
    (m >>= f) s = .error e s' := by
  change EStateM.bind m f s = .error e s'
  simp only [EStateM.bind, h]

namespace Computes

theorem returns {a : α} (h : Computes P F s m x) (hx : x = .ok a) :
    ∃ s', m s = .ok a s' ∧ P s' := by
  subst hx
  exact h

theorem throws {e : ε} (h : Computes P F s m x) (hx : x = .error e) :
    ∃ s', m s = .error e s' ∧ F s' := by
  subst hx
  exact h

/-- A step that computes, and the rest on the state that it leaves. -/
theorem bind {Q : σ → Prop} {f : α → EStateM ε σ β} {g : α → Except ε β}
    (hm : Computes Q F s m x)
    (hf : ∀ a s', x = .ok a → Q s' → Computes P F s' (f a) (g a)) :
    Computes P F s (m >>= f) (x >>= g) := by
  cases x with
  | ok a =>
      rcases hm with ⟨s', hrun, hs'⟩
      have hrest := hf a s' rfl hs'
      rw [ok_bind rfl]
      unfold Computes at hrest ⊢
      rw [bind_of_ok hrun]
      exact hrest
  | error e =>
      rcases hm with ⟨s', hrun, hs'⟩
      exact ⟨s', bind_of_error hrun, hs'⟩

/-- A step that has no counterpart. -/
theorem step {f : α → EStateM ε σ β} {y : Except ε β} {a : α} (hm : m s = .ok a s')
    (hf : Computes P F s' (f a) y) : Computes P F s (m >>= f) y := by
  unfold Computes at hf ⊢
  rw [bind_of_ok hm]
  exact hf

theorem lift (hP : P s) (hF : F s) : Computes P F s (Exec.lift x) x := by
  cases x with
  | ok a => exact ⟨s, rfl, hP⟩
  | error e => exact ⟨s, rfl, hF⟩

/-- A stateless step leaves the state as it is. -/
theorem lift_bind {f : α → EStateM ε σ β} {g : α → Except ε β} (hF : F s)
    (hf : ∀ a, x = .ok a → Computes P F s (f a) (g a)) :
    Computes P F s (Exec.lift x >>= f) (x >>= g) := by
  refine (lift (P := fun t => t = s) rfl hF).bind fun a t hx ht => ?_
  subst ht
  exact hf a hx

theorem require_bind {c d : Prop} [Decidable c] [Decidable d] {e : ε} {f : PUnit → EStateM ε σ α}
    {g : PUnit → Except ε α} (h : c ↔ d) (hF : F s) (hf : d → Computes P F s (f ⟨⟩) (g ⟨⟩)) :
    Computes P F s (Exec.require c e >>= f) (ensure d e >>= g) := by
  by_cases hd : d
  · rw [ok_bind (ensure_of hd)]
    exact step (require_of_pos (h.2 hd)) (hf hd)
  · rw [error_bind (ensure_of_not hd)]
    exact ⟨s, require_bind_of_neg fun hc => hd (h.1 hc), hF⟩

end Computes
end Exec
end SociSgx

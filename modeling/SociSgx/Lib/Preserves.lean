import SociSgx.Lib.Exec

/-!
# Preserves — what no step of a program breaks

`Preserves I m`: from a state with `I` the program `m` leaves one with `I`, whether it returns or
throws.  A program built from steps that preserve `I` preserves it, so that an invariant of a
component is an invariant of everything that is written over the component.
-/

namespace SociSgx
namespace Exec

universe u v

variable {ε σ κ α β γ : Type u} {ι : Type v} {I : σ → Prop}

def Preserves (I : σ → Prop) (m : EStateM ε σ α) : Prop :=
  Triple I m (fun _ => I) (fun _ => I)

namespace Preserves

variable {m : EStateM ε σ α} {f : α → EStateM ε σ β}

theorem pure (a : α) : Preserves I (Pure.pure a : EStateM ε σ α) :=
  Triple.pure fun _ hs => hs

theorem throw (e : ε) : Preserves I (MonadExcept.throw e : EStateM ε σ α) :=
  Triple.throw fun _ hs => hs

theorem bind (hm : Preserves I m) (hf : ∀ a, Preserves I (f a)) : Preserves I (m >>= f) :=
  Triple.bind hm hf

theorem map {g : α → β} (hm : Preserves I m) : Preserves I (g <$> m) :=
  Triple.map hm fun _ _ hs => hs

theorem require (c : Prop) [Decidable c] (e : ε) :
    Preserves I (Exec.require c e : EStateM ε σ PUnit) :=
  Triple.require_any fun _ hs => hs

theorem lift (x : Except ε α) : Preserves I (Exec.lift x : EStateM ε σ α) :=
  Triple.lift (fun _ _ _ hs => hs) fun _ _ _ hs => hs

/-- What follows a stateless step may use its value. -/
theorem lift_bind {x : Except ε α} (hf : ∀ a, x = .ok a → Preserves I (f a)) :
    Preserves I (Exec.lift x >>= f) := by
  cases x with
  | ok a => exact hf a rfl
  | error e => exact throw e

/-- What follows may use what a step guarantees. -/
theorem bind_of {R : α → Prop} (hm : Triple I m (fun a s => R a ∧ I s) (fun _ => I))
    (hf : ∀ a, R a → Preserves I (f a)) : Preserves I (m >>= f) :=
  Triple.bind hm fun a => Triple.assuming (hf a)

theorem mapM {g : ι → EStateM ε σ β} (h : ∀ x, Preserves I (g x)) (xs : List ι) :
    Preserves I (xs.mapM g) := by
  induction xs with
  | nil => exact pure []
  | cons x xs ih =>
      rw [List.mapM_cons]
      apply bind (h x)
      intro y
      apply bind ih
      intro ys
      exact pure (y :: ys)

theorem foldlM {g : γ → ι → EStateM ε σ γ} (h : ∀ c x, Preserves I (g c x)) (xs : List ι) :
    ∀ c, Preserves I (xs.foldlM g c) := by
  induction xs with
  | nil => exact fun c => pure c
  | cons x xs ih =>
      intro c
      rw [List.foldlM_cons]
      exact bind (h c x) ih

theorem forM {g : ι → EStateM ε σ PUnit} (xs : List ι) (h : ∀ x ∈ xs, Preserves I (g x)) :
    Preserves I (xs.forM g) := by
  induction xs with
  | nil => exact pure PUnit.unit
  | cons x xs ih =>
      exact bind (h x List.mem_cons_self) fun _ =>
        ih fun y hy => h y (List.mem_cons_of_mem x hy)

/-! ## A program with more state -/

/-- The invariant of one part of a state. -/
abbrev First (I : σ → Prop) (t : σ × κ) : Prop :=
  I t.1

theorem onFst (hm : Preserves I m) : Preserves (First I) (Exec.onFst m : EStateM ε (σ × κ) α) :=
  (Triple.onFst hm fun _ => True).weaken (fun _ ht => ⟨ht, trivial⟩) (fun _ _ ht => ht.1)
    fun _ _ ht => ht.1

theorem update (g : κ → κ) : Preserves (First I) (Exec.update g : EStateM ε (σ × κ) PUnit) :=
  Triple.update fun _ ht => ht

theorem locals_bind {g : κ → EStateM ε (σ × κ) α} (hg : ∀ k, Preserves (First I) (g k)) :
    Preserves (First I) (Exec.locals >>= g) :=
  fun t ht => hg t.2 t ht

theorem withLocals {m : EStateM ε (σ × κ) α} (k : κ) (hm : Preserves (First I) m) :
    Preserves I (Exec.withLocals k m) :=
  Triple.withLocals (hm.pre fun _ ht => ht.1)

end Preserves
end Exec
end SociSgx

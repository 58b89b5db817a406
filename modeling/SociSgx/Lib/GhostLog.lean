import SociSgx.Lib.Exec

/-!
# GhostLog — a program with notes about its steps

A second version of a program writes entries into a log next to the state.  `Erases` says that the
two versions do the same apart from the log, from every state and with every outcome; a triple for
the second version then speaks about values which the state of the first one does not show.
-/

namespace SociSgx
namespace Exec

universe u

variable {ε σ τ κ α β χ ι : Type u}

/-- Run `m` and note what has come out. -/
def noted (entries : α → List χ) (m : EStateM ε σ α) : EStateM ε (σ × List χ) α := do
  let a ← onFst m
  update (· ++ entries a)
  return a

/-- The invariant of a run with notes: all of them have `P`. -/
def Justified (I : σ → Prop) (P : χ → Prop) (t : σ × List χ) : Prop :=
  I t.1 ∧ ∀ entry ∈ t.2, P entry

variable {I : σ → Prop} {P : χ → Prop} {E : ε → σ × List χ → Prop} {R : α → Prop}

/-- A step whose notes follow from its specification. -/
theorem Yields.noted {entries : α → List χ} {m : EStateM ε σ α} (hm : Yields I m R Never)
    (h : ∀ a, R a → ∀ entry ∈ entries a, P entry) :
    Yields (Justified I P) (Exec.noted entries m) R E := by
  refine Yields.bind (Yields.onFst hm fun log => ∀ entry ∈ log, P entry).ofNever fun a ha => ?_
  refine Triple.bind (Q := fun _ t => Justified I P t) (Triple.update fun t ht => ?_) fun _ => ?_
  · refine ⟨ht.1, fun entry hentry => ?_⟩
    rcases List.mem_append.1 hentry with hentry | hentry
    · exact ht.2 entry hentry
    · exact h a ha entry hentry
  · exact Yields.pure ha

theorem Yields.notedOne {entry : α → χ} {m : EStateM ε σ α} (hm : Yields I m R Never)
    (h : ∀ a, R a → P (entry a)) :
    Yields (Justified I P) (Exec.noted (fun a => [entry a]) m) R E :=
  Yields.noted hm fun a ha => List.forall_mem_singleton.2 (h a ha)

/-- A step without a note. -/
theorem Yields.silent {m : EStateM ε σ α} (hm : Yields I m R Never) :
    Yields (Justified I P) (Exec.onFst m) R E :=
  (Yields.onFst hm fun log => ∀ entry ∈ log, P entry).ofNever

/-! ## A state that is only larger -/

/-- The outcome, seen through a projection of the state. -/
def seen (π : τ → σ) : EStateM.Result ε τ α → EStateM.Result ε σ α
  | .ok a t => .ok a (π t)
  | .error e t => .error e (π t)

/-- Through the projection `π` of its state `m'` does what `m` does, in every state. -/
def Erases (π : τ → σ) (m' : EStateM ε τ α) (m : EStateM ε σ α) : Prop :=
  ∀ t, seen π (m' t) = m (π t)

namespace Erases

variable {π : τ → σ} {m' : EStateM ε τ α} {m : EStateM ε σ α}

theorem pure (a : α) : Erases π (Pure.pure a : EStateM ε τ α) (Pure.pure a) :=
  fun _ => rfl

theorem throw (e : ε) :
    Erases π (MonadExcept.throw e : EStateM ε τ α) (MonadExcept.throw e) :=
  fun _ => rfl

theorem bind {f' : α → EStateM ε τ β} {f : α → EStateM ε σ β} (hm : Erases π m' m)
    (hf : ∀ a, Erases π (f' a) (f a)) : Erases π (m' >>= f') (m >>= f) := by
  intro t
  have h := hm t
  change seen π (EStateM.bind m' f' t) = EStateM.bind m f (π t)
  unfold EStateM.bind
  rw [← h]
  cases m' t with
  | ok a t' => exact hf a t'
  | error e t' => rfl

theorem require (c : Prop) [Decidable c] (e : ε) :
    Erases π (Exec.require c e : EStateM ε τ PUnit) (Exec.require c e) := by
  intro t
  by_cases hc : c <;> simp [Exec.require, hc, seen]

/-- An operation of the smaller state. -/
theorem onFst {m : EStateM ε σ α} : Erases Prod.fst (Exec.onFst m : EStateM ε (σ × κ) α) m := by
  intro t
  unfold Exec.onFst
  cases m t.1 <;> rfl

theorem noted {entries : α → List χ} {m : EStateM ε σ α} :
    Erases (Prod.fst : σ × List χ → σ) (Exec.noted entries m) m := by
  have h : Erases (Prod.fst : σ × List χ → σ) (Exec.noted entries m) (m >>= Pure.pure) :=
    onFst.bind fun a t => rfl
  rwa [bind_pure] at h

/-- An operation on the first part of both states. -/
theorem lift (hm : Erases π m' m) :
    Erases (fun w : τ × κ => (π w.1, w.2)) (Exec.onFst m') (Exec.onFst m) := by
  intro w
  have h := hm w.1
  unfold Exec.onFst
  dsimp only
  rw [← h]
  cases m' w.1 <;> rfl

theorem mapM {γ : Type u} {f' : ι → EStateM ε τ γ} {f : ι → EStateM ε σ γ}
    (h : ∀ x, Erases π (f' x) (f x)) (l : List ι) : Erases π (l.mapM f') (l.mapM f) := by
  induction l with
  | nil => exact Erases.pure []
  | cons x l ih =>
      rw [List.mapM_cons, List.mapM_cons]
      exact (h x).bind fun c => ih.bind fun cs => Erases.pure (c :: cs)

/-- What the version with notes yields, the plain one yields. -/
theorem yields {m' : EStateM ε (σ × List χ) α} {E : ε → σ → Prop} (he : Erases Prod.fst m' m)
    (h : Yields (Justified I P) m' R fun e t => E e t.1) : Yields I m R E := by
  intro s hs
  have hrun := h (s, []) ⟨hs, by simp⟩
  have heq : seen Prod.fst (m' (s, [])) = m s := he (s, [])
  rw [← heq]
  cases hm : m' (s, []) with
  | ok a t =>
      rw [hm] at hrun
      exact ⟨hrun.1, hrun.2.1⟩
  | error e t =>
      rw [hm] at hrun
      exact hrun

end Erases

/-! ## A computation without a state -/

/-- From every state with the invariant `m` does what `x` does, up to `A`, and keeps it. -/
def Mirrors {β : Type u} (I : σ → Prop) (A : α → β → Prop) (m : EStateM ε σ α) (x : Except ε β) :
    Prop :=
  Triple I m (fun a s => (∃ b, x = .ok b ∧ A a b) ∧ I s) (fun e s => x = .error e ∧ I s)

namespace Mirrors

variable {β γ δ : Type u} {A : α → β → Prop} {B : γ → δ → Prop} {m : EStateM ε σ α}
  {x : Except ε β}

theorem pure {a : α} {b : β} (h : A a b) :
    Mirrors I A (Pure.pure a : EStateM ε σ α) (.ok b) :=
  Triple.pure fun _ hs => ⟨⟨b, rfl, h⟩, hs⟩

theorem bind {f : α → EStateM ε σ γ} {g : β → Except ε δ} (hm : Mirrors I A m x)
    (hf : ∀ a b, A a b → Mirrors I B (f a) (g b)) : Mirrors I B (m >>= f) (x >>= g) := by
  cases x with
  | ok b =>
      refine (Triple.weaken hm (fun _ hs => hs) (fun _ _ hs => hs) fun e _ hs => ?_).bind
        fun a => ?_
      · cases hs.1
      · refine Triple.assuming fun ha => ?_
        rcases ha with ⟨b', hb', ha⟩
        cases hb'
        exact hf a b ha
  | error e =>
      refine Triple.bind (Q := fun _ _ => False) (hm.weaken (fun _ hs => hs) ?_ ?_) ?_
      · rintro a s ⟨⟨b, hb, _⟩, _⟩
        cases hb
      · rintro e' s ⟨he, hs⟩
        cases he
        exact ⟨rfl, hs⟩
      · exact fun a s hs => hs.elim

/-- A step that has no counterpart. -/
theorem step {f : α → EStateM ε σ γ} {y : Except ε δ} {a : α}
    (hm : Triple I m (fun b s => b = a ∧ I s) Never) (hf : Mirrors I B (f a) y) :
    Mirrors I B (m >>= f) y :=
  Triple.bind hm.ofNever fun b => Triple.assuming fun hb => by
    subst hb
    exact hf

theorem require {c d : Prop} [Decidable c] [Decidable d] {e : ε} (h : c ↔ d) :
    Mirrors I (fun _ _ => c) (Exec.require c e : EStateM ε σ PUnit) (ensure d e) := by
  intro s hs
  by_cases hc : c
  · rw [Exec.require_of_pos hc, ensure_of (h.1 hc)]
    exact ⟨⟨⟨⟩, rfl, hc⟩, hs⟩
  · have hfail : (Exec.require c e : EStateM ε σ PUnit) s = .error e s := if_neg hc
    rw [hfail, ensure_of_not fun hd => hc (h.2 hd)]
    exact ⟨rfl, hs⟩

/-- Either both return or both fail. -/
theorem run (h : Mirrors I A m x) {s : σ} (hs : I s) :
    (∃ a b s', m s = .ok a s' ∧ x = .ok b ∧ A a b ∧ I s') ∨
      ∃ e s', m s = .error e s' ∧ x = .error e ∧ I s' := by
  have hrun := h s hs
  cases hm : m s with
  | ok a s' =>
      rw [hm] at hrun
      rcases hrun with ⟨⟨b, hb, ha⟩, hs'⟩
      exact Or.inl ⟨a, b, s', rfl, hb, ha, hs'⟩
  | error e s' =>
      rw [hm] at hrun
      exact Or.inr ⟨e, s', rfl, hrun.1, hrun.2⟩

end Mirrors

end Exec
end SociSgx

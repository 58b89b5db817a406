import Mathlib

/-!
# Exec — triples for programs with a state and exceptions

A C++ call that may throw is a program in `EStateM ε σ`: the state survives an exception, as the
memory of a process does.  `Triple P m Q E` says that from every state with `P` the program `m`
either returns with `Q` or throws with `E`; with `E := Never` it is total correctness.

`Yields I m R E` is the triple most calls have: the invariant `I` is kept and the value has `R`.
-/

namespace SociSgx
namespace Exec

universe u w

variable {ε σ κ α β : Type u} {ι χ : Type w}

/-- From every state with `P`, `m` returns with `Q` or throws with `E`. -/
def Triple (P : σ → Prop) (m : EStateM ε σ α) (Q : α → σ → Prop) (E : ε → σ → Prop) : Prop :=
  ∀ s, P s →
    match m s with
    | .ok a s' => Q a s'
    | .error e s' => E e s'

/-- The exception postcondition of a program that never throws. -/
def Never : ε → σ → Prop := fun _ _ => False

/-- `m` keeps the invariant `I` and returns a value with `R`. -/
def Yields (I : σ → Prop) (m : EStateM ε σ α) (R : α → Prop) (E : ε → σ → Prop) : Prop :=
  Triple I m (fun a s => R a ∧ I s) E

/-- `if (!c) throw e;` -/
def require (c : Prop) [Decidable c] (e : ε) : EStateM ε σ PUnit :=
  fun s => if c then .ok ⟨⟩ s else .error e s

/-- Straight-line evaluation: a step that returns is followed by the rest. -/
theorem bind_of_ok {m : EStateM ε σ α} {f : α → EStateM ε σ β} {s s' : σ} {a : α}
    (h : m s = .ok a s') : (m >>= f) s = f a s' := by
  change EStateM.bind m f s = f a s'
  simp only [EStateM.bind, h]

theorem require_of_pos {c : Prop} [Decidable c] {e : ε} {s : σ} (h : c) :
    require c e s = .ok ⟨⟩ s :=
  if_pos h

/-- A failed check ends the program where it stands. -/
theorem require_bind_of_neg {c : Prop} [Decidable c] {e : ε} {f : PUnit → EStateM ε σ α} {s : σ}
    (h : ¬ c) : (require c e >>= f) s = .error e s := by
  change EStateM.bind (require c e) f s = .error e s
  simp only [EStateM.bind, require, if_neg h]

variable {P P' I : σ → Prop} {Q Q' : α → σ → Prop} {E E' : ε → σ → Prop} {m : EStateM ε σ α}

namespace Triple

theorem pure {a : α} (h : ∀ s, P s → Q a s) :
    Triple P (Pure.pure a : EStateM ε σ α) Q E := by
  intro s hs
  exact h s hs

theorem throw {e : ε} (h : ∀ s, P s → E e s) :
    Triple P (MonadExcept.throw e : EStateM ε σ α) Q E := by
  intro s hs
  exact h s hs

theorem bind {f : α → EStateM ε σ β} {S : β → σ → Prop}
    (hm : Triple P m Q E) (hf : ∀ a, Triple (Q a) (f a) S E) :
    Triple P (m >>= f) S E := by
  intro s hs
  have h := hm s hs
  change match EStateM.bind m f s with
    | .ok a s' => S a s'
    | .error e s' => E e s'
  unfold EStateM.bind
  cases hr : m s with
  | ok a s' =>
      rw [hr] at h
      exact hf a s' h
  | error e s' =>
      rw [hr] at h
      exact h

theorem weaken (h : Triple P m Q E) (hP : ∀ s, P' s → P s)
    (hQ : ∀ a s, Q a s → Q' a s) (hE : ∀ e s, E e s → E' e s) :
    Triple P' m Q' E' := by
  intro s hs
  have hm := h s (hP s hs)
  cases hr : m s with
  | ok a s' =>
      rw [hr] at hm
      exact hQ a s' hm
  | error e s' =>
      rw [hr] at hm
      exact hE e s' hm

theorem pre (h : Triple P m Q E) (hP : ∀ s, P' s → P s) : Triple P' m Q E :=
  h.weaken hP (fun _ _ hq => hq) (fun _ _ he => he)

theorem post (h : Triple P m Q E) (hQ : ∀ a s, Q a s → Q' a s) : Triple P m Q' E :=
  h.weaken (fun _ hp => hp) hQ (fun _ _ he => he)

theorem ofNever (h : Triple P m Q Never) : Triple P m Q E :=
  h.weaken (fun _ hp => hp) (fun _ _ hq => hq) (fun _ _ he => he.elim)

/-- A hypothesis of the precondition that does not depend on the state. -/
theorem assuming {p : Prop} (h : p → Triple P m Q E) : Triple (fun s => p ∧ P s) m Q E := by
  intro s hs
  exact h hs.1 s hs.2

theorem map {f : α → β} {S : β → σ → Prop} (hm : Triple P m Q E)
    (hf : ∀ a s, Q a s → S (f a) s) : Triple P (f <$> m) S E := by
  rw [map_eq_pure_bind]
  exact hm.bind fun a => Triple.pure (hf a)

theorem modify {f : σ → σ} {R : PUnit → σ → Prop} (h : ∀ s, P s → R ⟨⟩ (f s)) :
    Triple P (modify f : EStateM ε σ PUnit) R E := by
  intro s hs
  exact h s hs

/-- After the state has been read it is known. -/
theorem get_bind {f : σ → EStateM ε σ β} {S : β → σ → Prop}
    (h : ∀ s₀, P s₀ → Triple (fun s => s = s₀) (f s₀) S E) : Triple P (get >>= f) S E := by
  intro s hs
  exact h s hs s rfl

/-- A check that may fail: what follows it may use the condition. -/
theorem require {c : Prop} [Decidable c] {e : ε} (h : ¬ c → ∀ s, P s → E e s) :
    Triple P (Exec.require c e) (fun _ s => c ∧ P s) E := by
  intro s hs
  by_cases hc : c
  · simp only [Exec.require, if_pos hc]
    exact ⟨hc, hs⟩
  · simp only [Exec.require, if_neg hc]
    exact h hc s hs

/-- A check about which nothing is known. -/
theorem require_any {c : Prop} [Decidable c] {e : ε} (h : ∀ s, P s → E e s) :
    Triple P (Exec.require c e) (fun _ => P) E :=
  (require fun _ => h).post fun _ _ hs => hs.2

/-- A check that succeeds. -/
theorem require_of {c : Prop} [Decidable c] {e : ε} (hc : c) :
    Triple P (Exec.require c e) (fun _ => P) E :=
  (require fun hn => absurd hc hn).post fun _ _ hs => hs.2

/-- A loop without an accumulator, over a list whose members are related to other values. -/
theorem forM {f : χ → EStateM ε σ PUnit} {A : χ → ι → Prop} (I : List ι → σ → Prop)
    {l : List χ} {xs : List ι} (hl : List.Forall₂ A l xs)
    (h : ∀ done x rest a, xs = done ++ x :: rest → A a x →
      Triple (I done) (f a) (fun _ => I (done ++ [x])) E) :
    Triple (I []) (l.forM f) (fun _ => I xs) E := by
  suffices hgen : ∀ (l : List χ) (rest done : List ι), List.Forall₂ A l rest →
      xs = done ++ rest → Triple (I done) (l.forM f) (fun _ => I xs) E from hgen l xs [] hl rfl
  intro l rest done hrest
  induction hrest generalizing done with
  | nil =>
      intro hxs
      have hdone : xs = done := by simpa using hxs
      subst hdone
      exact Triple.pure fun _ hs => hs
  | cons ha _ ih =>
      intro hxs
      refine (h done _ _ _ hxs ha).bind fun _ => ?_
      exact ih (done ++ [_]) (by simpa using hxs)

/-- A run returns or throws, and the triple says with what. -/
theorem run (h : Triple P m Q E) {s : σ} (hs : P s) :
    (∃ a s', m s = .ok a s' ∧ Q a s') ∨ (∃ e s', m s = .error e s' ∧ E e s') := by
  have hm := h s hs
  cases hr : m s with
  | ok a s' =>
      rw [hr] at hm
      exact Or.inl ⟨a, s', rfl, hm⟩
  | error e s' =>
      rw [hr] at hm
      exact Or.inr ⟨e, s', rfl, hm⟩

/-- A triple without exceptions gives a returning run. -/
theorem returns (h : Triple P m Q Never) {s : σ} (hs : P s) :
    ∃ a s', m s = .ok a s' ∧ Q a s' := by
  rcases h.run hs with hok | ⟨e, s', _, hnever⟩
  · exact hok
  · exact hnever.elim

end Triple

namespace Yields

variable {R R' : α → Prop}

theorem pure {a : α} (h : R a) : Yields I (Pure.pure a : EStateM ε σ α) R E :=
  Triple.pure fun _ hs => ⟨h, hs⟩

theorem bind {f : α → EStateM ε σ β} {S : β → σ → Prop} (hm : Yields I m R E)
    (hf : ∀ a, R a → Triple I (f a) S E) : Triple I (m >>= f) S E :=
  Triple.bind hm fun a => Triple.assuming (hf a)

theorem post (hm : Yields I m R E) (h : ∀ a, R a → R' a) : Yields I m R' E :=
  Triple.post hm fun a _ ha => ⟨h a ha.1, ha.2⟩

theorem ofNever (hm : Yields I m R Never) : Yields I m R E :=
  Triple.ofNever hm

theorem map {f : α → β} {S : β → Prop} (hm : Yields I m R E) (hf : ∀ a, R a → S (f a)) :
    Yields I (f <$> m) S E :=
  Triple.map hm fun a _ ha => ⟨hf a ha.1, ha.2⟩

/-- A loop over a list whose members are related to other values; the accumulator keeps a relation
to the values already processed. -/
theorem foldlM {γ : Type u} {f : γ → χ → EStateM ε σ γ} {A : χ → ι → Prop}
    (S : List ι → γ → Prop) {l : List χ} {xs : List ι} (hl : List.Forall₂ A l xs)
    (h : ∀ done x rest a b, xs = done ++ x :: rest → A a x → S done b →
      Yields I (f b a) (S (done ++ [x])) E) {b : γ} (hb : S [] b) :
    Yields I (l.foldlM f b) (S xs) E := by
  suffices hgen : ∀ (l : List χ) (rest done : List ι) (b : γ), List.Forall₂ A l rest →
      xs = done ++ rest → S done b → Yields I (l.foldlM f b) (S xs) E from
    hgen l xs [] b hl rfl hb
  intro l rest done b hrest
  induction hrest generalizing done b with
  | nil =>
      intro hxs hdone
      have heq : xs = done := by simpa using hxs
      subst heq
      exact Yields.pure hdone
  | cons ha _ ih =>
      intro hxs hdone
      rw [List.foldlM_cons]
      refine (h done _ _ _ b hxs ha hdone).bind fun b' hb' => ?_
      exact ih (done ++ [_]) b' (by simpa using hxs) hb'

/-- `mapM` relates the results to the values its arguments are related to. -/
theorem mapM {γ : Type u} {f : χ → EStateM ε σ γ} {A : χ → ι → Prop} {S : γ → ι → Prop} :
    ∀ {l : List χ} {xs : List ι}, List.Forall₂ A l xs →
      (∀ a x, a ∈ l → x ∈ xs → A a x → Yields I (f a) (fun c => S c x) E) →
      Yields I (l.mapM f) (fun cs => List.Forall₂ S cs xs) E := by
  intro l xs hl
  induction hl with
  | nil =>
      intro _
      rw [List.mapM_nil]
      exact Yields.pure List.Forall₂.nil
  | cons hax hrest ih =>
      rename_i a x l xs
      intro h
      rw [List.mapM_cons]
      refine (h a x (by simp) (by simp) hax).bind fun c hc => ?_
      have hih := ih fun a x ha hx => h a x (by simp [ha]) (by simp [hx])
      refine hih.bind fun cs hcs => ?_
      exact Yields.pure (List.Forall₂.cons hc hcs)

end Yields

/-! ## A component that holds one part of the state -/

/-- Run a program on the first component of the state. -/
def onFst (m : EStateM ε σ α) : EStateM ε (σ × κ) α := fun t =>
  match m t.1 with
  | .ok a s => .ok a (s, t.2)
  | .error e s => .error e (s, t.2)

theorem Triple.onFst (h : Triple P m Q E) (K : κ → Prop) :
    Triple (fun t : σ × κ => P t.1 ∧ K t.2) (onFst m) (fun a t => Q a t.1 ∧ K t.2)
      (fun e t => E e t.1 ∧ K t.2) := by
  intro t ht
  have hm := h t.1 ht.1
  unfold Exec.onFst
  cases hr : m t.1 with
  | ok a s =>
      rw [hr] at hm
      exact ⟨hm, ht.2⟩
  | error e s =>
      rw [hr] at hm
      exact ⟨hm, ht.2⟩

theorem Yields.onFst {R : α → Prop} (h : Yields I m R Never) (K : κ → Prop) :
    Yields (fun t : σ × κ => I t.1 ∧ K t.2) (Exec.onFst m) R Never := by
  refine (Triple.onFst h K).weaken (fun _ ht => ht) ?_ ?_
  · intro a t ht
    exact ⟨ht.1.1, ht.1.2, ht.2⟩
  · intro e t ht
    exact ht.1.elim

/-- The other part of the state is kept, and the value is one that the program can return. -/
theorem onFst_result (m : EStateM ε σ α) (k : κ) :
    Triple (fun t : σ × κ => t.2 = k) (Exec.onFst m)
      (fun a t => (∃ s s', m s = .ok a s') ∧ t.2 = k) (fun _ t => t.2 = k) := by
  rintro ⟨s, k'⟩ rfl
  unfold Exec.onFst
  cases hr : m s with
  | ok a s' => exact ⟨⟨s, s', hr⟩, rfl⟩
  | error e s' => rfl

/-! ## Local variables -/

/-- Run a program with the local variables `k`; an exception discards them. -/
def withLocals (k : κ) (m : EStateM ε (σ × κ) α) : EStateM ε σ (α × κ) := fun s =>
  match m (s, k) with
  | .ok a t => .ok (a, t.2) t.1
  | .error e t => .error e t.1

/-- Read the local variables. -/
def locals : EStateM ε (σ × κ) κ := fun t => .ok t.2 t

/-- Assign to the local variables. -/
def update (f : κ → κ) : EStateM ε (σ × κ) PUnit := fun t => .ok ⟨⟩ (t.1, f t.2)

theorem Triple.withLocals {k : κ} {m : EStateM ε (σ × κ) α} {S : α → σ × κ → Prop}
    (h : Triple (fun t => P t.1 ∧ t.2 = k) m S (fun e t => E e t.1)) :
    Triple P (Exec.withLocals k m) (fun r s => S r.1 (s, r.2)) E := by
  intro s hs
  have hm := h (s, k) ⟨hs, rfl⟩
  unfold Exec.withLocals
  cases hr : m (s, k) with
  | ok a t =>
      rw [hr] at hm
      exact hm
  | error e t =>
      rw [hr] at hm
      exact hm

/-- After the local variables have been read they are known. -/
theorem Triple.locals_bind {K : κ → Prop} {f : κ → EStateM ε (σ × κ) α}
    {S : α → σ × κ → Prop} {F : ε → σ × κ → Prop}
    (h : ∀ k, K k → Triple (fun t => P t.1 ∧ t.2 = k) (f k) S F) :
    Triple (fun t => P t.1 ∧ K t.2) (Exec.locals >>= f) S F := by
  rintro ⟨s, k⟩ ⟨hs, hk⟩
  exact h k hk (s, k) ⟨hs, rfl⟩

theorem Triple.update {P : σ × κ → Prop} {E : ε → σ × κ → Prop} {f : κ → κ}
    {Q : PUnit → σ × κ → Prop} (h : ∀ t, P t → Q ⟨⟩ (t.1, f t.2)) :
    Triple P (Exec.update f : EStateM ε (σ × κ) PUnit) Q E := by
  intro t ht
  exact h t ht

/-! ## Computations without a state -/

/-- `if (!c) throw e;` where no state is involved. -/
def ensure (c : Prop) [Decidable c] (e : ε) : Except ε PUnit :=
  if c then .ok ⟨⟩ else .error e

/-- Run a stateless computation in a program. -/
def lift (x : Except ε α) : EStateM ε σ α := fun s =>
  match x with
  | .ok a => .ok a s
  | .error e => .error e s

theorem ensure_eq_ok {c : Prop} [Decidable c] {e : ε} {u : PUnit} :
    ensure c e = .ok u ↔ c := by
  by_cases hc : c <;> simp [ensure, hc]

theorem ensure_of {c : Prop} [Decidable c] {e : ε} (h : c) : ensure c e = .ok PUnit.unit :=
  if_pos h

theorem ensure_of_not {c : Prop} [Decidable c] {e : ε} (h : ¬ c) : ensure c e = .error e :=
  if_neg h

theorem bind_eq_ok {x : Except ε α} {f : α → Except ε β} {b : β} :
    (x >>= f) = .ok b ↔ ∃ a, x = .ok a ∧ f a = .ok b := by
  cases x with
  | ok a => simp [Bind.bind, Except.bind]
  | error e => simp [Bind.bind, Except.bind]

theorem ok_bind {x : Except ε α} {f : α → Except ε β} {a : α} (h : x = .ok a) :
    (x >>= f) = f a := by
  subst h
  rfl

theorem error_bind {x : Except ε α} {f : α → Except ε β} {e : ε} (h : x = .error e) :
    (x >>= f) = .error e := by
  subst h
  rfl

/-- A map that succeeds has succeeded on every member. -/
theorem mapM_eq_ok {f : ι → Except ε α} {xs : List ι} {ys : List α}
    (h : xs.mapM f = .ok ys) : List.Forall₂ (fun x y => f x = .ok y) xs ys := by
  induction xs generalizing ys with
  | nil =>
      cases h
      exact List.Forall₂.nil
  | cons x xs ih =>
      rw [List.mapM_cons] at h
      rcases bind_eq_ok.1 h with ⟨y, hy, h⟩
      rcases bind_eq_ok.1 h with ⟨ys', hys, h⟩
      cases h
      exact List.Forall₂.cons hy (ih hys)

theorem mapM_of_forall₂ {f : ι → Except ε α} {xs : List ι} {ys : List α}
    (h : List.Forall₂ (fun x y => f x = .ok y) xs ys) : xs.mapM f = .ok ys := by
  induction h with
  | nil => rfl
  | cons hxy _ ih =>
      rw [List.mapM_cons, ok_bind hxy, ok_bind ih]
      rfl

theorem mapError_eq_ok {x : Except ε α} {f : ε → ε'} {a : α} :
    x.mapError f = .ok a ↔ x = .ok a := by
  cases x <;> simp [Except.mapError]

/-- A check of two conditions is a check of one after the other. -/
theorem ensure_and {c d : Prop} [Decidable c] [Decidable d] {e : ε} :
    (ensure (c ∧ d) e : Except ε PUnit.{u + 1}) =
      (ensure c e : Except ε PUnit.{u + 1}) >>= fun _ => ensure d e := by
  by_cases hc : c
  · rw [ok_bind (ensure_of hc)]
    simp only [ensure, hc, true_and]
  · rw [error_bind (ensure_of_not hc), ensure_of_not fun h => hc h.1]

/-- Every member of the right list has a partner. -/
theorem mem_right_of_forall₂ {R : ι → χ → Prop} {xs : List ι} {ys : List χ}
    (h : List.Forall₂ R xs ys) {y : χ} (hy : y ∈ ys) : ∃ x ∈ xs, R x y := by
  induction h with
  | nil => cases hy
  | @cons x y' xs ys hxy _ ih =>
      rcases List.mem_cons.1 hy with rfl | hy
      · exact ⟨x, by simp, hxy⟩
      · rcases ih hy with ⟨x', hx', hR⟩
        exact ⟨x', List.mem_cons_of_mem _ hx', hR⟩

theorem Triple.lift {x : Except ε α} (hok : ∀ a s, x = .ok a → P s → Q a s)
    (herror : ∀ e s, x = .error e → P s → E e s) : Triple P (Exec.lift x) Q E := by
  intro s hs
  cases hx : x with
  | ok a => exact hok a s hx hs
  | error e => exact herror e s hx hs

/-- A stateless computation that succeeds. -/
theorem Triple.lift_bind {x : Except ε β} {b : β} {f : β → EStateM ε σ α} (hx : x = .ok b)
    (h : Triple P (f b) Q E) : Triple P (Exec.lift x >>= f) Q E := by
  subst hx
  exact h

/-! ## Runs from a known state -/

section At

variable {s : σ} {Q : β → σ → Prop}

theorem Triple.of_each (h : ∀ s, P s → Triple (fun t => t = s) m Q' E) : Triple P m Q' E :=
  fun s hs => h s hs s rfl

theorem get_at {f : σ → EStateM ε σ β} (h : Triple (fun t => t = s) (f s) Q E) :
    Triple (fun t => t = s) (get >>= f) Q E := by
  refine Triple.get_bind fun s₀ hs₀ => ?_
  subst hs₀
  exact h

theorem lift_at {x : Except ε α} {f : α → EStateM ε σ β}
    (hok : ∀ a, x = .ok a → Triple (fun t => t = s) (f a) Q E)
    (herror : ∀ e, x = .error e → E e s) :
    Triple (fun t => t = s) (lift x >>= f) Q E := by
  cases hx : x with
  | ok a => exact hok a hx
  | error e =>
      intro t ht
      subst ht
      exact herror e hx

theorem require_at {c : Prop} [Decidable c] {e : ε} {f : PUnit → EStateM ε σ β}
    (hc : c → Triple (fun t => t = s) (f ⟨⟩) Q E) (herror : ¬ c → E e s) :
    Triple (fun t => t = s) (require c e >>= f) Q E := by
  intro t ht
  subst ht
  by_cases h : c
  · rw [bind_of_ok (require_of_pos h)]
    exact hc h _ rfl
  · rw [require_bind_of_neg h]
    exact herror h

theorem modify_at {g : σ → σ} {f : PUnit → EStateM ε σ β}
    (h : Triple (fun t => t = g s) (f ⟨⟩) Q E) :
    Triple (fun t => t = s) (modify g >>= f) Q E := by
  refine Triple.bind (Q := fun _ t => t = g s) (Triple.modify fun t ht => ?_) fun _ => h
  rw [ht]

theorem set_at {s' : σ} {f : PUnit → EStateM ε σ β} (h : Triple (fun t => t = s') (f ⟨⟩) Q E) :
    Triple (fun t => t = s) (set s' >>= f) Q E :=
  fun _ _ => h s' rfl

theorem pure_at {b : β} (h : Q b s) :
    Triple (fun t => t = s) (Pure.pure b : EStateM ε σ β) Q E := by
  refine Triple.pure fun t ht => ?_
  subst ht
  exact h

theorem throw_at {e : ε} (h : E e s) :
    Triple (fun t => t = s) (MonadExcept.throw e : EStateM ε σ β) Q E := by
  refine Triple.throw fun t ht => ?_
  subst ht
  exact h

end At

end Exec
end SociSgx

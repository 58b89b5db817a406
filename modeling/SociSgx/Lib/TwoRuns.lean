import SociSgx.Lib.Exec

/-!
# TwoRuns — relational triples for two runs of a program

`Twin G P m n Q E` compares a run of `m` with a run of `n`.  From states with `P` they end in the
same way: both return, and then values and states have `Q`, or both throw the same exception, and
then the states have `E`.  Nothing is said when one of them is given up, that is, when it throws an
exception of `G`.  `Lockstep G S m n R` is the twin that most calls have: a relation `S` of the
states is kept and the values have `R`.

The two runs may have different states and different values, so that what the relations leave open
cannot have had an influence on how the runs end.

`Follows S m n R` is the lockstep of two runs that both return.
-/

namespace SociSgx
namespace Exec

universe u w

variable {ε σ τ κ μ α β γ δ : Type u} {ι χ : Type w} {G : ε → Prop}

/-- The run ended in an exception of `G`. -/
def GivenUp (G : ε → Prop) (r : EStateM.Result ε σ α) : Prop :=
  ∃ e s, r = .error e s ∧ G e

instance [DecidablePred G] (r : EStateM.Result ε σ α) : Decidable (GivenUp G r) :=
  match r with
  | .ok _ _ => isFalse fun ⟨_, _, hr, _⟩ => by cases hr
  | .error e s => decidable_of_iff (G e)
      ⟨fun he => ⟨e, s, rfl, he⟩, fun ⟨_, _, hr, he⟩ => by cases hr; exact he⟩

/-- Both runs return, or both throw the same exception, unless one is given up. -/
def Twin (G : ε → Prop) (P : σ → τ → Prop) (m : EStateM ε σ α) (n : EStateM ε τ β)
    (Q : α → β → σ → τ → Prop) (E : σ → τ → Prop) : Prop :=
  ∀ s t, P s t → GivenUp G (m s) ∨ GivenUp G (n t) ∨
    match m s, n t with
    | .ok a s', .ok b t' => Q a b s' t'
    | .error e s', .error e' t' => e = e' ∧ E s' t'
    | _, _ => False

/-- The runs keep `S` and return values with `R`. -/
def Lockstep (G : ε → Prop) (S : σ → τ → Prop) (m : EStateM ε σ α) (n : EStateM ε τ β)
    (R : α → β → Prop) : Prop :=
  Twin G S m n (fun a b s t => R a b ∧ S s t) S

/-- Lists that are paired up stay related. -/
theorem zip_rel {ι' χ' : Type w} {R : ι → ι' → Prop} {T : χ → χ' → Prop} {xs : List ι}
    {xs' : List ι'} {ys : List χ} {ys' : List χ'} (hxs : List.Forall₂ R xs xs')
    (hys : List.Forall₂ T ys ys') :
    List.Forall₂ (fun item item' => R item.1 item'.1 ∧ T item.2 item'.2) (xs.zip ys)
      (xs'.zip ys') := by
  induction hxs generalizing ys ys' with
  | nil => exact List.Forall₂.nil
  | cons hx _ ih =>
      cases hys with
      | nil => exact List.Forall₂.nil
      | cons hy hrest => exact List.Forall₂.cons ⟨hx, hy⟩ (ih hrest)

theorem comp_rel {ι' : Type w} {R : ι → ι' → Prop} {T : ι' → χ → Prop} {xs : List ι}
    {ys : List ι'} {zs : List χ} (hxs : List.Forall₂ R xs ys) (hys : List.Forall₂ T ys zs) :
    List.Forall₂ (fun x z => ∃ y, R x y ∧ T y z) xs zs := by
  induction hxs generalizing zs with
  | nil =>
      cases hys
      exact List.Forall₂.nil
  | cons hx _ ih =>
      cases hys with
      | cons hy hrest => exact List.Forall₂.cons ⟨_, hx, hy⟩ (ih hrest)

theorem set_rel {ι' : Type w} {R : ι → ι' → Prop} {xs : List ι} {xs' : List ι'}
    (h : List.Forall₂ R xs xs') {x : ι} {x' : ι'} (hx : R x x') (i : Nat) :
    List.Forall₂ R (xs.set i x) (xs'.set i x') := by
  induction h generalizing i with
  | nil => exact List.Forall₂.nil
  | cons hhead hrest ih =>
      cases i with
      | zero => exact List.Forall₂.cons hx hrest
      | succ i => exact List.Forall₂.cons hhead (ih i)

variable {P P' S : σ → τ → Prop} {m : EStateM ε σ α} {n : EStateM ε τ β}
  {Q Q' : α → β → σ → τ → Prop} {E E' : σ → τ → Prop} {R R' : α → β → Prop}

theorem GivenUp.bind {f : α → EStateM ε σ γ} {s : σ} (h : GivenUp G (m s)) :
    GivenUp G ((m >>= f) s) := by
  rcases h with ⟨e, s', hm, he⟩
  refine ⟨e, s', ?_, he⟩
  change EStateM.bind m f s = _
  simp only [EStateM.bind, hm]

namespace Twin

/-- The three ways in which two runs can end. -/
theorem run (h : Twin G P m n Q E) {s : σ} {t : τ} (hst : P s t) :
    (GivenUp G (m s) ∨ GivenUp G (n t)) ∨
      (∃ a b s' t', m s = .ok a s' ∧ n t = .ok b t' ∧ Q a b s' t') ∨
      (∃ e s' t', m s = .error e s' ∧ n t = .error e t' ∧ E s' t') := by
  rcases h s t hst with hm | hn | hmn
  · exact Or.inl (Or.inl hm)
  · exact Or.inl (Or.inr hn)
  cases hm : m s with
  | ok a s' =>
      cases hn : n t with
      | ok b t' =>
          rw [hm, hn] at hmn
          exact Or.inr (Or.inl ⟨a, b, s', t', rfl, rfl, hmn⟩)
      | error e t' =>
          rw [hm, hn] at hmn
          exact hmn.elim
  | error e s' =>
      cases hn : n t with
      | ok b t' =>
          rw [hm, hn] at hmn
          exact hmn.elim
      | error e' t' =>
          rw [hm, hn] at hmn
          rcases hmn with ⟨rfl, hE⟩
          exact Or.inr (Or.inr ⟨e, s', t', rfl, rfl, hE⟩)

theorem pure {a : α} {b : β} (h : ∀ s t, P s t → Q a b s t) :
    Twin G P (Pure.pure a : EStateM ε σ α) (Pure.pure b : EStateM ε τ β) Q E := by
  intro s t hst
  exact Or.inr (Or.inr (h s t hst))

theorem throw {e : ε} (h : ∀ s t, P s t → E s t) :
    Twin G P (MonadExcept.throw e : EStateM ε σ α) (MonadExcept.throw e : EStateM ε τ β) Q E := by
  intro s t hst
  exact Or.inr (Or.inr ⟨rfl, h s t hst⟩)

theorem bind {f : α → EStateM ε σ γ} {g : β → EStateM ε τ δ} {T : γ → δ → σ → τ → Prop}
    (h : Twin G P m n Q E) (hf : ∀ a b, Twin G (Q a b) (f a) (g b) T E) :
    Twin G P (m >>= f) (n >>= g) T E := by
  intro s t hst
  rcases h.run hst with (hm | hn) | ⟨a, b, s', t', hm, hn, hQ⟩ | ⟨e, s', t', hm, hn, hE⟩
  · exact Or.inl hm.bind
  · exact Or.inr (Or.inl hn.bind)
  · rw [bind_of_ok hm, bind_of_ok hn]
    exact hf a b s' t' hQ
  · refine Or.inr (Or.inr ?_)
    change match EStateM.bind m f s, EStateM.bind n g t with
      | .ok c s', .ok d t' => T c d s' t'
      | .error e s', .error e' t' => e = e' ∧ E s' t'
      | _, _ => False
    simp only [EStateM.bind, hm, hn]
    exact ⟨trivial, hE⟩

theorem weaken (h : Twin G P m n Q E) (hP : ∀ s t, P' s t → P s t)
    (hQ : ∀ a b s t, Q a b s t → Q' a b s t) (hE : ∀ s t, E s t → E' s t) :
    Twin G P' m n Q' E' := by
  intro s t hst
  rcases h.run (hP s t hst) with (hm | hn) | ⟨a, b, s', t', hm, hn, h'⟩ | ⟨e, s', t', hm, hn, h'⟩
  · exact Or.inl hm
  · exact Or.inr (Or.inl hn)
  · rw [hm, hn]
    exact Or.inr (Or.inr (hQ a b s' t' h'))
  · rw [hm, hn]
    exact Or.inr (Or.inr ⟨rfl, hE s' t' h'⟩)

theorem post (h : Twin G P m n Q E) (hQ : ∀ a b s t, Q a b s t → Q' a b s t) :
    Twin G P m n Q' E :=
  h.weaken (fun _ _ hst => hst) hQ fun _ _ hst => hst

/-- A hypothesis of the precondition that does not depend on the states. -/
theorem assuming {p : Prop} (h : p → Twin G P m n Q E) :
    Twin G (fun s t => p ∧ P s t) m n Q E := by
  intro s t hst
  exact h hst.1 s t hst.2

theorem ofExists {ν : Type w} {P : ν → σ → τ → Prop} (h : ∀ k, Twin G (P k) m n Q E) :
    Twin G (fun s t => ∃ k, P k s t) m n Q E := by
  rintro s t ⟨k, hst⟩
  exact h k s t hst

/-- After the states have been read they are known. -/
theorem get_bind {f : σ → EStateM ε σ α} {g : τ → EStateM ε τ β}
    (h : ∀ s t, P s t → Twin G (fun s' t' => s' = s ∧ t' = t) (f s) (g t) Q E) :
    Twin G P (get >>= f) (get >>= g) Q E := by
  intro s t hst
  exact h s t hst s t ⟨rfl, rfl⟩

theorem modify {f : σ → σ} {g : τ → τ} {Q : PUnit → PUnit → σ → τ → Prop}
    (h : ∀ s t, P s t → Q ⟨⟩ ⟨⟩ (f s) (g t)) :
    Twin G P (modify f : EStateM ε σ PUnit) (modify g : EStateM ε τ PUnit) Q E := by
  intro s t hst
  exact Or.inr (Or.inr (h s t hst))

/-- The first run does something, the second one only returns. -/
theorem pure_right {b : β} (h : ∀ t, Triple (fun s => P s t) m (fun a s => Q a b s t) Never) :
    Twin G P m (Pure.pure b) Q E := by
  intro s t hst
  rcases (h t).returns hst with ⟨a, s', hm, hQ⟩
  rw [hm]
  exact Or.inr (Or.inr hQ)

end Twin

namespace Lockstep

theorem pure {a : α} {b : β} (h : R a b) :
    Lockstep G S (Pure.pure a : EStateM ε σ α) (Pure.pure b : EStateM ε τ β) R :=
  Twin.pure fun _ _ hst => ⟨h, hst⟩

theorem throw {e : ε} :
    Lockstep G S (MonadExcept.throw e : EStateM ε σ α) (MonadExcept.throw e : EStateM ε τ β) R :=
  Twin.throw fun _ _ hst => hst

theorem bind {f : α → EStateM ε σ γ} {g : β → EStateM ε τ δ} {T : γ → δ → σ → τ → Prop}
    (h : Lockstep G S m n R) (hf : ∀ a b, R a b → Twin G S (f a) (g b) T S) :
    Twin G S (m >>= f) (n >>= g) T S :=
  Twin.bind h fun a b => Twin.assuming (hf a b)

theorem post (h : Lockstep G S m n R) (hR : ∀ a b, R a b → R' a b) : Lockstep G S m n R' :=
  Twin.post h fun a b _ _ hab => ⟨hR a b hab.1, hab.2⟩

theorem map {f : α → γ} {g : β → δ} {T : γ → δ → Prop} (h : Lockstep G S m n R)
    (hf : ∀ a b, R a b → T (f a) (g b)) : Lockstep G S (f <$> m) (g <$> n) T := by
  rw [map_eq_pure_bind, map_eq_pure_bind]
  exact h.bind fun a b hab => Lockstep.pure (hf a b hab)

/-- The same check in both runs. -/
theorem require {c c' : Prop} [Decidable c] [Decidable c'] {e : ε} (h : c ↔ c') :
    Lockstep G S (Exec.require c e) (Exec.require c' e) (fun _ _ => c) := by
  intro s t hst
  by_cases hc : c
  · have hc' := h.1 hc
    simp only [Exec.require, if_pos hc, if_pos hc']
    exact Or.inr (Or.inr ⟨hc, hst⟩)
  · have hc' : ¬ c' := fun hn => hc (h.2 hn)
    simp only [Exec.require, if_neg hc, if_neg hc']
    exact Or.inr (Or.inr ⟨trivial, hst⟩)

/-- Checks whose failure gives the run up. -/
theorem require_givenUp {c c' : Prop} [Decidable c] [Decidable c'] {e : ε} (he : G e) :
    Lockstep G S (Exec.require c e) (Exec.require c' e) (fun _ _ => c ∧ c') := by
  intro s t hst
  by_cases hc : c
  · by_cases hc' : c'
    · simp only [Exec.require, if_pos hc, if_pos hc']
      exact Or.inr (Or.inr ⟨⟨hc, hc'⟩, hst⟩)
    · exact Or.inr (Or.inl ⟨e, t, if_neg hc', he⟩)
  · exact Or.inl ⟨e, s, if_neg hc, he⟩

/-- The same stateless computation in both runs. -/
theorem lift {x : Except ε α} : Lockstep G S (Exec.lift x) (Exec.lift x : EStateM ε τ α) Eq := by
  intro s t hst
  cases x with
  | ok a => exact Or.inr (Or.inr ⟨rfl, hst⟩)
  | error e => exact Or.inr (Or.inr ⟨rfl, hst⟩)

/-- A loop in both runs; the accumulators stay related. -/
theorem foldlM {ξ : Type w} {A : χ → ξ → Prop} {f : γ → χ → EStateM ε σ γ}
    {g : δ → ξ → EStateM ε τ δ} {B : γ → δ → Prop} {l : List χ} {k : List ξ}
    (hlk : List.Forall₂ A l k)
    (h : ∀ x y c d, A x y → B c d → Lockstep G S (f c x) (g d y) B) {c : γ} {d : δ}
    (hcd : B c d) : Lockstep G S (l.foldlM f c) (k.foldlM g d) B := by
  induction hlk generalizing c d with
  | nil => exact Lockstep.pure hcd
  | cons hxy _ ih =>
      rw [List.foldlM_cons, List.foldlM_cons]
      exact (h _ _ _ _ hxy hcd).bind fun c' d' hcd' => ih hcd'

theorem mapM {ξ : Type w} {A : χ → ξ → Prop} {f : χ → EStateM ε σ γ} {g : ξ → EStateM ε τ δ}
    {B : γ → δ → Prop} {l : List χ} {k : List ξ} (hlk : List.Forall₂ A l k)
    (h : ∀ x y, A x y → Lockstep G S (f x) (g y) B) :
    Lockstep G S (l.mapM f) (k.mapM g) (List.Forall₂ B) := by
  induction hlk with
  | nil =>
      rw [List.mapM_nil, List.mapM_nil]
      exact Lockstep.pure List.Forall₂.nil
  | cons hxy _ ih =>
      rw [List.mapM_cons, List.mapM_cons]
      refine (h _ _ hxy).bind fun c d hcd => ?_
      exact ih.bind fun cs ds hcds => Lockstep.pure (List.Forall₂.cons hcd hcds)

/-- A loop in both runs that changes the states. -/
theorem forM {ξ : Type w} {A : χ → ξ → Prop} {f : χ → EStateM ε σ PUnit}
    {g : ξ → EStateM ε τ PUnit} {l : List χ} {k : List ξ} (hlk : List.Forall₂ A l k)
    (h : ∀ x y, A x y → Twin G S (f x) (g y) (fun _ _ => S) E) :
    Twin G S (l.forM f) (k.forM g) (fun _ _ => S) E := by
  induction hlk with
  | nil => exact Twin.pure fun _ _ hst => hst
  | cons hxy _ ih => exact Twin.bind (h _ _ hxy) fun _ _ => ih

end Lockstep

/-! ## Parts of the state -/

/-- Both parts of the state are related. -/
def Both (S : σ → τ → Prop) (K : κ → μ → Prop) (s : σ × κ) (t : τ × μ) : Prop :=
  S s.1 t.1 ∧ K s.2 t.2

variable {K : κ → μ → Prop}

theorem GivenUp.onFst {s : σ} {k : κ} (h : GivenUp G (m s)) :
    GivenUp G (Exec.onFst m (s, k)) := by
  rcases h with ⟨e, s', hm, he⟩
  exact ⟨e, (s', k), by simp only [Exec.onFst, hm], he⟩

theorem Twin.onFst (h : Twin G P m n Q E) (K : κ → μ → Prop) :
    Twin G (Both P K) (Exec.onFst m) (Exec.onFst n) (fun a b s t => Q a b s.1 t.1 ∧ K s.2 t.2)
      (Both E K) := by
  rintro ⟨s, k⟩ ⟨t, l⟩ ⟨hst, hkl⟩
  rcases h.run hst with (hm | hn) | ⟨a, b, s', t', hm, hn, h'⟩ | ⟨e, s', t', hm, hn, h'⟩
  · exact Or.inl hm.onFst
  · exact Or.inr (Or.inl hn.onFst)
  · simp only [Exec.onFst, hm, hn]
    exact Or.inr (Or.inr ⟨h', hkl⟩)
  · simp only [Exec.onFst, hm, hn]
    exact Or.inr (Or.inr ⟨trivial, h', hkl⟩)

theorem Lockstep.onFst (h : Lockstep G S m n R) (K : κ → μ → Prop) :
    Lockstep G (Both S K) (Exec.onFst m) (Exec.onFst n) R :=
  (Twin.onFst h K).weaken (fun _ _ hst => hst) (fun _ _ _ _ hst => ⟨hst.1.1, hst.1.2, hst.2⟩)
    fun _ _ hst => hst

theorem Twin.update {P : σ × κ → τ × μ → Prop} {E : σ × κ → τ × μ → Prop} {f : κ → κ} {g : μ → μ}
    {Q : PUnit → PUnit → σ × κ → τ × μ → Prop}
    (h : ∀ s t, P s t → Q ⟨⟩ ⟨⟩ (s.1, f s.2) (t.1, g t.2)) :
    Twin G P (Exec.update f : EStateM ε (σ × κ) PUnit)
      (Exec.update g : EStateM ε (τ × μ) PUnit) Q E := by
  intro s t hst
  exact Or.inr (Or.inr (h s t hst))

theorem Lockstep.update {f : κ → κ} {g : μ → μ} (h : ∀ k l, K k l → K (f k) (g l)) :
    Lockstep G (Both S K) (Exec.update f : EStateM ε (σ × κ) PUnit)
      (Exec.update g : EStateM ε (τ × μ) PUnit) (fun _ _ => True) :=
  Twin.update fun _ _ hst => ⟨trivial, hst.1, h _ _ hst.2⟩

/-- After the local variables have been read they are known. -/
theorem Twin.locals_bind {P : σ → τ → Prop} {f : κ → EStateM ε (σ × κ) α}
    {g : μ → EStateM ε (τ × μ) β} {Q : α → β → σ × κ → τ × μ → Prop}
    {E : σ × κ → τ × μ → Prop}
    (h : ∀ k l, K k l → Twin G (Both P fun k' l' => k' = k ∧ l' = l) (f k) (g l) Q E) :
    Twin G (Both P K) (Exec.locals >>= f) (Exec.locals >>= g) Q E := by
  rintro ⟨s, k⟩ ⟨t, l⟩ ⟨hst, hkl⟩
  exact h k l hkl (s, k) (t, l) ⟨hst, rfl, rfl⟩

theorem Twin.withLocals {k : κ} {l : μ} {m : EStateM ε (σ × κ) α} {n : EStateM ε (τ × μ) β}
    {T : α → β → σ × κ → τ × μ → Prop} {F : σ × κ → τ × μ → Prop}
    (h : Twin G (Both P K) m n T F) (hkl : K k l) (hE : ∀ s t, F s t → E s.1 t.1) :
    Twin G P (Exec.withLocals k m) (Exec.withLocals l n)
      (fun a b s t => T a.1 b.1 (s, a.2) (t, b.2)) E := by
  intro s t hst
  have hstart : Both P K (s, k) (t, l) := ⟨hst, hkl⟩
  rcases h.run hstart with (⟨e, s', hm, he⟩ | ⟨e, t', hn, he⟩) | ⟨a, b, s', t', hm, hn, h'⟩ |
    ⟨e, s', t', hm, hn, h'⟩
  · exact Or.inl ⟨e, s'.1, by simp only [Exec.withLocals, hm], he⟩
  · exact Or.inr (Or.inl ⟨e, t'.1, by simp only [Exec.withLocals, hn], he⟩)
  · simp only [Exec.withLocals, hm, hn]
    exact Or.inr (Or.inr h')
  · simp only [Exec.withLocals, hm, hn]
    exact Or.inr (Or.inr ⟨trivial, hE _ _ h'⟩)

/-! ## Runs that return -/

/-- From states with `P` both runs return, and then values and states have `Q`. -/
def Together (P : σ → τ → Prop) (m : EStateM ε σ α) (n : EStateM ε τ β)
    (Q : α → β → σ → τ → Prop) : Prop :=
  Twin (fun _ => False) P m n Q fun _ _ => False

theorem Together.run (h : Together P m n Q) {s : σ} {t : τ} (hst : P s t) :
    ∃ a b s' t', m s = .ok a s' ∧ n t = .ok b t' ∧ Q a b s' t' := by
  rcases Twin.run h hst with (⟨_, _, _, hnever⟩ | ⟨_, _, _, hnever⟩) |
    ⟨a, b, s', t', hm, hn, hQ⟩ | ⟨_, _, _, _, _, hnever⟩
  · exact hnever.elim
  · exact hnever.elim
  · exact ⟨a, b, s', t', hm, hn, hQ⟩
  · exact hnever.elim

theorem Together.ofRun
    (h : ∀ s t, P s t → ∃ a b s' t', m s = .ok a s' ∧ n t = .ok b t' ∧ Q a b s' t') :
    Together P m n Q := by
  intro s t hst
  rcases h s t hst with ⟨a, b, s', t', hm, hn, hQ⟩
  rw [hm, hn]
  exact Or.inr (Or.inr hQ)

/-- Both runs return; `S` is kept and the values have `R`. -/
def Follows (S : σ → τ → Prop) (m : EStateM ε σ α) (n : EStateM ε τ β) (R : α → β → Prop) :
    Prop :=
  Twin (fun _ => False) S m n (fun a b s t => R a b ∧ S s t) fun _ _ => False

namespace Follows

theorem run (h : Follows S m n R) {s : σ} {t : τ} (hst : S s t) :
    ∃ a b s' t', m s = .ok a s' ∧ n t = .ok b t' ∧ R a b ∧ S s' t' :=
  Together.run h hst

theorem ofRun (h : ∀ s t, S s t → ∃ a b s' t', m s = .ok a s' ∧ n t = .ok b t' ∧ R a b ∧ S s' t') :
    Follows S m n R :=
  Together.ofRun h

theorem pure {a : α} {b : β} (h : R a b) :
    Follows S (Pure.pure a : EStateM ε σ α) (Pure.pure b : EStateM ε τ β) R :=
  Twin.pure fun _ _ hst => ⟨h, hst⟩

theorem bind {f : α → EStateM ε σ γ} {g : β → EStateM ε τ δ} {T : γ → δ → Prop}
    (h : Follows S m n R) (hf : ∀ a b, R a b → Follows S (f a) (g b) T) :
    Follows S (m >>= f) (n >>= g) T :=
  Twin.bind h fun a b => Twin.assuming (hf a b)

/-- A step of the first run that the second one does not have. -/
theorem bind_left {f : α → EStateM ε σ γ} {A : α → Prop} {T : γ → β → Prop}
    (h : ∀ t, Yields (fun s => S s t) m A Never) (hf : ∀ a, A a → Follows S (f a) n T) :
    Follows S (m >>= f) n T := by
  refine ofRun fun s t hst => ?_
  rcases (h t).returns hst with ⟨a, s', hm, ha, hst'⟩
  rw [bind_of_ok hm]
  exact (hf a ha).run hst'

/-- The first run where the second one only returns. -/
theorem left {b : β} (h : ∀ t, Yields (fun s => S s t) m (fun a => R a b) Never) :
    Follows S m (Pure.pure b) R := by
  refine ofRun fun s t hst => ?_
  rcases (h t).returns hst with ⟨a, s', hm, hab, hst'⟩
  exact ⟨a, b, s', t, hm, rfl, hab, hst'⟩

/-- A step of the second run that the first one does not have. -/
theorem bind_right {g : β → EStateM ε τ δ} {B : β → Prop} {T : α → δ → Prop}
    (h : ∀ s, Yields (fun t => S s t) n B Never) (hg : ∀ b, B b → Follows S m (g b) T) :
    Follows S m (n >>= g) T := by
  refine ofRun fun s t hst => ?_
  rcases (h s).returns hst with ⟨b, t', hn, hb, hst'⟩
  rw [bind_of_ok hn]
  exact (hg b hb).run hst'

/-- What is known of the first run alone. -/
theorem also {A : α → Prop} (h : Follows S m n R) (hm : Yields (fun _ => True) m A Never) :
    Follows S m n (fun a b => R a b ∧ A a) := by
  refine ofRun fun s t hst => ?_
  rcases h.run hst with ⟨a, b, s', t', ha, hb, hab, hst'⟩
  rcases hm.returns (s := s) trivial with ⟨a', _, ha', hA, _⟩
  rw [ha] at ha'
  cases ha'
  exact ⟨a, b, s', t', ha, hb, ⟨hab, hA⟩, hst'⟩

/-- What the second run says of the first one. -/
theorem triple (h : Follows S m n R) (t : τ) :
    Triple (fun s => S s t) m (fun a s => ∃ b t', n t = .ok b t' ∧ R a b ∧ S s t') Never := by
  intro s hst
  rcases h.run hst with ⟨a, b, s', t', hm, hn, hab, hst'⟩
  rw [hm]
  exact ⟨b, t', hn, hab, hst'⟩

/-- A loop whose values are related, each one also to the member it comes from. -/
theorem mapM {ξ : Type w} {A : χ → ξ → Prop} {f : χ → EStateM ε σ γ} {g : ξ → EStateM ε τ δ}
    {B : γ → δ → Prop} {K : ξ → δ → Prop} {l : List χ} {k : List ξ} (hlk : List.Forall₂ A l k)
    (h : ∀ x y, y ∈ k → A x y → Follows S (f x) (g y) (fun c d => B c d ∧ K y d)) :
    Follows S (l.mapM f) (k.mapM g)
      (fun cs ds => List.Forall₂ B cs ds ∧ List.Forall₂ K k ds) := by
  induction hlk with
  | nil =>
      rw [List.mapM_nil, List.mapM_nil]
      exact pure ⟨.nil, .nil⟩
  | @cons x y l k hxy _ ih =>
      rw [List.mapM_cons, List.mapM_cons]
      refine (h x y List.mem_cons_self hxy).bind fun c d hcd => ?_
      refine (ih fun x y hy => h x y (List.mem_cons_of_mem _ hy)).bind fun cs ds hcds => ?_
      exact pure ⟨.cons hcd.1 hcds.1, .cons hcd.2 hcds.2⟩

end Follows

end Exec
end SociSgx

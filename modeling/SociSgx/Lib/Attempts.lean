import SociSgx.Lib.Exec

/-!
# Attempts — one program after the other, past their exceptions

`attempts ms` runs every program on the state that the last one has left, whether that one returned
or threw.  `attempts_spec` is the induction over such a run: the state keeps a relation to the
programs that are done, and every outcome is right for its program.
-/

namespace SociSgx
namespace Exec

universe u v

variable {ε σ α : Type u} {ι : Type v}

/-- How a run ends, and the state that it leaves. -/
def attempt (m : EStateM ε σ α) (s : σ) : Except ε α × σ :=
  match m s with
  | .ok a s' => (.ok a, s')
  | .error e s' => (.error e, s')

def attempts : List (EStateM ε σ α) → σ → List (Except ε α) × σ
  | [], s => ([], s)
  | m :: ms, s =>
      let first := attempt m s
      let rest := attempts ms first.2
      (first.1 :: rest.1, rest.2)

/-- An outcome that the programs of a kind may have. -/
def Ends (Q : α → Prop) (E : ε → Prop) : Except ε α → Prop
  | .ok a => Q a
  | .error e => E e

theorem attempt_spec {P : σ → Prop} {Q : α → σ → Prop} {E : ε → σ → Prop} {m : EStateM ε σ α}
    {R : Except ε α → σ → Prop} {s : σ} (h : Triple P m Q E) (hs : P s)
    (hok : ∀ a t, Q a t → R (.ok a) t) (herror : ∀ e t, E e t → R (.error e) t) :
    R (attempt m s).1 (attempt m s).2 := by
  unfold attempt
  rcases h.run hs with ⟨a, t, hrun, hq⟩ | ⟨e, t, hrun, he⟩
  · rw [hrun]
    exact hok a t hq
  · rw [hrun]
    exact herror e t he

theorem attempts_spec (xs : List ι) (program : ι → EStateM ε σ α) (R : ι → Except ε α → Prop)
    (I : List ι → σ → Prop)
    (hstep : ∀ done x rest s, xs = done ++ x :: rest → I done s →
      R x (attempt (program x) s).1 ∧ I (done ++ [x]) (attempt (program x) s).2) {s : σ}
    (hs : I [] s) :
    List.Forall₂ R xs (attempts (xs.map program) s).1 ∧ I xs (attempts (xs.map program) s).2 := by
  suffices hgen : ∀ (rest done : List ι) (s : σ), xs = done ++ rest → I done s →
      List.Forall₂ R rest (attempts (rest.map program) s).1 ∧
        I xs (attempts (rest.map program) s).2 from hgen xs [] s rfl hs
  intro rest
  induction rest with
  | nil =>
      intro done s hxs hI
      have hdone : xs = done := hxs.trans (List.append_nil done)
      subst hdone
      exact ⟨.nil, hI⟩
  | cons x rest ih =>
      intro done s hxs hI
      have hfirst := hstep done x rest s hxs hI
      have hrest := ih (done ++ [x]) _ (by rw [hxs, List.append_assoc]; rfl) hfirst.2
      exact ⟨.cons hfirst.1 hrest.1, hrest.2⟩

end Exec
end SociSgx

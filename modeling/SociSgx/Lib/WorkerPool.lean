import Mathlib

/-!
# WorkerPool — workers that claim indices from a shared counter

`n` tasks are done by some workers.  A worker claims an index by a fetch-and-add on the counter,
does the task, and claims again; it stops when it gets an index from `n` on.  A worker whose task
fails takes a lock, keeps its error if there is none yet, and stores `n` in the counter, whatever
stands there.  Any worker may take the next step at any time.
-/

namespace SociSgx
namespace WorkerPool

variable {α ε δ : Type}

/-- Where a worker stands; from `recording` to `releasing` it holds the lock. -/
inductive Phase (ε : Type) where
  | claiming
  | working (index : Nat)
  | catching (error : ε)
  | recording (error : ε)
  | storing
  | releasing
  | stopped
  deriving DecidableEq, Repr

/-- An atomic step.  `claim` shows the index that the counter gave. -/
inductive Action (δ : Type) where
  | claim (index : Nat)
  | work (index : Nat) (draw : δ)
  | acquire
  | record
  | store
  | release
  deriving DecidableEq, Repr

/-- A worker and what it does. -/
abbrev Move (δ : Type) : Type :=
  Nat × Action δ

structure Pool (α ε : Type) where
  next : Nat := 0
  output : List α
  failure : Option ε := none
  lock : Option Nat := none
  workers : List (Phase ε)
  deriving DecidableEq, Repr

def Pool.moved (s : Pool α ε) (w : Nat) (phase : Phase ε) : Pool α ε :=
  { s with workers := s.workers.set w phase }

section Machine

variable (task : Nat → δ → Except ε α) (n : Nat)

/-- The next step of a worker, if this is one; a worker in front of a lock that is taken waits. -/
def step (s : Pool α ε) (move : Move δ) : Option (Pool α ε) :=
  let w := move.1
  match s.workers[w]?, move.2 with
  | some .claiming, .claim index =>
      -- the counter grows also when there is nothing left to claim
      if index = s.next then
        if s.next < n then
          some { s.moved w (.working s.next) with next := s.next + 1 }
        else
          some { s.moved w .stopped with next := s.next + 1 }
      else
        none
  | some (.working i), .work index draw =>
      if index = i then
        match task i draw with
        | .ok a => some { s.moved w .claiming with output := s.output.set i a }
        | .error e => some (s.moved w (.catching e))
      else
        none
  | some (.catching e), .acquire =>
      if s.lock = none then some { s.moved w (.recording e) with lock := some w } else none
  | some (.recording e), .record =>
      -- only the first failure is kept
      some { s.moved w .storing with failure := s.failure.or (some e) }
  | some .storing, .store => some { s.moved w .releasing with next := n }
  | some .releasing, .release => some { s.moved w .stopped with lock := none }
  | _, _ => none

def run (s : Pool α ε) (moves : List (Move δ)) : Option (Pool α ε) :=
  moves.foldlM (step task n) s

/-- `n` tasks and `k` workers before the first step. -/
def start (k : Nat) (blank : α) : Pool α ε where
  output := List.replicate n blank
  workers := List.replicate k .claiming

/-- Every worker has been joined. -/
def Pool.Finished (s : Pool α ε) : Prop :=
  ∀ phase ∈ s.workers, phase = .stopped

instance [DecidableEq ε] (s : Pool α ε) : Decidable s.Finished :=
  inferInstanceAs (Decidable (∀ phase ∈ s.workers, phase = .stopped))

/-- What the caller gets after all workers have been joined. -/
def Pool.result (s : Pool α ε) : Except ε (List α) :=
  match s.failure with
  | some e => .error e
  | none => .ok s.output

/-- All that a step can do. -/
inductive Step (s : Pool α ε) : Move δ → Pool α ε → Prop where
  | claim {w : Nat} (hw : s.workers[w]? = some .claiming) (hi : s.next < n) :
      Step s (w, .claim s.next) { s.moved w (.working s.next) with next := s.next + 1 }
  | exhausted {w : Nat} (hw : s.workers[w]? = some .claiming) (hi : n ≤ s.next) :
      Step s (w, .claim s.next) { s.moved w .stopped with next := s.next + 1 }
  | finish {w i : Nat} {draw : δ} {a : α} (hw : s.workers[w]? = some (.working i))
      (ha : task i draw = .ok a) :
      Step s (w, .work i draw) { s.moved w .claiming with output := s.output.set i a }
  | fail {w i : Nat} {draw : δ} {e : ε} (hw : s.workers[w]? = some (.working i))
      (he : task i draw = .error e) : Step s (w, .work i draw) (s.moved w (.catching e))
  | acquire {w : Nat} {e : ε} (hw : s.workers[w]? = some (.catching e)) (hlock : s.lock = none) :
      Step s (w, .acquire) { s.moved w (.recording e) with lock := some w }
  | record {w : Nat} {e : ε} (hw : s.workers[w]? = some (.recording e)) :
      Step s (w, .record) { s.moved w .storing with failure := s.failure.or (some e) }
  | store {w : Nat} (hw : s.workers[w]? = some .storing) :
      Step s (w, .store) { s.moved w .releasing with next := n }
  | release {w : Nat} (hw : s.workers[w]? = some .releasing) :
      Step s (w, .release) { s.moved w .stopped with lock := none }

variable {task n} {s s' : Pool α ε}

theorem step_cases {move : Move δ} (h : step task n s move = some s') : Step task n s move s' := by
  rcases move with ⟨w, action⟩
  unfold step at h
  dsimp only at h
  split at h
  · rename_i index hw
    split at h
    · rename_i hindex
      subst hindex
      split at h <;> cases h
      · exact .claim hw ‹_›
      · exact .exhausted hw (Nat.le_of_not_lt ‹_›)
    · cases h
  · rename_i i index draw hw
    split at h
    · rename_i hindex
      subst hindex
      split at h <;> cases h
      · exact .finish hw ‹_›
      · exact .fail hw ‹_›
    · cases h
  · split at h <;> cases h
    exact .acquire ‹_› ‹_›
  · cases h
    exact .record ‹_›
  · cases h
    exact .store ‹_›
  · cases h
    exact .release ‹_›
  · cases h

/-- What holds at the start and is kept by every step holds after every run, with its history. -/
theorem run_induction {I : List (Move δ) → Pool α ε → Prop} (hstart : I [] s)
    (hstep : ∀ {history move t t'}, I history t → Step task n t move t' →
      I (history ++ [move]) t') :
    ∀ {moves : List (Move δ)} {t : Pool α ε}, run task n s moves = some t → I moves t := by
  intro moves
  induction moves using List.reverseRecOn with
  | nil =>
      intro t h
      cases h
      exact hstart
  | append_singleton moves move ih =>
      intro t h
      rw [run, List.foldlM_append] at h
      rcases Option.bind_eq_some_iff.1 h with ⟨mid, hmid, hlast⟩
      rw [List.foldlM_cons] at hlast
      rcases Option.bind_eq_some_iff.1 hlast with ⟨last, hlast, hsame⟩
      cases hsame
      exact hstep (ih hmid) (step_cases hlast)

/-! ## Where the workers stand -/

theorem moved_phase {w : Nat} {p q : Phase ε} (hw : s.workers[w]? = some p) (v : Nat) :
    (s.moved w q).workers[v]? = if v = w then some q else s.workers[v]? := by
  have hlt : w < s.workers.length := (List.getElem?_eq_some_iff.1 hw).1
  change (s.workers.set w q)[v]? = _
  by_cases hv : v = w
  · rw [if_pos hv, hv, List.getElem?_set_self hlt]
  · rw [if_neg hv, List.getElem?_set_ne fun h => hv h.symm]

/-- A sum over the workers. -/
def Pool.total (f : Phase ε → Nat) (s : Pool α ε) : Nat :=
  (s.workers.map f).sum

theorem total_moved (f : Phase ε → Nat) {w : Nat} {p q : Phase ε}
    (hw : s.workers[w]? = some p) : (s.moved w q).total f + f p = s.total f + f q := by
  rcases s with ⟨next, output, failure, lock, workers⟩
  change ((workers.set w q).map f).sum + f p = (workers.map f).sum + f q
  change workers[w]? = some p at hw
  induction workers generalizing w with
  | nil => cases hw
  | cons first rest ih =>
      cases w with
      | zero =>
          cases hw
          rw [List.set_cons_zero, List.map_cons, List.map_cons, List.sum_cons, List.sum_cons]
          omega
      | succ w =>
          have hrest := ih hw
          rw [List.set_cons_succ, List.map_cons, List.map_cons, List.sum_cons, List.sum_cons]
          omega

/-! ## Every run ends -/

/-- An upper bound of the steps of a worker until it claims again or stops. -/
def Phase.weight : Phase ε → Nat
  | .claiming => 1
  | .working _ => 5
  | .catching _ => 4
  | .recording _ => 3
  | .storing => 2
  | .releasing => 1
  | .stopped => 0

/-- What is left to do. -/
def Pool.remaining (n : Nat) (s : Pool α ε) : Nat :=
  5 * (n - s.next) + s.total Phase.weight

theorem remaining_lt {w : Nat} {p q : Phase ε} (hw : s.workers[w]? = some p)
    (hmoved : s'.workers = (s.moved w q).workers)
    (h : 5 * (n - s'.next) + q.weight < 5 * (n - s.next) + p.weight) :
    s'.remaining n < s.remaining n := by
  have htotal := total_moved (q := q) Phase.weight hw
  rw [Pool.total, ← hmoved] at htotal
  change 5 * (n - s'.next) + (s'.workers.map Phase.weight).sum < _
  rw [Pool.remaining]
  omega

theorem Step.decreases {move : Move δ} (h : Step task n s move s') :
    s'.remaining n < s.remaining n := by
  cases h with
  | claim hw hi =>
      refine remaining_lt hw rfl ?_
      change 5 * (n - (s.next + 1)) + 5 < 5 * (n - s.next) + 1
      omega
  | exhausted hw hi =>
      refine remaining_lt hw rfl ?_
      change 5 * (n - (s.next + 1)) + 0 < 5 * (n - s.next) + 1
      omega
  | finish hw ha => exact remaining_lt hw rfl (Nat.add_lt_add_left (by decide : 1 < 5) _)
  | fail hw he => exact remaining_lt hw rfl (Nat.add_lt_add_left (by decide : 4 < 5) _)
  | acquire hw hlock => exact remaining_lt hw rfl (Nat.add_lt_add_left (by decide : 3 < 4) _)
  | record hw => exact remaining_lt hw rfl (Nat.add_lt_add_left (by decide : 2 < 3) _)
  | store hw =>
      refine remaining_lt hw rfl ?_
      change 5 * (n - n) + 1 < 5 * (n - s.next) + 2
      omega
  | release hw => exact remaining_lt hw rfl (Nat.add_lt_add_left (by decide : 0 < 1) _)

/-- No run is longer than this. -/
theorem run_length_le {moves : List (Move δ)} {t : Pool α ε} (h : run task n s moves = some t) :
    moves.length + t.remaining n ≤ s.remaining n := by
  refine run_induction (I := fun history t => history.length + t.remaining n ≤ s.remaining n)
    (by simp) (fun hI hstep => ?_) h
  have hlt := hstep.decreases
  rw [List.length_append, List.length_singleton]
  omega

/-! ## The counter and the claims -/

/-- The indices that were given out, each with its worker. -/
def claims (n : Nat) (history : List (Move δ)) : List (Nat × Nat) :=
  history.filterMap fun move =>
    match move.2 with
    | .claim index => if index < n then some (move.1, index) else none
    | _ => none

@[simp]
theorem claims_nil (n : Nat) : claims n ([] : List (Move δ)) = [] :=
  rfl

theorem claims_claim {n w i : Nat} {history : List (Move δ)} (hi : i < n) :
    claims n (history ++ [(w, .claim i)]) = claims n history ++ [(w, i)] := by
  simp [claims, hi]

theorem claims_other {n : Nat} {history : List (Move δ)} {move : Move δ}
    (h : ∀ i, move.2 = .claim i → n ≤ i) :
    claims n (history ++ [move]) = claims n history := by
  rcases move with ⟨w, action⟩
  cases action with
  | claim i => simp [claims, Nat.not_lt.2 (h i rfl)]
  | work i draw => simp [claims]
  | acquire => simp [claims]
  | record => simp [claims]
  | store => simp [claims]
  | release => simp [claims]

/-- One for a worker that has stopped. -/
def Phase.ended : Phase ε → Nat
  | .stopped => 1
  | _ => 0

/-- A worker that has failed is behind its record. -/
def Phase.Recorded (phase : Phase ε) : Prop :=
  phase = .storing ∨ phase = .releasing

/-- A worker that has left its loop for good. -/
def Phase.Left (phase : Phase ε) : Prop :=
  phase = .releasing ∨ phase = .stopped

/-- The indices are given out in order; some are left out only after a failure. -/
structure Counted (n : Nat) (history : List (Move δ)) (s : Pool α ε) : Prop where
  claimed : (claims n history).map Prod.snd = List.range (claims n history).length
  least : (claims n history).length ≤ n
  next : s.next < n → s.next = (claims n history).length
  small : s.next ≤ n + s.total Phase.ended
  left : ∀ {w : Nat} {phase : Phase ε}, s.workers[w]? = some phase → phase.Left → n ≤ s.next
  skipped : n ≤ s.next → (claims n history).length < n → s.failure.isSome = true
  recorded : ∀ {w : Nat} {phase : Phase ε}, s.workers[w]? = some phase → phase.Recorded →
    s.failure.isSome = true

theorem counted_start (n k : Nat) (blank : α) :
    Counted n ([] : List (Move δ)) (start n k blank : Pool α ε) where
  claimed := rfl
  least := Nat.zero_le n
  next := fun _ => rfl
  small := Nat.zero_le _
  left := by
    intro w phase hw hleft
    rw [List.eq_of_mem_replicate (List.mem_of_getElem? hw)] at hleft
    rcases hleft with h | h <;> cases h
  skipped := by
    intro hn hlt
    exact absurd (lt_of_lt_of_le hlt hn) (Nat.lt_irrefl _)
  recorded := by
    intro w phase hw hrecorded
    rw [List.eq_of_mem_replicate (List.mem_of_getElem? hw)] at hrecorded
    rcases hrecorded with h | h <;> cases h

section Moved

variable {history history' : List (Move δ)} {w : Nat} {p q : Phase ε}

/-- A worker moves on without a new claim. -/
theorem Counted.moved (hc : Counted n history s) (hw : s.workers[w]? = some p)
    (hmoved : s'.workers = (s.moved w q).workers) (hclaims : claims n history' = claims n history)
    (hnext : s'.next = s.next ∨ n ≤ s'.next)
    (hsmall : s'.next ≤ n ∨ s'.next + p.ended ≤ s.next + q.ended)
    (hleft : n ≤ s.next ∨ q.Left → n ≤ s'.next)
    (hfailure : s.failure.isSome = true ∨ q.Recorded → s'.failure.isSome = true)
    (hskipped : n ≤ s'.next → n ≤ s.next ∨ s'.failure.isSome = true) :
    Counted n history' s' := by
  have hphase : ∀ v, s'.workers[v]? = if v = w then some q else s.workers[v]? := by
    rw [hmoved]
    exact moved_phase hw
  have htotal := total_moved (q := q) Phase.ended hw
  have hsmall' := hc.small
  rw [Pool.total, ← hmoved] at htotal
  refine ⟨by rw [hclaims]; exact hc.claimed, by rw [hclaims]; exact hc.least, ?_, ?_, ?_, ?_, ?_⟩
  · intro hlt
    rcases hnext with hnext | hnext
    · rw [hclaims, hnext]
      exact hc.next (hnext ▸ hlt)
    · omega
  · change s'.next ≤ n + (s'.workers.map Phase.ended).sum
    omega
  -- The worker that moved is in its new phase; every other one is where it was.
  · intro v phase hv hphaseLeft
    rw [hphase] at hv
    by_cases hvw : v = w
    · rw [if_pos hvw] at hv
      cases hv
      exact hleft (Or.inr hphaseLeft)
    · rw [if_neg hvw] at hv
      exact hleft (Or.inl (hc.left hv hphaseLeft))
  · intro hn hlt
    rw [hclaims] at hlt
    rcases hskipped hn with hn | hfailed
    · exact hfailure (Or.inl (hc.skipped hn hlt))
    · exact hfailed
  · intro v phase hv hrecorded
    rw [hphase] at hv
    by_cases hvw : v = w
    · rw [if_pos hvw] at hv
      cases hv
      exact hfailure (Or.inr hrecorded)
    · rw [if_neg hvw] at hv
      exact hfailure (Or.inl (hc.recorded hv hrecorded))

/-- A worker gets an index. -/
theorem Counted.claim (hc : Counted n history s) (hw : s.workers[w]? = some .claiming)
    (hi : s.next < n) : Counted n (history ++ [(w, .claim s.next)])
      { s.moved w (.working s.next) with next := s.next + 1 } := by
  have hphase := moved_phase (q := .working s.next) hw
  have hnext := hc.next hi
  refine ⟨?_, ?_, ?_, ?_, ?_, ?_, ?_⟩
  -- The claims so far are the numbers below `s.next`, and `s.next` is claimed now.
  · rw [claims_claim hi, List.map_append, hc.claimed, List.length_append, List.length_singleton,
      List.range_succ, ← hnext]
    rfl
  · rw [claims_claim hi, List.length_append, List.length_singleton]
    omega
  · intro _
    rw [claims_claim hi, List.length_append, List.length_singleton]
    exact congrArg (· + 1) hnext
  · exact le_trans (by change s.next + 1 ≤ n; omega) (Nat.le_add_right ..)
  · intro v phase hv hleft
    change (s.moved w _).workers[v]? = _ at hv
    rw [hphase] at hv
    by_cases hvw : v = w
    · rw [if_pos hvw] at hv
      cases hv
      rcases hleft with h | h <;> cases h
    · rw [if_neg hvw] at hv
      exact le_trans (hc.left hv hleft) (Nat.le_succ _)
  · intro hn hlt
    rw [claims_claim hi, List.length_append, List.length_singleton] at hlt
    change n ≤ s.next + 1 at hn
    omega
  · intro v phase hv hrecorded
    change (s.moved w _).workers[v]? = _ at hv
    rw [hphase] at hv
    by_cases hvw : v = w
    · rw [if_pos hvw] at hv
      cases hv
      rcases hrecorded with h | h <;> cases h
    · rw [if_neg hvw] at hv
      exact hc.recorded hv hrecorded

end Moved

/-- What every step keeps. -/
theorem Step.counted {history : List (Move δ)} {move : Move δ} (h : Step task n s move s')
    (hc : Counted n history s) : Counted n (history ++ [move]) s' := by
  have hnone {p : Phase ε} (hp : ¬ p.Left) {c : Prop} : c ∨ p.Left → c :=
    fun h => h.elim id fun h => absurd h hp
  have hkept {p : Phase ε} (hp : ¬ p.Recorded) {c : Prop} : c ∨ p.Recorded → c :=
    fun h => h.elim id fun h => absurd h hp
  cases h with
  | claim hw hi => exact hc.claim hw hi
  | exhausted hw hi =>
      refine hc.moved hw rfl (claims_other ?_) (Or.inr (Nat.le_succ_of_le hi)) (Or.inr (le_refl _))
        (fun _ => Nat.le_succ_of_le hi) (hkept (by rintro (h | h) <;> cases h)) fun _ => Or.inl hi
      rintro i ⟨⟩
      exact hi
  | finish hw ha =>
      exact hc.moved hw rfl (claims_other (by rintro i ⟨⟩)) (Or.inl rfl) (Or.inr (le_refl _))
        (hnone (by rintro (h | h) <;> cases h)) (hkept (by rintro (h | h) <;> cases h)) Or.inl
  | fail hw he =>
      exact hc.moved hw rfl (claims_other (by rintro i ⟨⟩)) (Or.inl rfl) (Or.inr (le_refl _))
        (hnone (by rintro (h | h) <;> cases h)) (hkept (by rintro (h | h) <;> cases h)) Or.inl
  | acquire hw hlock =>
      exact hc.moved hw rfl (claims_other (by rintro i ⟨⟩)) (Or.inl rfl) (Or.inr (le_refl _))
        (hnone (by rintro (h | h) <;> cases h)) (hkept (by rintro (h | h) <;> cases h)) Or.inl
  | @record w e hw =>
      have hfailed : (s.failure.or (some e)).isSome = true := by
        cases s.failure <;> rfl
      exact hc.moved hw rfl (claims_other (by rintro i ⟨⟩)) (Or.inl rfl) (Or.inr (le_refl _))
        (hnone (by rintro (h | h) <;> cases h)) (fun _ => hfailed) Or.inl
  -- The counter goes up to `n` here, by a failure that was recorded before.
  | store hw =>
      have hfailed := hc.recorded hw (Or.inl rfl)
      exact hc.moved hw rfl (claims_other (by rintro i ⟨⟩)) (Or.inr (le_refl n))
        (Or.inl (le_refl n)) (fun _ => le_refl n) (fun _ => hfailed) fun _ => Or.inr hfailed
  | release hw =>
      have hleft := hc.left hw (Or.inl rfl)
      exact hc.moved hw rfl (claims_other (by rintro i ⟨⟩)) (Or.inl rfl)
        (Or.inr (Nat.le_succ _)) (fun _ => hleft) (hkept (by rintro (h | h) <;> cases h)) Or.inl

/-! ## The lock -/

def Phase.Holds (phase : Phase ε) : Prop :=
  (∃ e, phase = .recording e) ∨ phase = .storing ∨ phase = .releasing

/-- Who has the lock is not waiting for it. -/
structure Locked (k : Nat) (s : Pool α ε) : Prop where
  size : s.workers.length = k
  holder : ∀ {w : Nat}, s.lock = some w → ∃ phase, s.workers[w]? = some phase ∧ phase.Holds

theorem locked_start (n k : Nat) (blank : α) : Locked k (start n k blank : Pool α ε) where
  size := List.length_replicate
  holder := by
    intro w hw
    cases hw

theorem Locked.moved {k w : Nat} {p q : Phase ε} (hl : Locked k s)
    (hw : s.workers[w]? = some p) (hmoved : s'.workers = (s.moved w q).workers)
    (hlock : ∀ {v : Nat}, s'.lock = some v → v ≠ w → s.lock = some v)
    (hself : s'.lock = some w → (s.lock = some w → p.Holds) → q.Holds) : Locked k s' := by
  have hphase : ∀ v, s'.workers[v]? = if v = w then some q else s.workers[v]? := by
    rw [hmoved]
    exact moved_phase hw
  refine ⟨by rw [hmoved]; exact List.length_set.trans hl.size, fun {v} hv => ?_⟩
  rw [hphase]
  by_cases hvw : v = w
  · subst hvw
    rw [if_pos rfl]
    refine ⟨q, rfl, hself hv fun hbefore => ?_⟩
    rcases hl.holder hbefore with ⟨phase, hphase', hholds⟩
    cases hw.symm.trans hphase'
    exact hholds
  · rw [if_neg hvw]
    exact hl.holder (hlock hv hvw)

theorem Step.locked {k : Nat} {move : Move δ} (h : Step task n s move s') (hl : Locked k s) :
    Locked k s' := by
  cases h with
  | claim hw hi =>
      refine hl.moved hw rfl (fun hv _ => hv) fun hsame hholds => ?_
      rcases hholds hsame with ⟨e, h⟩ | h | h <;> cases h
  | exhausted hw hi =>
      refine hl.moved hw rfl (fun hv _ => hv) fun hsame hholds => ?_
      rcases hholds hsame with ⟨e, h⟩ | h | h <;> cases h
  | finish hw ha =>
      refine hl.moved hw rfl (fun hv _ => hv) fun hsame hholds => ?_
      rcases hholds hsame with ⟨e, h⟩ | h | h <;> cases h
  | fail hw he =>
      refine hl.moved hw rfl (fun hv _ => hv) fun hsame hholds => ?_
      rcases hholds hsame with ⟨e, h⟩ | h | h <;> cases h
  | acquire hw hlock =>
      refine hl.moved hw rfl (fun hv hne => ?_) fun _ _ => Or.inl ⟨_, rfl⟩
      cases hv
      exact absurd rfl hne
  | record hw => exact hl.moved hw rfl (fun hv _ => hv) fun _ _ => Or.inr (Or.inl rfl)
  | store hw => exact hl.moved hw rfl (fun hv _ => hv) fun _ _ => Or.inr (Or.inr rfl)
  | release hw =>
      refine hl.moved hw rfl (fun hv _ => ?_) fun hv _ => ?_
      · cases hv
      · cases hv

/-- As long as a worker has not stopped, some worker can take a step. -/
theorem Locked.progress {k : Nat} (hl : Locked k s) (hrunning : ¬ s.Finished) (draw : δ) :
    ∃ move t, step task n s move = some t := by
  suffices hsome : ∃ move, (step task n s move).isSome = true by
    rcases hsome with ⟨move, hmove⟩
    exact ⟨move, Option.isSome_iff_exists.1 hmove⟩
  -- Whoever has the lock goes on, and if nobody has it nobody waits.
  cases hlock : s.lock with
  | some w =>
      rcases hl.holder hlock with ⟨phase, hw, ⟨e, rfl⟩ | rfl | rfl⟩
      · exact ⟨(w, .record), by simp only [step, hw, Option.isSome_some]⟩
      · exact ⟨(w, .store), by simp only [step, hw, Option.isSome_some]⟩
      · exact ⟨(w, .release), by simp only [step, hw, Option.isSome_some]⟩
  | none =>
      rw [Pool.Finished] at hrunning
      push Not at hrunning
      rcases hrunning with ⟨phase, hmem, hne⟩
      rcases List.mem_iff_getElem?.1 hmem with ⟨w, hw⟩
      cases phase with
      | claiming =>
          refine ⟨(w, .claim s.next), ?_⟩
          by_cases hi : s.next < n <;>
            simp only [step, hw, hi, if_true, if_false, Option.isSome_some]
      | working i =>
          refine ⟨(w, .work i draw), ?_⟩
          cases htask : task i draw <;> simp only [step, hw, htask, if_true, Option.isSome_some]
      | catching e =>
          exact ⟨(w, .acquire), by simp only [step, hw, hlock, if_true, Option.isSome_some]⟩
      | recording e => exact ⟨(w, .record), by simp only [step, hw, Option.isSome_some]⟩
      | storing => exact ⟨(w, .store), by simp only [step, hw, Option.isSome_some]⟩
      | releasing => exact ⟨(w, .release), by simp only [step, hw, Option.isSome_some]⟩
      | stopped => exact absurd rfl hne

theorem remaining_start (n k : Nat) (blank : α) :
    (start n k blank : Pool α ε).remaining n = 5 * n + k := by
  simp [Pool.remaining, Pool.total, start, Phase.weight]

/-- Every run can be continued until all workers have stopped. -/
theorem Locked.completes {k : Nat} (draw : δ) (hl : Locked k s) :
    ∃ moves t, run task n s moves = some t ∧ t.Finished := by
  induction hr : s.remaining n using Nat.strong_induction_on generalizing s with
  | _ r ih =>
      by_cases hf : s.Finished
      · exact ⟨[], s, rfl, hf⟩
      · have hprogress : ∃ move t, step task n s move = some t := hl.progress hf draw
        rcases hprogress with ⟨move, t, hstep⟩
        have hcases := step_cases hstep
        rcases ih _ (hr ▸ hcases.decreases) (hcases.locked hl) rfl with ⟨moves, u, hrun, hu⟩
        refine ⟨move :: moves, u, ?_, hu⟩
        rw [run, List.foldlM_cons, hstep]
        exact hrun

/-! ## Failures -/

/-- A worker that has an error and has not recorded it. -/
def Phase.Failed (phase : Phase ε) (e : ε) : Prop :=
  phase = .catching e ∨ phase = .recording e

/-- A task of the run failed with this error. -/
def Threw (task : Nat → δ → Except ε α) (history : List (Move δ)) (e : ε) : Prop :=
  ∃ w i draw, (w, Action.work i draw) ∈ history ∧ task i draw = .error e

theorem Threw.append {history : List (Move δ)} {e : ε} (h : Threw task history e)
    (move : Move δ) : Threw task (history ++ [move]) e := by
  rcases h with ⟨w, i, draw, hmem, he⟩
  exact ⟨w, i, draw, List.mem_append_left _ hmem, he⟩

theorem Threw.of_append {history : List (Move δ)} {move : Move δ} {e : ε}
    (h : Threw task (history ++ [move]) e) (hmove : ∀ i draw, move.2 = .work i draw →
      ∃ a, task i draw = .ok a) : Threw task history e := by
  rcases h with ⟨w, i, draw, hmem, he⟩
  rcases List.mem_append.1 hmem with hmem | hlast
  · exact ⟨w, i, draw, hmem, he⟩
  · cases List.mem_singleton.1 hlast
    rcases hmove i draw rfl with ⟨a, ha⟩
    cases ha.symm.trans he

/-- No error is lost, and none is made up. -/
structure Recorded (task : Nat → δ → Except ε α) (history : List (Move δ)) (s : Pool α ε) :
    Prop where
  found : ∀ {e : ε}, Threw task history e → s.failure.isSome = true ∨
    ∃ (w : Nat) (phase : Phase ε) (e' : ε), s.workers[w]? = some phase ∧ phase.Failed e'
  kept : ∀ {e : ε}, s.failure = some e → Threw task history e
  caught : ∀ {w : Nat} {phase : Phase ε} {e : ε}, s.workers[w]? = some phase → phase.Failed e →
    Threw task history e

theorem recorded_start (task : Nat → δ → Except ε α) (n k : Nat) (blank : α) :
    Recorded task [] (start n k blank : Pool α ε) where
  found := by
    rintro e ⟨w, i, draw, hmem, he⟩
    cases hmem
  kept := by
    intro e he
    cases he
  caught := by
    intro w phase e hw hfailed
    rw [List.eq_of_mem_replicate (List.mem_of_getElem? hw)] at hfailed
    rcases hfailed with h | h <;> cases h

/-- A worker moves on, and takes its error with it or records it. -/
theorem Recorded.moved {history : List (Move δ)} {move : Move δ} {w : Nat} {p q : Phase ε}
    (hr : Recorded task history s) (hw : s.workers[w]? = some p)
    (hmoved : s'.workers = (s.moved w q).workers)
    (hold : ∀ {e : ε}, Threw task (history ++ [move]) e → Threw task history e ∨ q.Failed e)
    (hkept : ∀ {e : ε}, s'.failure = some e → s.failure = some e ∨ p.Failed e)
    (hcaught : ∀ {e : ε}, q.Failed e → Threw task (history ++ [move]) e)
    (hfound : ∀ {e : ε}, p.Failed e → s'.failure.isSome = true ∨ q.Failed e)
    (hsome : s.failure.isSome = true → s'.failure.isSome = true) :
    Recorded task (history ++ [move]) s' := by
  have hphase : ∀ v, s'.workers[v]? = if v = w then some q else s.workers[v]? := by
    rw [hmoved]
    exact moved_phase hw
  have hself : s'.workers[w]? = some q := (hphase w).trans (if_pos rfl)
  refine ⟨fun {e} hthrew => ?_, fun {e} he => ?_, fun {v phase e} hv hfailed => ?_⟩
  · rcases hold hthrew with hthrew | hq
    · rcases hr.found hthrew with hfailure | ⟨v, phase, e', hv, hfailed⟩
      · exact Or.inl (hsome hfailure)
      · by_cases hvw : v = w
        · subst hvw
          cases hw.symm.trans hv
          exact (hfound hfailed).imp_right fun hq => ⟨v, q, e', hself, hq⟩
        · exact Or.inr ⟨v, phase, e', (hphase v).trans ((if_neg hvw).trans hv), hfailed⟩
    · exact Or.inr ⟨w, q, e, hself, hq⟩
  · rcases hkept he with he | hp
    · exact (hr.kept he).append move
    · exact (hr.caught hw hp).append move
  · rw [hphase] at hv
    by_cases hvw : v = w
    · rw [if_pos hvw] at hv
      cases hv
      exact hcaught hfailed
    · rw [if_neg hvw] at hv
      exact (hr.caught hv hfailed).append move

theorem Recorded.quiet {history : List (Move δ)} {move : Move δ} {w : Nat} {p q : Phase ε}
    (hr : Recorded task history s) (hw : s.workers[w]? = some p)
    (hmoved : s'.workers = (s.moved w q).workers) (hfailure : s'.failure = s.failure)
    (hmove : ∀ i draw, move.2 = .work i draw → ∃ a, task i draw = .ok a)
    (hp : ∀ e, ¬ p.Failed e) (hq : ∀ e, ¬ q.Failed e) :
    Recorded task (history ++ [move]) s' := by
  refine hr.moved hw hmoved (fun h => Or.inl (h.of_append hmove)) (fun h => ?_) (fun h => ?_)
    (fun h => ?_) fun h => ?_
  · exact Or.inl (hfailure.symm.trans h)
  · exact absurd h (hq _)
  · exact absurd h (hp _)
  · exact hfailure.symm ▸ h

theorem Phase.not_failed {p : Phase ε} (h : ∀ e, p ≠ .catching e ∧ p ≠ .recording e) (e : ε) :
    ¬ p.Failed e := by
  rintro (hp | hp)
  · exact (h e).1 hp
  · exact (h e).2 hp

theorem Step.recorded {history : List (Move δ)} {move : Move δ} (h : Step task n s move s')
    (hr : Recorded task history s) : Recorded task (history ++ [move]) s' := by
  cases h with
  | claim hw hi =>
      exact hr.quiet hw rfl rfl (by rintro i draw ⟨⟩) (Phase.not_failed (by simp))
        (Phase.not_failed (by simp))
  | exhausted hw hi =>
      exact hr.quiet hw rfl rfl (by rintro i draw ⟨⟩) (Phase.not_failed (by simp))
        (Phase.not_failed (by simp))
  | @finish w i draw a hw ha =>
      refine hr.quiet hw rfl rfl ?_ (Phase.not_failed (by simp)) (Phase.not_failed (by simp))
      rintro i draw ⟨⟩
      exact ⟨a, ha⟩
  | @fail w i draw e hw he =>
      have hthrew : Threw task (history ++ [(w, .work i draw)]) e :=
        ⟨w, i, draw, List.mem_append_right _ (List.mem_singleton.2 rfl), he⟩
      refine hr.moved (q := .catching e) hw rfl (fun {e'} h => ?_) Or.inl (fun {e'} h => ?_)
        (fun {e'} h => ?_) id
      · rcases h with ⟨v, j, draw', hmem, he'⟩
        rcases List.mem_append.1 hmem with hmem | hlast
        · exact Or.inl ⟨v, j, draw', hmem, he'⟩
        · cases List.mem_singleton.1 hlast
          cases he.symm.trans he'
          exact Or.inr (Or.inl rfl)
      · rcases h with h | h <;> cases h
        exact hthrew
      · rcases h with h | h <;> cases h
  | @acquire w e hw hlock =>
      refine hr.moved (q := .recording e) hw rfl (fun h => Or.inl (h.of_append ?_)) Or.inl
        (fun {e'} h => ?_) (fun {e'} h => ?_) id
      · rintro i draw ⟨⟩
      · rcases h with h | h <;> cases h
        exact (hr.caught hw (Or.inl rfl)).append _
      · rcases h with h | h <;> cases h
        exact Or.inr (Or.inr rfl)
  | @record w e hw =>
      refine hr.moved (q := .storing) hw rfl (fun h => Or.inl (h.of_append ?_)) (fun {e'} h => ?_)
        (fun {e'} h => ?_) (fun {e'} h => ?_) fun h => ?_
      · rintro i draw ⟨⟩
      · change s.failure.or (some e) = some e' at h
        -- An earlier error stays; only the first is kept.
        cases hfailure : s.failure with
        | none =>
            rw [hfailure, Option.none_or] at h
            cases h
            exact Or.inr (Or.inr rfl)
        | some first =>
            rw [hfailure, Option.some_or] at h
            exact Or.inl h
      · rcases h with h | h <;> cases h
      · exact Or.inl (by cases hfailure : s.failure <;> simp)
      · exact (by cases hfailure : s.failure <;> simp)
  | store hw =>
      exact hr.quiet hw rfl rfl (by rintro i draw ⟨⟩) (Phase.not_failed (by simp))
        (Phase.not_failed (by simp))
  | release hw =>
      exact hr.quiet hw rfl rfl (by rintro i draw ⟨⟩) (Phase.not_failed (by simp))
        (Phase.not_failed (by simp))

/-! ## What the tasks gave -/

/-- Task `i` was done in the run and gave `a`. -/
def Did (task : Nat → δ → Except ε α) (history : List (Move δ)) (i : Nat) (a : α) : Prop :=
  ∃ w draw, (w, Action.work i draw) ∈ history ∧ task i draw = .ok a

theorem Did.append {history : List (Move δ)} {i : Nat} {a : α} (h : Did task history i a)
    (move : Move δ) : Did task (history ++ [move]) i a := by
  rcases h with ⟨w, draw, hmem, ha⟩
  exact ⟨w, draw, List.mem_append_left _ hmem, ha⟩

/-- Who works has claimed, and what was claimed is worked on, or done and filed, or has failed. -/
structure Worked (task : Nat → δ → Except ε α) (n : Nat) (history : List (Move δ))
    (s : Pool α ε) : Prop where
  size : s.output.length = n
  bound : ∀ {w i : Nat}, s.workers[w]? = some (.working i) → i < n
  done : ∀ {w i : Nat}, (w, i) ∈ claims n history → s.workers[w]? = some (.working i) ∨
    (∃ a, Did task history i a ∧ s.output[i]? = some a) ∨ ∃ e, Threw task history e

theorem worked_start (task : Nat → δ → Except ε α) (n k : Nat) (blank : α) :
    Worked task n [] (start n k blank : Pool α ε) where
  size := List.length_replicate
  bound := by
    intro w i hw
    cases List.eq_of_mem_replicate (List.mem_of_getElem? hw)
  done := by
    intro w i hmem
    cases hmem

/-- A worker that is not working moves on. -/
theorem Worked.quiet {history : List (Move δ)} {move : Move δ} {w : Nat} {p q : Phase ε}
    (hd : Worked task n history s) (hw : s.workers[w]? = some p)
    (hmoved : s'.workers = (s.moved w q).workers) (houtput : s'.output = s.output)
    (hp : ∀ i, p ≠ .working i) (hq : ∀ i, q = .working i → move = (w, .claim i) ∧ i < n)
    (hmove : ∀ i, move.2 = .claim i → n ≤ i ∨ q = .working i ∧ move.1 = w) :
    Worked task n (history ++ [move]) s' := by
  have hphase : ∀ v, s'.workers[v]? = if v = w then some q else s.workers[v]? := by
    rw [hmoved]
    exact moved_phase hw
  refine ⟨houtput ▸ hd.size, fun {v i} hv => ?_, fun {v i} hmem => ?_⟩
  · rw [hphase] at hv
    by_cases hvw : v = w
    · rw [if_pos hvw] at hv
      exact (hq i (Option.some.inj hv)).2
    · rw [if_neg hvw] at hv
      exact hd.bound hv
  -- What was claimed before is still worked on, filed or thrown.
  · have hold : (v, i) ∈ claims n history → s'.workers[v]? = some (.working i) ∨
        (∃ a, Did task (history ++ [move]) i a ∧ s'.output[i]? = some a) ∨
          ∃ e, Threw task (history ++ [move]) e := by
      intro hbefore
      rcases hd.done hbefore with hworking | ⟨a, ha, hfiled⟩ | ⟨e, he⟩
      · have hvw : v ≠ w := by
          rintro rfl
          exact hp i (Option.some.inj (hw.symm.trans hworking))
        exact Or.inl ((hphase v).trans ((if_neg hvw).trans hworking))
      · exact Or.inr (Or.inl ⟨a, ha.append move, houtput ▸ hfiled⟩)
      · exact Or.inr (Or.inr ⟨e, he.append move⟩)
    rcases move with ⟨u, action⟩
    -- Only a claim below `n` adds to the claims, and then its worker is working on it.
    by_cases hclaim : ∃ j, action = .claim j ∧ j < n
    · rcases hclaim with ⟨j, rfl, hj⟩
      rw [claims_claim hj] at hmem
      rcases List.mem_append.1 hmem with hbefore | hnew
      · exact hold hbefore
      · cases List.mem_singleton.1 hnew
        rcases hmove i rfl with hle | ⟨hworking, hu⟩
        · exact absurd hj (Nat.not_lt.2 hle)
        · exact Or.inl ((hphase v).trans ((if_pos hu).trans (congrArg some hworking)))
    · rw [claims_other fun j hj => Nat.le_of_not_lt fun hlt => hclaim ⟨j, hj, hlt⟩] at hmem
      exact hold hmem

theorem Step.worked {history : List (Move δ)} {move : Move δ} (h : Step task n s move s')
    (hd : Worked task n history s) : Worked task n (history ++ [move]) s' := by
  cases h with
  | claim hw hi =>
      refine hd.quiet hw rfl rfl (by simp) ?_ ?_
      · rintro i ⟨⟩
        exact ⟨rfl, hi⟩
      · rintro i ⟨⟩
        exact Or.inr ⟨rfl, rfl⟩
  | exhausted hw hi =>
      refine hd.quiet hw rfl rfl (by simp) (by simp) ?_
      rintro i ⟨⟩
      exact Or.inl hi
  | @finish w i draw a hw ha =>
      have hlast : (w, Action.work i draw) ∈ history ++ [(w, Action.work i draw)] :=
        List.mem_append_right _ (List.mem_singleton.2 rfl)
      have hphase := moved_phase (q := .claiming) hw
      refine ⟨List.length_set.trans hd.size, fun {v j} hv => ?_, fun {v j} hmem => ?_⟩
      · change (s.moved w _).workers[v]? = _ at hv
        rw [hphase] at hv
        by_cases hvw : v = w
        · rw [if_pos hvw] at hv
          cases hv
        · rw [if_neg hvw] at hv
          exact hd.bound hv
      · rw [claims_other (by rintro j ⟨⟩)] at hmem
        change (s.moved w _).workers[v]? = _ ∨ (∃ b, _ ∧ (s.output.set i a)[j]? = _) ∨ _
        by_cases hij : i = j
        · -- Whoever claimed it, the entry is what this task has just given.
          subst hij
          have hlt : i < s.output.length := hd.size.symm ▸ hd.bound hw
          exact Or.inr (Or.inl ⟨a, ⟨w, draw, hlast, ha⟩, List.getElem?_set_self hlt⟩)
        · rw [List.getElem?_set_ne hij, hphase]
          rcases hd.done hmem with hworking | ⟨b, hb, hfiled⟩ | ⟨e, he⟩
          · have hvw : v ≠ w := by
              rintro rfl
              cases hw.symm.trans hworking
              exact hij rfl
            exact Or.inl ((if_neg hvw).trans hworking)
          · exact Or.inr (Or.inl ⟨b, hb.append _, hfiled⟩)
          · exact Or.inr (Or.inr ⟨e, he.append _⟩)
  | @fail w i draw e hw he =>
      have hphase := moved_phase (q := .catching e) hw
      refine ⟨hd.size, fun {v j} hv => ?_, fun {v j} _ => Or.inr (Or.inr ⟨e, w, i, draw, ?_, he⟩)⟩
      · rw [hphase] at hv
        by_cases hvw : v = w
        · rw [if_pos hvw] at hv
          cases hv
        · rw [if_neg hvw] at hv
          exact hd.bound hv
      · exact List.mem_append_right _ (List.mem_singleton.2 rfl)
  | acquire hw hlock => exact hd.quiet hw rfl rfl (by simp) (by simp) (by rintro i ⟨⟩)
  | record hw => exact hd.quiet hw rfl rfl (by simp) (by simp) (by rintro i ⟨⟩)
  | store hw => exact hd.quiet hw rfl rfl (by simp) (by simp) (by rintro i ⟨⟩)
  | release hw => exact hd.quiet hw rfl rfl (by simp) (by simp) (by rintro i ⟨⟩)

/-! ## Whole runs -/

/-- All that is kept. -/
structure Invariant (task : Nat → δ → Except ε α) (n k : Nat) (history : List (Move δ))
    (s : Pool α ε) : Prop where
  counted : Counted n history s
  locked : Locked k s
  recorded : Recorded task history s
  worked : Worked task n history s

theorem run_invariant {k : Nat} {blank : α} {moves : List (Move δ)} {t : Pool α ε}
    (h : run task n (start n k blank) moves = some t) : Invariant task n k moves t :=
  run_induction
    ⟨counted_start n k blank, locked_start n k blank, recorded_start task n k blank,
      worked_start task n k blank⟩
    (fun hI hstep => ⟨hstep.counted hI.counted, hstep.locked hI.locked,
      hstep.recorded hI.recorded, hstep.worked hI.worked⟩) h

namespace Invariant

variable {k : Nat} {history : List (Move δ)}

/-- The counter passes the number of tasks at most once for each worker. -/
theorem next_le (h : Invariant task n k history s) : s.next ≤ n + k := by
  have hended : s.total Phase.ended ≤ s.workers.length := by
    rw [Pool.total, ← List.length_map Phase.ended, ← Nat.mul_one (List.length _)]
    refine List.sum_le_card_nsmul _ 1 fun count hcount => ?_
    rcases List.mem_map.1 hcount with ⟨phase, hphase, rfl⟩
    cases phase <;> simp [Phase.ended]
  calc s.next ≤ n + s.total Phase.ended := h.counted.small
    _ ≤ n + k := Nat.add_le_add_left (hended.trans (le_of_eq h.locked.size)) n

/-- No index is given out twice. -/
theorem claims_nodup (h : Invariant task n k history s) :
    ((claims n history).map Prod.snd).Nodup := by
  rw [h.counted.claimed]
  exact List.nodup_range

/-- After a failure, the caller gets an error that some task gave. -/
theorem result_of_threw (h : Invariant task n k history s) (hfinished : s.Finished) {e : ε}
    (he : Threw task history e) : ∃ e', s.result = .error e' ∧ Threw task history e' := by
  rcases h.recorded.found he with hfailure | ⟨w, phase, e', hw, hfailed⟩
  · rcases Option.isSome_iff_exists.1 hfailure with ⟨e', he'⟩
    refine ⟨e', ?_, h.recorded.kept he'⟩
    rw [Pool.result, he']
  · have hstopped := hfinished phase (List.mem_of_getElem? hw)
    subst hstopped
    rcases hfailed with h | h <;> cases h

/-- Without one, every index was claimed, and the caller gets what the tasks gave. -/
theorem result_of_not_threw (h : Invariant task n k history s) (hfinished : s.Finished)
    (hk : 0 < k) (hnone : ∀ e, ¬ Threw task history e) :
    s.result = .ok s.output ∧ s.output.length = n ∧
      (claims n history).map Prod.snd = List.range n ∧
      ∀ i < n, ∃ a, Did task history i a ∧ s.output[i]? = some a := by
  have hfailure : s.failure = none := by
    cases hcase : s.failure with
    | none => rfl
    | some e => exact absurd (h.recorded.kept hcase) (hnone e)
  have hfirst : s.workers[0]? = some .stopped := by
    rw [List.getElem?_eq_getElem (h.locked.size.symm ▸ hk)]
    exact congrArg some (hfinished _ (List.getElem_mem _))
  have hnext : n ≤ s.next := h.counted.left hfirst (Or.inr rfl)
  have hall : (claims n history).length = n := by
    refine le_antisymm h.counted.least (Nat.le_of_not_lt fun hlt => ?_)
    have hsome := h.counted.skipped hnext hlt
    rw [hfailure] at hsome
    cases hsome
  have hclaimed : (claims n history).map Prod.snd = List.range n := by
    rw [h.counted.claimed, hall]
  refine ⟨by rw [Pool.result, hfailure], h.worked.size, hclaimed, fun i hi => ?_⟩
  have hmem : i ∈ (claims n history).map Prod.snd := hclaimed.symm ▸ List.mem_range.2 hi
  rcases List.mem_map.1 hmem with ⟨⟨w, j⟩, hclaim, rfl⟩
  rcases h.worked.done hclaim with hworking | hdid | ⟨e, he⟩
  · cases hfinished _ (List.mem_of_getElem? hworking)
  · exact hdid
  · exact absurd he (hnone e)

end Invariant

end Machine

end WorkerPool
end SociSgx

import SociSgx.Runtime.KeyStore

/-!
# Overlap — two calls with outputs on one runtime

Each call is two atomic steps: its body under the mutex, and the test of `error` after the mutex is
released.  The text that the test reads may be the other call's.
-/

namespace SociSgx
namespace Runtime

open Exec Protocol

variable {σ γ : Type}

/-! ## The bodies of the calls with outputs -/

/-- `soci_export_public_key` -/
def exportPublicKey : EStateM Thrown (Store × Caller) Unit :=
  boutBody do
    let k ← need
    return encodePublic k

/-- The body of `soci_decrypt`: a zero byte follows the decimal text. -/
def decryptBody (text : EStateM Thrown σ Bytes) : EStateM Thrown (σ × Caller) Unit :=
  boutBody do
    let z ← text
    return z ++ [0]

/-- The output parameters of `soci_secure_div`. -/
structure DivCaller where
  q : Bool
  rem : Bool
  ql : Option Nat
  rl : Option Nat
  written : Option (Bytes × Bytes) := none
  deriving DecidableEq, Repr

/-- Both lengths are set, and the call ends. -/
def divTooSmall (maximum : Nat) : EStateM Thrown (σ × DivCaller) Unit := do
  update fun c => { c with ql := some maximum, rl := some maximum }
  throw (.logicError "buffer too small")

/-- The body of `soci_secure_div`: `maximum` needs the open key, and `qr` are the encoded quotient
and remainder. -/
def divBody (maximum : EStateM Thrown σ Nat) (qr : EStateM Thrown σ (Bytes × Bytes)) :
    EStateM Thrown (σ × DivCaller) Unit := do
  let maximum ← onFst maximum
  let c ← locals
  match c.ql, c.rl with
  | some ql, some rl =>
      -- who passes a null buffer asks for the lengths only; nothing is divided
      if c.q = false ∨ c.rem = false then
        divTooSmall maximum
      else do
        let qr ← onFst qr
        if ql < qr.1.length ∨ rl < qr.2.length then
          divTooSmall maximum
        else
          update fun c => { c with
            ql := some qr.1.length, rl := some qr.2.length, written := some qr }
  | _, _ => throw (.invalidArgument "null output length")

/-! ## The status of a call by itself -/

/-- The body found a buffer too small. -/
def TooSmall (own : Except Thrown Unit) : Prop :=
  errorOf own = "buffer too small"

instance (own : Except Thrown Unit) : Decidable (TooSmall own) :=
  inferInstanceAs (Decidable (errorOf own = "buffer too small"))

/-- The status that a body determines. -/
def ownStatus (own : Except Thrown Unit) : Status :=
  match own with
  | .ok _ => .ok
  | .error e => if e.what = "buffer too small" then .bufferTooSmall else e.status

theorem ownStatus_eq_ok {own : Except Thrown Unit} : ownStatus own = .ok ↔ own = .ok () := by
  rcases own with e | ⟨⟩
  · have hfailed : e.status ≠ .ok := by cases e <;> simp [Thrown.status]
    by_cases htext : e.what = "buffer too small" <;> simp [ownStatus, htext, hfailed]
  · simp [ownStatus]

theorem ownStatus_eq_bufferTooSmall {own : Except Thrown Unit} :
    ownStatus own = .bufferTooSmall ↔ TooSmall own := by
  rcases own with e | ⟨⟩
  · have hstatus : e.status ≠ .bufferTooSmall := by cases e <;> simp [Thrown.status]
    by_cases htext : e.what = "buffer too small" <;>
      simp [ownStatus, TooSmall, errorOf, htext, hstatus]
  · simp [ownStatus, TooSmall, errorOf]

/-- When the value is there, only a missing buffer or a short one is too small. -/
theorem tooSmall_boutBody {f : EStateM Thrown σ Bytes} {s s' : σ} {v : Bytes} (hf : f s = .ok v s')
    (caller : Caller) :
    TooSmall (outcome (boutBody f) (s, caller)).1 ↔
      ∃ n, caller.length = some n ∧ (caller.out = false ∨ n < v.length) := by
  have hbody : boutBody f (s, caller) = output v (s', caller) := by
    refine bind_of_ok ?_
    simp only [onFst, hf]
  unfold outcome
  rw [hbody]
  cases hlength : caller.length with
  | none => simp [output, hlength, TooSmall, errorOf, Thrown.what]
  | some n =>
      by_cases hsmall : caller.out = false ∨ n < v.length
      · simp [output, hlength, hsmall, TooSmall, errorOf, Thrown.what]
      · simp [output, hlength, hsmall, TooSmall, errorOf]

/-- When the quotient and the remainder are there, either buffer may be too small. -/
theorem tooSmall_divBody {maximum : EStateM Thrown σ Nat} {qr : EStateM Thrown σ (Bytes × Bytes)}
    {s s' s'' : σ} {m : Nat} {v : Bytes × Bytes} (hmaximum : maximum s = .ok m s')
    (hqr : qr s' = .ok v s'') (caller : DivCaller) :
    TooSmall (outcome (divBody maximum qr) (s, caller)).1 ↔
      ∃ ql rl, caller.ql = some ql ∧ caller.rl = some rl ∧
        ((caller.q = false ∨ caller.rem = false) ∨ (ql < v.1.length ∨ rl < v.2.length)) := by
  have hfirst : onFst maximum (s, caller) = .ok m (s', caller) := by
    simp only [onFst, hmaximum]
  have hsecond : onFst qr (s', caller) = .ok v (s'', caller) := by
    simp only [onFst, hqr]
  have hread : (locals : EStateM Thrown (σ × DivCaller) DivCaller) (s', caller) =
      .ok caller (s', caller) := rfl
  have hshort : ∀ t : σ × DivCaller, TooSmall (outcome (divTooSmall m) t).1 := fun _ => rfl
  have hnull : ¬ "null output length" = "buffer too small" := by decide
  have hfine : ¬ "" = "buffer too small" := by decide
  unfold outcome
  rw [divBody, bind_of_ok hfirst, bind_of_ok hread]
  rcases hql : caller.ql with _ | ql
  · exact iff_of_false hnull (by simp)
  rcases hrl : caller.rl with _ | rl
  · exact iff_of_false hnull (by simp)
  by_cases hmissing : caller.q = false ∨ caller.rem = false
  · simp only [if_pos hmissing]
    exact iff_of_true (hshort _) ⟨ql, rl, rfl, rfl, Or.inl hmissing⟩
  · simp only [if_neg hmissing]
    rw [bind_of_ok hsecond]
    by_cases hless : ql < v.1.length ∨ rl < v.2.length
    · rw [if_pos hless]
      exact iff_of_true (hshort _) ⟨ql, rl, rfl, rfl, Or.inr hless⟩
    · rw [if_neg hless]
      refine iff_of_false hfine ?_
      rintro ⟨ql', rl', hql', hrl', hsmall⟩
      cases hql'
      cases hrl'
      exact hsmall.elim hmissing hless

/-- The test reads the right text exactly when the text it reads tells the same. -/
theorem recheck_iff (own : Except Thrown Unit) (error : String) :
    recheck error (statusOf own) = ownStatus own ↔ (error = "buffer too small" ↔ TooSmall own) := by
  have hstatus : statusOf own ≠ .bufferTooSmall := by
    rcases own with (_ | _ | _ | _) | _ <;> simp [statusOf, Thrown.status]
  have hown : ownStatus own = if TooSmall own then .bufferTooSmall else statusOf own := by
    rcases own with e | ⟨⟩ <;> rfl
  rw [hown]
  unfold recheck
  by_cases herror : error = "buffer too small" <;> by_cases hsmall : TooSmall own
  · simp [herror, hsmall]
  · simpa [herror, hsmall] using hstatus.symm
  · simpa [herror, hsmall] using hstatus
  · simp [herror, hsmall]

/-! ## Two concurrent calls -/

inductive Turn where
  | first
  | second
  deriving DecidableEq, Repr

def Turn.other : Turn → Turn
  | .first => .second
  | .second => .first

/-- How far a call is: before its body, between its body and the test, or back at the caller. -/
inductive Progress (γ : Type) where
  | waiting (caller : γ)
  | ran (status : Status) (caller : γ)
  | returned (status : Status) (caller : γ)

/-- Two calls on one runtime. -/
structure Pair (σ γ : Type) where
  process : Process σ
  calls : Turn → Progress γ

def Pair.set (pair : Pair σ γ) (turn : Turn) (progress : Progress γ) : Turn → Progress γ :=
  fun t => if t = turn then progress else pair.calls t

section

variable (body : Turn → EStateM Thrown (σ × γ) Unit)

/-- One atomic step of one call: the body under the mutex, or the test outside it. -/
def Pair.step (pair : Pair σ γ) (turn : Turn) : Pair σ γ :=
  match pair.calls turn with
  | .waiting caller =>
      let result := outcome (guarded pair.process.closed (body turn)) (pair.process.state, caller)
      let process := { pair.process with error := errorOf result.1, state := result.2.1 }
      ⟨process, pair.set turn (.ran (statusOf result.1) result.2.2)⟩
  | .ran status caller =>
      { pair with calls := pair.set turn (.returned (recheck pair.process.error status) caller) }
  | .returned _ _ => pair

/-- The calls take their steps in the order of the schedule. -/
def Pair.runs (pair : Pair σ γ) (schedule : List Turn) : Pair σ γ :=
  schedule.foldl (Pair.step body) pair

/-- Both calls are about to run their bodies. -/
def Pair.start (process : Process σ) (callers : Turn → γ) : Pair σ γ :=
  { process := process, calls := fun turn => .waiting (callers turn) }

/-- What the bodies do when they run one after the other, `turn` first. -/
def firstOutcome (process : Process σ) (callers : Turn → γ) (turn : Turn) :
    Except Thrown Unit × σ × γ :=
  outcome (guarded process.closed (body turn)) (process.state, callers turn)

def secondOutcome (process : Process σ) (callers : Turn → γ) (turn : Turn) :
    Except Thrown Unit × σ × γ :=
  outcome (guarded process.closed (body turn.other))
    ((firstOutcome body process callers turn).2.1, callers turn.other)

/-- What the body of a call does in a schedule: the bodies run in the order in which the calls take
their first steps. -/
def ownOutcome (process : Process σ) (callers : Turn → γ) (schedule : List Turn) (turn : Turn) :
    Except Thrown Unit :=
  if schedule.head? = some turn then (firstOutcome body process callers turn).1
  else (secondOutcome body process callers turn.other).1

end

/-- An interleaving of two calls of two steps. -/
def Interleaving (schedule : List Turn) : Prop :=
  schedule.count .first = 2 ∧ schedule.count .second = 2

instance (schedule : List Turn) : Decidable (Interleaving schedule) :=
  inferInstanceAs (Decidable (_ ∧ _))

/-- The other body runs between the body and the test of the call. -/
def Interposed (turn : Turn) (schedule : List Turn) : Prop :=
  schedule = [turn, turn.other, turn, turn.other] ∨ schedule = [turn, turn.other, turn.other, turn]

instance (turn : Turn) (schedule : List Turn) : Decidable (Interposed turn schedule) :=
  inferInstanceAs (Decidable (_ ∨ _))

/-- There are six interleavings. -/
theorem interleaving_cases {schedule : List Turn} (h : Interleaving schedule) :
    ∃ turn : Turn, schedule = [turn, turn, turn.other, turn.other] ∨ Interposed turn schedule := by
  have hlen : schedule.length = 4 := by
    have hsplit : ∀ l : List Turn, l.length = l.count .first + l.count .second := by
      intro l
      induction l with
      | nil => rfl
      | cons t l ih => cases t <;> simp [ih] <;> omega
    rw [hsplit, h.1, h.2]
  rcases schedule with _ | ⟨a, _ | ⟨b, _ | ⟨c, _ | ⟨d, _ | ⟨e, l⟩⟩⟩⟩⟩ <;> simp at hlen
  refine ⟨a, ?_⟩
  revert h
  cases a <;> cases b <;> cases c <;> cases d <;> simp [Interleaving, Interposed, Turn.other]

/-- The call whose body runs second tests its own text; the one whose body runs first tests the
text of the other when that body ran in between. -/
theorem runs_spec (body : Turn → EStateM Thrown (σ × γ) Unit) (process : Process σ)
    (callers : Turn → γ) {turn : Turn} {schedule : List Turn}
    (h : schedule = [turn, turn, turn.other, turn.other] ∨ Interposed turn schedule) :
    ∃ caller caller',
      ((Pair.start process callers).runs body schedule).calls turn =
        .returned (recheck (errorOf (ownOutcome body process callers schedule
          (if Interposed turn schedule then turn.other else turn)))
            (statusOf (ownOutcome body process callers schedule turn))) caller ∧
      ((Pair.start process callers).runs body schedule).calls turn.other =
        .returned (recheck (errorOf (ownOutcome body process callers schedule turn.other))
          (statusOf (ownOutcome body process callers schedule turn.other))) caller' := by
  rcases h with rfl | rfl | rfl
  · cases turn <;> exact ⟨_, _, rfl, rfl⟩
  · cases turn <;> exact ⟨_, _, rfl, rfl⟩
  · cases turn <;> exact ⟨_, _, rfl, rfl⟩

theorem turn_cases (turn t : Turn) : t = turn ∨ t = turn.other := by
  cases turn <;> cases t <;> simp [Turn.other]

/-- The call that runs its body second is never interposed. -/
theorem not_interposed_other {turn : Turn} {schedule : List Turn}
    (h : schedule = [turn, turn, turn.other, turn.other] ∨ Interposed turn schedule) :
    ¬ Interposed turn.other schedule := by
  rcases h with rfl | rfl | rfl <;> cases turn <;> decide

/-- In every interleaving of two calls, both return the status of their own bodies exactly when no
body that runs between the body and the test of the other call differs from that one in finding its
buffer too small. -/
theorem statuses_right_iff (body : Turn → EStateM Thrown (σ × γ) Unit) (process : Process σ)
    (callers : Turn → γ) {schedule : List Turn} (h : Interleaving schedule) :
    (∀ turn, ∃ caller, ((Pair.start process callers).runs body schedule).calls turn =
        .returned (ownStatus (ownOutcome body process callers schedule turn)) caller) ↔
      ∀ turn, Interposed turn schedule →
        (TooSmall (ownOutcome body process callers schedule turn) ↔
          TooSmall (ownOutcome body process callers schedule turn.other)) := by
  rcases interleaving_cases h with ⟨turn, hcases⟩
  rcases runs_spec body process callers hcases with ⟨caller, caller', hturn, hother⟩
  have hnot := not_interposed_other hcases
  let own := ownOutcome body process callers schedule
  have hfirst : (∃ c, ((Pair.start process callers).runs body schedule).calls turn =
      .returned (ownStatus (own turn)) c) ↔
        (Interposed turn schedule → (TooSmall (own turn.other) ↔ TooSmall (own turn))) := by
    calc
      _ ↔ recheck (errorOf (own (if Interposed turn schedule then turn.other else turn)))
            (statusOf (own turn)) = ownStatus (own turn) := by
        rw [hturn]
        exact ⟨fun ⟨_, hc⟩ => (Progress.returned.inj hc).1, fun hc => ⟨caller, hc ▸ rfl⟩⟩
      _ ↔ (TooSmall (own (if Interposed turn schedule then turn.other else turn)) ↔
            TooSmall (own turn)) := recheck_iff _ _
      _ ↔ _ := by by_cases hi : Interposed turn schedule <;> simp [hi]
  have hsecond : ∃ c, ((Pair.start process callers).runs body schedule).calls turn.other =
      .returned (ownStatus (own turn.other)) c :=
    ⟨caller', by rw [hother, (recheck_iff (own turn.other) _).2 Iff.rfl]⟩
  constructor
  · intro hright t hi
    rcases turn_cases turn t with rfl | rfl
    · exact (hfirst.1 (hright t) hi).symm
    · exact absurd hi hnot
  · intro hagree t
    rcases turn_cases turn t with rfl | rfl
    · exact hfirst.2 fun hi => (hagree t hi).symm
    · exact hsecond

/-! ## Sizing calls -/

/-- The first call asks for the length; the second one has room. -/
def sizingCallers : Turn → Caller
  | .first => { out := false, length := some 0 }
  | .second => { out := true, length := some 2048 }

/-- The runtime after the creation of a key of 3072 bits. -/
def sampleProcess : Process Store :=
  (sampleCreate.run zeroDigest {} freshProcess).2

theorem sampleProcess_closed : sampleProcess.closed = false :=
  run_closed freshProcess _

theorem sampleProcess_key : ∃ k, sampleProcess.state.key = some k ∧ Storable k := by
  have hcomplete : Stream.complete ≠ .unopened := by decide
  rcases sampleCreate_installed hcomplete with ⟨k, _, hstorable, _, _, hinstalled⟩
  exact ⟨k, hinstalled.key, hstorable⟩

theorem exportPublicKey_eq {s : Store} {k : Key} (h : s.key = some k) (caller : Caller) :
    exportPublicKey (s, caller) = output (encodePublic k) (s, caller) := by
  have hneed : need s = .ok k s := by
    refine (bind_of_ok (show (get : StoreM Store) s = .ok s s from rfl)).trans ?_
    rw [h]
    rfl
  have hvalue : (do let k ← need; return encodePublic k : StoreM Bytes) s =
      .ok (encodePublic k) s := bind_of_ok hneed
  refine bind_of_ok ?_
  simp only [onFst, hvalue]

/-- A call that asks for the length leaves the runtime alone. -/
theorem outcome_sizing {s : Store} {k : Key} (h : s.key = some k) :
    outcome (guarded false exportPublicKey) (s, sizingCallers .first) =
      (.error (.logicError "buffer too small"), s,
        { out := false, length := some (encodePublic k).length }) := by
  change outcome exportPublicKey (s, sizingCallers .first) = _
  unfold outcome
  rw [exportPublicKey_eq h]
  simp [output, sizingCallers]

/-- Of two calls that ask for the length neither has room. -/
theorem ownOutcome_sizing {process : Process Store} (hclosed : process.closed = false) {k : Key}
    (hkey : process.state.key = some k) (turn : Turn) :
    ownOutcome (fun _ => exportPublicKey) process (fun _ => sizingCallers .first)
      [.first, .second, .first, .second] turn = .error (.logicError "buffer too small") := by
  rcases process with ⟨error, closed, state⟩
  subst hclosed
  have hsizing := outcome_sizing (s := state) hkey
  cases turn with
  | first => exact congrArg Prod.fst hsizing
  | second =>
      -- the second body starts from what the first one has left
      have hfirst : firstOutcome (fun _ => exportPublicKey)
          { error := error, closed := false, state := state } (fun _ => sizingCallers .first)
            .first = _ := hsizing
      change (secondOutcome _ _ _ .first).1 = _
      unfold secondOutcome
      rw [hfirst]
      exact congrArg Prod.fst hsizing

/-- Two calls that both ask for the length may overlap. -/
theorem statuses_right_iff_export :
    Interposed .first [.first, .second, .first, .second] ∧
      ∀ turn, ∃ caller,
        ((Pair.start sampleProcess fun _ => sizingCallers .first).runs (fun _ => exportPublicKey)
          [.first, .second, .first, .second]).calls turn = .returned .bufferTooSmall caller := by
  rcases sampleProcess_key with ⟨k, hkey, _⟩
  have hown := ownOutcome_sizing sampleProcess_closed hkey
  have hinterleaving : Interleaving [.first, .second, .first, .second] := by decide
  refine ⟨Or.inl rfl, fun turn => ?_⟩
  have hright := (statuses_right_iff (fun _ => exportPublicKey) sampleProcess
    (fun _ => sizingCallers .first) hinterleaving).2 (fun t _ => by rw [hown t, hown t.other]) turn
  rw [hown turn] at hright
  exact hright

/-- With any open key: between the body of the sizing call and its test, the other body empties the
text. -/
theorem sizing_interposed {process : Process Store} (hclosed : process.closed = false) {k : Key}
    (hkey : process.state.key = some k) (hroom : (encodePublic k).length ≤ 2048) :
    let schedule : List Turn := [.first, .second, .first, .second]
    TooSmall (ownOutcome (fun _ => exportPublicKey) process sizingCallers schedule .first) ∧
      ∃ caller, ((Pair.start process sizingCallers).runs (fun _ => exportPublicKey)
        schedule).calls .first = .returned .invalidState caller := by
  intro schedule
  rcases process with ⟨error, closed, state⟩
  subst hclosed
  let process : Process Store := { error := error, closed := false, state := state }
  have hkey : state.key = some k := hkey
  have hfirst : firstOutcome (fun _ => exportPublicKey) process sizingCallers .first =
      (.error (.logicError "buffer too small"), state,
        { out := false, length := some (encodePublic k).length }) := outcome_sizing hkey
  have hsecond : (secondOutcome (fun _ => exportPublicKey) process sizingCallers .first).1 =
      .ok () := by
    unfold secondOutcome
    rw [hfirst]
    change (outcome exportPublicKey (state, sizingCallers .second)).1 = _
    unfold outcome
    rw [exportPublicKey_eq hkey]
    simp [output, sizingCallers, Nat.not_lt.2 hroom]
  have hown : ownOutcome (fun _ => exportPublicKey) process sizingCallers schedule .first =
      .error (.logicError "buffer too small") := congrArg Prod.fst hfirst
  have hother : ownOutcome (fun _ => exportPublicKey) process sizingCallers schedule .second =
      .ok () := hsecond
  have hi : Interposed .first schedule := Or.inl rfl
  -- The other call has the turn between the body and the test.
  have hread : (if Interposed .first schedule then Turn.first.other else .first) = .second :=
    if_pos hi
  rcases runs_spec (fun _ => exportPublicKey) process sizingCallers (Or.inr hi) with
    ⟨caller, _, hcall, _⟩
  refine ⟨by rw [hown]; rfl, caller, ?_⟩
  rw [hcall, hread, hown, hother]
  rfl

/-- The sizing call returns `SOCI_INVALID_STATE` although its buffer was too small. -/
theorem sizing_answer_lost :
    let schedule : List Turn := [.first, .second, .first, .second]
    Interleaving schedule ∧
      TooSmall (ownOutcome (fun _ => exportPublicKey) sampleProcess sizingCallers schedule .first) ∧
        ∃ caller, ((Pair.start sampleProcess sizingCallers).runs (fun _ => exportPublicKey)
          schedule).calls .first = .returned .invalidState caller := by
  rcases sampleProcess_key with ⟨k, hkey, hstorable⟩
  have hroom : (encodePublic k).length ≤ 2048 := by
    have hlen := hstorable.lengths.2.1
    simp only [encodePublic, field, List.length_append, length_put32, ascii, List.length_map,
      String.reduceToList, List.length_cons, List.length_nil]
    omega
  exact ⟨by decide, sizing_interposed sampleProcess_closed hkey hroom⟩

end Runtime
end SociSgx

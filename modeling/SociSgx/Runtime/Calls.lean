import SociSgx.Basic
import SociSgx.Runtime.Crypto

/-!
# Calls — how a call of the C API finds its status

`run` executes a body under the mutex of the runtime and leaves the text of its exception in
`error`.  The calls with an output of variable length read `error` again afterwards, outside the
mutex, to tell a short buffer from other failures.
-/

namespace SociSgx
namespace Runtime

open Exec

/-- `soci_status_t` -/
inductive Status where
  | ok
  | invalidArgument
  | invalidState
  | notFound
  | ioError
  | cryptoError
  | unsupported
  | bufferTooSmall
  | internalError
  deriving DecidableEq, Repr

def Thrown.what : Thrown → String
  | .invalidArgument what | .logicError what | .filesystemError what | .other what => what

/-- The handlers of `run`, in their order. -/
def Thrown.status : Thrown → Status
  | .invalidArgument _ => .invalidArgument
  | .logicError _ => .invalidState
  | .filesystemError _ => .ioError
  | .other _ => .cryptoError

/-- A `soci_runtime`: the text of the last error, and what the bodies work on. -/
structure Process (σ : Type) where
  error : String
  closed : Bool
  state : σ

variable {σ : Type}

/-- What `run` executes: a closed runtime throws before the body. -/
def guarded (closed : Bool) (f : EStateM Thrown σ Unit) : EStateM Thrown σ Unit := do
  require (closed = false) (Thrown.logicError "runtime closed")
  f

/-- The status and the error text that an outcome leaves. -/
def statusOf : Except Thrown Unit → Status
  | .ok _ => .ok
  | .error e => e.status

def errorOf : Except Thrown Unit → String
  | .ok _ => ""
  | .error e => e.what

/-- The outcome of a body, and the state that it leaves. -/
def outcome (f : EStateM Thrown σ Unit) (s : σ) : Except Thrown Unit × σ :=
  match f s with
  | .ok _ s' => (.ok (), s')
  | .error e s' => (.error e, s')

/-- `run` for a runtime that exists. -/
def run (r : Process σ) (f : EStateM Thrown σ Unit) : Status × Process σ :=
  let result := outcome (guarded r.closed f) r.state
  (statusOf result.1, { r with error := errorOf result.1, state := result.2 })

theorem run_closed (r : Process σ) (f : EStateM Thrown σ Unit) : (run r f).2.closed = r.closed :=
  rfl

/-- A call succeeds with what its body establishes, or fails on a closed runtime or with what the
body leaves when it throws. -/
theorem run_cases {f : EStateM Thrown σ Unit} {r : Process σ} {Q : Unit → σ → Prop}
    {E : Thrown → σ → Prop} (h : Triple (fun s => s = r.state) f Q E) :
    ((run r f).1 = .ok ∧ r.closed = false ∧ Q () (run r f).2.state) ∨
      ((run r f).1 ≠ .ok ∧ ((r.closed = true ∧ (run r f).2.state = r.state) ∨
        (r.closed = false ∧ ∃ e, E e (run r f).2.state))) := by
  have hfailed : ∀ e : Thrown, e.status ≠ .ok := by
    intro e
    cases e <;> simp [Thrown.status]
  rcases r with ⟨error, closed, state⟩
  cases closed with
  | true => exact Or.inr ⟨hfailed (.logicError "runtime closed"), Or.inl ⟨rfl, rfl⟩⟩
  | false =>
      have hguarded : guarded false f state = f state := rfl
      rcases h.run rfl with ⟨⟨⟩, s', hrun, hq⟩ | ⟨e, s', hrun, he⟩
      · refine Or.inl ?_
        simp only [run, outcome, hguarded, hrun]
        exact ⟨rfl, trivial, hq⟩
      · refine Or.inr ?_
        simp only [run, outcome, hguarded, hrun]
        exact ⟨hfailed e, Or.inr ⟨trivial, e, he⟩⟩

/-! ## Outputs -/

/-- The output parameters of a call: whether `out` is given, `*n` if `n` is given, and what has
been written. -/
structure Caller where
  out : Bool
  length : Option Nat
  written : Option Bytes := none
  deriving DecidableEq, Repr

/-- `output`: a buffer that is too small is told the size. -/
def output (v : Bytes) : EStateM Thrown (σ × Caller) Unit := fun s =>
  match s.2.length with
  | none => .error (.invalidArgument "null output length") s
  | some n =>
      if s.2.out = false ∨ n < v.length then
        .error (.logicError "buffer too small") (s.1, { s.2 with length := some v.length })
      else
        .ok () (s.1, { s.2 with length := some v.length, written := some v })

/-- The body that `bout` runs. -/
def boutBody (f : EStateM Thrown σ Bytes) : EStateM Thrown (σ × Caller) Unit := do
  let v ← onFst f
  output v

/-- The test of `bout`, `soci_decrypt` and `soci_secure_div` after `run`. -/
def recheck (error : String) (s : Status) : Status :=
  if error = "buffer too small" then .bufferTooSmall else s

end Runtime
end SociSgx

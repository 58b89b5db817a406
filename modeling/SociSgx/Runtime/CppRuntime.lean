import SociSgx.Lib.Computes
import SociSgx.Runtime.Api

/-!
# CppRuntime — the class `soci::Runtime`

The class calls the C API without a buffer to learn a size, and then with one of that size.  A call
that encrypts draws anew each time, so the size may have changed: `bytes` tries three buffers.
-/

namespace SociSgx
namespace Runtime

open Exec Paillier Protocol

/-! ## The class -/

/-- What the members of the class are: programs on a `soci_runtime` that throw `soci::Error`. -/
abbrev CppM : Type → Type :=
  EStateM Error (Process Api)

namespace Cpp

/-- A call with output parameters: its status, and what they hold afterwards. -/
def call {γ : Type} (body : EStateM Thrown (Api × γ) Unit) (caller : γ) : CppM (Status × γ) := do
  let r ← get
  let result := run { error := r.error, closed := r.closed, state := (r.state, caller) } body
  set
    { error := result.2.error, closed := result.2.closed, state := result.2.state.1 : Process Api }
  return (recheck result.2.error result.1, result.2.state.2)

def check (s : Status) : CppM Unit := do
  let r ← get
  require (s = .ok) (Error.backend r.error)

/-- `if(s!=SOCI_BUFFER_TOO_SMALL)check(s);` -/
def checkSize (s : Status) : CppM Unit :=
  if s = .bufferTooSmall then pure () else check s

/-- The call with a buffer of `n` bytes; a vector without elements has no data. -/
def withBuffer (f : ApiM Bytes) (n : Nat) : CppM (Status × Caller) :=
  call (boutBody f) { out := decide (0 < n), length := some n }

/-- The loop of `bytes`, with `tries` passes left. -/
def retry (f : ApiM Bytes) : Nat → Nat → CppM Bytes
  | 0, _ => throw (Error.backend "output size changed repeatedly")
  | tries + 1, n => do
      let (s, caller) ← withBuffer f n
      if s = .ok then
        return caller.written.getD []
      else do
        checkSize s
        retry f tries (caller.length.getD 0)

def bytes (f : ApiM Bytes) : CppM Bytes := do
  let (s, caller) ← call (boutBody f) { out := false, length := some 0 }
  checkSize s
  retry f 3 (caller.length.getD 0)

def encrypt (m : Bytes) : CppM Bytes :=
  bytes (Api.sociEncrypt (cString m))

def add (a b : Bytes) : CppM Bytes :=
  bytes (Api.sociAdd a b)

def scalarMul (a k : Bytes) : CppM Bytes :=
  bytes (Api.sociScalarMul a (cString k))

def secureMul (a b : Bytes) : CppM Bytes :=
  bytes (Api.sociSecureMul a b)

def secureCompare (a b : Bytes) : CppM Bytes :=
  bytes (Api.sociSecureCompare a b)

def secureSignBit (a : Bytes) : CppM Bytes :=
  bytes (Api.sociSecureSignBit a)

def secureAbs (a : Bytes) : CppM Bytes :=
  bytes (Api.sociSecureAbs a)

/-- The text has a zero byte behind it that the result has not. -/
def decrypt (c : Bytes) : CppM Bytes := do
  let (s, caller) ← call (decryptBody (Api.sociDecrypt c)) { out := false, length := some 0 }
  checkSize s
  let n := caller.length.getD 0
  let (s, caller) ← call (decryptBody (Api.sociDecrypt c))
    { out := decide (0 < n), length := some n }
  check s
  return (caller.written.getD []).take (caller.length.getD 0 - 1)

/-- `soci_secure_div` -/
def divCall (a b : Bytes) : EStateM Thrown (Api × DivCaller) Unit := do
  let s ← get
  require (s.1.experimental = true)
    (Thrown.logicError "experimental protocol disabled by default")
  divBody Api.divMaximum (Api.divResult a b)

def secureDiv (a b : Bytes) : CppM (Bytes × Bytes) := do
  let (s, c) ← call (divCall a b) { q := false, rem := false, ql := some 0, rl := some 0 }
  checkSize s
  let qn := c.ql.getD 0
  let rn := c.rl.getD 0
  let (s, c) ← call (divCall a b)
    { q := decide (0 < qn), rem := decide (0 < rn), ql := some qn, rl := some rn }
  check s
  return c.written.getD ([], [])

end Cpp

/-! ## One call -/

/-- The runtime is open, with a key. -/
structure Serving (k : OpenKey) (mode : UInt8) (experimental : Bool) (r : Process Api) : Prop where
  active : r.closed = false
  ready : r.state.Ready k mode experimental

variable {k : OpenKey} {p q : Nat} {mode : UInt8} {experimental : Bool} {r : Process Api}

section Call

variable {γ : Type} {body : EStateM Thrown (Api × γ) Unit} {caller caller' : γ} {s' : Api}

theorem call_ok (hactive : r.closed = false)
    (hbody : body (r.state, caller) = .ok () (s', caller')) :
    Cpp.call body caller r = .ok (.ok, caller') ⟨"", false, s'⟩ := by
  rcases r with ⟨error, closed, state⟩
  cases hactive
  have hguarded : guarded false body (state, caller) = .ok () (s', caller') := hbody
  have hrun : run ⟨error, false, (state, caller)⟩ body = (.ok, ⟨"", false, (s', caller')⟩) := by
    simp only [run, outcome, hguarded]
    rfl
  change EStateM.Result.ok _ _ = _
  dsimp only
  rw [hrun]
  rfl

theorem call_error {e : Thrown} (hactive : r.closed = false)
    (hbody : body (r.state, caller) = .error e (s', caller')) :
    Cpp.call body caller r = .ok (ownStatus (.error e), caller') ⟨e.what, false, s'⟩ := by
  rcases r with ⟨error, closed, state⟩
  cases hactive
  have hguarded : guarded false body (state, caller) = .error e (s', caller') := hbody
  have hrun : run ⟨error, false, (state, caller)⟩ body =
      (e.status, ⟨e.what, false, (s', caller')⟩) := by
    simp only [run, outcome, hguarded]
    rfl
  change EStateM.Result.ok _ _ = _
  dsimp only
  rw [hrun]
  rfl

end Call

/-- What a call with a buffer of `n` bytes leaves when its value has `R`. -/
inductive Answered (R : Bytes → Prop) (out : Bool) (n : Nat) : Status × Caller → Prop where
  | fits (v : Bytes) (hv : R v) (hn : v.length ≤ n) :
      Answered R out n (.ok, { out := out, length := some v.length, written := some v })
  | short (v : Bytes) (hv : R v) (hn : out = false ∨ n < v.length) :
      Answered R out n (.bufferTooSmall, { out := out, length := some v.length })

/-- The body runs, and the buffer is compared with its value. -/
theorem call_boutBody {f : ApiM Bytes} {R : Bytes → Prop}
    (hf : Yields (Api.Ready k mode experimental) f R Never) (out : Bool) (n : Nat)
    (hr : Serving k mode experimental r) :
    Triple (fun t => t = r) (Cpp.call (boutBody f) { out := out, length := some n })
      (fun answer r' => Answered (fun v => R v ∧ f r.state = .ok v r'.state) out n answer ∧
        Serving k mode experimental r') Never := by
  rintro r rfl
  rcases hf.returns hr.ready with ⟨v, s', hv, hR, hready⟩
  have hbody : boutBody f (r.state, { out := out, length := some n }) =
      output v (s', { out := out, length := some n }) := by
    refine bind_of_ok ?_
    simp only [onFst, hv]
  by_cases hsmall : out = false ∨ n < v.length
  · have hshort := hbody.trans (if_pos hsmall)
    rw [call_error hr.active hshort]
    exact ⟨.short v ⟨hR, hv⟩ hsmall, rfl, hready⟩
  · have hfits := hbody.trans (if_neg hsmall)
    rw [call_ok hr.active hfits]
    exact ⟨.fits v ⟨hR, hv⟩ (by omega), rfl, hready⟩

/-! ## A size that changes -/

/-- Outputs of one call, each longer than the one before; the first is longer than `n` bytes. -/
structure Growing (R : Bytes → Prop) (n : Nat) (vs : List Bytes) : Prop where
  outputs : ∀ v ∈ vs, R v
  lengths : (n :: vs.map List.length).IsChain (· < ·)

theorem Growing.cons {R : Bytes → Prop} {n : Nat} {v : Bytes} {vs : List Bytes} (hv : R v)
    (hn : n < v.length) (h : Growing R v.length vs) : Growing R n (v :: vs) :=
  ⟨List.forall_mem_cons.2 ⟨hv, h.outputs⟩, .cons_cons hn h.lengths⟩

/-- What a call yields, made again and again from the state `s` to the state `s'`. -/
inductive Outputs (f : ApiM Bytes) : Api → List Bytes → Api → Prop where
  | none (s : Api) : Outputs f s [] s
  | again {s t s' : Api} {v : Bytes} {vs : List Bytes} (hv : f s = .ok v t)
      (hvs : Outputs f t vs s') : Outputs f s (v :: vs) s'

/-- The one error of `bytes` on a call that works: made `count` times from the runtime `r`, the call
has yielded outputs that grew. -/
def SizeChanged (f : ApiM Bytes) (R : Bytes → Prop) (count n : Nat) (r : Process Api) (e : Error)
    (r' : Process Api) : Prop :=
  e = Error.backend "output size changed repeatedly" ∧
    ∃ vs, vs.length = count ∧ Growing R n vs ∧ Outputs f r.state vs r'.state

variable {f : ApiM Bytes} {R : Bytes → Prop}

theorem checkSize_short {α : Type} {g : PUnit → CppM α} {Q : α → Process Api → Prop}
    {E : Error → Process Api → Prop} {P : Process Api → Prop} (h : Triple P (g ⟨⟩) Q E) :
    Triple P (Cpp.checkSize .bufferTooSmall >>= g) Q E := by
  intro s hs
  exact h s hs

theorem check_ok {α : Type} {g : PUnit → CppM α} {Q : α → Process Api → Prop}
    {E : Error → Process Api → Prop} {P : Process Api → Prop} (h : Triple P (g ⟨⟩) Q E) :
    Triple P (Cpp.check .ok >>= g) Q E := by
  intro s hs
  exact h s hs

/-- One more output, longer than the buffer. -/
theorem SizeChanged.cons {v : Bytes} {count n : Nat} {r₁ r' : Process Api} {e : Error} (hv : R v)
    (hn : n < v.length) (hrun : f r.state = .ok v r₁.state)
    (h : SizeChanged f R count v.length r₁ e r') : SizeChanged f R (count + 1) n r e r' := by
  rcases h with ⟨he, vs, hvs, hgrowing, houtputs⟩
  exact ⟨he, v :: vs, congrArg Nat.succ hvs, hgrowing.cons hv hn, .again hrun houtputs⟩

theorem retry_spec (hf : Yields (Api.Ready k mode experimental) f R Never)
    (hR : ∀ v, R v → 0 < v.length) (tries : Nat) : ∀ n r, 0 < n → Serving k mode experimental r →
      Triple (fun t => t = r) (Cpp.retry f tries n)
        (fun v r' => R v ∧ Serving k mode experimental r')
        (fun e r' => SizeChanged f R tries n r e r' ∧ Serving k mode experimental r') := by
  induction tries with
  | zero =>
      rintro n r _ hr
      exact throw_at ⟨⟨rfl, [], rfl, ⟨by simp, .singleton n⟩, .none _⟩, hr⟩
  | succ tries ih =>
      intro n r hn hr
      refine (call_boutBody hf (decide (0 < n)) n hr).ofNever.bind fun answer => ?_
      refine Triple.of_each fun r₁ hanswer => ?_
      rcases hanswer with ⟨⟨v, ⟨hv, _⟩, hle⟩ | ⟨v, ⟨hv, hrun⟩, hshort⟩, hr₁⟩
      · exact pure_at ⟨hv, hr₁⟩
      · have hlt : n < v.length := by
          rcases hshort with hout | hlt
          · exact absurd hn (of_decide_eq_false hout)
          · exact hlt
        -- the next buffer has the size of this output
        refine checkSize_short ?_
        exact (ih v.length r₁ (hR v hv) hr₁).weaken (fun _ ht => ht) (fun _ _ hq => hq)
          fun _ _ he => ⟨he.1.cons hv hlt hrun, he.2⟩

/-- What `bytes` returns is an output of the call; it throws only when four of them grew. -/
theorem bytes_spec (hf : Yields (Api.Ready k mode experimental) f R Never)
    (hR : ∀ v, R v → 0 < v.length) (hr : Serving k mode experimental r) :
    Triple (fun t => t = r) (Cpp.bytes f)
      (fun v r' => R v ∧ Serving k mode experimental r')
      (fun e r' => SizeChanged f R 4 0 r e r' ∧ Serving k mode experimental r') := by
  refine (call_boutBody hf false 0 hr).ofNever.bind fun answer => ?_
  refine Triple.of_each fun r₁ hanswer => ?_
  rcases hanswer with ⟨⟨v, ⟨hv, _⟩, hle⟩ | ⟨v, ⟨hv, hrun⟩, _⟩, hr₁⟩
  · exact absurd (hR v hv) (Nat.not_lt.2 hle)
  · refine checkSize_short ?_
    exact (retry_spec hf hR 3 v.length r₁ (hR v hv) hr₁).weaken (fun _ ht => ht)
      (fun _ _ hq => hq) fun _ _ he => ⟨he.1.cons hv (hR v hv) hrun, he.2⟩

/-- A text that does not change is returned by the second call. -/
theorem decrypt_returns {c text : Bytes}
    (hf : Yields (Api.Ready k mode experimental) (Api.sociDecrypt c) (fun v => v = text) Never) :
    Yields (Serving k mode experimental) (Cpp.decrypt c) (fun v => v = text) Never := by
  have hbody : Yields (Api.Ready k mode experimental) (do
      let z ← Api.sociDecrypt c
      return z ++ [0]) (fun v => v = text ++ [0]) Never :=
    hf.bind fun z hz => Yields.pure (congrArg (· ++ [0]) hz)
  have hlen : (text ++ [0]).length = text.length + 1 := List.length_append
  unfold Cpp.decrypt decryptBody
  refine Triple.of_each fun r hr => ?_
  refine (call_boutBody hbody false 0 hr).bind fun answer => Triple.of_each fun r₁ hanswer => ?_
  rcases hanswer with ⟨⟨v, ⟨hv, _⟩, hle⟩ | ⟨v, ⟨hv, _⟩, _⟩, hr₁⟩
  · rw [hv, hlen] at hle
    exact absurd hle (Nat.not_succ_le_zero _)
  subst hv
  refine checkSize_short ?_
  refine (call_boutBody hbody _ _ hr₁).bind fun answer => Triple.of_each fun r₂ hanswer => ?_
  rcases hanswer with ⟨⟨v, ⟨hv, _⟩, _⟩ | ⟨v, ⟨hv, _⟩, hshort⟩, hr₂⟩
  · subst hv
    refine check_ok (pure_at ⟨?_, hr₂⟩)
    change (text ++ [0]).take ((text ++ [0]).length - 1) = text
    rw [hlen, Nat.add_sub_cancel]
    exact List.take_left' rfl
  · subst hv
    rcases hshort with hout | hlt
    · exact absurd (hlen ▸ Nat.succ_pos _) (of_decide_eq_false hout)
    · exact absurd hlt (Nat.lt_irrefl _)

/-! ## Calculations -/

/-- A text with the integer that `set_str` reads from it, up to its first zero byte. -/
structure DecimalText where
  text : Bytes
  value : Int
  reads : setStr (cString text) = some value

/-- An expression over the members of the class that return one ciphertext. -/
inductive Calculation where
  | encrypt (m : DecimalText)
  | add (a b : Calculation)
  | scalarMul (a : Calculation) (scalar : DecimalText)
  | secureMul (a b : Calculation)
  | secureCompare (a b : Calculation)
  | secureSignBit (a : Calculation)
  | secureAbs (a : Calculation)

namespace Calculation

def eval : Calculation → CppM Bytes
  | encrypt m => Cpp.encrypt m.text
  | add a b => do
      let x ← a.eval
      let y ← b.eval
      Cpp.add x y
  | scalarMul a scalar => do
      let x ← a.eval
      Cpp.scalarMul x scalar.text
  | secureMul a b => do
      let x ← a.eval
      let y ← b.eval
      Cpp.secureMul x y
  | secureCompare a b => do
      let x ← a.eval
      let y ← b.eval
      Cpp.secureCompare x y
  | secureSignBit a => do
      let x ← a.eval
      Cpp.secureSignBit x
  | secureAbs a => do
      let x ← a.eval
      Cpp.secureAbs x

def value : Calculation → Int
  | encrypt m => m.value
  | add a b => a.value + b.value
  | scalarMul a scalar => scalar.value * a.value
  | secureMul a b => a.value * b.value
  | secureCompare a b => lessBit b.value a.value
  | secureSignBit a => lessBit a.value 0
  | secureAbs a => |a.value|

/-- The protocols are built in where they are used, and what they compare can be masked. -/
def Admissible (experimental : Bool) (n : Nat) : Calculation → Prop
  | encrypt _ => True
  | add a b => a.Admissible experimental n ∧ b.Admissible experimental n
  | scalarMul a _ => a.Admissible experimental n
  | secureMul a b => experimental = true ∧ a.Admissible experimental n ∧
      b.Admissible experimental n
  | secureCompare a b => experimental = true ∧ Comparable n b.value a.value ∧
      a.Admissible experimental n ∧ b.Admissible experimental n
  | secureSignBit a => experimental = true ∧ Comparable n a.value 0 ∧ a.Admissible experimental n
  | secureAbs a => experimental = true ∧ Comparable n a.value 0 ∧ a.Admissible experimental n

/-- The calculations whose ciphertexts a call takes, in their order. -/
def operands : Calculation → List Calculation
  | encrypt _ => []
  | scalarMul a _ | secureSignBit a | secureAbs a => [a]
  | add a b | secureMul a b | secureCompare a b => [a, b]

/-- The call of the C API, on the ciphertexts of the operands. -/
def apiCall (cs : List Bytes) : Calculation → ApiM Bytes
  | encrypt m => Api.sociEncrypt (cString m.text)
  | add _ _ => Api.sociAdd (cs.getD 0 []) (cs.getD 1 [])
  | scalarMul _ scalar => Api.sociScalarMul (cs.getD 0 []) (cString scalar.text)
  | secureMul _ _ => Api.sociSecureMul (cs.getD 0 []) (cs.getD 1 [])
  | secureCompare _ _ => Api.sociSecureCompare (cs.getD 0 []) (cs.getD 1 [])
  | secureSignBit _ => Api.sociSecureSignBit (cs.getD 0 [])
  | secureAbs _ => Api.sociSecureAbs (cs.getD 0 [])

/-- The calculations return these ciphertexts, one after the other. -/
inductive Evaluates : List Calculation → Process Api → List Bytes → Process Api → Prop where
  | none (r : Process Api) : Evaluates [] r [] r
  | next {a : Calculation} {as : List Calculation} {c : Bytes} {cs : List Bytes}
      {r r₁ r' : Process Api} (ha : a.eval r = .ok c r₁) (has : Evaluates as r₁ cs r') :
      Evaluates (a :: as) r (c :: cs) r'

/-- The evaluation from `r` comes to the runtime `r'`, where it makes the call `f` for the
calculation `a`: the whole one, or one that it has as an operand. -/
inductive Reaches : Calculation → Process Api → Calculation → ApiM Bytes → Process Api → Prop where
  | call {e : Calculation} {cs : List Bytes} {r r' : Process Api}
      (h : Evaluates e.operands r cs r') : Reaches e r e (e.apiCall cs) r'
  | operand {e b a : Calculation} {i : Nat} {cs : List Bytes} {f : ApiM Bytes}
      {r r₁ r' : Process Api} (hb : e.operands[i]? = some b)
      (h : Evaluates (e.operands.take i) r cs r₁) (ha : Reaches b r₁ a f r') : Reaches e r a f r'

variable {e b : Calculation} {cs : List Bytes} {r r' : Process Api}

/-- After its operands a calculation makes its call. -/
theorem eval_eq (h : Evaluates e.operands r cs r') : e.eval r = Cpp.bytes (e.apiCall cs) r' := by
  cases e with
  | encrypt m =>
      cases h
      rfl
  | scalarMul a _ | secureSignBit a | secureAbs a =>
      rcases h with _ | ⟨ha, _ | _⟩
      exact bind_of_ok ha
  | add a b | secureMul a b | secureCompare a b =>
      rcases h with _ | ⟨ha, _ | ⟨hb, _ | _⟩⟩
      exact (bind_of_ok ha).trans (bind_of_ok hb)

/-- An operand that throws ends the calculation. -/
theorem eval_error {i : Nat} {r₁ : Process Api} {err : Error} (hb : e.operands[i]? = some b)
    (h : Evaluates (e.operands.take i) r cs r₁) (herr : b.eval r₁ = .error err r') :
    e.eval r = .error err r' := by
  cases e with
  | encrypt m => cases hb
  | scalarMul a _ | secureSignBit a | secureAbs a =>
      rcases i with _ | i
      · cases hb
        cases h
        exact bind_of_error herr
      · cases hb
  | add a b | secureMul a b | secureCompare a b =>
      rcases i with _ | _ | i
      · cases hb
        cases h
        exact bind_of_error herr
      · cases hb
        rcases h with _ | ⟨ha, _ | _⟩
        exact (bind_of_ok ha).trans (bind_of_error herr)
      · cases hb

end Calculation

/-- The one way in which a calculation fails: the outputs of one of its calls grew four times. -/
def Repeated (k : OpenKey) (mode : UInt8) (experimental : Bool) (e : Calculation)
    (r : Process Api) (err : Error) (r' : Process Api) : Prop :=
  (∃ a f r₀, e.Reaches r a f r₀ ∧ SizeChanged f (k.Holds mode a.value) 4 0 r₀ err r') ∧
    Serving k mode experimental r'

/-- From every runtime that serves, a calculation returns a ciphertext of its value, or it fails in
the one way. -/
def Calculation.Computed (k : OpenKey) (mode : UInt8) (experimental : Bool) (e : Calculation) :
    Prop :=
  ∀ r, Serving k mode experimental r → Triple (fun t => t = r) e.eval
    (fun c r' => k.Holds mode e.value c ∧ Serving k mode experimental r')
    (Repeated k mode experimental e r)

/-- The operands return, or one of them fails. -/
theorem operands_computed {as : List Calculation}
    (h : ∀ a ∈ as, a.Computed k mode experimental) : ∀ r, Serving k mode experimental r →
      (∃ cs r', Calculation.Evaluates as r cs r' ∧
        List.Forall₂ (fun a c => k.Holds mode a.value c) as cs ∧
        Serving k mode experimental r') ∨
      ∃ i b cs r₁ err r', as[i]? = some b ∧ Calculation.Evaluates (as.take i) r cs r₁ ∧
        b.eval r₁ = .error err r' ∧ Repeated k mode experimental b r₁ err r' := by
  induction as with
  | nil => exact fun r hr => Or.inl ⟨[], r, .none r, .nil, hr⟩
  | cons a as ih =>
      intro r hr
      rcases (h a List.mem_cons_self r hr).run rfl with
        ⟨c, r₁, hrun, hc, hr₁⟩ | ⟨err, r', hrun, herr⟩
      · rcases ih (fun b hb => h b (List.mem_cons_of_mem a hb)) r₁ hr₁ with
          ⟨cs, r', hrest, hcs, hr'⟩ | ⟨i, b, cs, r₂, err, r', hb, hrest, hfails⟩
        · exact Or.inl ⟨c :: cs, r', .next hrun hrest, .cons hc hcs, hr'⟩
        · exact Or.inr ⟨i + 1, b, c :: cs, r₂, err, r', hb, .next hrun hrest, hfails⟩
      · exact Or.inr ⟨0, a, [], r, err, r', rfl, .none r, hrun, herr⟩

section Calculations

variable (h : k.Generated p q)
include h

/-- A calculation is computed when its operands are and its call works on their ciphertexts. -/
theorem Calculation.computed_of {e : Calculation}
    (hoperands : ∀ a ∈ e.operands, a.Computed k mode experimental)
    (hcall : ∀ cs, List.Forall₂ (fun a c => k.Holds mode a.value c) e.operands cs →
      Yields (Api.Ready k mode experimental) (e.apiCall cs) (k.Holds mode e.value) Never) :
    e.Computed k mode experimental := by
  have hpos : ∀ v, k.Holds mode e.value v → 0 < v.length := fun v hv =>
    lt_of_lt_of_le (by decide) (hv.length h).1
  rintro r hr _ rfl
  rcases operands_computed hoperands _ hr with
    ⟨cs, r', hevaluates, hcs, hr'⟩ | ⟨i, b, cs, r₁, err, r', hb, hevaluates, hfails, hrepeated⟩
  · rw [eval_eq hevaluates]
    exact (bytes_spec (hcall cs hcs) hpos hr').weaken (fun _ ht => ht) (fun _ _ hq => hq)
      (fun _ _ he => ⟨⟨_, _, _, .call hevaluates, he.1⟩, he.2⟩) r' rfl
  · rw [eval_error hb hevaluates hfails]
    rcases hrepeated with ⟨⟨a, f, r₀, hreaches, hchanged⟩, hserving⟩
    exact ⟨⟨a, f, r₀, .operand hb hevaluates hreaches, hchanged⟩, hserving⟩

theorem Calculation.computed_unary {e a : Calculation} (hops : e.operands = [a])
    (ha : a.Computed k mode experimental)
    (hcall : ∀ x, k.Holds mode a.value x →
      Yields (Api.Ready k mode experimental) (e.apiCall [x]) (k.Holds mode e.value) Never) :
    e.Computed k mode experimental := by
  refine computed_of h ?_ ?_
  · rw [hops]
    exact List.forall_mem_singleton.2 ha
  · rw [hops]
    rintro cs (_ | ⟨hx, _ | _⟩)
    exact hcall _ hx

theorem Calculation.computed_binary {e a b : Calculation} (hops : e.operands = [a, b])
    (ha : a.Computed k mode experimental) (hb : b.Computed k mode experimental)
    (hcall : ∀ x y, k.Holds mode a.value x → k.Holds mode b.value y →
      Yields (Api.Ready k mode experimental) (e.apiCall [x, y]) (k.Holds mode e.value) Never) :
    e.Computed k mode experimental := by
  refine computed_of h ?_ ?_
  · rw [hops]
    exact List.forall_mem_cons.2 ⟨ha, List.forall_mem_singleton.2 hb⟩
  · rw [hops]
    rintro cs (_ | ⟨hx, _ | ⟨hy, _ | _⟩⟩)
    exact hcall _ _ hx hy

theorem Calculation.eval_spec (e : Calculation)
    (hadmissible : e.Admissible experimental k.key.pub.n) : e.Computed k mode experimental := by
  induction e with
  | encrypt m =>
      exact computed_of h (fun _ ha => absurd ha List.not_mem_nil) fun _ _ =>
        Api.sociEncrypt_spec h m.reads
  | add a b iha ihb =>
      exact computed_binary h rfl (iha hadmissible.1) (ihb hadmissible.2) fun _ _ hx hy =>
        Api.sociAdd_spec h hx hy
  | scalarMul a scalar ih =>
      exact computed_unary h rfl (ih hadmissible) fun _ hx =>
        Api.sociScalarMul_spec h hx scalar.reads
  | secureMul a b iha ihb =>
      rcases hadmissible with ⟨rfl, ha, hb⟩
      exact computed_binary h rfl (iha ha) (ihb hb) fun _ _ hx hy =>
        Api.sociSecureMul_spec h hx hy
  | secureCompare a b iha ihb =>
      rcases hadmissible with ⟨rfl, hcomparable, ha, hb⟩
      exact computed_binary h rfl (iha ha) (ihb hb) fun _ _ hx hy =>
        Api.sociSecureCompare_spec h hx hy hcomparable
  | secureSignBit a ih =>
      rcases hadmissible with ⟨rfl, hcomparable, ha⟩
      exact computed_unary h rfl (ih ha) fun _ hx => Api.sociSecureSignBit_spec h hx hcomparable
  | secureAbs a ih =>
      rcases hadmissible with ⟨rfl, hcomparable, ha⟩
      exact computed_unary h rfl (ih ha) fun _ hx => Api.sociSecureAbs_spec h hx hcomparable

/-- The text of a ciphertext is that of the signed residue, and of a plaintext that is small. -/
theorem decrypt_holds {m : Int} {c : Bytes} (hc : k.Holds mode m c) :
    Yields (Serving k mode experimental) (Cpp.decrypt c)
      (fun text => text = getStr (signedResidue k.key.pub.n (m % k.key.pub.n)) ∧
        (2 * |m| + 1 < k.key.pub.n → setStr text = some m)) Never := by
  refine (decrypt_returns (Api.sociDecrypt_spec h hc)).post ?_
  rintro text rfl
  refine ⟨rfl, fun hsmall => ?_⟩
  have hodd : Odd k.key.pub.n := h.derived.modulus ▸ odd_modulus h.primes
  have habs := abs_le.1 (le_refl |m|)
  have hresidue : signedResidue k.key.pub.n (m % k.key.pub.n) = m := by
    rcases hodd with ⟨j, hj⟩
    exact (signedResidue_emod ⟨j, hj⟩ (by omega) (by omega)).2 (by omega)
  rw [hresidue]
  exact setStr_getStr m

end Calculations

/-! ## The division -/

section Division

variable {a b : Bytes} {s s' : Api} {c : DivCaller}

/-- The size that the class allocates for a quotient and for a remainder. -/
def OpenKey.divMaximum (k : OpenKey) : Nat :=
  12 + (2 * k.key.info.modulusBits.toNat + 7) / 8

/-- A caller with two buffers of `n` bytes. -/
def DivCaller.buffers (n : Nat) : DivCaller :=
  { q := true, rem := true, ql := some n, rl := some n }

/-- The same caller with what was written. -/
def DivCaller.filled (qr : Bytes × Bytes) : DivCaller where
  q := true
  rem := true
  ql := some qr.1.length
  rl := some qr.2.length
  written := some qr

theorem divMaximum_of (hs : s.Ready k mode experimental) :
    Api.divMaximum s = .ok k.divMaximum s := by
  have hneed : Api.need s = .ok k s := by
    have hget : (get : ApiM Api) s = .ok s s := rfl
    unfold Api.need
    rw [bind_of_ok hget, hs.opened]
    rfl
  exact bind_of_ok hneed

/-- The body of the division after its first checks. -/
theorem divCall_of (hs : s.Ready k mode true) {ql rl : Nat} (hql : c.ql = some ql)
    (hrl : c.rl = some rl) :
    Cpp.divCall a b (s, c) =
      (if c.q = false ∨ c.rem = false then
        divTooSmall k.divMaximum
      else do
        let qr ← onFst (Api.divResult a b)
        if ql < qr.1.length ∨ rl < qr.2.length then
          divTooSmall k.divMaximum
        else
          update fun c => { c with
            ql := some qr.1.length, rl := some qr.2.length, written := some qr }) (s, c) := by
  have hget : (get : EStateM Thrown (Api × DivCaller) (Api × DivCaller)) (s, c) =
      .ok (s, c) (s, c) := rfl
  have hmaximum : (onFst Api.divMaximum : EStateM Thrown (Api × DivCaller) Nat) (s, c) =
      .ok k.divMaximum (s, c) := by
    simp only [onFst, divMaximum_of hs]
  have hlocals : (locals : EStateM Thrown (Api × DivCaller) DivCaller) (s, c) = .ok c (s, c) := rfl
  unfold Cpp.divCall divBody
  rw [bind_of_ok hget, bind_of_ok (require_of_pos hs.experimental), bind_of_ok hmaximum,
    bind_of_ok hlocals, hql, hrl]

/-- The call without buffers sets both lengths. -/
theorem divCall_sizes (hr : Serving k mode true r) :
    Cpp.call (Cpp.divCall a b) { q := false, rem := false, ql := some 0, rl := some 0 } r =
      .ok (.bufferTooSmall,
        { q := false, rem := false, ql := some k.divMaximum, rl := some k.divMaximum })
        ⟨"buffer too small", false, r.state⟩ := by
  refine call_error (e := .logicError "buffer too small") hr.active ?_
  rw [divCall_of hr.ready rfl rfl]
  rfl

/-- The call with buffers of these sizes divides. -/
theorem divCall_divides {qr : Bytes × Bytes} (hr : Serving k mode true r)
    (hresult : Api.divResult a b r.state = .ok qr s')
    (hq : qr.1.length ≤ k.divMaximum) (hrem : qr.2.length ≤ k.divMaximum) :
    Cpp.call (Cpp.divCall a b) (.buffers k.divMaximum) r =
      .ok (.ok, .filled qr) ⟨"", false, s'⟩ := by
  refine call_ok hr.active ?_
  have hfst : ∀ c : DivCaller, onFst (Api.divResult a b) (r.state, c) = .ok qr (s', c) := by
    intro c
    simp only [onFst, hresult]
  have hgiven : ¬ (true = false ∨ true = false) := by decide
  rw [divCall_of hr.ready rfl rfl]
  refine (congrFun (if_neg hgiven) _).trans ?_
  rw [bind_of_ok (hfst _), if_neg (by omega)]
  rfl

theorem divCall_throws {e : Thrown} (hr : Serving k mode true r)
    (hresult : Api.divResult a b r.state = .error e s') :
    Cpp.call (Cpp.divCall a b) (.buffers k.divMaximum) r =
      .ok (ownStatus (.error e), .buffers k.divMaximum) ⟨e.what, false, s'⟩ := by
  refine call_error hr.active ?_
  have hgiven : ¬ (true = false ∨ true = false) := by decide
  rw [divCall_of hr.ready rfl rfl]
  refine (congrFun (if_neg hgiven) _).trans ?_
  change EStateM.bind _ _ _ = _
  simp only [EStateM.bind, onFst, hresult]

/-- The runtime after the call that asks for the sizes. -/
def Process.sized (r : Process Api) : Process Api :=
  ⟨"buffer too small", false, r.state⟩

/-- The two calls of `secure_div` become one with buffers of the size that was asked for. -/
theorem secureDiv_eq (hr : Serving k mode true r) :
    Cpp.secureDiv a b r = (do
      let (s, c) ← Cpp.call (Cpp.divCall a b) (.buffers k.divMaximum)
      Cpp.check s
      return c.written.getD ([], [])) r.sized := by
  have hpos : 0 < k.divMaximum := lt_of_lt_of_le (by decide) (Nat.le_add_right 12 _)
  have hbuffers : ({ q := decide (0 < k.divMaximum), rem := decide (0 < k.divMaximum)
                     ql := some k.divMaximum, rl := some k.divMaximum } : DivCaller) =
      .buffers k.divMaximum := by
    rw [decide_eq_true hpos]
    rfl
  unfold Cpp.secureDiv
  rw [bind_of_ok (divCall_sizes hr), ← hbuffers]
  rfl

variable (h : k.Generated p q)
include h

/-- The buffers are large enough for every quotient and remainder. -/
theorem secureDiv_spec {x y : Nat} (hr : Serving k mode true r) (ha : k.Holds mode x a)
    (hb : k.Holds mode y b) (hpos : 1 ≤ y) (hx : x * 2 ^ 130 < k.key.pub.n)
    (hy : y * 2 ^ 21 * 2 ^ 130 < k.key.pub.n) :
    ∃ qr r', Cpp.secureDiv a b r = .ok qr r' ∧ Api.Divided k mode x y qr ∧
      Serving k mode true r' := by
  have hsized : Serving k mode true r.sized := ⟨rfl, hr.ready⟩
  rcases (Api.divResult_spec h ha hb hpos hx hy).returns hr.ready with
    ⟨qr, s', hresult, hdivided, hready⟩
  have hcall := divCall_divides hsized hresult (hdivided.quotient.length h).2
    (hdivided.rem.length h).2
  refine ⟨qr, ⟨"", false, s'⟩, ?_, hdivided, rfl, hready⟩
  rw [secureDiv_eq hr, bind_of_ok hcall]
  rfl

theorem secureDiv_refuses {x y : Int} (hr : Serving k mode true r) (ha : k.Holds mode x a)
    (hb : k.Holds mode y b) (hy : y ≤ 0) (hcomparable : Comparable k.key.pub.n y 1) :
    ∃ r', Cpp.secureDiv a b r = .error (Error.backend "divisor must be positive") r' ∧
      Serving k mode true r' := by
  have hsized : Serving k mode true r.sized := ⟨rfl, hr.ready⟩
  rcases (Api.divResult_refuses h ha hb hy hcomparable).run hr.ready with
    ⟨_, _, _, hfalse⟩ | ⟨e, s', hresult, he, hready⟩
  · exact hfalse.elim
  subst he
  have hcall := divCall_throws hsized hresult
  refine ⟨⟨"divisor must be positive", false, s'⟩, ?_, rfl, hready⟩
  rw [secureDiv_eq hr, bind_of_ok hcall]
  rfl

end Division

/-! ## What a program over the class sees -/

/-- Every calculation that returns decrypts to its value, read as a signed residue.  One that throws
made a call four times in a row, and the ciphertexts that the call yielded grew. -/
theorem calculation_decrypts (k : OpenKey) (p q : Nat) (h : k.Generated p q) (mode : UInt8)
    (experimental : Bool) (e : Calculation) (hadmissible : e.Admissible experimental k.key.pub.n)
    (r : Process Api) (hr : Serving k mode experimental r) :
    (∃ c r₁ text r₂, e.eval r = .ok c r₁ ∧ Cpp.decrypt c r₁ = .ok text r₂ ∧
      text = getStr (signedResidue k.key.pub.n (e.value % k.key.pub.n)) ∧
      (2 * |e.value| + 1 < k.key.pub.n → setStr text = some e.value) ∧
      Serving k mode experimental r₂) ∨
    ∃ a f r₀ vs r₁, e.eval r = .error (Error.backend "output size changed repeatedly") r₁ ∧
      e.Reaches r a f r₀ ∧ Outputs f r₀.state vs r₁.state ∧ vs.length = 4 ∧
      Growing (k.Holds mode a.value) 0 vs ∧ Serving k mode experimental r₁ := by
  rcases (e.eval_spec h hadmissible r hr).run rfl with
    ⟨c, r₁, hc, hholds, hr₁⟩ | ⟨_, r₁, hc, ⟨a, f, r₀, hreaches, rfl, vs, hvs, hgrew, hf⟩, hr₁⟩
  · refine Or.inl ?_
    rcases (decrypt_holds h hholds).returns hr₁ with ⟨text, r₂, htext, ⟨hvalue, hsmall⟩, hr₂⟩
    exact ⟨c, r₁, text, r₂, hc, htext, hvalue, hsmall, hr₂⟩
  · exact Or.inr ⟨a, f, r₀, vs, r₁, hc, hreaches, hf, hvs, hgrew, hr₁⟩

/-! ### A key of 3072 bits -/

/-- The draws that take one wherever they can. -/
def CallDraw.ones {n : Nat} (hn : 1 < n) : CallDraw n :=
  let nonce : Nonce n := ⟨1, Nat.one_pos, hn, Nat.coprime_one_left n⟩
  let one : Random128 := ⟨1, le_rfl, by decide⟩
  let less : LessDraw n := ⟨⟨2, by decide, by decide⟩, one, by decide, false, nonce, nonce, nonce⟩
  let mul : MulDraw n := ⟨one, one, nonce, nonce, nonce, nonce⟩
  { nonce := nonce
    mul := mul
    less := less
    sign := ⟨nonce, less⟩
    abs := ⟨⟨nonce, less⟩, nonce, mul⟩
    div := ⟨nonce, less, nonce, nonce, fun _ => ⟨less, mul⟩⟩ }

theorem exists_generated_3072 : ∃ k : OpenKey, k.Generated leftPrime rightPrime ∧
    k.key.pub.n = leftPrime * rightPrime := by
  rcases deriveKey_spec keyPrimes_3072 with ⟨key, _, hkey⟩
  have hn : 1 < key.pub.n := by
    rw [hkey.modulus]
    exact keyPrimes_3072.one_lt
  have hsize : sizeInBase2 key.pub.n ≤ (3072 : UInt32).toNat := by
    rw [hkey.modulus]
    decide +kernel
  have hbits : (3072 : UInt32).toNat ≤ 8192 := by decide
  refine ⟨⟨⟨key, { modulusBits := 3072 }⟩, fun _ => CallDraw.ones hn⟩, ?_, hkey.modulus⟩
  exact ⟨keyPrimes_3072, hkey, hsize, hbits⟩

def DecimalText.literal (z : Int) (h : setStr (cString (getStr z)) = some z) : DecimalText :=
  ⟨getStr z, z, h⟩

/-- The absolute value of `7 * (-5) + 3` is 32. -/
theorem calculation_decrypts_3072 : ∃ (r : Process Api) (e : Calculation),
    e.value = 32 ∧ ((∃ c r₁ text r₂, e.eval r = .ok c r₁ ∧ Cpp.decrypt c r₁ = .ok text r₂ ∧
      setStr text = some 32) ∨
    ∃ r₁, e.eval r = .error (Error.backend "output size changed repeatedly") r₁) := by
  rcases exists_generated_3072 with ⟨k, hk, hn⟩
  let e : Calculation := .secureAbs (.add (.scalarMul (.encrypt (.literal (-5) (by decide)))
    (.literal 7 (by decide))) (.encrypt (.literal 3 (by decide))))
  let r : Process Api := ⟨"", false, ⟨0, true, some k, 0⟩⟩
  have hvalue : e.value = 32 := by decide
  have hlarge : (33 : Int) * 2 ^ 129 ≤ (leftPrime * rightPrime : Nat) := by decide +kernel
  have hadmissible : e.Admissible true k.key.pub.n := by
    refine ⟨rfl, ?_, trivial, trivial⟩
    rw [hn]
    exact hlarge
  have hsmall : 2 * |(32 : Int)| + 1 < k.key.pub.n := by
    rw [hn]
    exact lt_of_lt_of_le (by decide) hlarge
  refine ⟨r, e, hvalue, ?_⟩
  rcases calculation_decrypts k leftPrime rightPrime hk 0 true e hadmissible r
    ⟨rfl, rfl, rfl, rfl⟩ with ⟨c, r₁, text, r₂, hc, htext, _, hread, _⟩ | ⟨_, _, _, _, r₁, hc, _⟩
  · rw [hvalue] at hread
    exact Or.inl ⟨c, r₁, text, r₂, hc, htext, hread hsmall⟩
  · exact Or.inr ⟨r₁, hc⟩

end Runtime
end SociSgx

import SociSgx.Secure.PredicateEngine

/-!
# EngineThreads — concurrent calls of one engine

Any number of threads call `pruneNode` and `acceptCandidate` of one engine.  A call has four steps:
what it computes before the authorization, the authorization, the guarded insertion, and the
reveal.  Between two steps of a call other calls may take steps, and the backend, the authorizer and
the resolver may change their own state in any way.
-/

namespace SociSgx
namespace Secure

open Exec

variable {σ C : Type}

/-! ## The parts of a call -/

/-- What a caller passes next to the context. -/
inductive Request (C : Type) where
  | prune (inputs : PruneInputs C)
  | accept (inputs : AcceptInputs C)

/-- The predicate type of the entry point. -/
def Request.type : Request C → PredicateType
  | .prune _ => .pruneNode
  | .accept _ => .acceptCandidate

namespace PredicateEngine

variable (e : PredicateEngine σ C)

/-- The part of `authorizeAndConsume` before the insertion. -/
def authorize (context : PredicateContext) (expectedType : PredicateType) :
    SecureM (EngineWorld σ) Unit := do
  validate context
  require (context.predicateType = expectedType)
    (Error.predicate "predicate context type does not match operation")
  let authorized ← onFst (e.authorizer context)
  require (authorized = true) (Error.predicate "predicate evaluation denied")

theorem authorizeAndConsume_eq (context : PredicateContext) (expectedType : PredicateType) :
    e.authorizeAndConsume context expectedType = (do
      e.authorize context expectedType
      consume (replayKey context)) := by
  simp only [authorizeAndConsume, authorize, bind_assoc]

variable [CiphertextLike C]

def call (context : PredicateContext) : Request C → SecureM (EngineWorld σ) Bool
  | .prune inputs => e.pruneNode context inputs
  | .accept inputs => e.acceptCandidate context inputs

/-- The part of a call before `authorizeAndConsume`.  Its value is the call that reveals the bit. -/
def prepare (context : PredicateContext) : Request C → SecureM (EngineWorld σ) (SecureM σ Bool)
  | .prune inputs => do
      match ← e.fusedBackend with
      -- a fused backend computes and reveals in one call, so nothing is computed here
      | some fused =>
          require (inputs.hasIncumbent →
              CiphertextLike.empty inputs.incumbentCost = false ∧ inputs.costLowers.isEmpty = false)
            (Error.predicate "missing incumbent cost or cost lower bounds")
          return fused.fusedPruneNode context inputs
      | none =>
          let finalBit ← onFst (pruneBit e.ops inputs)
          return e.resolver context finalBit
  | .accept inputs => do
      match ← e.fusedBackend with
      | some fused =>
          require (inputs.hasIncumbent → CiphertextLike.empty inputs.incumbentCost = false ∧
              CiphertextLike.empty inputs.incumbentC12 = false)
            (Error.predicate "missing incumbent values")
          return fused.fusedAcceptCandidate context inputs
      | none =>
          let finalBit ← onFst (acceptBit e.ops inputs)
          return e.resolver context finalBit

/-- Both entry points protect their reveal in the same way. -/
theorem call_eq (context : PredicateContext) (request : Request C) :
    e.call context request = (do
      let reveal ← e.prepare context request
      e.authorize context request.type
      consume (replayKey context)
      onFst reveal) := by
  cases request with
  | prune inputs =>
      simp only [call, pruneNode, prepare, evaluateFinalBit, authorizeAndConsume_eq, Request.type,
        bind_assoc]
      refine bind_congr fun found => ?_
      cases found <;> simp only [bind_assoc, pure_bind]
  | accept inputs =>
      simp only [call, acceptCandidate, prepare, evaluateFinalBit, authorizeAndConsume_eq,
        Request.type, bind_assoc]
      refine bind_congr fun found => ?_
      cases found <;> simp only [bind_assoc, pure_bind]

end PredicateEngine

/-! ## Threads -/

/-- How far a call is. -/
inductive Phase (σ : Type) where
  | preparing
  | authorizing (reveal : SecureM σ Bool)
  | consuming (reveal : SecureM σ Bool)
  | revealing (reveal : SecureM σ Bool)
  | finished (result : Except Error Bool)

structure Thread (σ C : Type) where
  context : PredicateContext
  request : Request C
  phase : Phase σ

inductive EventKind where
  | authorized
  | consumed
  | revealed
  deriving DecidableEq, Repr

/-- What a thread has done; `entry` is the type of its entry point. -/
structure Event where
  kind : EventKind
  thread : Nat
  context : PredicateContext
  entry : PredicateType
  deriving DecidableEq, Repr

/-- The world of the engine, the calls that were ever made, and what happened, newest first. -/
structure Machine (σ C : Type) where
  world : EngineWorld σ
  threads : List (Thread σ C)
  log : List Event

inductive Move (σ C : Type) where
  /-- A new call. -/
  | call (context : PredicateContext) (request : Request C)
  /-- The next step of a call. -/
  | step (thread : Nat)
  /-- Something else changes the state of the backend. -/
  | environment (state : σ)

/-- A step that returns goes on with `next` and is logged; one that throws ends the call. -/
def Phase.after {α : Type} (next : α → Phase σ) (kind : Option EventKind) :
    EStateM.Result Error (EngineWorld σ) α → EngineWorld σ × Phase σ × Option EventKind
  | .ok a w => (w, next a, kind)
  | .error err w => (w, .finished (.error err), none)

section

variable [CiphertextLike C] (e : PredicateEngine σ C)

def Thread.step (t : Thread σ C) (w : EngineWorld σ) :
    EngineWorld σ × Phase σ × Option EventKind :=
  match t.phase with
  | .preparing => Phase.after Phase.authorizing none (e.prepare t.context t.request w)
  | .authorizing reveal =>
      Phase.after (fun _ => Phase.consuming reveal) (some .authorized)
        (e.authorize t.context t.request.type w)
  | .consuming reveal =>
      Phase.after (fun _ => Phase.revealing reveal) (some .consumed)
        (PredicateEngine.consume (replayKey t.context) w)
  | .revealing reveal =>
      -- The attempt counts, whether the reveal returns or throws.
      match onFst reveal w with
      | .ok bit w' => (w', .finished (.ok bit), some .revealed)
      | .error err w' => (w', .finished (.error err), some .revealed)
  | .finished result => (w, .finished result, none)

def Thread.event (t : Thread σ C) (i : Nat) (kind : EventKind) : Event :=
  { kind := kind, thread := i, context := t.context, entry := t.request.type }

def Machine.step (m : Machine σ C) : Move σ C → Machine σ C
  | .call context request => { m with threads := m.threads ++ [⟨context, request, .preparing⟩] }
  | .step i =>
      match m.threads[i]? with
      | none => m
      | some t =>
          let (w, phase, kind) := t.step e m.world
          { world := w
            threads := m.threads.set i { t with phase := phase }
            log := (kind.map (t.event i)).toList ++ m.log }
  | .environment state => { m with world := (state, m.world.2) }

def Machine.run (m : Machine σ C) (moves : List (Move σ C)) : Machine σ C :=
  moves.foldl (Machine.step e) m

end

/-- A new engine. -/
def Machine.fresh (state : σ) : Machine σ C :=
  { world := (state, []), threads := [], log := [] }

/-! ## One call alone -/

/-- The world and the phase after a step of the only thread. -/
theorem step_alone [CiphertextLike C] (e : PredicateEngine σ C) (t : Thread σ C)
    (w : EngineWorld σ) (log : List Event) :
    ∃ log', (Machine.mk w [t] log).step e (.step 0) =
      ⟨(t.step e w).1, [{ t with phase := (t.step e w).2.1 }], log'⟩ :=
  ⟨_, rfl⟩

/-- What the remaining steps of a call do when nobody interrupts them. -/
def Phase.rest [CiphertextLike C] (e : PredicateEngine σ C) (context : PredicateContext)
    (request : Request C) : Phase σ → SecureM (EngineWorld σ) Bool
  | .preparing => do
      let reveal ← e.prepare context request
      e.authorize context request.type
      PredicateEngine.consume (replayKey context)
      onFst reveal
  | .authorizing reveal => do
      e.authorize context request.type
      PredicateEngine.consume (replayKey context)
      onFst reveal
  | .consuming reveal => do
      PredicateEngine.consume (replayKey context)
      onFst reveal
  | .revealing reveal => onFst reveal
  | .finished result => lift result

/-- A step does the first part of the rest. -/
theorem rest_step [CiphertextLike C] (e : PredicateEngine σ C) (t : Thread σ C)
    (w : EngineWorld σ) :
    (t.step e w).2.1.rest e t.context t.request (t.step e w).1 =
      t.phase.rest e t.context t.request w := by
  have hbind : ∀ {α : Type} (x : SecureM (EngineWorld σ) α) (next : α → Phase σ)
      (kind : Option EventKind) (f : α → SecureM (EngineWorld σ) Bool),
      (∀ a, (next a).rest e t.context t.request = f a) →
        (Phase.after next kind (x w)).2.1.rest e t.context t.request
          (Phase.after next kind (x w)).1 = (x >>= f) w := by
    intro α x next kind f hnext
    change _ = EStateM.bind x f w
    unfold EStateM.bind
    cases x w with
    | ok a w' => simp only [Phase.after, hnext]
    | error err w' => rfl
  unfold Thread.step
  cases hphase : t.phase with
  | preparing => exact hbind _ _ _ _ fun _ => rfl
  | authorizing reveal => exact hbind _ _ _ _ fun _ => rfl
  | consuming reveal => exact hbind _ _ _ _ fun _ => rfl
  | revealing reveal =>
      simp only [Phase.rest]
      cases onFst reveal w with
      | ok bit w' => rfl
      | error err w' => rfl
  | finished result => rfl

/-- The number of steps that are left. -/
def Phase.left : Phase σ → Nat
  | .preparing => 4
  | .authorizing _ => 3
  | .consuming _ => 2
  | .revealing _ => 1
  | .finished _ => 0

theorem left_step [CiphertextLike C] (e : PredicateEngine σ C) (t : Thread σ C)
    (w : EngineWorld σ) : (t.step e w).2.1.left ≤ t.phase.left - 1 := by
  have hafter : ∀ {α : Type} (next : α → Phase σ) (kind : Option EventKind)
      (r : EStateM.Result Error (EngineWorld σ) α) (n : Nat), (∀ a, (next a).left ≤ n) →
        (Phase.after next kind r).2.1.left ≤ n := by
    intro α next kind r n hnext
    cases r with
    | ok a w' => exact hnext a
    | error err w' => exact Nat.zero_le n
  unfold Thread.step
  cases hphase : t.phase with
  | preparing => exact hafter _ _ _ _ fun _ => Nat.le_refl _
  | authorizing reveal => exact hafter _ _ _ _ fun _ => Nat.le_refl _
  | consuming reveal => exact hafter _ _ _ _ fun _ => Nat.le_refl _
  | revealing reveal =>
      simp only [Phase.left]
      cases onFst reveal w <;> exact Nat.le_refl _
  | finished result => exact Nat.le_refl _

/-- A call that nobody interrupts does what the code does. -/
theorem lone_call [CiphertextLike C] (e : PredicateEngine σ C) (context : PredicateContext)
    (request : Request C) (w : EngineWorld σ) :
    let m := (Machine.mk w [] []).run e
      (.call context request :: List.replicate 4 (.step 0))
    ∃ result, m.threads[0]? = some ⟨context, request, .finished result⟩ ∧
      e.call context request w = lift result m.world := by
  -- By induction on the steps that a thread has left: its rest is what the code still does.
  have hgeneral : ∀ (n : Nat) (t : Thread σ C) (w : EngineWorld σ) (log : List Event),
      t.phase.left ≤ n →
      ∃ w' result log', (Machine.mk w [t] log).run e (List.replicate n (.step 0)) =
          ⟨w', [⟨t.context, t.request, .finished result⟩], log'⟩ ∧
        t.phase.rest e t.context t.request w = lift result w' := by
    intro n
    induction n with
    | zero =>
        intro t w log hleft
        rcases t with ⟨context, request, phase⟩
        cases phase with
        | finished result => exact ⟨w, result, log, rfl, rfl⟩
        | _ => exact absurd hleft (by simp [Phase.left])
    | succ n ih =>
        intro t w log hleft
        rcases step_alone e t w log with ⟨log', hstep⟩
        have hless := left_step e t w
        rcases ih { t with phase := (t.step e w).2.1 } (t.step e w).1 log'
          (by simp only; omega) with ⟨w', result, log'', hrun, hrest⟩
        refine ⟨w', result, log'', ?_, ?_⟩
        · rw [List.replicate_succ, Machine.run, List.foldl_cons, hstep]
          exact hrun
        · rw [← rest_step e t w]
          exact hrest
  rcases hgeneral 4 ⟨context, request, .preparing⟩ w [] (Nat.le_refl _) with
    ⟨w', result, log', hrun, hrest⟩
  have hm : (Machine.mk w [] []).run e (.call context request :: List.replicate 4 (.step 0)) =
      ⟨w', [⟨context, request, .finished result⟩], log'⟩ := hrun
  refine ⟨result, ?_, ?_⟩
  · rw [hm]
    rfl
  · rw [hm, PredicateEngine.call_eq]
    exact hrest

/-! ## What a step does -/

/-- The context is valid, its type is that of the entry point, and the authorizer has once returned
`true` for it. -/
def Authorized (e : PredicateEngine σ C) (context : PredicateContext) (entry : PredicateType) :
    Prop :=
  PredicateEngine.Valid context ∧ context.predicateType = entry ∧
    ∃ s s', e.authorizer context s = .ok true s'

theorem authorize_result (e : PredicateEngine σ C) (context : PredicateContext)
    (entry : PredicateType) (keys : List Bytes) :
    Triple (fun w => w.2 = keys) (e.authorize context entry)
      (fun _ w => Authorized e context entry ∧ w.2 = keys) (fun _ w => w.2 = keys) := by
  unfold PredicateEngine.authorize PredicateEngine.validate
  have hfails : ∀ {p : Prop}, p → ∀ w : EngineWorld σ, w.2 = keys → w.2 = keys :=
    fun _ _ hw => hw
  refine Triple.bind (Q := fun _ w => PredicateEngine.Valid context ∧ w.2 = keys)
    ((Triple.require hfails).bind fun _ => Triple.assuming fun hvalid =>
      (Triple.require hfails).post fun _ _ hw => ⟨hvalid, hw.2⟩) fun _ => ?_
  refine Triple.assuming fun hvalid => ?_
  refine (Triple.require hfails).bind fun _ => Triple.assuming fun htype => ?_
  refine (onFst_result (e.authorizer context) keys).bind fun authorized => ?_
  refine Triple.assuming fun hanswer => ?_
  refine (Triple.require hfails).post fun _ w hw => ⟨⟨hvalid, htype, ?_⟩, hw.2⟩
  rwa [← hw.1]

/-- Nothing before the insertion touches the set of consumed pairs. -/
theorem prepare_result [CiphertextLike C] (e : PredicateEngine σ C) (context : PredicateContext)
    (request : Request C) (keys : List Bytes) :
    Triple (fun w => w.2 = keys) (e.prepare context request) (fun _ w => w.2 = keys)
      (fun _ w => w.2 = keys) := by
  have honFst : ∀ {α : Type} (m : SecureM σ α), Triple (fun w : EngineWorld σ => w.2 = keys)
      (onFst m) (fun _ w => w.2 = keys) (fun _ w => w.2 = keys) :=
    fun m => (onFst_result m keys).post fun _ _ hw => hw.2
  have hrequire : ∀ {c : Prop} [Decidable c] {err : Error},
      Triple (fun w : EngineWorld σ => w.2 = keys) (require c err) (fun _ w => w.2 = keys)
        (fun _ w => w.2 = keys) := by
    intro c _ err
    have hspec := Triple.require (P := fun w : EngineWorld σ => w.2 = keys) (c := c) (e := err)
      (E := fun _ w => w.2 = keys) fun _ _ hw => hw
    exact hspec.post fun _ _ hw => hw.2
  have hfused : Triple (fun w : EngineWorld σ => w.2 = keys) e.fusedBackend
      (fun _ w => w.2 = keys) (fun _ w => w.2 = keys) := by
    unfold PredicateEngine.fusedBackend
    cases e.ops.fused with
    | none => exact Triple.pure fun _ hw => hw
    | some fused => exact (honFst _).bind fun _ => Triple.pure fun _ hw => hw
  cases request with
  | prune inputs =>
      refine hfused.bind fun found => ?_
      cases found with
      | some fused => exact hrequire.bind fun _ => Triple.pure fun _ hw => hw
      | none => exact (honFst _).bind fun _ => Triple.pure fun _ hw => hw
  | accept inputs =>
      refine hfused.bind fun found => ?_
      cases found with
      | some fused => exact hrequire.bind fun _ => Triple.pure fun _ hw => hw
      | none => exact (honFst _).bind fun _ => Triple.pure fun _ hw => hw

/-- The four things that a step of a thread can do. -/
inductive Stepped (e : PredicateEngine σ C) (t : Thread σ C) (w w' : EngineWorld σ) :
    Phase σ → Option EventKind → Prop where
  | quiet {phase : Phase σ} (keys : w'.2 = w.2)
      (early : (∃ reveal, phase = .authorizing reveal ∧ t.phase = .preparing) ∨
        ∃ result, phase = .finished result) :
      Stepped e t w w' phase none
  | authorized {reveal : SecureM σ Bool} (was : t.phase = .authorizing reveal)
      (keys : w'.2 = w.2) (granted : Authorized e t.context t.request.type) :
      Stepped e t w w' (.consuming reveal) (some .authorized)
  | consumed {reveal : SecureM σ Bool} (was : t.phase = .consuming reveal)
      (fresh : replayKey t.context ∉ w.2) (keys : w'.2 = replayKey t.context :: w.2) :
      Stepped e t w w' (.revealing reveal) (some .consumed)
  | revealed {reveal : SecureM σ Bool} {result : Except Error Bool}
      (was : t.phase = .revealing reveal) (keys : w'.2 = w.2) :
      Stepped e t w w' (.finished result) (some .revealed)

theorem stepped [CiphertextLike C] (e : PredicateEngine σ C) (t : Thread σ C)
    (w : EngineWorld σ) :
    Stepped e t w (t.step e w).1 (t.step e w).2.1 (t.step e w).2.2 := by
  unfold Thread.step
  cases hphase : t.phase with
  | preparing =>
      have hspec := prepare_result e t.context t.request w.2 w rfl
      simp only
      cases hrun : e.prepare t.context t.request w with
      | ok reveal w' =>
          rw [hrun] at hspec
          exact Stepped.quiet hspec (Or.inl ⟨reveal, rfl, hphase⟩)
      | error err w' =>
          rw [hrun] at hspec
          exact Stepped.quiet hspec (Or.inr ⟨_, rfl⟩)
  | authorizing reveal =>
      have hspec := authorize_result e t.context t.request.type w.2 w rfl
      simp only
      cases hrun : e.authorize t.context t.request.type w with
      | ok _ w' =>
          rw [hrun] at hspec
          exact Stepped.authorized hphase hspec.2 hspec.1
      | error err w' =>
          rw [hrun] at hspec
          exact Stepped.quiet hspec (Or.inr ⟨_, rfl⟩)
  | consuming reveal =>
      -- The only place at which a key is looked up and taken, in one step.
      simp only [PredicateEngine.consume]
      by_cases hmem : replayKey t.context ∈ w.2
      · rw [if_pos hmem]
        exact Stepped.quiet rfl (Or.inr ⟨_, rfl⟩)
      · rw [if_neg hmem]
        exact Stepped.consumed hphase hmem rfl
  | revealing reveal =>
      have hspec := onFst_result reveal w.2 w rfl
      simp only
      cases hrun : onFst reveal w with
      | ok bit w' =>
          rw [hrun] at hspec
          exact Stepped.revealed hphase hspec.2
      | error err w' =>
          rw [hrun] at hspec
          exact Stepped.revealed hphase hspec
  | finished result => exact Stepped.quiet rfl (Or.inr ⟨result, rfl⟩)

/-! ## The log -/

/-- The replay key that an event has consumed. -/
def Event.key (ev : Event) : Option Bytes :=
  if ev.kind = .consumed then some (replayKey ev.context) else none

/-- The session and the operation that an event has revealed. -/
def Event.pair (ev : Event) : Option (Bytes × Bytes) :=
  if ev.kind = .revealed then some (ev.context.sessionId, ev.context.operationId) else none

/-- The same call at another point. -/
def Event.asKind (ev : Event) (kind : EventKind) : Event :=
  { ev with kind := kind }

/-- What has to stand in the log before an event. -/
def Justifies (e : PredicateEngine σ C) (before : List Event) (ev : Event) : Prop :=
  match ev.kind with
  | .authorized => Authorized e ev.context ev.entry
  | .consumed => ev.asKind .authorized ∈ before ∧ replayKey ev.context ∉ before.filterMap Event.key
  | .revealed => ev.asKind .consumed ∈ before ∧ ev ∉ before

def Justified (e : PredicateEngine σ C) : List Event → Prop
  | [] => True
  | ev :: before => Justifies e before ev ∧ Justified e before

section Log

variable {e : PredicateEngine σ C} {log before after : List Event} {ev ev' : Event}

theorem Justified.split (h : Justified e (after ++ ev :: before)) :
    Justifies e before ev ∧ Justified e before := by
  induction after with
  | nil => exact h
  | cons _ after ih => exact ih h.2

theorem Justified.mem (h : Justified e log) (hev : ev ∈ log) :
    ∃ before, (∀ x ∈ before, x ∈ log) ∧ Justifies e before ev := by
  rcases List.append_of_mem hev with ⟨after, before, rfl⟩
  exact ⟨before, fun x hx => by simp [hx], (Justified.split h).1⟩

/-- A consumed pair was authorized before. -/
theorem Justified.authorized_of_consumed (h : Justified e (after ++ ev :: before))
    (hkind : ev.kind = .consumed) : ev.asKind .authorized ∈ before := by
  have hjust := h.split.1
  simp only [Justifies, hkind] at hjust
  exact hjust.1

/-- A revealed bit was authorized before, and the authorization was sound. -/
theorem Justified.authorized_of_revealed (h : Justified e (after ++ ev :: before))
    (hkind : ev.kind = .revealed) :
    ev.asKind .authorized ∈ before ∧ Authorized e ev.context ev.entry := by
  rcases h.split with ⟨hjust, hbefore⟩
  simp only [Justifies, hkind] at hjust
  rcases List.append_of_mem hjust.1 with ⟨after', before', rfl⟩
  have hauthorized := hbefore.authorized_of_consumed rfl
  have hmem : ev.asKind .authorized ∈ before' := hauthorized
  rcases hbefore.split.2.mem hmem with ⟨_, _, hsound⟩
  exact ⟨by simp [hmem], hsound⟩

/-- No key is consumed twice. -/
theorem Justified.consumed_inj (h : Justified e log) (hev : ev ∈ log) (hev' : ev' ∈ log)
    (hkind : ev.kind = .consumed) (hkind' : ev'.kind = .consumed)
    (hkey : replayKey ev.context = replayKey ev'.context) : ev = ev' := by
  induction log with
  | nil => cases hev
  | cons x log ih =>
      have hfresh : ∀ {y : Event}, y ∈ log → y.kind = .consumed → x.kind = .consumed →
          replayKey x.context ≠ replayKey y.context := by
        intro y hy hykind hxkind hsame
        have hjust := h.1
        simp only [Justifies, hxkind] at hjust
        refine hjust.2 (List.mem_filterMap.2 ⟨y, hy, ?_⟩)
        rw [Event.key, if_pos hykind, hsame]
      rcases List.mem_cons.1 hev with rfl | hold
      · rcases List.mem_cons.1 hev' with rfl | hold'
        · rfl
        · exact absurd hkey (hfresh hold' hkind' hkind)
      · rcases List.mem_cons.1 hev' with rfl | hold'
        · exact absurd hkey.symm (hfresh hold hkind hkind')
        · exact ih h.2 hold hold'

/-- No pair is revealed twice. -/
theorem Justified.revealed_nodup (h : Justified e log) : (log.filterMap Event.pair).Nodup := by
  induction log with
  | nil => exact List.nodup_nil
  | cons ev log ih =>
      by_cases hkind : ev.kind = .revealed
      · have hpair : ev.pair = some (ev.context.sessionId, ev.context.operationId) := if_pos hkind
        rw [List.filterMap_cons_some hpair]
        refine List.nodup_cons.2 ⟨fun hmem => ?_, ih h.2⟩
        rcases List.mem_filterMap.1 hmem with ⟨ev', hev', hsame⟩
        have hkind' : ev'.kind = .revealed := by
          by_contra hother
          rw [Event.pair, if_neg hother] at hsame
          cases hsame
        rw [Event.pair, if_pos hkind'] at hsame
        have hnames := Prod.mk.inj (Option.some.inj hsame)
        have hjust := h.1
        simp only [Justifies, hkind] at hjust
        rcases h.2.mem hev' with ⟨before', hsub, hjust'⟩
        simp only [Justifies, hkind'] at hjust'
        -- Both were consumed under one key, so they are one call, which reveals once.
        have hone : ev.asKind .consumed = ev'.asKind .consumed := by
          refine h.2.consumed_inj hjust.1 (hsub _ hjust'.1) rfl rfl ?_
          simp only [Event.asKind, replayKey, hnames.1, hnames.2]
        have hsame' : ev = ev' := by
          cases ev
          cases ev'
          simp only [Event.asKind, Event.mk.injEq] at hone hkind hkind' ⊢
          exact ⟨hkind.trans hkind'.symm, hone.2⟩
        exact hjust.2 (hsame' ▸ hev')
      · have hpair : ev.pair = none := if_neg hkind
        rw [List.filterMap_cons_none hpair]
        exact ih h.2

/-- A pair is consumed by a call that names exactly this pair. -/
theorem mem_keys_iff {context : PredicateContext} :
    replayKey context ∈ log.filterMap Event.key ↔
      ∃ ev ∈ log, ev.kind = .consumed ∧ ev.context.sessionId = context.sessionId ∧
        ev.context.operationId = context.operationId := by
  constructor
  · intro hmem
    rcases List.mem_filterMap.1 hmem with ⟨ev, hev, hkey⟩
    by_cases hkind : ev.kind = .consumed
    · rw [Event.key, if_pos hkind] at hkey
      exact ⟨ev, hev, hkind, replayKey_inj (Option.some.inj hkey)⟩
    · rw [Event.key, if_neg hkind] at hkey
      cases hkey
  · rintro ⟨ev, hev, hkind, hsession, hoperation⟩
    refine List.mem_filterMap.2 ⟨ev, hev, ?_⟩
    rw [Event.key, if_pos hkind, replayKey, replayKey, hsession, hoperation]

end Log

/-! ## Every run -/

/-- What the log says of a thread. -/
def Phase.Logged (t : Thread σ C) (i : Nat) (log : List Event) : Prop :=
  match t.phase with
  | .preparing | .authorizing _ => t.event i .revealed ∉ log
  | .consuming _ => t.event i .authorized ∈ log ∧ t.event i .revealed ∉ log
  | .revealing _ => t.event i .consumed ∈ log ∧ t.event i .revealed ∉ log
  | .finished _ => True

/-- The invariant of a machine. -/
structure Sound (e : PredicateEngine σ C) (m : Machine σ C) : Prop where
  justified : Justified e m.log
  keys : m.world.2 = m.log.filterMap Event.key
  owned : ∀ ev ∈ m.log, ∃ t, m.threads[ev.thread]? = some t ∧ t.context = ev.context ∧
    t.request.type = ev.entry
  logged : ∀ i t, m.threads[i]? = some t → Phase.Logged t i m.log

/-- Events of one thread leave what the log says of the others. -/
theorem Phase.Logged.other {t : Thread σ C} {i j : Nat} {log events : List Event}
    (h : Phase.Logged t j log) (hij : i ≠ j) (hevents : ∀ ev ∈ events, ev.thread = i) :
    Phase.Logged t j (events ++ log) := by
  have hnot : ∀ kind, t.event j kind ∉ log → t.event j kind ∉ events ++ log := by
    intro kind hlog hmem
    rcases List.mem_append.1 hmem with hnew | hold
    · exact hij (hevents _ hnew).symm
    · exact hlog hold
  unfold Phase.Logged at h ⊢
  cases hphase : t.phase with
  | preparing =>
      simp only [hphase] at h
      exact hnot _ h
  | authorizing reveal =>
      simp only [hphase] at h
      exact hnot _ h
  | consuming reveal =>
      simp only [hphase] at h
      exact ⟨List.mem_append_right _ h.1, hnot _ h.2⟩
  | revealing reveal =>
      simp only [hphase] at h
      exact ⟨List.mem_append_right _ h.1, hnot _ h.2⟩
  | finished result => trivial

theorem sound_fresh (e : PredicateEngine σ C) (state : σ) :
    Sound e (Machine.fresh state : Machine σ C) where
  justified := trivial
  keys := rfl
  owned := by simp [Machine.fresh]
  logged := by simp [Machine.fresh]

section

variable {e : PredicateEngine σ C} {m : Machine σ C}

/-- What a step of a thread does to the log keeps the log in order. -/
theorem Sound.justified_step (h : Sound e m) {i : Nat} {t : Thread σ C}
    (ht : m.threads[i]? = some t) {w' : EngineWorld σ} {phase : Phase σ} {kind : Option EventKind}
    (hstep : Stepped e t m.world w' phase kind) :
    Justified e ((kind.map (t.event i)).toList ++ m.log) := by
  have hlogged := h.logged i t ht
  cases hstep with
  | quiet hkeys hearly => exact h.justified
  | authorized hwas hkeys hgranted => exact ⟨hgranted, h.justified⟩
  | consumed hwas hfresh hkeys =>
      simp only [Phase.Logged, hwas] at hlogged
      exact ⟨⟨hlogged.1, h.keys ▸ hfresh⟩, h.justified⟩
  | revealed hwas hkeys =>
      simp only [Phase.Logged, hwas] at hlogged
      exact ⟨hlogged, h.justified⟩

/-- The set of consumed keys follows the log. -/
theorem Sound.keys_step (h : Sound e m) {i : Nat} {t : Thread σ C} {w' : EngineWorld σ}
    {phase : Phase σ} {kind : Option EventKind} (hstep : Stepped e t m.world w' phase kind) :
    w'.2 = ((kind.map (t.event i)).toList ++ m.log).filterMap Event.key := by
  cases hstep with
  | quiet hkeys hearly => exact hkeys.trans h.keys
  | authorized hwas hkeys hgranted => exact hkeys.trans h.keys
  | consumed hwas hfresh hkeys => exact hkeys.trans (congrArg _ h.keys)
  | revealed hwas hkeys => exact hkeys.trans h.keys

/-- The stepping thread and the log agree again. -/
theorem Sound.logged_step (h : Sound e m) {i : Nat} {t : Thread σ C}
    (ht : m.threads[i]? = some t) {w' : EngineWorld σ} {phase : Phase σ} {kind : Option EventKind}
    (hstep : Stepped e t m.world w' phase kind) :
    Phase.Logged { t with phase := phase } i ((kind.map (t.event i)).toList ++ m.log) := by
  have hlogged := h.logged i t ht
  have hother : ∀ {kind : EventKind} {log : List Event}, kind ≠ .revealed →
      t.event i .revealed ∉ log → t.event i .revealed ∉ t.event i kind :: log := by
    intro kind log hkind hlog hmem
    rcases List.mem_cons.1 hmem with hsame | hold
    · exact hkind (congrArg Event.kind hsame).symm
    · exact hlog hold
  cases hstep with
  | quiet hkeys hearly =>
      rcases hearly with ⟨reveal, rfl, hwas⟩ | ⟨result, rfl⟩
      · simp only [Phase.Logged, hwas] at hlogged
        exact hlogged
      · trivial
  | authorized hwas hkeys hgranted =>
      simp only [Phase.Logged, hwas] at hlogged
      exact ⟨List.mem_cons_self, hother (by decide) hlogged⟩
  | consumed hwas hfresh hkeys =>
      simp only [Phase.Logged, hwas] at hlogged
      exact ⟨List.mem_cons_self, hother (by decide) hlogged.2⟩
  | revealed hwas hkeys => trivial

variable [CiphertextLike C]

theorem Sound.call (h : Sound e m) (context : PredicateContext) (request : Request C) :
    Sound e (m.step e (.call context request)) where
  justified := h.justified
  keys := h.keys
  owned := by
    intro ev hev
    rcases h.owned ev hev with ⟨t, ht, hsame⟩
    have hlt := (List.getElem?_eq_some_iff.1 ht).1
    exact ⟨t, (List.getElem?_append_left hlt).trans ht, hsame⟩
  logged := by
    intro i t ht
    rcases Nat.lt_or_ge i m.threads.length with hlt | hge
    · exact h.logged i t ((List.getElem?_append_left hlt).symm.trans ht)
    · have hnew := (List.getElem?_append_right hge).symm.trans ht
      have hi : i - m.threads.length = 0 := by
        by_contra hne
        rw [List.getElem?_eq_none (by simp; omega)] at hnew
        cases hnew
      rw [hi] at hnew
      cases hnew
      -- No event can belong to the new thread.
      intro hmem
      rcases h.owned _ hmem with ⟨t', ht', _⟩
      have hlt := (List.getElem?_eq_some_iff.1 ht').1
      exact absurd hlt (Nat.not_lt.2 hge)

/-- A step of a thread keeps the invariant. -/
theorem Sound.thread (h : Sound e m) (i : Nat) : Sound e (m.step e (.step i)) := by
  cases ht : m.threads[i]? with
  | none =>
      have hsame : m.step e (.step i) = m := by simp only [Machine.step, ht]
      rwa [hsame]
  | some t =>
      have hstep := stepped e t m.world
      have hlt := (List.getElem?_eq_some_iff.1 ht).1
      let kind := (t.step e m.world).2.2
      let t' : Thread σ C := { t with phase := (t.step e m.world).2.1 }
      have hmachine : m.step e (.step i) = ⟨(t.step e m.world).1, m.threads.set i t',
          (kind.map (t.event i)).toList ++ m.log⟩ := by simp only [Machine.step, ht]; rfl
      have hself : (m.threads.set i t')[i]? = some t' := List.getElem?_set_self hlt
      have hevents : ∀ ev ∈ (kind.map (t.event i)).toList, ev.thread = i ∧
          ev.context = t.context ∧ ev.entry = t.request.type := by
        intro ev hev
        rcases Option.map_eq_some_iff.1 (Option.mem_toList.1 hev) with ⟨_, _, rfl⟩
        exact ⟨rfl, rfl, rfl⟩
      rw [hmachine]
      refine ⟨h.justified_step ht hstep, h.keys_step hstep, fun ev hev => ?_, fun j u hu => ?_⟩
      · rcases List.mem_append.1 hev with hnew | hold
        · rcases hevents ev hnew with ⟨hthread, hcontext, hentry⟩
          exact ⟨t', by rw [hthread]; exact hself, hcontext.symm, hentry.symm⟩
        · rcases h.owned ev hold with ⟨u, hu, hsame⟩
          rcases eq_or_ne i ev.thread with rfl | hne
          · cases ht.symm.trans hu
            exact ⟨t', hself, hsame⟩
          · exact ⟨u, (List.getElem?_set_ne hne).trans hu, hsame⟩
      · rcases eq_or_ne i j with rfl | hne
        · cases hself.symm.trans hu
          exact h.logged_step ht hstep
        · have hold := (List.getElem?_set_ne hne).symm.trans hu
          exact (h.logged j u hold).other hne fun ev hev => (hevents ev hev).1

theorem Sound.step (h : Sound e m) (move : Move σ C) : Sound e (m.step e move) := by
  cases move with
  | call context request => exact h.call context request
  | step i => exact h.thread i
  | environment state => exact ⟨h.justified, h.keys, h.owned, h.logged⟩

theorem Sound.run (h : Sound e m) (moves : List (Move σ C)) : Sound e (m.run e moves) := by
  induction moves generalizing m with
  | nil => exact h
  | cons move moves ih => exact ih (h.step move)

end

/-- In every run of any number of calls: a bit is revealed only for a valid context of the type of
the entry point that the authorizer has granted to this call before; no session and operation are
revealed twice; and a pair is consumed exactly by the calls that name it and were granted before. -/
theorem reveals_authorized_once [CiphertextLike C] (e : PredicateEngine σ C) (state : σ)
    (moves : List (Move σ C)) :
    let m := (Machine.fresh state : Machine σ C).run e moves
    (∀ after before ev, m.log = after ++ ev :: before → ev.kind = .revealed →
      (∃ t, m.threads[ev.thread]? = some t ∧ t.context = ev.context ∧ t.request.type = ev.entry) ∧
        Authorized e ev.context ev.entry ∧ ev.asKind .authorized ∈ before) ∧
    (m.log.filterMap Event.pair).Nodup ∧
    (∀ context, replayKey context ∈ m.world.2 ↔ ∃ ev ∈ m.log, ev.kind = .consumed ∧
      ev.context.sessionId = context.sessionId ∧ ev.context.operationId = context.operationId) ∧
    ∀ after before ev, m.log = after ++ ev :: before → ev.kind = .consumed →
      ev.asKind .authorized ∈ before := by
  intro m
  have h : Sound e m := (sound_fresh e state).run moves
  refine ⟨fun after before ev hlog hkind => ?_, h.justified.revealed_nodup, fun context => ?_,
    fun after before ev hlog hkind => ?_⟩
  · have hjust : Justified e (after ++ ev :: before) := hlog ▸ h.justified
    rcases hjust.authorized_of_revealed hkind with ⟨hbefore, hsound⟩
    exact ⟨h.owned ev (by simp [hlog]), hsound, hbefore⟩
  · rw [h.keys]
    exact mem_keys_iff
  · have hjust : Justified e (after ++ ev :: before) := hlog ▸ h.justified
    exact hjust.authorized_of_consumed hkind

end Secure
end SociSgx

import SociSgx.Protocol.BatchFrames

/-!
# Footprint — what a call of the client leaves at the CSP

Whatever a call meets and however it ends, the CSP has received at most the frames of the call, and
has consumed no pair but that of the call.  `Exchanges A n m` says this of a program `m` that sends
up to `n` frames; calls are put together by its rules.
-/

namespace SociSgx
namespace Protocol

open Exec OffsetCodec
open Secure (PredicateContext)

variable {α β : Type}

def Event.isReceived : Event → Bool
  | .received _ => true
  | _ => false

/-- The frames that the CSP has received. -/
def receivedFrames (events : List Event) : Nat :=
  events.countP Event.isReceived

@[simp]
theorem receivedFrames_concat (events : List Event) (event : Event) :
    receivedFrames (events ++ [event]) =
      receivedFrames events + if event.isReceived then 1 else 0 := by
  rw [receivedFrames, List.countP_append, List.countP_singleton]
  rfl

/-! ## States -/

/-- Between these events `n` frames were received and pairs with `A` were consumed. -/
structure Adds (A : Bytes × Bytes → Prop) (n : Nat) (events events' : List Event) : Prop where
  kept : ∀ pair ∈ consumedPairs events, pair ∈ consumedPairs events'
  pairs : ∀ pair ∈ consumedPairs events', pair ∈ consumedPairs events ∨ A pair
  frames : receivedFrames events' = receivedFrames events + n

namespace Adds

variable {A : Bytes × Bytes → Prop} {m n : Nat} {before events events' : List Event}

theorem refl (A : Bytes × Bytes → Prop) (events : List Event) : Adds A 0 events events :=
  ⟨fun _ h => h, fun _ h => Or.inl h, rfl⟩

theorem trans (h : Adds A m before events) (h' : Adds A n events events') :
    Adds A (m + n) before events' where
  kept := fun pair hpair => h'.kept pair (h.kept pair hpair)
  pairs := by
    intro pair hpair
    rcases h'.pairs pair hpair with hmid | hA
    · exact h.pairs pair hmid
    · exact Or.inr hA
  frames := by rw [h'.frames, h.frames, Nat.add_assoc]

theorem received (h : Adds A n before events) (request : Bytes) :
    Adds A (n + 1) before (events ++ [.received request]) where
  kept := by
    rw [consumedPairs_concat _ _ (by simp)]
    exact h.kept
  pairs := by
    rw [consumedPairs_concat _ _ (by simp)]
    exact h.pairs
  frames := by
    rw [receivedFrames_concat, h.frames]
    rfl

/-- An event that is neither a frame nor a consumption. -/
theorem quiet (h : Adds A n before events) {event : Event}
    (hevent : ∀ session operation, event ≠ .consumed session operation)
    (hquiet : event.isReceived = false) : Adds A n before (events ++ [event]) where
  kept := by
    rw [consumedPairs_concat _ _ hevent]
    exact h.kept
  pairs := by
    rw [consumedPairs_concat _ _ hevent]
    exact h.pairs
  frames := by
    rw [receivedFrames_concat, h.frames, hquiet]
    rfl

theorem consumed (h : Adds A n before events) {session operation : Bytes}
    (hA : A (session, operation)) :
    Adds A n before (events ++ [.consumed session operation]) where
  kept := by
    rw [consumedPairs_consumed]
    exact fun pair hpair => List.mem_append_left _ (h.kept pair hpair)
  pairs := by
    rw [consumedPairs_consumed]
    intro pair hpair
    rcases List.mem_append.1 hpair with hold | hnew
    · exact h.pairs pair hold
    · exact Or.inr ((List.mem_singleton.1 hnew).symm ▸ hA)
  frames := by
    rw [receivedFrames_concat, h.frames]
    rfl

end Adds

/-- What a request adds, whatever its handler does. -/
theorem Change.adds {A : Bytes × Bytes → Prop} {n : Nat} {before : List Event} {request : Bytes}
    {s t : CspState} (h : Change request s t) (hbefore : Adds A n before s.events)
    (hA : ∀ start, StartFrame request start → A start.header.pair) :
    Adds A n before t.events := by
  cases h with
  | nothing => exact hbefore
  | refused hpending hframe hkey => exact hbefore.quiet (by simp) rfl
  | consumed hpending hframe hkey => exact hbefore.consumed (hA _ hframe)
  | decrypted hpending hframe hkey => exact (hbefore.consumed (hA _ hframe)).quiet (by simp) rfl
  | started hpending hframe hkey hp =>
      exact ((hbefore.consumed (hA _ hframe)).quiet (by simp) rfl).quiet (by simp) rfl
  | dropped hpending => exact hbefore
  | decided hpending hhead hparsed => exact hbefore.quiet (by simp) rfl

/-- A call has left the server so. -/
structure Leaves (A : Bytes × Bytes → Prop) (n : Nat) (server server' : Server) : Prop where
  sound : server.Sound → server'.Sound
  adds : Adds A n server.state.events server'.state.events

namespace Leaves

variable {A : Bytes × Bytes → Prop} {m n : Nat} {server mid server' : Server}

theorem refl (A : Bytes × Bytes → Prop) (server : Server) : Leaves A 0 server server :=
  ⟨id, Adds.refl A _⟩

theorem trans (h : Leaves A m server mid) (h' : Leaves A n mid server') :
    Leaves A (m + n) server server' :=
  ⟨fun hs => h'.sound (h.sound hs), h.adds.trans h'.adds⟩

end Leaves

/-! ## Programs -/

/-- A program that sends `n` frames, or fewer if it throws. -/
def Exchanges (A : Bytes × Bytes → Prop) (n : Nat) (m : EStateM Error Server α) : Prop :=
  ∀ server, Triple (fun t => t = server) m (fun _ t => Leaves A n server t)
    (fun _ t => ∃ k ≤ n, Leaves A k server t)

namespace Exchanges

variable {A : Bytes × Bytes → Prop} {k n : Nat} {m : EStateM Error Server α}
  {f : α → EStateM Error Server β}

theorem pure (a : α) : Exchanges A 0 (Pure.pure a) :=
  fun server => pure_at (Leaves.refl A server)

theorem bind (hm : Exchanges A k m) (hf : ∀ a, Exchanges A n (f a)) :
    Exchanges A (k + n) (m >>= f) := by
  intro server
  refine Triple.bind (Q := fun _ t => Leaves A k server t) ((hm server).weaken (fun _ h => h)
    (fun _ _ h => h) ?_) fun a => Triple.of_each fun mid hmid => ?_
  · rintro err t ⟨j, hj, hleaves⟩
    exact ⟨j, hj.trans (Nat.le_add_right _ _), hleaves⟩
  · refine (hf a mid).weaken (fun _ h => h) (fun _ _ h => hmid.trans h) ?_
    rintro err t ⟨j, hj, hleaves⟩
    exact ⟨k + j, Nat.add_le_add_left hj k, hmid.trans hleaves⟩

/-- A stateless step sends nothing. -/
theorem lift_bind {x : Except Error α} (hf : ∀ a, x = .ok a → Exchanges A n (f a)) :
    Exchanges A n (lift x >>= f) :=
  fun server => lift_at (fun a hx => hf a hx server)
    fun _ _ => ⟨0, Nat.zero_le _, Leaves.refl A server⟩

theorem require_bind {c : Prop} [Decidable c] {e : Error} {g : PUnit → EStateM Error Server β}
    (hg : c → Exchanges A n (g ⟨⟩)) : Exchanges A n (require c e >>= g) :=
  fun server => require_at (fun hc => hg hc server)
    fun _ => ⟨0, Nat.zero_le _, Leaves.refl A server⟩

/-- A handler that throws something else does not touch the server. -/
theorem caught {m' : EStateM Error Server α}
    (hok : ∀ {s a t}, m s = .ok a t → m' s = .ok a t)
    (herror : ∀ {s e t}, m s = .error e t → ∃ e', m' s = .error e' t) (hm : Exchanges A n m) :
    Exchanges A n m' := by
  intro server t ht
  rcases (hm server).run ht with ⟨a, t', hrun, hleaves⟩ | ⟨e, t', hrun, hleaves⟩
  · rw [hok hrun]
    exact hleaves
  · rcases herror hrun with ⟨e', hrun'⟩
    rw [hrun']
    exact hleaves

theorem rethrown {error : Error} (hm : Exchanges A n m) :
    Exchanges A n (Protocol.rethrown error m) := by
  refine hm.caught (fun h => ?_) fun h => ⟨error, ?_⟩
  · simp only [Protocol.rethrown, h]
  · simp only [Protocol.rethrown, h]

end Exchanges

/-! ## One request -/

section

variable (csp : Csp) (sha256 : Bytes → Label) {A : Bytes × Bytes → Prop} {request : Bytes}

/-- A frame that arrives is noted, and then its handler runs. -/
theorem serve_frame (s : CspState) (request : Bytes) (env : Surroundings csp.modulus) :
    Triple (fun t => t = s) (csp.serve sha256 (.ok request) env)
      (fun ends t => ∃ u, Change request (s.note (.received request)) u ∧
        t = if ends then { u with pending := none }.note .stopped else u)
      (fun _ t => Change request (s.note (.received request)) t) := by
  refine Triple.lift_bind rfl (modify_at ?_)
  refine (answer_changes csp sha256 _ request env).bind fun reply => Triple.of_each fun u hu => ?_
  refine lift_at (fun _ _ => ?_) fun _ _ => hu
  split
  · exact modify_at (modify_at (pure_at ⟨u, hu, rfl⟩))
  · exact pure_at ⟨u, hu, rfl⟩

/-- A frame in the inner loop is received once. -/
theorem step_frame_adds {server : Server} (hphase : server.phase = .serving)
    (hA : ∀ start, StartFrame request start → A start.header.pair)
    (env : Surroundings csp.modulus) :
    Adds A 1 server.state.events
      (server.step csp sha256 (.frame (.ok request) env)).state.events := by
  rcases server with ⟨phase, state⟩
  obtain rfl : phase = .serving := hphase
  have hreceived : Adds A 1 state.events (state.note (.received request)).events :=
    (Adds.refl A state.events).received request
  rcases (serve_frame csp sha256 state request env).run rfl with
    ⟨ends, t, hrun, u, hchange, rfl⟩ | ⟨e, t, hrun, hchange⟩
  · have hadds := hchange.adds hreceived hA
    simp only [Server.step, hrun]
    cases ends with
    | false => exact hadds
    | true => exact hadds.quiet (by simp) rfl
  · simp only [Server.step, hrun]
    exact (hchange.adds hreceived hA).quiet (by simp) rfl

/-- No frame arrives: the connection is closed, or nothing happens. -/
theorem step_lost_adds (A : Bytes × Bytes → Prop) (server : Server) {e : Error}
    (env : Surroundings csp.modulus) : Adds A 0 server.state.events
      (server.step csp sha256 (.frame (.error e) env)).state.events := by
  rcases server with ⟨phase, state⟩
  cases phase with
  | waiting => exact Adds.refl A _
  | serving => exact (Adds.refl A _).quiet (by simp) rfl
  | stopped => exact Adds.refl A _

theorem step_idle {server : Server} (hphase : server.phase ≠ .serving)
    (frame : Except Error Bytes) (env : Surroundings csp.modulus) :
    server.step csp sha256 (.frame frame env) = server := by
  rcases server with ⟨phase, state⟩
  cases phase with
  | waiting => rfl
  | serving => exact absurd rfl hphase
  | stopped => rfl

theorem receivePayload_ok {payload frame : Bytes} (h : Csp.receivePayload payload = .ok frame) :
    frame = payload := by
  rcases bind_eq_ok.1 h with ⟨_, _, hpure⟩
  exact (Except.ok.inj hpure).symm

/-- A request costs a frame, unless it does not reach the CSP; then it throws. -/
theorem requestPayload_exchanges (payload : Bytes) (env : Surroundings csp.modulus)
    (hA : ∀ start, StartFrame payload start → A start.header.pair) :
    Exchanges A 1 (csp.requestPayload sha256 payload env) := by
  intro server
  have hsound : server.Sound →
      (server.step csp sha256 (.frame (Csp.receivePayload payload) env)).Sound :=
    fun hs => (Server.step_round csp sha256 server _).sound hs
  refine require_at (fun _ => get_at ?_) fun _ => ⟨0, Nat.zero_le 1, Leaves.refl A server⟩
  dsimp only
  refine modify_at ?_
  by_cases hreaches : server.phase = .serving ∧ Csp.receivePayload payload = .ok payload
  · rw [hreaches.2] at hsound ⊢
    have hleaves : Leaves A 1 server (server.step csp sha256 (.frame (.ok payload) env)) :=
      ⟨hsound, step_frame_adds csp sha256 hreaches.1 hA env⟩
    refine lift_at (fun _ _ => lift_at (fun _ _ => require_at (fun _ => pure_at hleaves) ?_) ?_) ?_
    · exact fun _ => ⟨1, le_rfl, hleaves⟩
    · exact fun _ _ => ⟨1, le_rfl, hleaves⟩
    · exact fun _ _ => ⟨1, le_rfl, hleaves⟩
  · -- The frame does not arrive, and the client meets a closed socket.
    have hclosed : csp.reply sha256 server (Csp.receivePayload payload) env =
        .error (Error.backend "socket closed") := by
      unfold Csp.reply
      cases hphase : server.phase with
      | waiting => rfl
      | stopped => rfl
      | serving =>
          cases hframe : Csp.receivePayload payload with
          | error e => rfl
          | ok frame =>
              exact absurd ⟨hphase, receivePayload_ok hframe ▸ hframe⟩ hreaches
    have hnothing : Leaves A 0 server
        (server.step csp sha256 (.frame (Csp.receivePayload payload) env)) := by
      refine ⟨hsound, ?_⟩
      by_cases hphase : server.phase = .serving
      · cases hframe : Csp.receivePayload payload with
        | error e => exact step_lost_adds csp sha256 A server env
        | ok frame => exact absurd ⟨hphase, receivePayload_ok hframe ▸ hframe⟩ hreaches
      · rw [step_idle csp sha256 hphase]
        exact Adds.refl A _
    rw [hclosed]
    exact lift_at (fun _ h => by cases h) fun _ _ => ⟨0, Nat.zero_le 1, hnothing⟩

/-- Only frame `F` consumes a pair. -/
theorem requestPayload_quiet (A : Bytes × Bytes → Prop) {payload : Bytes} {operation : UInt8}
    (hhead : payload.head? = some operation) (hF : operation ≠ byteOf 'F')
    (env : Surroundings csp.modulus) : Exchanges A 1 (csp.requestPayload sha256 payload env) :=
  requestPayload_exchanges csp sha256 payload env
    fun _ hframe => absurd (Option.some.inj (hhead.symm.trans hframe.head)) hF

end

/-! ## What stands at the front of a request -/

theorem head_append {head rest : Bytes} {operation : UInt8} (h : head.head? = some operation) :
    (head ++ rest).head? = some operation := by
  rw [List.head?_append, h]
  rfl

theorem appendInteger_extends {value : Nat} {output bytes : Bytes}
    (h : appendInteger output value = .ok bytes) : ∃ rest, bytes = output ++ rest := by
  rcases bind_eq_ok.1 h with ⟨_, _, h⟩
  refine ⟨writeU32 (exportedSize value) ++ (mpzExport value ++
    List.replicate (exportedSize value - (mpzExport value).length) 0), ?_⟩
  rw [← Except.ok.inj h]
  simp only [List.append_assoc]

theorem appendIntegers_extends : ∀ {values : List Nat} {output bytes : Bytes},
    appendIntegers output values = .ok bytes → ∃ rest, bytes = output ++ rest := by
  intro values
  induction values with
  | nil =>
      intro output bytes h
      exact ⟨[], by rw [List.append_nil]; exact (Except.ok.inj h).symm⟩
  | cons value values ih =>
      intro output bytes h
      rw [appendIntegers, List.foldlM_cons] at h
      rcases bind_eq_ok.1 h with ⟨first, hfirst, h⟩
      rcases appendInteger_extends hfirst with ⟨middle, rfl⟩
      rcases ih h with ⟨rest, rfl⟩
      exact ⟨middle ++ rest, List.append_assoc ..⟩

/-- The context of a request that was written has admissible fields. -/
theorem appendContext_ok {head bytes : Bytes} {context : PredicateContext}
    (h : appendContext head context = .ok bytes) :
    ContextFields context ∧ bytes = head ++ contextFields context := by
  have hfield {output value bytes : Bytes} (h : appendContextString output value = .ok bytes) :
      ContextField value := by
    rcases bind_eq_ok.1 h with ⟨_, hvalue, _⟩
    have hfits : value ≠ [] ∧ value.length ≤ 128 := ensure_eq_ok.1 hvalue
    exact hfits
  rcases bind_eq_ok.1 h with ⟨_, hsession, hrest⟩
  rcases bind_eq_ok.1 hrest with ⟨_, hoperation, hnode⟩
  have hfields : ContextFields context := ⟨hfield hsession, hfield hoperation, hfield hnode⟩
  exact ⟨hfields, Except.ok.inj (h.symm.trans (appendContext_eq head hfields))⟩

/-- The frame names this context behind its operation. -/
def Names (context : PredicateContext) (frame : Bytes) : Prop :=
  ContextFields context ∧ ∃ operation a b rest, frame =
    [operation, typeByte context.predicateType, a, b] ++ contextFields context ++ rest

theorem names_of_appendContext {operation a b : UInt8} {context : PredicateContext}
    {head rest : Bytes}
    (h : appendContext [operation, typeByte context.predicateType, a, b] context = .ok head) :
    Names context (head ++ rest) := by
  rcases appendContext_ok h with ⟨hfields, rfl⟩
  exact ⟨hfields, operation, a, b, rest, rfl⟩

theorem fusedStartRequest_names {ot : OtKey} {context : PredicateContext} {hasIncumbent : Bool}
    {items : List OtItem} {frame : Bytes}
    (h : fusedStartRequest ot context hasIncumbent items = .ok frame) : Names context frame := by
  rcases bind_eq_ok.1 h with ⟨head, hhead, h⟩
  rcases appendIntegers_extends h with ⟨_, rfl⟩
  rw [List.append_assoc]
  exact names_of_appendContext hhead

/-- The pair of a fused start is that of the context it names. -/
theorem Names.pair {context : PredicateContext} {request : Bytes} {start : FusedStart}
    (h : Names context request) (hframe : StartFrame request start) :
    (context.sessionId, context.operationId) = start.header.pair := by
  rcases h with ⟨hfields, operation, a, b, rest, rfl⟩
  have hbehind := behind_append [operation, typeByte context.predicateType, a, b]
    (contextFields context ++ rest)
  rw [← List.append_assoc] at hbehind
  rcases readContext hfields hbehind with ⟨o₁, o₂, o₃, _, hsession, hoperation, _, _⟩
  -- the parser has read the same two fields
  rcases bind_eq_ok.1 hframe.parsed with ⟨session, hs, hparsed⟩
  rcases bind_eq_ok.1 hparsed with ⟨operation, ho, hparsed⟩
  rcases bind_eq_ok.1 hparsed with ⟨node, _, hparsed⟩
  rcases bind_eq_ok.1 hparsed with ⟨_, _, hparsed⟩
  rcases bind_eq_ok.1 hparsed with ⟨_, _, hparsed⟩
  rcases bind_eq_ok.1 hparsed with ⟨_, _, hparsed⟩
  rcases bind_eq_ok.1 hparsed with ⟨_, _, hparsed⟩
  rcases bind_eq_ok.1 hparsed with ⟨_, _, hparsed⟩
  rcases bind_eq_ok.1 hparsed with ⟨_, _, hparsed⟩
  rcases bind_eq_ok.1 hparsed with ⟨_, _, hparsed⟩
  cases hparsed
  cases hsession.symm.trans hs
  cases hoperation.symm.trans ho
  rfl

/-! ## The calls -/

namespace Parties

variable (parties : Parties) (sha256 : Bytes → Label) (A : Bytes × Bytes → Prop)

theorem batchRequest_head {kind : Csp.BatchKind} {items : List Csp.BatchItem} {request : Bytes}
    (h : batchRequest kind items = .ok request) : request.head? = some (byteOf 'B') := by
  rcases appendIntegers_extends h with ⟨rest, rfl⟩
  exact head_append (head_append rfl)

theorem fusedFinishRequest_head {context : PredicateContext} {pairs : List LabelPair}
    {garbled : GarbledPredicate} {request : Bytes}
    (h : fusedFinishRequest context pairs garbled = .ok request) :
    request.head? = some (byteOf 'G') := by
  rcases bind_eq_ok.1 h with ⟨head, hhead, h⟩
  rcases appendContext_ok hhead with ⟨_, rfl⟩
  rw [← Except.ok.inj h]
  simp only [List.append_assoc]
  exact head_append rfl

/-- A fused predicate consumes the pair of its context, and sends two frames. -/
theorem fusedPredicate_exchanges (ot : OtKey) (context : PredicateContext)
    (items : List (Nat × Nat)) (hasIncumbent : Bool) (draws : FusedDraws parties.modulus ot.n)
    (startEnv finishEnv : Surroundings parties.modulus) :
    Exchanges (Eq (context.sessionId, context.operationId)) 2
      (parties.fusedPredicate sha256 ot context items hasIncumbent draws startEnv finishEnv) := by
  refine .require_bind fun _ => Exchanges.rethrown ?_
  refine .lift_bind fun masked _ => .lift_bind fun request hrequest => ?_
  have hstart := requestPayload_exchanges parties.csp sha256 request startEnv
    fun start hframe => (fusedStartRequest_names hrequest).pair hframe
  refine hstart.bind (n := 1) fun reply => .lift_bind fun v _ => .lift_bind fun garbled _ => ?_
  refine .lift_bind fun request hfinish => ?_
  refine (requestPayload_quiet _ sha256 _ (fusedFinishRequest_head hfinish) (by decide)
    finishEnv).bind (n := 0) fun decision => ?_
  exact .require_bind fun _ => .pure _

end Parties

end Protocol
end SociSgx

import SociSgx.Lib.Preserves
import SociSgx.Optimizer.SolverPreserve
import SociSgx.Optimizer.ThresholdRuntime

/-!
# ThresholdAuthorization — what the CSP is asked without leave

Nothing is assumed here about the keys, the ciphertexts, the network or the CSP.  Whatever they do,
a frame that asks for a predicate names a context which the authorizer has let through, in the
session of a request, and the CSP consumes no other pair.
-/

namespace SociSgx
namespace Optimization

open Exec Secure Secure.PredicateEngine Protocol

/-! ## Received frames -/

/-- The events of the server are those of `old` and new ones, and every frame received among the new
ones has `B`. -/
def Hears (B : Bytes → Prop) (old server : Server) : Prop :=
  ∃ new, server.state.events = old.state.events ++ new ∧ ∀ frame, .received frame ∈ new → B frame

section

variable {B : Bytes → Prop} {old : Server} {request : Bytes}

theorem Hears.refl (B : Bytes → Prop) (server : Server) : Hears B server server :=
  ⟨[], (List.append_nil _).symm, fun _ h => absurd h List.not_mem_nil⟩

theorem Hears.trans {mid server : Server} (h : Hears B old mid) (h' : Hears B mid server) :
    Hears B old server := by
  rcases h with ⟨first, hfirst, hB⟩
  rcases h' with ⟨second, hsecond, hB'⟩
  refine ⟨first ++ second, ?_, fun frame hframe => ?_⟩
  · rw [hsecond, hfirst, List.append_assoc]
  · exact (List.mem_append.1 hframe).elim (hB frame) (hB' frame)

/-- The new events are no frames. -/
def Unheard (events events' : List Protocol.Event) : Prop :=
  ∃ new, events' = events ++ new ∧ ∀ event ∈ new, event.isReceived = false

theorem Unheard.concat {events events' : List Protocol.Event} {event : Protocol.Event}
    (h : Unheard events events') (hevent : event.isReceived = false) :
    Unheard events (events' ++ [event]) := by
  rcases h with ⟨new, rfl, hnew⟩
  refine ⟨new ++ [event], List.append_assoc .., fun other hother => ?_⟩
  rcases List.mem_append.1 hother with hother | hother
  · exact hnew other hother
  · exact List.mem_singleton.1 hother ▸ hevent

/-- No handler notes a frame. -/
theorem change_unheard {s t : CspState} (h : Change request s t) : Unheard s.events t.events := by
  have hsame : Unheard s.events s.events :=
    ⟨[], (List.append_nil _).symm, fun _ h => absurd h List.not_mem_nil⟩
  cases h with
  | nothing => exact hsame
  | refused _ _ _ => exact hsame.concat rfl
  | consumed _ _ _ => exact hsame.concat rfl
  | decrypted _ _ _ => exact (hsame.concat rfl).concat rfl
  | started _ _ _ _ => exact ((hsame.concat rfl).concat rfl).concat rfl
  | dropped _ => exact hsame
  | decided _ _ _ => exact hsame.concat rfl

/-- Behind a frame with `B` nothing but quiet events. -/
theorem hears_received {server server' : Server} (hB : B request)
    (h : Unheard (server.state.events ++ [.received request]) server'.state.events) :
    Hears B server server' := by
  rcases h with ⟨new, hnew, hquiet⟩
  refine ⟨.received request :: new, ?_, fun frame hframe => ?_⟩
  · rw [hnew, List.append_assoc]
    rfl
  · rcases List.mem_cons.1 hframe with hframe | hframe
    · cases hframe
      exact hB
    · have hreceived : true = false := hquiet _ hframe
      exact absurd hreceived (by decide)

variable (csp : Csp) (sha256 : Bytes → Label) (env : Surroundings csp.modulus)

/-- A frame that arrives is the only one that is new. -/
theorem step_hears (server : Server) {frame : Except Error Bytes}
    (hB : ∀ payload, frame = .ok payload → B payload) :
    Hears B server (server.step csp sha256 (.frame frame env)) := by
  rcases server with ⟨phase, state⟩
  cases phase with
  | waiting => exact Hears.refl B _
  | stopped => exact Hears.refl B _
  | serving =>
      cases frame with
      | error e =>
          refine ⟨[.rejected e], rfl, fun payload hmem => ?_⟩
          cases List.mem_singleton.1 hmem
      | ok request =>
          have hrequest := hB request rfl
          rcases (serve_frame csp sha256 state request env).run rfl with
            ⟨ends, t, hrun, u, hchange, rfl⟩ | ⟨e, t, hrun, hchange⟩
          · simp only [Server.step, hrun]
            cases ends with
            | false => exact hears_received hrequest (change_unheard hchange)
            | true => exact hears_received hrequest ((change_unheard hchange).concat rfl)
          · simp only [Server.step, hrun]
            exact hears_received hrequest ((change_unheard hchange).concat rfl)

theorem requestPayload_hears (hB : B request) :
    Preserves (Hears B old) (csp.requestPayload sha256 request env) := by
  refine (Preserves.require _ _).bind fun _ => Triple.get_bind fun server hserver => ?_
  refine Triple.bind (Q := fun _ => Hears B old) (Triple.modify fun t ht => ?_) fun _ => ?_
  · rw [ht]
    refine hserver.trans (step_hears csp sha256 env server fun payload hpayload => ?_)
    rw [receivePayload_ok hpayload]
    exact hB
  · refine (Preserves.lift _).bind fun reply => (Preserves.lift _).bind fun payload => ?_
    exact (Preserves.require _ _).bind fun _ => Preserves.pure _

end

/-! ## The calls of the client -/

theorem predicateRequest_names {parties : Parties} {context : PredicateContext} {c : Nat}
    {frame : Bytes} (h : parties.predicateRequest context c = .ok frame) :
    Names context frame := by
  rcases bind_eq_ok.1 h with ⟨head, hhead, h⟩
  rcases bind_eq_ok.1 h with ⟨first, hfirst, h⟩
  rcases bind_eq_ok.1 h with ⟨share, _, h⟩
  rcases appendInteger_extends hfirst with ⟨_, rfl⟩
  rcases appendInteger_extends h with ⟨_, rfl⟩
  rw [List.append_assoc]
  exact names_of_appendContext hhead

theorem fusedFinishRequest_names {context : PredicateContext} {pairs : List LabelPair}
    {garbled : GarbledPredicate} {frame : Bytes}
    (h : fusedFinishRequest context pairs garbled = .ok frame) : Names context frame := by
  rcases bind_eq_ok.1 h with ⟨head, hhead, h⟩
  rw [← Except.ok.inj h]
  simp only [List.append_assoc]
  exact names_of_appendContext hhead

/-- The frame computes on ciphertexts or asks for the times of the CSP, or it asks for a predicate
under a context with `May`. -/
def Asks (May : PredicateContext → Prop) (frame : Bytes) : Prop :=
  (frame.head? = some (byteOf 'B') ∨ frame.head? = some (byteOf 'T')) ∨
    ∃ context, May context ∧ Names context frame

/-- Since `old` the server has received only such frames, and has consumed only pairs of such
contexts. -/
structure Spoken (May : PredicateContext → Prop) (old server : Server) : Prop where
  frames : Hears (Asks May) old server
  pairs : ∀ pair ∈ consumedPairs server.state.events,
    pair ∈ consumedPairs old.state.events ∨ ∃ context, May context ∧ contextPair context = pair

theorem Spoken.refl (May : PredicateContext → Prop) (server : Server) :
    Spoken May server server :=
  ⟨Hears.refl _ server, fun _ h => Or.inl h⟩

theorem Spoken.trans {May : PredicateContext → Prop} {old mid server : Server}
    (h : Spoken May old mid) (h' : Spoken May mid server) : Spoken May old server where
  frames := h.frames.trans h'.frames
  pairs := fun pair hpair => (h'.pairs pair hpair).elim (h.pairs pair) Or.inr

theorem Spoken.mono {May May' : PredicateContext → Prop} {old server : Server}
    (h : Spoken May old server) (hMay : ∀ context, May context → May' context) :
    Spoken May' old server where
  frames := by
    rcases h.frames with ⟨new, hnew, hasks⟩
    refine ⟨new, hnew, fun frame hframe => ?_⟩
    rcases hasks frame hframe with hquiet | ⟨context, hmay, hnames⟩
    · exact Or.inl hquiet
    · exact Or.inr ⟨context, hMay context hmay, hnames⟩
  pairs := by
    intro pair hpair
    rcases h.pairs pair hpair with hold | ⟨context, hmay, hcontext⟩
    · exact Or.inl hold
    · exact Or.inr ⟨context, hMay context hmay, hcontext⟩

theorem rethrown_preserves {σ α : Type} {I : σ → Prop} {error : Error} {m : EStateM Error σ α}
    (hm : Preserves I m) : Preserves I (rethrown error m) := by
  intro s hs
  rcases hm.run hs with ⟨a, t, hrun, ht⟩ | ⟨e, t, hrun, ht⟩
  · simp only [rethrown, hrun]
    exact ht
  · simp only [rethrown, hrun]
    exact ht

theorem rethrownOther_preserves {σ α : Type} {I : σ → Prop} {error : Error}
    {m : EStateM Error σ α} (hm : Preserves I m) :
    Preserves I (Parties.rethrownOther error m) := by
  intro s hs
  rcases hm.run hs with ⟨a, t, hrun, ht⟩ | ⟨e, t, hrun, ht⟩
  · simp only [Parties.rethrownOther, hrun]
    exact ht
  · cases e <;> (simp only [Parties.rethrownOther, hrun]; exact ht)

section

variable {May : PredicateContext → Prop} {old : Server}

/-- A request that may be sent. -/
theorem requestPayload_spoken (csp : Csp) (sha256 : Bytes → Label) {payload : Bytes}
    (hasks : Asks May payload) (env : Surroundings csp.modulus) :
    Preserves (Spoken May old) (csp.requestPayload sha256 payload env) := by
  have hexchanges : Exchanges (fun pair => ∃ context, May context ∧ contextPair context = pair) 1
      (csp.requestPayload sha256 payload env) := by
    refine requestPayload_exchanges csp sha256 payload env fun start hframe => ?_
    rcases hasks with (hB | hT) | ⟨context, hmay, hnames⟩
    · exact absurd (Option.some.inj (hB.symm.trans hframe.head)) (by decide)
    · exact absurd (Option.some.inj (hT.symm.trans hframe.head)) (by decide)
    · exact ⟨context, hmay, hnames.pair hframe⟩
  have hhears : Preserves (Hears (Asks May) old) (csp.requestPayload sha256 payload env) :=
    requestPayload_hears csp sha256 env hasks
  intro server hserver
  have hframes := hhears server hserver.frames
  have hleaves := hexchanges server server rfl
  -- Both say something of the server behind the call, however it ends.
  have hpairs : ∀ {n : Nat} {server' : Server}, Leaves
      (fun pair => ∃ context, May context ∧ contextPair context = pair) n server server' →
      ∀ pair ∈ consumedPairs server'.state.events, pair ∈ consumedPairs old.state.events ∨
        ∃ context, May context ∧ contextPair context = pair :=
    fun h pair hpair => (h.adds.pairs pair hpair).elim (hserver.pairs pair) Or.inr
  cases hrun : csp.requestPayload sha256 payload env server with
  | ok reply server' =>
      rw [hrun] at hframes hleaves
      exact ⟨hframes, hpairs hleaves⟩
  | error e server' =>
      rw [hrun] at hframes hleaves
      rcases hleaves with ⟨k, _, hleaves⟩
      exact ⟨hframes, hpairs hleaves⟩

section

variable (parties : Parties) (sha256 : Bytes → Label)

theorem requestMultiplyBatch_spoken (items : List (Nat × Nat))
    (draws : Nat → Parties.MultiplyDraw) (masks last : Nat → Nonce parties.modulus)
    (env : Surroundings parties.csp.modulus) : Preserves (Spoken May old)
      (parties.requestMultiplyBatch sha256 items draws masks last env) := by
  refine (Preserves.require _ _).bind fun _ => (Preserves.lift _).bind fun packed =>
    (Preserves.lift _).bind fun shares => Preserves.lift_bind fun request hrequest => ?_
  refine (requestPayload_spoken _ sha256
    (Or.inl (Or.inl (Parties.batchRequest_head hrequest))) env).bind fun reply => ?_
  exact (Preserves.lift _).bind fun products => Preserves.lift _

theorem requestCompareBatch_spoken (items : List (Nat × Nat)) (draws : Nat → CompareDraw)
    (masks last : Nat → Nonce parties.modulus) (env : Surroundings parties.csp.modulus) :
    Preserves (Spoken May old)
      (parties.requestCompareBatch sha256 items draws masks last env) := by
  refine (Preserves.require _ _).bind fun _ => (Preserves.lift _).bind fun masked =>
    Preserves.lift_bind fun request hrequest => ?_
  exact (requestPayload_spoken _ sha256
    (Or.inl (Or.inl (Parties.batchRequest_head hrequest))) env).bind fun reply => Preserves.lift _

variable {context : PredicateContext} (hmay : May context)
include hmay

theorem revealFinalPredicate_spoken (c : Nat) (env : Surroundings parties.csp.modulus) :
    Preserves (Spoken May old) (parties.revealFinalPredicate sha256 context c env) := by
  refine rethrownOther_preserves (Preserves.lift_bind fun request hrequest => ?_)
  refine (requestPayload_spoken _ sha256
    (Or.inr ⟨context, hmay, predicateRequest_names hrequest⟩) env).bind fun reply => ?_
  exact (Preserves.require _ _).bind fun _ => Preserves.pure _

/-- Both frames of a fused predicate name its context. -/
theorem fusedPredicate_spoken (ot : OtKey) (items : List (Nat × Nat)) (hasIncumbent : Bool)
    (draws : FusedDraws parties.modulus ot.n) (startEnv finishEnv : Surroundings parties.modulus) :
    Preserves (Spoken May old) (parties.fusedPredicate sha256 ot context items hasIncumbent draws
      startEnv finishEnv) := by
  refine (Preserves.require _ _).bind fun _ => rethrown_preserves ?_
  refine (Preserves.lift _).bind fun masked => Preserves.lift_bind fun request hrequest => ?_
  refine (requestPayload_spoken parties.csp sha256
    (Or.inr ⟨context, hmay, fusedStartRequest_names hrequest⟩) startEnv).bind fun reply => ?_
  refine (Preserves.lift _).bind fun v => (Preserves.lift _).bind fun garbled =>
    Preserves.lift_bind fun request hfinish => ?_
  refine (requestPayload_spoken parties.csp sha256
    (Or.inr ⟨context, hmay, fusedFinishRequest_names hfinish⟩) finishEnv).bind fun decision => ?_
  exact (Preserves.require _ _).bind fun _ => Preserves.pure _

end

end

/-! ## The runtime -/

section

variable {May : PredicateContext → Prop} {old : Server} (d : Deployment)

theorem draw_spoken : Preserves (Preserves.First (Spoken May old)) d.draw :=
  fun _ hw => hw

theorem secureMultiplyBatch_spoken (items : List (Nat × Nat)) :
    Preserves (Preserves.First (Spoken May old)) (d.secureMultiplyBatch items) := by
  refine (draw_spoken d).bind fun draws => ?_
  refine (requestMultiplyBatch_spoken d.parties d.sha256 items _ _ _ _).onFst.bind fun cs => ?_
  exact (Preserves.update _).bind fun _ => Preserves.pure cs

theorem greaterThanBatch_spoken (items : List (Nat × Nat)) :
    Preserves (Preserves.First (Spoken May old)) (d.greaterThanBatch items) := by
  refine (draw_spoken d).bind fun draws => ?_
  refine (requestCompareBatch_spoken d.parties d.sha256 items _ _ _ _).onFst.bind fun cs => ?_
  exact (Preserves.update _).bind fun _ => Preserves.pure cs

/-- The operations of the backend never ask for a predicate. -/
theorem ops_spoken (domain : NumericDomain) :
    OpsPreserve (d.ops domain) (Preserves.First (Spoken May old)) where
  encryptConstant := fun _ => (draw_spoken d).bind fun _ => Preserves.lift _
  add := fun _ _ => (Preserves.lift _).bind fun _ => Preserves.lift _
  scalarMul := fun _ _ => (Preserves.lift _).bind fun _ => (Preserves.lift _).bind fun _ =>
    Preserves.lift _
  secureMul := fun _ _ => (Preserves.lift _).bind fun item =>
    (secureMultiplyBatch_spoken d [item]).bind fun _ => Preserves.lift _
  secureMulBatch := fun _ => (Preserves.lift _).bind fun native =>
    (secureMultiplyBatch_spoken d native).bind fun _ => Preserves.lift _
  greaterThan := fun _ _ => (Preserves.lift _).bind fun item =>
    (greaterThanBatch_spoken d [item]).bind fun _ => (Preserves.lift _).bind fun _ =>
      Preserves.pure _
  greaterThanBatch := fun _ => (Preserves.lift _).bind fun native =>
    (greaterThanBatch_spoken d native).bind fun _ => (Preserves.lift _).bind fun _ =>
      Preserves.pure _

variable {context : PredicateContext} (hmay : May context)
include hmay

theorem revealFinalBit_spoken (bit : EncryptedBit Ciphertext) :
    Preserves (Preserves.First (Spoken May old)) (d.revealFinalBit context bit) := by
  refine (draw_spoken d).bind fun draws => (Preserves.lift _).bind fun c => ?_
  refine (revealFinalPredicate_spoken d.parties d.sha256 hmay c _).onFst.bind fun predicate => ?_
  exact (Preserves.update _).bind fun _ => Preserves.pure predicate

theorem deployment_fusedPredicate_spoken (items : List (Nat × Nat)) (hasIncumbent : Bool)
    (draws : CallDraws d.parties d.ot) : Preserves (Preserves.First (Spoken May old))
      (d.fusedPredicate context items hasIncumbent draws) := by
  refine (fusedPredicate_spoken d.parties d.sha256 hmay d.ot items hasIncumbent _ _ _).onFst.bind
    fun decision => ?_
  exact (Preserves.update _).bind fun _ => Preserves.pure decision

end

/-- What the authorizer of a runtime lets through in the session of a request. -/
def Authorized (authorizer : PredicateContext → Except Error Bool) (sessionId : Bytes)
    (context : PredicateContext) : Prop :=
  context.sessionId = sessionId ∧ authorizer context = .ok true

theorem engine_spoken (d : Deployment) (domain : NumericDomain)
    (authorizer : PredicateContext → Except Error Bool) (sessionId : Bytes) (old : Server) :
    PartiesPreserve (thresholdEngine d domain authorizer)
      (Preserves.First (Spoken (Authorized authorizer sessionId) old))
      (fun context => context.sessionId = sessionId)
      (fun context => authorizer context = .ok true) where
  ops := ops_spoken d domain
  authorize := fun context =>
    Triple.lift (fun answer w hanswer hw => ⟨fun hyes => hyes ▸ hanswer, hw⟩) fun _ _ _ hw => hw
  resolve := fun context bit hasked hallowed => revealFinalBit_spoken d ⟨hasked, hallowed⟩ bit
  enabled := fun fused hfused => by
    cases hfused
    exact Preserves.pure _
  fusedPrune := fun fused hfused context inputs hasked hallowed => by
    cases hfused
    exact (draw_spoken d).bind fun draws => (Preserves.lift _).bind fun items =>
      deployment_fusedPredicate_spoken d ⟨hasked, hallowed⟩ items _ draws
  fusedAccept := fun fused hfused context inputs hasked hallowed => by
    cases hfused
    exact (draw_spoken d).bind fun draws => (Preserves.lift _).bind fun items =>
      deployment_fusedPredicate_spoken d ⟨hasked, hallowed⟩ items _ draws

theorem refreshCspMetrics_spoken (d : Deployment) {May : PredicateContext → Prop} {old : Server} :
    Preserves (Preserves.First (Spoken May old)) (refreshCspMetrics d) := by
  refine (draw_spoken d).bind fun draws => ?_
  refine (requestPayload_spoken _ d.sha256 (Or.inl (Or.inr rfl)) _).onFst.bind fun reply => ?_
  exact Preserves.require _ _

theorem runtime_spoken (runtime : ThresholdConfidentialRuntime)
    (request : EncryptedOptimizationRequest Ciphertext) (old : Server) :
    Preserves (Preserves.First (Spoken (Authorized runtime.authorizer request.sessionId) old))
      (runtime.optimize request) := by
  refine (refreshCspMetrics_spoken runtime.deployment).bind fun _ =>
    Preserves.locals_bind fun before => ?_
  refine (optimize_preserves (engine_spoken runtime.deployment runtime.domain runtime.authorizer
    request.sessionId old) runtime.solverConfig).bind fun result => ?_
  refine (refreshCspMetrics_spoken runtime.deployment).bind fun _ =>
    Preserves.locals_bind fun after => ?_
  exact Preserves.pure _

end Optimization
end SociSgx

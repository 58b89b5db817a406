import SociSgx.Optimizer.OperandRange
import SociSgx.Protocol.ThresholdContract

/-!
# ThresholdEngine — the predicate engine over the threshold backend

With the fused predicates the CSP keeps the consumed pairs a second time.  The engine refuses a pair
before the CSP sees it, so the two never disagree: an operation that is fresh for the engine is
fresh for the CSP, and its evaluation tells the truth.  An authorizer that says no stops a search
and leaves the connection as it was.
-/

namespace SociSgx
namespace Optimization

open Exec Secure Secure.PredicateEngine Protocol

/-! ## Sessions -/

/-- A pair of the session after `p` PRUNE and `a` ACCEPT evaluations, or one with `P`. -/
def Taken (P : Bytes × Bytes → Prop) (sessionId : Bytes) (p a : Nat) (pair : Bytes × Bytes) :
    Prop :=
  P pair ∨ (∃ i < p, pair = (sessionId, operationId "prune-" (UInt64.ofNat (i + 1)))) ∨
    ∃ i < a, pair = (sessionId, operationId "accept-" (UInt64.ofNat (i + 1)))

variable {P : Bytes × Bytes → Prop} {sessionId : Bytes} {p a : Nat} {pair : Bytes × Bytes}

theorem Taken.prune (h : Taken P sessionId p a pair ∨
    (sessionId, operationId "prune-" (UInt64.ofNat (p + 1))) = pair) :
    Taken P sessionId (p + 1) a pair := by
  rcases h with (h | ⟨i, hi, h⟩ | h) | rfl
  · exact Or.inl h
  · exact Or.inr (Or.inl ⟨i, Nat.lt_succ_of_lt hi, h⟩)
  · exact Or.inr (Or.inr h)
  · exact Or.inr (Or.inl ⟨p, Nat.lt_succ_self p, rfl⟩)

theorem Taken.accept (h : Taken P sessionId p a pair ∨
    (sessionId, operationId "accept-" (UInt64.ofNat (a + 1))) = pair) :
    Taken P sessionId p (a + 1) pair := by
  rcases h with (h | h | ⟨i, hi, h⟩) | rfl
  · exact Or.inl h
  · exact Or.inr (Or.inl h)
  · exact Or.inr (Or.inr ⟨i, Nat.lt_succ_of_lt hi, h⟩)
  · exact Or.inr (Or.inr ⟨a, Nat.lt_succ_self a, rfl⟩)

/-- The pairs of a session that are taken all name it. -/
theorem Taken.session (h : Taken P sessionId p a pair) : P pair ∨ pair.1 = sessionId := by
  rcases h with h | ⟨_, _, rfl⟩ | ⟨_, _, rfl⟩
  · exact Or.inl h
  · exact Or.inr rfl
  · exact Or.inr rfl

/-- What the engine has not consumed is not taken, if the session is new to the CSP. -/
theorem not_taken {keys : List Bytes} (hkeys : Consumed sessionId [] p a keys)
    (hnew : ∀ operation, ¬ P (sessionId, operation)) {context : PredicateContext}
    (hsession : context.sessionId = sessionId) (hfresh : replayKey context ∉ keys) :
    ¬ Taken P sessionId p a (contextPair context) := by
  have hkey : replayKey context = sessionKey sessionId context.operationId := by
    rw [← hsession]
    rfl
  rw [hkey] at hfresh
  rintro (h | ⟨i, hi, h⟩ | ⟨i, hi, h⟩)
  · rw [contextPair, hsession] at h
    exact hnew _ h
  · have hop : context.operationId = operationId "prune-" (UInt64.ofNat (i + 1)) :=
      congrArg Prod.snd h
    rw [hop] at hfresh
    exact hfresh (hkeys.prunes i hi)
  · have hop : context.operationId = operationId "accept-" (UInt64.ofNat (i + 1)) :=
      congrArg Prod.snd h
    rw [hop] at hfresh
    exact hfresh (hkeys.accepts i hi)

/-! ## Admissible operands -/

theorem pruneFits_of_admits {v : PruneInputs Int}
    (h : v.Admits Small fun k => 1 ≤ k ∧ k ≤ thresholdMaxBatchSize) : PruneFits v where
  linearUpper := h.linearUpper
  costLowers := by
    intro hinc
    rcases h.costLowers hinc with ⟨hne, hsmall, hcost⟩
    have hcount := h.batch (v.costLowers.length + 1) (Nat.le_add_left 1 _) le_rfl
    exact ⟨⟨List.length_pos_iff.2 hne, hcount.2⟩, hsmall, hcost⟩

theorem acceptFits_of_admits {v : AcceptInputs Int} {Batch : Nat → Prop}
    (h : v.Admits Small Batch) : AcceptFits v :=
  ⟨h.candidate, h.incumbent⟩

/-! ## The engine -/

/-- The engine of a `ThresholdConfidentialRuntime`: the authorizer is the caller's, and the resolver
asks the CSP. -/
def thresholdEngine (d : Deployment) (domain : NumericDomain)
    (authorizer : PredicateContext → Except Error Bool) :
    PredicateEngine ThresholdWorld Ciphertext where
  ops := d.ops domain
  authorizer := fun context => lift (authorizer context)
  resolver := d.revealFinalBit

/-- What the authorizer can stop an evaluation with. -/
def Refusal (authorizer : PredicateContext → Except Error Bool) (err : Error) : Prop :=
  ∃ context, authorizer context = .error err ∨
    authorizer context = .ok false ∧ err = Error.predicate "predicate evaluation denied"

variable {d : Deployment} {domain : NumericDomain}
  {authorizer : PredicateContext → Except Error Bool} {r : UInt64} {b : Balance}
  {context : PredicateContext} {consumed : List Bytes}

/-- The engine asks the client once, and the client reads the environment. -/
theorem fusedBackend_threshold : (thresholdEngine d domain authorizer).fusedBackend =
    pure (if d.fusionEnabled then (d.ops domain).fused else none) :=
  rfl

/-- An evaluation is refused for its key or by the authorizer; the backend is left alone. -/
def Refuses (authorizer : PredicateContext → Except Error Bool) (J : ThresholdWorld → Prop)
    (context : PredicateContext) (consumed : List Bytes) (err : Error)
    (world : EngineWorld ThresholdWorld) : Prop :=
  J world.1 ∧ ((replayKey context ∈ consumed ∧
    err = Error.predicate "predicate operation replayed") ∨ Refusal authorizer err)

section

variable {J : ThresholdWorld → Prop} (hvalid : Valid context)
include hvalid

theorem authorizeAndConsume_threshold {expectedType : PredicateType}
    (htype : context.predicateType = expectedType)
    (hknown : expectedType = .pruneNode ∨ expectedType = .acceptCandidate) :
    Triple (Spent J consumed)
      ((thresholdEngine d domain authorizer).authorizeAndConsume context expectedType)
      (fun _ w => replayKey context ∉ consumed ∧ Spent J (replayKey context :: consumed) w)
      (Refuses authorizer J context consumed) := by
  refine Triple.bind (Triple.bind (Triple.require_of hvalid) fun _ =>
    Triple.require_of (by rwa [htype])) fun _ => (Triple.require_of htype).bind fun _ => ?_
  have hask : Yields J (lift (authorizer context) : ThresholdM Bool)
      (fun answer => authorizer context = .ok answer)
      (fun err s => J s ∧ Refusal authorizer err) :=
    Triple.lift (fun _ _ hx hs => ⟨hx, hs⟩) fun _ _ hx hs => ⟨hs, context, Or.inl hx⟩
  refine Triple.bind ((Triple.onFst hask (fun keys => keys = consumed)).weaken
    (fun _ hw => hw) (fun answer w hw => (⟨hw.1.1, hw.1.2, hw.2⟩ :
      authorizer context = .ok answer ∧ Spent J consumed w))
    fun err w hw => ⟨hw.1.1, Or.inr hw.1.2⟩) fun answer => Triple.assuming fun hanswer => ?_
  refine Triple.bind (Triple.require fun hno w hw => ?_) fun _ => ?_
  · have hdenied := Bool.eq_false_iff.2 hno
    rw [hdenied] at hanswer
    exact ⟨hw.1, Or.inr ⟨context, Or.inr ⟨hanswer, rfl⟩⟩⟩
  · refine (consume_spec (E := Never)).weaken (fun _ hw => hw.2) (fun _ _ hw => hw) ?_
    rintro err w (⟨hmem, herr, hw⟩ | hnever)
    · exact ⟨hw.1, Or.inl ⟨hmem, herr⟩⟩
    · exact hnever.elim

/-- Once the key is consumed the backend decides. -/
theorem decides {expectedType : PredicateType} {J' : ThresholdWorld → Prop} {m : ThresholdM Bool}
    {v : Bool} (htype : context.predicateType = expectedType)
    (hknown : expectedType = .pruneNode ∨ expectedType = .acceptCandidate)
    (hm : replayKey context ∉ consumed → Triple J m (fun x w => v = x ∧ J' w) Never) :
    Triple (Spent J consumed) (do
        (thresholdEngine d domain authorizer).authorizeAndConsume context expectedType
        onFst m)
      (fun x w => v = x ∧ replayKey context ∉ consumed ∧
        Spent J' (replayKey context :: consumed) w)
      (Refuses authorizer J context consumed) := by
  refine (authorizeAndConsume_threshold hvalid htype hknown).bind fun _ => ?_
  refine Triple.assuming fun hfresh => ?_
  refine (Triple.onFst (hm hfresh) (fun keys => keys = replayKey context :: consumed)).weaken
    (fun _ hw => hw) ?_ ?_
  · intro x w hw
    exact ⟨hw.1.1, hfresh, hw.1.2, hw.2⟩
  · intro err w hw
    exact hw.1.elim

section

variable (h : d.Sane) (hnew : replayKey context ∉ consumed → ¬ P (contextPair context))
include h hnew

omit hnew in
/-- Without fusion the final bit goes to the resolver. -/
theorem evaluateFinalBit_threshold {expectedType : PredicateType}
    (hfusion : d.fusionEnabled = false) (htype : context.predicateType = expectedType)
    (hknown : expectedType = .pruneNode ∨ expectedType = .acceptCandidate) {v : Bool}
    {m : ThresholdM (EncryptedBit Ciphertext)}
    (hm : Yields (Ready d P r b) m
      (fun bit => Carries d.parties d.mode bit.ciphertext v.toInt) Never) :
    Triple (Spent (Ready d P r b) consumed) (do
        let finalBit ← onFst m
        (thresholdEngine d domain authorizer).evaluateFinalBit context expectedType finalBit)
      (fun x w => v = x ∧ replayKey context ∉ consumed ∧
        Spent (Ready d (fun pair => P pair ∨ contextPair context = pair) (r + 1) b)
          (replayKey context :: consumed) w)
      (Refuses authorizer (Ready d P r b) context consumed) := by
  refine Triple.bind (Q := fun bit w => Carries d.parties d.mode bit.ciphertext v.toInt ∧
    Spent (Ready d P r b) consumed w) ?_ fun bit => Triple.assuming fun hbit => ?_
  · refine (Triple.onFst hm (fun keys => keys = consumed)).weaken (fun _ hw => hw) ?_ ?_
    · exact fun _ _ hw => ⟨hw.1.1, hw.1.2, hw.2⟩
    · exact fun _ _ hw => hw.1.elim
  · refine decides hvalid htype hknown fun _ => ?_
    refine (revealFinalBit_ready h hvalid hfusion (htype ▸ hknown) hbit).post ?_
    exact fun _ _ hw => ⟨hw.1, hw.2.mono fun _ => Or.inl⟩

/-- A predicate of the engine tells the truth, on the fused path and on the other. -/
theorem pruneNode_threshold (htype : context.predicateType = .pruneNode)
    {inputs : PruneInputs Ciphertext} {v : PruneInputs Int}
    (hin : inputs.Holds (Carries d.parties d.mode) v)
    (hadm : v.Admits Small fun k => 1 ≤ k ∧ k ≤ thresholdMaxBatchSize) :
    Triple (Spent (Ready d P r b) consumed)
      ((thresholdEngine d domain authorizer).pruneNode context inputs)
      (fun x w => v.holds = x ∧ replayKey context ∉ consumed ∧
        Spent (Ready d (fun pair => P pair ∨ contextPair context = pair) (r + 1) b)
          (replayKey context :: consumed) w)
      (Refuses authorizer (Ready d P r b) context consumed) := by
  have hops := ops_exact (P := P) (r := r) (b := b) h domain
  unfold PredicateEngine.pruneNode
  rw [fusedBackend_threshold, pure_bind]
  cases hfusion : d.fusionEnabled with
  -- The predicate is a circuit of the client and the CSP.
  | true =>
      have hpresent : inputs.hasIncumbent = true →
          CiphertextLike.empty inputs.incumbentCost = false ∧
            inputs.costLowers.isEmpty = false := by
        intro hinc
        have hin' := prune_present hops hin hinc
        exact ⟨hin'.1, hin'.2.2 (hadm.costLowers (hin.hasIncumbent ▸ hinc)).1⟩
      refine (Triple.require_of hpresent).bind fun _ => ?_
      exact decides hvalid htype (Or.inl rfl) fun hfresh =>
        fusedPruneNode_ready h hvalid hfusion (hnew hfresh) htype hin (pruneFits_of_admits hadm)
  | false =>
      exact evaluateFinalBit_threshold hvalid h hfusion htype (Or.inl rfl)
        (pruneBit_spec hops hin hadm)

theorem acceptCandidate_threshold (htype : context.predicateType = .acceptCandidate)
    {inputs : AcceptInputs Ciphertext} {v : AcceptInputs Int}
    (hin : inputs.Holds (Carries d.parties d.mode) v)
    (hadm : v.Admits Small fun k => 1 ≤ k ∧ k ≤ thresholdMaxBatchSize) :
    Triple (Spent (Ready d P r b) consumed)
      ((thresholdEngine d domain authorizer).acceptCandidate context inputs)
      (fun x w => v.holds = x ∧ replayKey context ∉ consumed ∧
        Spent (Ready d (fun pair => P pair ∨ contextPair context = pair) (r + 1) b)
          (replayKey context :: consumed) w)
      (Refuses authorizer (Ready d P r b) context consumed) := by
  have hops := ops_exact (P := P) (r := r) (b := b) h domain
  unfold PredicateEngine.acceptCandidate
  rw [fusedBackend_threshold, pure_bind]
  cases hfusion : d.fusionEnabled with
  | true =>
      refine (Triple.require_of (accept_present hops hin)).bind fun _ => ?_
      exact decides hvalid htype (Or.inr rfl) fun hfresh =>
        fusedAcceptCandidate_ready h hvalid hfusion (hnew hfresh) htype hin
          (acceptFits_of_admits hadm)
  | false =>
      exact evaluateFinalBit_threshold hvalid h hfusion htype (Or.inr rfl)
        (acceptBit_spec hops hin hadm)

end

end

/-! ## One session -/

/-- The world of a session after `p` PRUNE and `a` ACCEPT evaluations; `r` reveals were counted
before it. -/
def Talks (d : Deployment) (P : Bytes × Bytes → Prop) (r : UInt64) (b : Balance)
    (sessionId : Bytes) (p a : Nat) (world : EngineWorld ThresholdWorld) : Prop :=
  Ready d (Taken P sessionId p a) (r + UInt64.ofNat (p + a)) b world.1 ∧
    Consumed sessionId [] p a world.2

/-- The next evaluation is refused: its counter has wrapped around, or the authorizer says no. -/
def Stops (authorizer : PredicateContext → Except Error Bool) (type : PredicateType) (p a : Nat)
    (err : Error) : Prop :=
  (2 ^ 64 ≤ (if type = .pruneNode then p else a) ∧
    err = Error.predicate "predicate operation replayed") ∨ Refusal authorizer err

theorem reveals_succ (r : UInt64) (n : Nat) :
    r + UInt64.ofNat n + 1 = r + UInt64.ofNat (n + 1) := by
  rw [UInt64.add_assoc, ofNat_succ]

theorem unused_nil (sessionId : Bytes) : Unused sessionId [] :=
  fun _ h => absurd h List.not_mem_nil

/-- An evaluation of a session asks for an identifier made of a name and a number. -/
theorem session_valid (hsession : validIdentifier sessionId) {name : String}
    (hname : name = "prune-" ∨ name = "accept-") (sequence : UInt64) (type : PredicateType)
    (depth : Nat) (node : UInt64) :
    Valid (predicateContext sessionId type depth node (operationId name sequence)) := by
  refine valid_context hsession _ ?_ type depth node
  rcases hname with rfl | rfl
  · exact validIdentifier_append_decimal (by decide) (by decide) _
  · exact validIdentifier_append_decimal (by decide) (by decide) _

theorem threshold_contract (h : d.Sane) (hsession : validIdentifier sessionId)
    (hnew : ∀ operation, ¬ P (sessionId, operation)) :
    PredicateContract (enginePredicates (thresholdEngine d domain authorizer))
      (Carries d.parties d.mode) Small (fun k => 1 ≤ k ∧ k ≤ thresholdMaxBatchSize) sessionId Eq
      (Talks d P r b sessionId) (fun type p a err w => Stops authorizer type p a err ∧
        Ready d (Taken P sessionId p a) (r + UInt64.ofNat (p + a)) b w.1) where
  pruneNode := by
    rintro p a depth node inputs v hin hadm ⟨world, keys⟩ ⟨hready, hkeys⟩
    have hvalid := session_valid hsession (Or.inl rfl) (UInt64.ofNat (p + 1)) .pruneNode depth node
    refine ((pruneNode_threshold hvalid h (not_taken hkeys hnew rfl) rfl hin hadm).weaken
      (fun _ hw => hw) ?_ ?_) (world, keys) ⟨hready, rfl⟩
    · rintro x w ⟨hx, hfresh, hw, hconsumed⟩
      refine ⟨hx, ?_, ?_⟩
      · rw [Nat.add_right_comm, ← reveals_succ]
        exact hw.mono fun _ => Taken.prune
      · rw [hconsumed]
        exact hkeys.prune hfresh
    · rintro err w ⟨hw, ⟨hmem, herr⟩ | hrefusal⟩
      · exact ⟨Or.inl ⟨hkeys.prune_mem (unused_nil _) hmem, herr⟩, hw⟩
      · exact ⟨Or.inr hrefusal, hw⟩
  acceptCandidate := by
    rintro p a depth node inputs v hin hadm ⟨world, keys⟩ ⟨hready, hkeys⟩
    have hvalid := session_valid hsession (Or.inr rfl) (UInt64.ofNat (a + 1)) .acceptCandidate
      depth node
    refine ((acceptCandidate_threshold hvalid h (not_taken hkeys hnew rfl) rfl hin hadm).weaken
      (fun _ hw => hw) ?_ ?_) (world, keys) ⟨hready, rfl⟩
    · rintro x w ⟨hx, hfresh, hw, hconsumed⟩
      refine ⟨hx, ?_, ?_⟩
      · rw [← Nat.add_assoc, ← reveals_succ]
        exact hw.mono fun _ => Taken.accept
      · rw [hconsumed]
        exact hkeys.accept hfresh
    · rintro err w ⟨hw, ⟨hmem, herr⟩ | hrefusal⟩
      · exact ⟨Or.inl ⟨hkeys.accept_mem (unused_nil _) hmem, herr⟩, hw⟩
      · exact ⟨Or.inr hrefusal, hw⟩

end Optimization
end SociSgx

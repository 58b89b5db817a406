import SociSgx.Optimizer.EncryptedSearch

/-!
# EngineSession — one solve in a session of the predicate engine

In a session that the engine has not seen before, the consumed pairs of the session are exactly the
operations of the solve.  The solver numbers its operations with 64-bit counters: the evaluation
after the `2^64`th one of its type repeats an operation, and the engine refuses it.
-/

namespace SociSgx
namespace Optimization

open Exec Secure Secure.PredicateEngine BranchBound

variable {σ C : Type} [CiphertextLike C]

/-! ## The keys of a session -/

def sessionKey (sessionId operation : Bytes) : Bytes :=
  appendField (appendField [] sessionId) operation

def pruneKey (sessionId : Bytes) (i : Nat) : Bytes :=
  sessionKey sessionId (operationId "prune-" (UInt64.ofNat (i + 1)))

def acceptKey (sessionId : Bytes) (i : Nat) : Bytes :=
  sessionKey sessionId (operationId "accept-" (UInt64.ofNat (i + 1)))

theorem sessionKey_inj {sessionId operation operation' : Bytes}
    (h : sessionKey sessionId operation = sessionKey sessionId operation') :
    operation = operation' :=
  (replayKey_inj (c := ⟨sessionId, operation, .pruneNode, 0, []⟩)
    (d := ⟨sessionId, operation', .pruneNode, 0, []⟩) h).2

theorem operationId_inj {name : String} {s s' : UInt64}
    (h : operationId name s = operationId name s') : s = s' := by
  have hnum : decimal s.toNat = decimal s'.toNat := List.append_cancel_left h
  exact UInt64.toNat_inj.1 (decimal_injective hnum)

theorem prune_ne_accept (s s' : UInt64) : operationId "prune-" s ≠ operationId "accept-" s' := by
  intro h
  have hhead := congrArg List.head? h
  simp [operationId, ascii] at hhead
  exact absurd hhead (by decide)

/-- Sequence numbers repeat after `2^64` evaluations, not before. -/
theorem sequence_repeats {i p : Nat} (hip : i < p)
    (h : UInt64.ofNat (i + 1) = UInt64.ofNat (p + 1)) : 2 ^ 64 ≤ p := by
  have hmod : (i + 1) % 2 ^ 64 = (p + 1) % 2 ^ 64 := by
    simpa [UInt64.toNat_ofNat'] using congrArg UInt64.toNat h
  omega

theorem pruneKey_wraps (sessionId : Bytes) (i : Nat) :
    pruneKey sessionId (i + 2 ^ 64) = pruneKey sessionId i := by
  have hwrap : UInt64.ofNat (i + 2 ^ 64 + 1) = UInt64.ofNat (i + 1) := by
    rw [← UInt64.toNat_inj, UInt64.toNat_ofNat', UInt64.toNat_ofNat']
    omega
  rw [pruneKey, hwrap, ← pruneKey]

theorem acceptKey_wraps (sessionId : Bytes) (i : Nat) :
    acceptKey sessionId (i + 2 ^ 64) = acceptKey sessionId i := by
  have hwrap : UInt64.ofNat (i + 2 ^ 64 + 1) = UInt64.ofNat (i + 1) := by
    rw [← UInt64.toNat_inj, UInt64.toNat_ofNat', UInt64.toNat_ofNat']
    omega
  rw [acceptKey, hwrap, ← acceptKey]

/-- No operation of the session has been consumed. -/
def Unused (sessionId : Bytes) (old : List Bytes) : Prop :=
  ∀ operation, sessionKey sessionId operation ∉ old

/-- The keys after `p` PRUNE and `a` ACCEPT evaluations, when `old` were consumed before. -/
structure Consumed (sessionId : Bytes) (old : List Bytes) (p a : Nat) (keys : List Bytes) :
    Prop where
  origin : ∀ key ∈ keys, key ∈ old ∨ (∃ i < p, key = pruneKey sessionId i) ∨
    (∃ i < a, key = acceptKey sessionId i)
  prunes : ∀ i < p, pruneKey sessionId i ∈ keys
  accepts : ∀ i < a, acceptKey sessionId i ∈ keys
  bound : p ≤ 2 ^ 64 ∧ a ≤ 2 ^ 64

theorem consumed_old (sessionId : Bytes) (old : List Bytes) : Consumed sessionId old 0 0 old :=
  ⟨fun _ h => Or.inl h, fun _ h => absurd h (by simp), fun _ h => absurd h (by simp), by decide⟩

namespace Consumed

variable {sessionId : Bytes} {old keys : List Bytes} {p a : Nat}

/-- A fresh key means that the counter has not wrapped around. -/
theorem prune (h : Consumed sessionId old p a keys) (hfresh : pruneKey sessionId p ∉ keys) :
    Consumed sessionId old (p + 1) a (pruneKey sessionId p :: keys) where
  origin := by
    intro key hkey
    rcases List.mem_cons.1 hkey with rfl | hkey
    · exact Or.inr (Or.inl ⟨p, Nat.lt_succ_self p, rfl⟩)
    · rcases h.origin key hkey with hold | ⟨i, hi, rfl⟩ | haccept
      · exact Or.inl hold
      · exact Or.inr (Or.inl ⟨i, Nat.lt_succ_of_lt hi, rfl⟩)
      · exact Or.inr (Or.inr haccept)
  prunes := by
    intro i hi
    rcases Nat.lt_succ_iff_lt_or_eq.1 hi with hi | rfl
    · exact List.mem_cons_of_mem _ (h.prunes i hi)
    · exact List.mem_cons_self
  accepts := fun i hi => List.mem_cons_of_mem _ (h.accepts i hi)
  bound := by
    refine ⟨?_, h.bound.2⟩
    by_contra hwrap
    have hkey := pruneKey_wraps sessionId (p - 2 ^ 64)
    rw [Nat.sub_add_cancel (by omega)] at hkey
    rw [hkey] at hfresh
    exact hfresh (h.prunes (p - 2 ^ 64) (by omega))

theorem accept (h : Consumed sessionId old p a keys) (hfresh : acceptKey sessionId a ∉ keys) :
    Consumed sessionId old p (a + 1) (acceptKey sessionId a :: keys) where
  origin := by
    intro key hkey
    rcases List.mem_cons.1 hkey with rfl | hkey
    · exact Or.inr (Or.inr ⟨a, Nat.lt_succ_self a, rfl⟩)
    · rcases h.origin key hkey with hold | hprune | ⟨i, hi, rfl⟩
      · exact Or.inl hold
      · exact Or.inr (Or.inl hprune)
      · exact Or.inr (Or.inr ⟨i, Nat.lt_succ_of_lt hi, rfl⟩)
  prunes := fun i hi => List.mem_cons_of_mem _ (h.prunes i hi)
  accepts := by
    intro i hi
    rcases Nat.lt_succ_iff_lt_or_eq.1 hi with hi | rfl
    · exact List.mem_cons_of_mem _ (h.accepts i hi)
    · exact List.mem_cons_self
  bound := by
    refine ⟨h.bound.1, ?_⟩
    by_contra hwrap
    have hkey := acceptKey_wraps sessionId (a - 2 ^ 64)
    rw [Nat.sub_add_cancel (by omega)] at hkey
    rw [hkey] at hfresh
    exact hfresh (h.accepts (a - 2 ^ 64) (by omega))

/-- A consumed PRUNE key means that the counter has wrapped around. -/
theorem prune_mem (h : Consumed sessionId old p a keys) (hunused : Unused sessionId old)
    (hmem : pruneKey sessionId p ∈ keys) : 2 ^ 64 ≤ p := by
  rcases h.origin _ hmem with hold | ⟨i, hi, hkey⟩ | ⟨i, _, hkey⟩
  · exact absurd hold (hunused _)
  · exact sequence_repeats hi (operationId_inj (sessionKey_inj hkey)).symm
  · exact absurd (sessionKey_inj hkey) (prune_ne_accept _ _)

theorem accept_mem (h : Consumed sessionId old p a keys) (hunused : Unused sessionId old)
    (hmem : acceptKey sessionId a ∈ keys) : 2 ^ 64 ≤ a := by
  rcases h.origin _ hmem with hold | ⟨i, _, hkey⟩ | ⟨i, hi, hkey⟩
  · exact absurd hold (hunused _)
  · exact absurd (sessionKey_inj hkey).symm (prune_ne_accept _ _)
  · exact sequence_repeats hi (operationId_inj (sessionKey_inj hkey)).symm

end Consumed

/-! ## The engine keeps the contract -/

/-- The world of a session. -/
def Session (J : σ → Prop) (sessionId : Bytes) (old : List Bytes) (p a : Nat)
    (world : EngineWorld σ) : Prop :=
  J world.1 ∧ Consumed sessionId old p a world.2

/-- An evaluation fails because its counter wrapped around, or because a party fails. -/
def SessionFails (J : σ → Prop) (E : Error → σ → Prop) (type : PredicateType) (p a : Nat)
    (err : Error) (s : σ) : Prop :=
  (2 ^ 64 ≤ (if type = .pruneNode then p else a) ∧
    err = Error.predicate "predicate operation replayed" ∧ J s) ∨ E err s

theorem valid_context {sessionId : Bytes} (hsession : validIdentifier sessionId)
    (operation : Bytes) (hoperation : validIdentifier operation) (type : PredicateType)
    (depth : Nat)
    (node : UInt64) : Valid (predicateContext sessionId type depth node operation) :=
  ⟨hsession, hoperation, validIdentifier_append_decimal (by decide) (by decide) node⟩

theorem engine_contract {e : PredicateEngine σ C} {D : C → Int → Prop} {Fits : Int → Prop}
    {Batch : Nat → Prop} {J : σ → Prop} {Ans : Bool → Bool → Prop} {E : Error → σ → Prop}
    (h : Parties e D Fits Batch J Ans E) {sessionId : Bytes}
    (hsession : validIdentifier sessionId) {old : List Bytes} (hunused : Unused sessionId old) :
    PredicateContract (enginePredicates e) D Fits Batch sessionId Ans
      (Session J sessionId old) (fun type p a err w => SessionFails J E type p a err w.1) where
  pruneNode := by
    rintro p a depth node inputs v hin hadm ⟨s, keys⟩ ⟨hJ, hkeys⟩
    have hvalid := valid_context hsession (operationId "prune-" (UInt64.ofNat (p + 1)))
      (validIdentifier_append_decimal (by decide) (by decide) _) .pruneNode depth node
    refine ((pruneNode_spec keys h hvalid rfl hin hadm).weaken (fun _ ht => ht)
      ?_ ?_) (s, keys) ⟨hJ, rfl⟩
    · rintro b w ⟨hanswer, hfresh, hworld, hconsumed⟩
      refine ⟨hanswer, hworld, ?_⟩
      rw [hconsumed]
      exact hkeys.prune hfresh
    · rintro err w (⟨hmem, herr, hworld, _⟩ | hE)
      · exact Or.inl ⟨hkeys.prune_mem hunused hmem, herr, hworld⟩
      · exact Or.inr hE
  acceptCandidate := by
    rintro p a depth node inputs v hin hadm ⟨s, keys⟩ ⟨hJ, hkeys⟩
    have hvalid := valid_context hsession (operationId "accept-" (UInt64.ofNat (a + 1)))
      (validIdentifier_append_decimal (by decide) (by decide) _) .acceptCandidate depth node
    refine ((acceptCandidate_spec keys h hvalid rfl hin hadm).weaken
      (fun _ ht => ht) ?_ ?_) (s, keys) ⟨hJ, rfl⟩
    · rintro b w ⟨hanswer, hfresh, hworld, hconsumed⟩
      refine ⟨hanswer, hworld, ?_⟩
      rw [hconsumed]
      exact hkeys.accept hfresh
    · rintro err w (⟨hmem, herr, hworld, _⟩ | hE)
      · exact Or.inl ⟨hkeys.accept_mem hunused hmem, herr, hworld⟩
      · exact Or.inr hE

/-- A solve in an unused session is a run of the plain search. -/
theorem solve_spec {e : PredicateEngine σ C} {D : C → Int → Prop} {Fits : Int → Prop}
    {Batch : Nat → Prop} {J : σ → Prop} {Ans : Bool → Bool → Prop} {E : Error → σ → Prop}
    (h : Parties e D Fits Batch J Ans E) {config : EncryptedBranchAndBoundConfig}
    {request : EncryptedOptimizationRequest C} {grid : Option LagrangianGrid}
    (hcheck : checkRequest e.ops.domain config request = .ok grid) {rows : List (CostRow Int)}
    (hcosts : List.Forall₂ (RowHolds D) request.costs rows)
    (hoperands : OperandsFit Fits Batch (boundOf grid) e.ops.domain.scale
      request.thresholdScaled rows) {old : List Bytes} (hunused : Unused request.sessionId old) :
    Triple (fun world : EngineWorld σ => J world.1 ∧ world.2 = old)
      ((engineSolver e config).solve request)
      (fun result world => ∃ s log, result = EncryptedBranchAndBoundSolver.finish s ∧
        Explores options (answers Ans (boundOf grid) e.ops.domain.scale request.thresholdScaled)
          rows [] {} log ∧
        Between D (Session J request.sessionId old) grid e.ops.domain.scale
          request.thresholdScaled rows log (world, s))
      (fun err world => FailsAt Ans (SessionFails J E) (boundOf grid) e.ops.domain.scale
        request.thresholdScaled rows [] {} err world.1) := by
  have hsetting : Setting (engineSolver e config) D Fits Batch request.sessionId Ans
      (Session J request.sessionId old)
      (fun type p a err w => SessionFails J E type p a err w.1) grid e.ops.domain.scale
      request.thresholdScaled rows :=
    ⟨fun p a => h.ops.onFst (Consumed request.sessionId old p a),
      engine_contract h (checkRequest_costs hcheck).1 hunused, hoperands,
      (checkRequest_valid hcheck).nonempty⟩
  have hsearch := search_spec hcheck hcosts hsetting
  refine Triple.map (hsearch.pre ?_) ?_
  · rintro ⟨s, keys⟩ ⟨hs, rfl⟩
    exact ⟨hs, consumed_old _ _⟩
  · rintro s world ⟨log, hexplores, hbetween⟩
    exact ⟨s, log, rfl, hexplores, hbetween⟩

/-! ## An engine in the clear -/

/-- An engine over `clearOps` that allows everything and tells the truth. -/
def clearEngine (domain : NumericDomain) : PredicateEngine Unit (Option Int) :=
  { ops := clearOps domain
    authorizer := fun _ => pure true
    resolver := fun _ bit => pure (decide (bit.ciphertext.getD 0 ≠ 0)) }

theorem clearEngine_parties (domain : NumericDomain) (Fits : Int → Prop) (Batch : Nat → Prop) :
    Parties (clearEngine domain) (fun c x => c = some x) Fits Batch (fun _ => True) Eq Never where
  ops := clearOps_exact domain Fits Batch
  authorize := fun _ => Yields.pure (Or.inl rfl)
  resolve := by
    intro context bit p hbit
    refine Yields.pure ?_
    rw [hbit]
    cases p <;> rfl
  enabled := fun _ hfused => absurd hfused (by simp [clearEngine, clearOps])
  fusedPrune := fun _ hfused => absurd hfused (by simp [clearEngine, clearOps])
  fusedAccept := fun _ hfused => absurd hfused (by simp [clearEngine, clearOps])

def clearRequest (rows : List (CostRow Int)) (threshold : Int) (session : String) :
    EncryptedOptimizationRequest (Option Int) :=
  { costs := rows.map fun row m => (row m).map some
    thresholdScaled := threshold
    sessionId := ascii session }

theorem clearRequest_holds (rows : List (CostRow Int)) (threshold : Int) (session : String) :
    List.Forall₂ (RowHolds fun c x => c = some x) (clearRequest rows threshold session).costs
      rows := by
  refine List.forall₂_map_left_iff.2 (List.forall₂_same.2 fun row _ m => ?_)
  change Option.Rel _ ((row m).map some) (row m)
  cases row m with
  | none => exact Option.Rel.none
  | some x => exact Option.Rel.some rfl

end Optimization
end SociSgx

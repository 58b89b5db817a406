import SociSgx.Protocol.ThresholdOps

/-!
# ThresholdContract — the threshold backend is exact

Between two calls the server waits for a frame and has no transcript pending.  From there every call
of the backend returns, over the socket, a ciphertext of the integer that `SecureOps` promises, and
leaves the client and the server so again.  What the client counts agrees with what the CSP
receives.
-/

namespace SociSgx
namespace Protocol

open Exec Paillier
open Secure (SecureM ExactOps PredicateContext PruneInputs AcceptInputs EncryptedBit)

/-! ## Between two calls -/

/-- Differences between the counters of the client, and the frames that the CSP has received; no
call changes them. -/
structure Balance where
  frames : UInt64
  dispatches : UInt64
  items : UInt64
  cpEcalls : UInt64
  cspEcalls : UInt64
  deriving DecidableEq, Repr

/-- A fused predicate is two requests and one call of each enclave; the reveal of a bit is one
request and two calls of the enclave of the CSP. -/
def balance (fusion : Bool) (world : ThresholdWorld) : Balance :=
  let m := world.2.metrics
  { frames := m.cspRequests - UInt64.ofNat (receivedFrames world.1.state.events)
    dispatches := m.cspRequests - (m.scmpDispatches + m.smulDispatches + m.predicateReveals)
    items := m.logicalItems - (m.scmpLogicalItems + m.smulLogicalItems)
    cpEcalls := m.cspRequests - m.cpEcalls - if fusion then m.predicateReveals else 0
    cspEcalls := m.cspEcalls - m.cpEcalls - if fusion then 0 else m.predicateReveals }

/-- The two keys belong together and have an admissible size, and the CSP draws what it needs and
can send. -/
structure Deployment.Sane (d : Deployment) : Prop where
  decrypts : d.parties.DecryptsCorrectly
  wide : 3072 ≤ sizeInBase2 d.parties.modulus
  size : sizeInBase2 d.parties.modulus ≤ 8192
  nonces : ∀ i, ∃ nonces, (d.draws i).env.nonces = .ok nonces
  keys : ∀ i, ∃ key : Nat → BelowNonzero d.ot.n, (d.draws i).env.keys = .ok fun j => (key j).value
  sends : ∀ i reply, (d.draws i).env.send reply = .ok ()
  finishSends : ∀ i reply, (d.draws i).finishEnv.send reply = .ok ()

/-- The world between two calls: the CSP has consumed pairs with `P`, and the client has counted
`r` reveals. -/
structure Ready (d : Deployment) (P : Bytes × Bytes → Prop) (r : UInt64) (b : Balance)
    (world : ThresholdWorld) : Prop where
  phase : world.1.phase = .serving
  idle : world.1.state.pending = none
  sound : world.1.Sound
  pairs : ∀ pair ∈ consumedPairs world.1.state.events, P pair
  reveals : world.2.metrics.predicateReveals = r
  balance : balance d.fusionEnabled world = b

variable {d : Deployment} {P : Bytes × Bytes → Prop} {r : UInt64} {b : Balance}
  {world : ThresholdWorld}

/-- The draws of a call are not part of the balance. -/
theorem Ready.drawn (h : Ready d P r b world) (n : Nat) :
    Ready d P r b (world.1, { world.2 with calls := n }) :=
  ⟨h.phase, h.idle, h.sound, h.pairs, h.reveals, h.balance⟩

theorem Ready.mono {P' : Bytes × Bytes → Prop} (h : Ready d P r b world)
    (hP : ∀ pair, P pair → P' pair) : Ready d P' r b world :=
  ⟨h.phase, h.idle, h.sound, fun pair hpair => hP pair (h.pairs pair hpair), h.reveals, h.balance⟩

theorem Ready.heard (h : Ready d P r b world) (request : Bytes) {metrics : ProtocolMetrics}
    {r' : UInt64} {b' : Balance} (hreveals : metrics.predicateReveals = r')
    (hbalance : Protocol.balance d.fusionEnabled
      (world.1.heard request, { world.2 with metrics := metrics }) = b') :
    Ready d P r' b' (world.1.heard request, { world.2 with metrics := metrics }) where
  phase := rfl
  idle := h.idle
  sound := ⟨h.sound.state.received request, fun hne => absurd rfl hne⟩
  pairs := by
    intro pair hpair
    refine h.pairs pair ?_
    rwa [Server.heard, consumedPairs_concat _ _ (by simp)] at hpair
  reveals := hreveals
  balance := hbalance

theorem receivedFrames_heard (server : Server) (request : Bytes) :
    UInt64.ofNat (receivedFrames (server.heard request).state.events) =
      UInt64.ofNat (receivedFrames server.state.events) + 1 := by
  rw [Server.heard, receivedFrames_concat]
  exact UInt64.ofNat_add _ _

theorem balance_smul (fusion : Bool) (request : Bytes) (n : Nat) :
    balance fusion (world.1.heard request,
      { world.2 with metrics := world.2.metrics.smul n }) = balance fusion world := by
  have hframes := receivedFrames_heard world.1 request
  simp only [balance, ProtocolMetrics.smul, hframes, Balance.mk.injEq]
  grind

theorem balance_scmp (fusion : Bool) (request : Bytes) (n : Nat) :
    balance fusion (world.1.heard request,
      { world.2 with metrics := world.2.metrics.scmp n }) = balance fusion world := by
  have hframes := receivedFrames_heard world.1 request
  simp only [balance, ProtocolMetrics.scmp, hframes, Balance.mk.injEq]
  grind

theorem balance_reveal (request : Bytes) :
    balance false (world.1.heard request,
      { world.2 with metrics := world.2.metrics.reveal }) = balance false world := by
  have hframes := receivedFrames_heard world.1 request
  simp only [balance, ProtocolMetrics.reveal, hframes, Balance.mk.injEq, Bool.false_eq_true,
    if_false]
  grind

/-- The two frames of a fused predicate. -/
theorem balance_fused {server' : Server} {n tables : Nat}
    (hframes : receivedFrames server'.state.events = receivedFrames world.1.state.events + 2) :
    balance true (server', { world.2 with metrics := world.2.metrics.fused n tables }) =
      balance true world := by
  have hcast : UInt64.ofNat (receivedFrames server'.state.events) =
      UInt64.ofNat (receivedFrames world.1.state.events) + 2 := by
    rw [hframes]
    exact UInt64.ofNat_add _ _
  simp only [balance, ProtocolMetrics.fused, hcast, Balance.mk.injEq, if_true]
  grind

/-! ## The codec -/

section

variable {c : Nat} {x : Int}

theorem Deployment.Sane.one_lt (h : d.Sane) : 1 < d.parties.modulus :=
  one_lt_modulus h.wide

/-- A ciphertext of the client becomes a ciphertext of the solver. -/
theorem decodeCiphertext_spec (h : d.Sane) (hc : Encrypts d.parties.modulus c x) :
    ∃ ciphertext, decodeCiphertext d.mode c = .ok ciphertext ∧
      Carries d.parties d.mode ciphertext x := by
  have hpos : (0 : Int) < c := by exact_mod_cast hc.pos h.one_lt
  refine ⟨_, ?_, carries_canonicalBytes h.one_lt h.size d.mode hc⟩
  rw [decodeCiphertext, Runtime.encode_positive d.mode hpos]
  rfl

theorem Carries.nonempty {ciphertext : Secure.Ciphertext}
    (h : Carries d.parties d.mode ciphertext x) :
    Secure.CiphertextLike.empty ciphertext = false := by
  rcases h with ⟨c, hc, _⟩
  rcases bind_eq_ok.1 hc with ⟨_, hne, _⟩
  exact List.isEmpty_eq_false_iff.2 (ensure_eq_ok.1 hne)

theorem mapM_decodeCiphertext (h : d.Sane) : ∀ {cs : List Nat} {xs : List Int},
    List.Forall₂ (Encrypts d.parties.modulus) cs xs →
      ∃ ciphertexts, cs.mapM (decodeCiphertext d.mode) = .ok ciphertexts ∧
        List.Forall₂ (Carries d.parties d.mode) ciphertexts xs := by
  intro cs xs hcs
  induction hcs with
  | nil => exact ⟨[], rfl, .nil⟩
  | cons hfirst _ ih =>
      rcases decodeCiphertext_spec h hfirst with ⟨ciphertext, hciphertext, hcarries⟩
      rcases ih with ⟨ciphertexts, hciphertexts, hall⟩
      refine ⟨ciphertext :: ciphertexts, ?_, .cons hcarries hall⟩
      rw [List.mapM_cons]
      exact bind_eq_ok.2 ⟨ciphertext, hciphertext, bind_eq_ok.2 ⟨ciphertexts, hciphertexts, rfl⟩⟩

/-- The items of a batch become operands of the client. -/
theorem mapM_encodePair {items : List (Secure.Ciphertext × Secure.Ciphertext)}
    {xs : List (Int × Int)}
    (hitems : List.Forall₂ (fun item x => Carries d.parties d.mode item.1 x.1 ∧
      Carries d.parties d.mode item.2 x.2) items xs)
    (hsmall : ∀ x ∈ xs, Small x.1 ∧ Small x.2) :
    ∃ native, (items.mapM fun item => encodePair d.mode item.1 item.2) = .ok native ∧
      Parties.Operands d.parties native xs := by
  induction hitems with
  | nil => exact ⟨[], rfl, .nil⟩
  | cons hfirst _ ih =>
      rcases List.forall_mem_cons.1 hsmall with ⟨hx, hrest⟩
      rcases encodePair_spec hfirst.1 hfirst.2 hx.1 hx.2 with ⟨item, hitem, hencrypts⟩
      rcases ih hrest with ⟨native, hnative, hoperands⟩
      refine ⟨item :: native, ?_, .cons hencrypts hoperands⟩
      rw [List.mapM_cons]
      exact bind_eq_ok.2 ⟨item, hitem, bind_eq_ok.2 ⟨native, hnative, rfl⟩⟩

end

/-! ## The calls of the client -/

theorem draw_spec : Triple (Ready d P r b) d.draw
    (fun draws world => (∃ i, draws = d.draws i) ∧ Ready d P r b world) Never :=
  fun world hworld => ⟨⟨world.2.calls, rfl⟩, hworld.drawn _⟩

/-- A call on the server that is known to return. -/
theorem onFst_bind {α β : Type} {m : EStateM Error Server α} {f : α → ThresholdM β} {a : α}
    {server : Server} {Q : β → ThresholdWorld → Prop} (hrun : m world.1 = .ok a server)
    (hf : Triple (fun t => t = (server, world.2)) (f a) Q Never) :
    Triple (fun t => t = world) (onFst m >>= f) Q Never := by
  have hstep : onFst m world = .ok a (server, world.2) := by
    unfold onFst
    rw [hrun]
  intro t ht
  subst ht
  rw [bind_of_ok hstep]
  exact hf _ rfl

theorem count_bind {β : Type} {f : Unit → ThresholdM β} {g : ProtocolMetrics → ProtocolMetrics}
    {Q : β → ThresholdWorld → Prop}
    (hf : Triple (fun t => t = (world.1, { world.2 with metrics := g world.2.metrics })) (f ()) Q
      Never) : Triple (fun t => t = world) (Deployment.count g >>= f) Q Never := by
  intro t ht
  subst ht
  exact hf _ rfl

theorem Ready.connected (h : Ready d P r b world) (hsane : d.Sane) {i : Nat}
    {nonces : Nat → Nonce d.parties.modulus} (hnonces : (d.draws i).env.nonces = .ok nonces) :
    Parties.Connected d.parties world.1 nonces (d.draws i).env :=
  ⟨hsane.decrypts.cp_modulus, Nat.lt_of_succ_lt hsane.one_lt, hsane.size, h.phase, hnonces,
    hsane.sends i⟩

section

variable (h : d.Sane) {items : List (Nat × Nat)} {xs : List (Int × Int)}
include h

theorem secureMultiplyBatch_ready (hitems : Parties.Operands d.parties items xs)
    (hn : 1 ≤ items.length ∧ items.length ≤ thresholdMaxBatchSize) :
    Yields (Ready d P r b) (d.secureMultiplyBatch items)
      (fun cs => List.Forall₂ (fun c x => Encrypts d.parties.modulus c (x.1 * x.2)) cs xs)
      Never := by
  refine Triple.bind draw_spec fun draws => Triple.assuming fun hdraws => ?_
  rcases hdraws with ⟨i, rfl⟩
  refine Triple.of_each fun world hworld => ?_
  rcases h.nonces i with ⟨nonces, hnonces⟩
  rcases Parties.secureMultiplyBatch_spec h.decrypts h.wide hitems hn (d.draws i).multiply
    ⟨(d.draws i).masks, (d.draws i).last, nonces⟩ with ⟨cs, hcs, hencrypts⟩
  rcases (Parties.requestMultiplyBatch_computes _ (hworld.connected h hnonces) items
    (d.draws i).multiply).returns hcs with ⟨server, hrun, request, rfl⟩
  refine onFst_bind hrun (count_bind (pure_at ⟨hencrypts, ?_⟩))
  exact hworld.heard request hworld.reveals ((balance_smul _ _ _).trans hworld.balance)

theorem greaterThanBatch_ready (hitems : Parties.Operands d.parties items xs)
    (hn : 1 ≤ items.length ∧ items.length ≤ thresholdMaxBatchSize) :
    Yields (Ready d P r b) (d.greaterThanBatch items)
      (fun cs => List.Forall₂ (fun c x => Encrypts d.parties.modulus c
        (decide (x.2 < x.1)).toInt) cs xs) Never := by
  refine Triple.bind draw_spec fun draws => Triple.assuming fun hdraws => ?_
  rcases hdraws with ⟨i, rfl⟩
  refine Triple.of_each fun world hworld => ?_
  rcases h.nonces i with ⟨nonces, hnonces⟩
  rcases Parties.greaterThanBatch_spec h.decrypts h.wide hitems hn (d.draws i).compare
    ⟨(d.draws i).masks, (d.draws i).last, nonces⟩ with ⟨cs, hcs, hencrypts⟩
  rcases (Parties.requestCompareBatch_computes _ (hworld.connected h hnonces) items
    (d.draws i).compare).returns hcs with ⟨server, hrun, request, rfl⟩
  have hbits : List.Forall₂ (fun c x => Encrypts d.parties.modulus c
      (decide (x.2 < x.1)).toInt) cs xs := by
    refine hencrypts.imp fun c x hc => ?_
    have hgreater : (decide (x.2 < x.1)).toInt = Parties.greater x.1 x.2 := by
      unfold Parties.greater
      by_cases hlt : x.2 < x.1
      · rw [decide_eq_true hlt, if_pos hlt]
        rfl
      · rw [decide_eq_false hlt, if_neg hlt]
        rfl
    rw [hgreater]
    exact hc
  refine onFst_bind hrun (count_bind (pure_at ⟨hbits, ?_⟩))
  exact hworld.heard request hworld.reveals ((balance_scmp _ _ _).trans hworld.balance)

end

/-! ## The operations -/

/-- The batch of one that the single calls send. -/
theorem single_operands {x y : Int} {a c : Secure.Ciphertext}
    (ha : Carries d.parties d.mode a x) (hc : Carries d.parties d.mode c y)
    (hx : Small x) (hy : Small y) : ∃ item, encodePair d.mode a c = .ok item ∧
      Parties.Operands d.parties [item] [(x, y)] ∧
        1 ≤ [item].length ∧ [item].length ≤ thresholdMaxBatchSize := by
  rcases encodePair_spec ha hc hx hy with ⟨item, hitem, hencrypts⟩
  exact ⟨item, hitem, .cons hencrypts .nil, le_rfl, (by decide : 1 ≤ thresholdMaxBatchSize)⟩

section

variable (h : d.Sane) {x y : Int} {a c : Secure.Ciphertext}
include h

theorem encryptConstant_ready (value : Int) : Yields (Ready d P r b) (d.encryptConstant value)
    (fun c => Carries d.parties d.mode c value) Never := by
  refine Triple.bind draw_spec fun draws => Triple.assuming fun _ => ?_
  rcases decodeCiphertext_spec h (encrypts_paillierEncrypt value draws.constant) with
    ⟨ciphertext, hciphertext, hcarries⟩
  rw [hciphertext]
  exact Yields.pure hcarries

theorem add_ready (ha : Carries d.parties d.mode a x) (hc : Carries d.parties d.mode c y) :
    Yields (Ready d P r b) (d.add a c) (fun e => Carries d.parties d.mode e (x + y)) Never := by
  rcases ha with ⟨a', ha', hencA⟩
  rcases hc with ⟨c', hc', hencC⟩
  have hpair : encodePair d.mode a c = .ok (a', c') :=
    bind_eq_ok.2 ⟨a', ha', bind_eq_ok.2 ⟨c', hc', rfl⟩⟩
  rcases decodeCiphertext_spec h (encrypts_add hencA hencC) with
    ⟨ciphertext, hciphertext, hcarries⟩
  refine Triple.lift_bind hpair ?_
  dsimp only
  rw [hciphertext]
  exact Yields.pure hcarries

theorem scalarMul_ready (scalar : Int) (ha : Carries d.parties d.mode a x) :
    Yields (Ready d P r b) (d.scalarMul a scalar)
      (fun e => Carries d.parties d.mode e (scalar * x)) Never := by
  rcases ha with ⟨a', ha', hencA⟩
  rcases scalarMultiply_spec hencA scalar with ⟨product, hproduct, hencProduct⟩
  rcases decodeCiphertext_spec h hencProduct with ⟨ciphertext, hciphertext, hcarries⟩
  refine Triple.lift_bind ha' (Triple.lift_bind hproduct ?_)
  rw [hciphertext]
  exact Yields.pure hcarries

theorem secureMul_ready (ha : Carries d.parties d.mode a x) (hc : Carries d.parties d.mode c y)
    (hx : Small x) (hy : Small y) :
    Yields (Ready d P r b) (d.secureMul a c)
      (fun e => Carries d.parties d.mode e (x * y)) Never := by
  rcases single_operands ha hc hx hy with ⟨item, hitem, hoperands, hone⟩
  refine Triple.lift_bind hitem ?_
  refine (secureMultiplyBatch_ready h hoperands hone).bind fun values hvalues => ?_
  rcases hvalues with _ | ⟨hvalue, _ | _⟩
  rcases decodeCiphertext_spec h hvalue with ⟨ciphertext, hciphertext, hcarries⟩
  rw [List.headD_cons, hciphertext]
  exact Yields.pure hcarries

theorem compare_ready (ha : Carries d.parties d.mode a x) (hc : Carries d.parties d.mode c y)
    (hx : Small x) (hy : Small y) :
    Yields (Ready d P r b) (d.compare a c)
      (fun bit => Carries d.parties d.mode bit.ciphertext (decide (y < x)).toInt) Never := by
  rcases single_operands ha hc hx hy with ⟨item, hitem, hoperands, hone⟩
  refine Triple.lift_bind hitem ?_
  refine (greaterThanBatch_ready h hoperands hone).bind fun values hvalues => ?_
  rcases hvalues with _ | ⟨hvalue, _ | _⟩
  rcases decodeCiphertext_spec h hvalue with ⟨ciphertext, hciphertext, hcarries⟩
  refine Triple.lift_bind (b := ciphertext) ?_ (Yields.pure hcarries)
  rw [List.headD_cons, hciphertext]

section

variable {items : List (Secure.Ciphertext × Secure.Ciphertext)} {xs : List (Int × Int)}
  (hn : 1 ≤ items.length ∧ items.length ≤ thresholdMaxBatchSize)
  (hitems : List.Forall₂ (fun item x => Carries d.parties d.mode item.1 x.1 ∧
    Carries d.parties d.mode item.2 x.2) items xs)
  (hsmall : ∀ x ∈ xs, Small x.1 ∧ Small x.2)
include hn hitems hsmall

theorem secureMulBatch_ready : Yields (Ready d P r b) (d.secureMulBatch items)
    (fun cs => List.Forall₂ (fun c x => Carries d.parties d.mode c (x.1 * x.2)) cs xs)
      Never := by
  rcases mapM_encodePair hitems hsmall with ⟨native, hnative, hoperands⟩
  have hlen : native.length = items.length :=
    (List.Forall₂.length_eq hoperands).trans hitems.length_eq.symm
  refine Triple.lift_bind hnative ?_
  refine (secureMultiplyBatch_ready h hoperands (hlen.symm ▸ hn)).bind fun values hvalues => ?_
  rw [← List.forall₂_map_right_iff (f := fun x : Int × Int => x.1 * x.2)] at hvalues
  rcases mapM_decodeCiphertext h hvalues with ⟨ciphertexts, hciphertexts, hcarries⟩
  rw [hciphertexts]
  exact Yields.pure (List.forall₂_map_right_iff.1 hcarries)

theorem compareBatch_ready : Yields (Ready d P r b) (d.compareBatch items)
    (fun bits => List.Forall₂ (fun bit x => Carries d.parties d.mode bit.ciphertext
      (decide (x.2 < x.1)).toInt) bits xs) Never := by
  rcases mapM_encodePair hitems hsmall with ⟨native, hnative, hoperands⟩
  have hlen : native.length = items.length :=
    (List.Forall₂.length_eq hoperands).trans hitems.length_eq.symm
  refine Triple.lift_bind hnative ?_
  refine (greaterThanBatch_ready h hoperands (hlen.symm ▸ hn)).bind fun values hvalues => ?_
  rw [← List.forall₂_map_right_iff (f := fun x : Int × Int => (decide (x.2 < x.1)).toInt)]
    at hvalues
  rcases mapM_decodeCiphertext h hvalues with ⟨ciphertexts, hciphertexts, hcarries⟩
  refine Triple.lift_bind hciphertexts (Yields.pure ?_)
  rw [List.forall₂_map_left_iff]
  exact List.forall₂_map_right_iff.1 hcarries

end

/-- `ThresholdSecureOps` keeps the contract of `SecureOps` on plaintexts below `2^127`. -/
theorem ops_exact (domain : Secure.NumericDomain) :
    ExactOps (d.ops domain) (Carries d.parties d.mode) Small
      (fun k => 1 ≤ k ∧ k ≤ thresholdMaxBatchSize) (Ready d P r b) where
  nonempty := Carries.nonempty
  encryptConstant := encryptConstant_ready h
  add := add_ready h
  scalarMul := scalarMul_ready h
  secureMul := secureMul_ready h
  secureMulBatch := secureMulBatch_ready h
  greaterThan := compare_ready h
  greaterThanBatch := compareBatch_ready h

end

/-! ## The predicates -/

/-- The pair that a fused predicate consumes. -/
def contextPair (context : PredicateContext) : Bytes × Bytes :=
  (context.sessionId, context.operationId)

/-- A pair that was not consumed has a key that the CSP has not seen: identifiers have no zero. -/
theorem replays_fresh {s : CspState} (hsound : Sound s) {context : PredicateContext}
    (hvalid : Secure.PredicateEngine.Valid context)
    (hfresh : contextPair context ∉ consumedPairs s.events) :
    pairKey (contextPair context) ∉ s.replays := by
  intro hmem
  rcases List.mem_map.1 ((hsound.mem_replays _).1 hmem) with ⟨pair, hpair, hkey⟩
  rcases pairKey_eq_iff.1 hkey with rfl | hstraddles | hstraddles
  · exact hfresh hpair
  · exact not_straddles (zero_notMem_identifier hvalid.1) hstraddles
  · rcases hstraddles with ⟨t, _, hoperation⟩
    have hzero : context.operationId = t ++ 0 :: pair.2 := hoperation
    refine zero_notMem_identifier hvalid.2.1 ?_
    rw [hzero]
    exact List.mem_append_right _ List.mem_cons_self

theorem valid_fields {context : PredicateContext}
    (hvalid : Secure.PredicateEngine.Valid context) : ContextFields context :=
  ⟨contextField_identifier hvalid.1, contextField_identifier hvalid.2.1,
    contextField_identifier hvalid.2.2⟩

section

variable (h : d.Sane) {context : PredicateContext}
  (hvalid : Secure.PredicateEngine.Valid context)
include h hvalid

/-- The resolver decrypts the bit. -/
theorem revealFinalBit_ready (hfusion : d.fusionEnabled = false)
    (htype : context.predicateType = .pruneNode ∨ context.predicateType = .acceptCandidate)
    {bit : EncryptedBit Secure.Ciphertext} {p : Bool}
    (hbit : Carries d.parties d.mode bit.ciphertext p.toInt) :
    Triple (Ready d P r b) (d.revealFinalBit context bit)
      (fun v world => p = v ∧ Ready d P (r + 1) b world) Never := by
  rcases hbit with ⟨c, hc, hencC⟩
  refine Triple.bind draw_spec fun draws => Triple.assuming fun hdraws => ?_
  rcases hdraws with ⟨i, rfl⟩
  refine Triple.of_each fun world hworld => Triple.lift_bind hc ?_
  rcases h.nonces i with ⟨nonces, hnonces⟩
  have hreveal : Computes _ _ world.1
      (d.parties.revealFinalPredicate d.sha256 context c (d.draws i).env) _ :=
    Parties.revealFinalPredicate_computes (hworld.connected h hnonces)
      ⟨valid_fields hvalid, htype⟩ hencC.lt
  rw [Parties.finalPredicate_bit h.decrypts h.one_lt hencC] at hreveal
  rcases hreveal.returns rfl with ⟨server, hrun, request, rfl⟩
  refine onFst_bind hrun (count_bind (pure_at ⟨rfl, ?_⟩))
  refine hworld.heard request (congrArg (· + 1) hworld.reveals) ?_
  rw [hfusion, balance_reveal, ← hfusion, hworld.balance]

/-- A fused predicate decides its circuit, and consumes the pair of its context. -/
theorem fusedPredicate_ready (hfusion : d.fusionEnabled = true) {items : List (Nat × Nat)}
    {xs : List (Int × Int)} {hasIncumbent : Bool} (hnew : ¬ P (contextPair context))
    (hitems : Parties.Operands d.parties items xs)
    (hcircuit : HasCircuit context.predicateType hasIncumbent items.length) (i : Nat) :
    Triple (Ready d P r b) (d.fusedPredicate context items hasIncumbent (d.draws i))
      (fun v world => predicateBit context.predicateType hasIncumbent
          (Secure.PredicateEngine.compared xs) = v ∧
        Ready d (fun pair => P pair ∨ contextPair context = pair) (r + 1) b world) Never := by
  refine Triple.of_each fun world hworld => ?_
  rcases h.keys i with ⟨key, hkeys⟩
  rcases hcircuit with ⟨hn, circuit, hcircuit⟩
  have hfresh := replays_fresh hworld.sound.state hvalid fun hmem => hnew (hworld.pairs _ hmem)
  have hmeets : Meets d.parties.csp d.ot context world.1 key (d.draws i).env
      (d.draws i).finishEnv :=
    ⟨hworld.phase, hworld.idle, hfresh, hkeys, h.sends i, h.finishSends i⟩
  have hcontext : Usable context := ⟨valid_fields hvalid, predicateCircuit_type hcircuit⟩
  rcases (Parties.fusedPredicate_spec h.decrypts h.wide h.size hcontext hmeets hitems hn
    hcircuit).returns rfl with ⟨decision, server, hrun, rfl, hphase, hidle⟩
  -- The same run, seen by its footprint.
  have hleaves : Leaves (Eq (contextPair context)) 2 world.1 server := by
    have hfoot := Parties.fusedPredicate_exchanges d.parties d.sha256 d.ot context items
      hasIncumbent (d.draws i).fused (d.draws i).env (d.draws i).finishEnv world.1 world.1 rfl
    rw [hrun] at hfoot
    exact hfoot
  refine onFst_bind hrun (count_bind (pure_at ⟨rfl, ?_⟩))
  refine ⟨hphase, hidle, hleaves.sound hworld.sound, fun pair hpair => ?_,
    congrArg (· + 1) hworld.reveals, ?_⟩
  · exact (hleaves.adds.pairs pair hpair).imp_left (hworld.pairs pair)
  · rw [hfusion, balance_fused hleaves.adds.frames, ← hfusion, hworld.balance]

theorem fusedPruneNode_ready (hfusion : d.fusionEnabled = true)
    (hnew : ¬ P (contextPair context)) (htype : context.predicateType = .pruneNode)
    {inputs : PruneInputs Secure.Ciphertext} {v : PruneInputs Int}
    (hin : inputs.Holds (Carries d.parties d.mode) v) (hfits : PruneFits v) :
    Triple (Ready d P r b) (d.fusedPruneNode context inputs)
      (fun answer world => v.holds = answer ∧
        Ready d (fun pair => P pair ∨ contextPair context = pair) (r + 1) b world) Never := by
  refine Triple.bind draw_spec fun draws => Triple.assuming fun hdraws => ?_
  rcases hdraws with ⟨i, rfl⟩
  rcases pruneItems_spec (encrypts_paillierEncrypt 0 (d.draws i).fused.zero) hin hfits with
    ⟨items, hitems, hoperands⟩
  have hcircuit := prune_hasCircuit hfits
  rw [← List.Forall₂.length_eq hoperands, ← htype] at hcircuit
  have hspec := fusedPredicate_ready (r := r) (b := b) h hvalid hfusion hnew hoperands hcircuit i
  rw [htype, predicateBit_prune, ← hin.hasIncumbent] at hspec
  exact Triple.lift_bind hitems hspec

theorem fusedAcceptCandidate_ready (hfusion : d.fusionEnabled = true)
    (hnew : ¬ P (contextPair context)) (htype : context.predicateType = .acceptCandidate)
    {inputs : AcceptInputs Secure.Ciphertext} {v : AcceptInputs Int}
    (hin : inputs.Holds (Carries d.parties d.mode) v) (hfits : AcceptFits v) :
    Triple (Ready d P r b) (d.fusedAcceptCandidate context inputs)
      (fun answer world => v.holds = answer ∧
        Ready d (fun pair => P pair ∨ contextPair context = pair) (r + 1) b world) Never := by
  refine Triple.bind draw_spec fun draws => Triple.assuming fun hdraws => ?_
  rcases hdraws with ⟨i, rfl⟩
  rcases acceptItems_spec (encrypts_paillierEncrypt 0 (d.draws i).fused.zero) hin hfits with
    ⟨items, hitems, hoperands⟩
  have hcircuit := accept_hasCircuit v
  rw [← List.Forall₂.length_eq hoperands, ← htype] at hcircuit
  have hspec := fusedPredicate_ready (r := r) (b := b) h hvalid hfusion hnew hoperands hcircuit i
  rw [htype, predicateBit_accept, ← hin.hasIncumbent] at hspec
  exact Triple.lift_bind hitems hspec

end

end Protocol
end SociSgx

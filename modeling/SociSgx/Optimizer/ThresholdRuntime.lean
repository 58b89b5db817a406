import SociSgx.Lib.Attempts
import SociSgx.Optimizer.CostBounds
import SociSgx.Optimizer.ThresholdEngine

/-!
# ThresholdRuntime — `ThresholdConfidentialRuntime::optimize`

A runtime keeps one connection to the CSP and one client for all its solves; every solve has an
engine of its own.  Whatever was solved before on the connection, a solve in a session that the CSP
has not seen reports the optimum, or what the authorizer refused it with, and the connection is
ready for the next one.
-/

namespace SociSgx
namespace Optimization

open Exec Secure Secure.PredicateEngine Protocol BranchBound

/-! ## Metrics -/

/-- `ThresholdProtocolClient::refreshCspMetrics`; the seven numbers of the reply are times. -/
def refreshCspMetrics (d : Deployment) : ThresholdM Unit := do
  let draws ← d.draw
  let reply ← onFst (d.parties.csp.requestPayload d.sha256 [byteOf 'T'] draws.env)
  require (reply.length = 64 ∧ reply.take 8 = ascii "CSTM" ++ [1, 0, 0, 0])
    (Error.backend "bad CSP timing response")

/-- The fields of `EncryptedOptimizationStats` that the client counts. -/
structure ThresholdStats where
  scmpLogicalItems : UInt64
  scmpDispatches : UInt64
  smulLogicalItems : UInt64
  smulDispatches : UInt64
  cpEcalls : UInt64
  cspEcalls : UInt64
  cspRequests : UInt64
  predicateReveals : UInt64
  secureBitAndItems : UInt64
  predicateCspEncryptions : UInt64
  predicateFinalThresholdDecrypts : UInt64
  deriving DecidableEq, Repr

/-- What the client has counted between two moments. -/
def ThresholdStats.between (before after : ProtocolMetrics) : ThresholdStats where
  scmpLogicalItems := after.scmpLogicalItems - before.scmpLogicalItems
  scmpDispatches := after.scmpDispatches - before.scmpDispatches
  smulLogicalItems := after.smulLogicalItems - before.smulLogicalItems
  smulDispatches := after.smulDispatches - before.smulDispatches
  cpEcalls := after.cpEcalls - before.cpEcalls
  cspEcalls := after.cspEcalls - before.cspEcalls
  cspRequests := after.cspRequests - before.cspRequests
  predicateReveals := after.predicateReveals - before.predicateReveals
  secureBitAndItems := after.secureBitAndItems - before.secureBitAndItems
  predicateCspEncryptions := after.predicateCspEncryptions - before.predicateCspEncryptions
  predicateFinalThresholdDecrypts :=
    after.predicateFinalThresholdDecrypts - before.predicateFinalThresholdDecrypts

/-- What a runtime keeps. -/
structure ThresholdConfidentialRuntime where
  deployment : Deployment
  domain : NumericDomain
  authorizer : PredicateContext → Except Error Bool
  solverConfig : EncryptedBranchAndBoundConfig

def ThresholdConfidentialRuntime.optimize (runtime : ThresholdConfidentialRuntime)
    (request : EncryptedOptimizationRequest Ciphertext) :
    ThresholdM (EncryptedBranchAndBoundResult Ciphertext × ThresholdStats) := do
  refreshCspMetrics runtime.deployment
  let before ← locals
  let result ← Optimization.optimize
    (thresholdEngine runtime.deployment runtime.domain runtime.authorizer) runtime.solverConfig
    request
  refreshCspMetrics runtime.deployment
  let after ← locals
  return (result, ThresholdStats.between before.metrics after.metrics)

/-! ## The timing request -/

variable {d : Deployment} {P : Bytes × Bytes → Prop} {r : UInt64} {b : Balance}
  {world : ThresholdWorld}

theorem length_appendU64s (values : List Nat) (output : Bytes) :
    ∃ rest, values.foldl Csp.appendU64 output = output ++ rest ∧
      rest.length = 8 * values.length := by
  induction values generalizing output with
  | nil => exact ⟨[], (List.append_nil output).symm, rfl⟩
  | cons value values ih =>
      rcases ih (Csp.appendU64 output value) with ⟨rest, heq, hlen⟩
      refine ⟨BigEndian.toBytes 8 value ++ rest, ?_, ?_⟩
      · rw [List.foldl_cons, heq, Csp.appendU64, List.append_assoc]
      · rw [List.length_append, BigEndian.length_toBytes, hlen, List.length_cons]
        ring

theorem balance_heard (fusion : Bool) (request : Bytes) :
    balance fusion (world.1.heard request, world.2) =
      { balance fusion world with frames := (balance fusion world).frames - 1 } := by
  have hframes := receivedFrames_heard world.1 request
  simp only [balance, hframes, Balance.mk.injEq, and_true]
  grind

/-- The CSP answers with its times, and the client counts nothing. -/
theorem refreshCspMetrics_ready (h : d.Sane) : Triple (Ready d P r b) (refreshCspMetrics d)
    (fun _ => Ready d P r { b with frames := b.frames - 1 }) Never := by
  refine Triple.bind draw_spec fun draws => Triple.assuming fun hdraws => ?_
  rcases hdraws with ⟨i, rfl⟩
  refine Triple.of_each fun world hworld => ?_
  rcases length_appendU64s (tabulate 7 (d.draws i).env.timings)
    ([0] ++ ascii "CSTM" ++ [1, 0, 0, 0]) with ⟨times, hreply, hlen⟩
  have htimes : times.length = 56 := by
    rw [hlen]
    rfl
  have hanswer : d.parties.csp.answer d.sha256 [byteOf 'T'] (d.draws i).env =
      lift (.ok ([0] ++ ascii "CSTM" ++ [1, 0, 0, 0] ++ times)) := by
    rw [← hreply]
    rfl
  have hlength : ([0] ++ ascii "CSTM" ++ [1, 0, 0, 0] ++ times : Bytes).length ≤ maxFrame := by
    rw [List.length_append, htimes]
    decide
  have hrun := requestPayload_replies hworld.phase (h.sends i _)
    (by decide : [byteOf 'T'].length ≤ maxFrame) (by decide) hlength hanswer
  rw [if_pos (by rfl)] at hrun
  have hready : Ready d P r { b with frames := b.frames - 1 }
      (world.1.heard [byteOf 'T'], world.2) := by
    refine hworld.heard [byteOf 'T'] hworld.reveals ?_
    rw [← hworld.balance]
    exact balance_heard d.fusionEnabled [byteOf 'T']
  refine onFst_bind hrun fun t ht => ?_
  subst ht
  have hcheck : (([0] ++ ascii "CSTM" ++ [1, 0, 0, 0] ++ times : Bytes).tail.length = 64 ∧
      ([0] ++ ascii "CSTM" ++ [1, 0, 0, 0] ++ times : Bytes).tail.take 8 =
        ascii "CSTM" ++ [1, 0, 0, 0]) := by
    refine ⟨?_, rfl⟩
    rw [List.length_tail, List.length_append, htimes]
    rfl
  rw [require_of_pos hcheck]
  exact hready

/-! ## A solve -/

variable {domain : NumericDomain} {authorizer : PredicateContext → Except Error Bool}
  {config : EncryptedBranchAndBoundConfig} {request : EncryptedOptimizationRequest Ciphertext}
  {rows : List (CostRow Int)} {grid : Option LagrangianGrid}

/-- The request passes the checks; its ciphertexts hold the costs of these rows, which fit into the
domain. -/
structure Poses (d : Deployment) (domain : NumericDomain) (config : EncryptedBranchAndBoundConfig)
    (request : EncryptedOptimizationRequest Ciphertext) (rows : List (CostRow Int))
    (grid : Option LagrangianGrid) : Prop where
  check : checkRequest domain config request = .ok grid
  costs : List.Forall₂ (RowHolds (Carries d.parties d.mode)) request.costs rows
  within : CostsWithin domain.maxCostBits rows

/-- The search on the plaintexts of a request. -/
abbrev plainSearch (domain : NumericDomain) (threshold : Int) (rows : List (CostRow Int))
    (grid : Option LagrangianGrid) : Log (Choice Int) :=
  plainRun (boundOf grid) domain.scale threshold rows

/-- A solve returns the optimum and the number of nodes of the plain search. -/
structure Solves (d : Deployment) (domain : NumericDomain) (threshold : Int)
    (rows : List (CostRow Int)) (grid : Option LagrangianGrid)
    (result : EncryptedBranchAndBoundResult Ciphertext) : Prop where
  optimum : ReportsOptimum (Carries d.parties d.mode) domain.scale threshold rows result
  visited : result.stats.visitedNodes =
    UInt64.ofNat (plainSearch domain threshold rows grid).visited.length

/-- One of the predicates is evaluated more than `2^64` times. -/
def Wraps (log : Log (Choice Int)) : Prop :=
  2 ^ 64 < pruneEvaluations log ∨ 2 ^ 64 < acceptEvaluations log

/-- A solve that throws was refused by the authorizer, or its numbers have wrapped around. -/
def Halted (authorizer : PredicateContext → Except Error Bool) (log : Log (Choice Int))
    (err : Error) : Prop :=
  Refusal authorizer err ∨
    Wraps log ∧ err = Error.predicate "predicate operation replayed"

/-- The pairs that the CSP may have consumed after a solve in this session. -/
def OrIn (P : Bytes × Bytes → Prop) (sessionId : Bytes) (pair : Bytes × Bytes) : Prop :=
  P pair ∨ pair.1 = sessionId

theorem stopped_of_fails {bound : CostBound} {scale threshold : Int} {err : Error}
    {R : Nat → Nat → EngineWorld ThresholdWorld → Prop} {w : EngineWorld ThresholdWorld}
    (h : FailsAt Eq (fun type p a err w => Stops authorizer type p a err ∧ R p a w) bound scale
      threshold rows [] {} err w) :
    Halted authorizer (plainRun bound scale threshold rows) err ∧ ∃ p a, R p a w := by
  rcases h with ⟨mid, below, p, hreaches, hcount, ⟨hwrap, herr⟩ | hrefusal, hR⟩
  · refine ⟨Or.inr ⟨?_, herr⟩, p, _, hR⟩
    exact failsAt_counters (J := fun _ : Unit => True) (s := ())
      ⟨mid, below, p, hreaches, hcount, Or.inl ⟨hwrap, herr, trivial⟩⟩
  · exact ⟨Or.inl hrefusal, p, _, hR⟩

/-- A solve on a connection that is ready leaves it ready, whether it returns or throws. -/
theorem optimize_threshold (h : d.Sane) (hdomain : checkNumericDomain domain = .ok ())
    (hposes : Poses d domain config request rows grid)
    (hnew : ∀ operation, ¬ P (request.sessionId, operation)) :
    Triple (Ready d P r b)
      (optimize (thresholdEngine d domain authorizer) config request)
      (fun result w => Solves d domain request.thresholdScaled rows grid result ∧
        Ready d (OrIn P request.sessionId) (r + result.stats.visitedNodes) b w)
      (fun err w => Halted authorizer (plainSearch domain request.thresholdScaled rows grid) err ∧
        ∃ n, Ready d (OrIn P request.sessionId) (r + n) b w) := by
  have hsession := (checkRequest_costs hposes.check).1
  have hsetting : Setting (engineSolver (thresholdEngine d domain authorizer) config)
      (Carries d.parties d.mode) Small (fun k => 1 ≤ k ∧ k ≤ thresholdMaxBatchSize)
      request.sessionId Eq (Talks d P r b request.sessionId)
      (fun type p a err w => Stops authorizer type p a err ∧
        Ready d (Taken P request.sessionId p a) (r + UInt64.ofNat (p + a)) b w.1)
      grid domain.scale request.thresholdScaled rows :=
    ⟨fun p a => (ops_exact h domain).onFst _, threshold_contract h hsession hnew,
      operandsFit_accepted hdomain hposes.check hposes.costs.length_eq hposes.within,
      (checkRequest_valid hposes.check).nonempty⟩
  have hsearch := search_spec hposes.check hposes.costs hsetting
  have hsolve : Triple (fun t => Ready d P r b t.1 ∧ t.2 = [])
      ((engineSolver (thresholdEngine d domain authorizer) config).solve request)
      (fun result t => Solves d domain request.thresholdScaled rows grid result ∧
        Ready d (OrIn P request.sessionId) (r + result.stats.visitedNodes) b t.1)
      (fun err t => Halted authorizer (plainSearch domain request.thresholdScaled rows grid) err ∧
        ∃ n, Ready d (OrIn P request.sessionId) (r + n) b t.1) := by
    refine Triple.weaken (Triple.map hsearch fun s w hs => ?_) ?_ (fun _ _ hs => hs) ?_
    · rcases hs with ⟨log, hexplores, p, hcount, ⟨hready, _⟩, hholds⟩
      obtain rfl := explores_eq_plainRun hexplores
      have hstats : (EncryptedBranchAndBoundSolver.finish s).stats = s.stats := by
        unfold EncryptedBranchAndBoundSolver.finish
        split <;> rfl
      have hvisited := hholds.visitedNodes
      rw [hcount, ← hvisited] at hready
      refine ⟨⟨finish_reports (checkRequest_valid hposes.check) hholds, ?_⟩, ?_⟩
      · rw [hstats]
        exact hvisited
      · rw [hstats]
        exact hready.mono fun _ => Taken.session
    · rintro ⟨world, keys⟩ ⟨hworld, rfl⟩
      refine ⟨?_, consumed_old _ _⟩
      have hzero : r + UInt64.ofNat (0 + 0) = r := UInt64.add_zero r
      rw [hzero]
      exact hworld.mono fun _ => Or.inl
    · intro err w hfails
      rcases stopped_of_fails (R := fun p a w =>
        Ready d (Taken P request.sessionId p a) (r + UInt64.ofNat (p + a)) b w.1) hfails with
        ⟨hstopped, p, a, hready⟩
      exact ⟨hstopped, UInt64.ofNat (p + a), hready.mono fun _ => Taken.session⟩
  exact (Triple.withLocals hsolve).bind fun result => Triple.pure fun _ hs => hs

/-! ## What a solve costs -/

def framesOf (world : ThresholdWorld) : UInt64 :=
  UInt64.ofNat (receivedFrames world.1.state.events)

/-- The statistics of a solve agree with each other, with the nodes that the search has visited, and
with the frames that have reached the CSP: two of them ask for its times. -/
structure Accounts (fusion : Bool) (frames visited : UInt64) (counted : ThresholdStats) :
    Prop where
  reveals : counted.predicateReveals = visited
  requests : counted.cspRequests =
    counted.scmpDispatches + counted.smulDispatches + counted.predicateReveals
  frames : frames = counted.cspRequests + 2
  cpEcalls : counted.cspRequests =
    counted.cpEcalls + if fusion then counted.predicateReveals else 0
  cspEcalls : counted.cspEcalls =
    counted.cpEcalls + if fusion then 0 else counted.predicateReveals

/-- Two worlds with one balance. -/
theorem accounts_between {fusion : Bool} {before after : ThresholdWorld}
    (h : balance fusion before = balance fusion after) :
    Accounts fusion (framesOf after - framesOf before + 2)
      (after.2.metrics.predicateReveals - before.2.metrics.predicateReveals)
      (ThresholdStats.between before.2.metrics after.2.metrics) := by
  simp only [balance, Balance.mk.injEq] at h
  rcases h with ⟨hframes, hdispatches, _, hcp, hcsp⟩
  refine ⟨rfl, ?_, ?_, ?_, ?_⟩
  · simp only [ThresholdStats.between]
    grind
  · simp only [ThresholdStats.between, framesOf]
    grind
  · simp only [ThresholdStats.between]
    cases fusion <;> grind
  · simp only [ThresholdStats.between]
    cases fusion <;> grind

/-- A frame that only asks for times. -/
theorem framesOf_asked {before after : ThresholdWorld} {b : Balance}
    (hbefore : balance d.fusionEnabled before = b)
    (hafter : balance d.fusionEnabled after = { b with frames := b.frames - 1 })
    (hmetrics : after.2.metrics = before.2.metrics) : framesOf after = framesOf before + 1 := by
  rw [← hbefore] at hafter
  have hframes := congrArg Balance.frames hafter
  simp only [balance, hmetrics] at hframes
  unfold framesOf
  grind

/-- `refreshCspMetrics` leaves the counters alone. -/
theorem refreshCspMetrics_metrics (m : ProtocolMetrics) :
    Triple (fun w : ThresholdWorld => w.2.metrics = m) (refreshCspMetrics d)
      (fun _ w => w.2.metrics = m) (fun _ w => w.2.metrics = m) := by
  have hdraw : Triple (fun w : ThresholdWorld => w.2.metrics = m) d.draw
      (fun _ w => w.2.metrics = m) (fun _ w => w.2.metrics = m) := fun _ hw => hw
  refine hdraw.bind fun draws => ?_
  refine Triple.bind (Q := fun _ w => w.2.metrics = m) (fun w hw => ?_) fun reply => ?_
  · unfold onFst
    cases d.parties.csp.requestPayload d.sha256 [byteOf 'T'] draws.env w.1 <;> exact hw
  · exact Triple.require_any fun (w : ThresholdWorld) (hw : w.2.metrics = m) => hw

theorem refreshCspMetrics_spec (h : d.Sane) (hworld : Ready d P r b world) :
    Triple (fun w => w = world) (refreshCspMetrics d)
      (fun _ w => Ready d P r { b with frames := b.frames - 1 } w ∧
        w.2.metrics = world.2.metrics ∧ framesOf w = framesOf world + 1) Never := by
  intro w hw
  subst hw
  have hready := refreshCspMetrics_ready h w hworld
  have hmetrics := refreshCspMetrics_metrics (d := d) w.2.metrics w rfl
  cases hrun : refreshCspMetrics d w with
  | ok u after =>
      rw [hrun] at hready hmetrics
      exact ⟨hready, hmetrics, framesOf_asked hworld.balance hready.balance hmetrics⟩
  | error err after =>
      rw [hrun] at hready
      exact hready

variable {runtime : ThresholdConfidentialRuntime}

/-- A solve of a runtime, from a connection that is ready: what it returns, what it counts and what
it leaves. -/
theorem runtime_optimize (h : runtime.deployment.Sane)
    (hdomain : checkNumericDomain runtime.domain = .ok ())
    (hposes : Poses runtime.deployment runtime.domain runtime.solverConfig request rows grid)
    (hnew : ∀ operation, ¬ P (request.sessionId, operation))
    (hworld : Ready runtime.deployment P r b world) :
    Triple (fun w => w = world) (runtime.optimize request)
      (fun out w =>
        Solves runtime.deployment runtime.domain request.thresholdScaled rows grid out.1 ∧
        Accounts runtime.deployment.fusionEnabled (framesOf w - framesOf world)
          out.1.stats.visitedNodes out.2 ∧
        ∃ r b, Ready runtime.deployment (OrIn P request.sessionId) r b w)
      (fun err w => Halted runtime.authorizer
          (plainSearch runtime.domain request.thresholdScaled rows grid) err ∧
        ∃ r b, Ready runtime.deployment (OrIn P request.sessionId) r b w) := by
  refine Triple.bind (refreshCspMetrics_spec h hworld).ofNever fun _ => ?_
  refine Triple.of_each fun w₁ hw₁ => Triple.bind (Q := fun before w => before = w₁.2 ∧ w = w₁)
    (fun w hw => ⟨congrArg Prod.snd hw, hw⟩) fun before => Triple.assuming fun hbefore => ?_
  rcases hw₁ with ⟨hready₁, hmetrics₁, hframes₁⟩
  -- The solve itself keeps the balance.
  refine Triple.bind ((optimize_threshold h hdomain hposes hnew).weaken (fun w hw => hw ▸ hready₁)
    (fun _ _ hq => hq) fun err w hE => ⟨hE.1, ?_⟩) fun result => ?_
  · rcases hE.2 with ⟨n, hready⟩
    exact ⟨_, _, hready⟩
  · refine Triple.assuming fun hsolves => Triple.of_each fun w₂ hready₂ => ?_
    refine Triple.bind (refreshCspMetrics_spec h hready₂).ofNever fun _ => ?_
    refine Triple.of_each fun w₃ hw₃ => ?_
    rcases hw₃ with ⟨hready₃, hmetrics₃, hframes₃⟩
    intro w hw
    subst hw
    refine ⟨hsolves, ?_, _, _, hready₃⟩
    have haccounts := accounts_between (hready₁.balance.trans hready₂.balance.symm)
    have hreveals : w₂.2.metrics.predicateReveals - w₁.2.metrics.predicateReveals =
        result.stats.visitedNodes := by
      rw [hready₂.reveals, hready₁.reveals]
      grind
    have hframes : framesOf w₂ - framesOf w₁ + 2 = framesOf w - framesOf world := by
      rw [hframes₃, hframes₁]
      grind
    rw [hreveals, hframes, ← hmetrics₃, ← congrArg ThresholdClient.metrics hbefore] at haccounts
    exact haccounts

/-! ## Many solves -/

/-- A request with the plaintexts behind it. -/
structure Problem where
  request : EncryptedOptimizationRequest Ciphertext
  rows : List (CostRow Int)
  grid : Option LagrangianGrid

abbrev Problem.sessionId (problem : Problem) : Bytes :=
  problem.request.sessionId

/-- How a runtime may end on a problem. -/
def Judged (runtime : ThresholdConfidentialRuntime) (problem : Problem) :
    Except Error (EncryptedBranchAndBoundResult Ciphertext × ThresholdStats) → Prop :=
  Ends (fun out => Solves runtime.deployment runtime.domain problem.request.thresholdScaled
      problem.rows problem.grid out.1)
    (Halted runtime.authorizer
      (plainSearch runtime.domain problem.request.thresholdScaled problem.rows problem.grid))

/-- The pairs that the CSP may have consumed after these solves. -/
def AfterAll (P : Bytes × Bytes → Prop) (problems : List Problem) (pair : Bytes × Bytes) : Prop :=
  P pair ∨ ∃ problem ∈ problems, pair.1 = problem.sessionId

theorem afterAll_concat {done : List Problem} {problem : Problem} {pair : Bytes × Bytes}
    (h : OrIn (AfterAll P done) problem.sessionId pair) :
    AfterAll P (done ++ [problem]) pair := by
  rcases h with (h | ⟨other, hother, h⟩) | h
  · exact Or.inl h
  · exact Or.inr ⟨other, List.mem_append_left _ hother, h⟩
  · exact Or.inr ⟨problem, List.mem_append_right _ (List.mem_singleton_self problem), h⟩

/-- A server that waits for a frame after any history is ready, whatever the client has counted. -/
theorem ready_of_history (d : Deployment) (client : ThresholdClient) {server : Server}
    (hreached : ∃ history, server = Server.run d.parties.csp d.sha256 history)
    (hphase : server.phase = .serving) (hidle : server.state.pending = none) :
    Ready d (· ∈ consumedPairs server.state.events) client.metrics.predicateReveals
      (balance d.fusionEnabled (server, client)) (server, client) := by
  refine ⟨hphase, hidle, ?_, fun _ h => h, rfl, rfl⟩
  rcases hreached with ⟨history, rfl⟩
  exact Server.run_sound d.parties.csp d.sha256 history

/-! ## A key of 3072 bits -/

/-- A deployment with a key of 3072 bits, in which the CSP draws and replies are sent. -/
theorem exists_sane (fusion : Option Bytes) : ∃ d : Deployment, d.Sane ∧ d.fusion = fusion ∧
    sizeInBase2 d.parties.modulus = 3072 := by
  rcases exists_parties_3072 with ⟨parties, hcorrect, hsize⟩
  rcases exists_otKey with ⟨ot, hn⟩
  have hmod := one_lt_modulus hsize.ge
  let nonce := Parties.unitNonce hmod
  let one : BelowNonzero ot.n := ⟨1, Nat.one_pos, by rw [hn]; decide +kernel⟩
  let draw : CompareDraw :=
    ⟨⟨2 ^ 127 + 1, by decide, by decide⟩, Parties.leastMask, by decide, true⟩
  let env : Surroundings parties.csp.modulus :=
    ⟨.ok fun _ => 1, .ok fun _ => nonce, fun _ => 0, 0, fun _ => .ok ()⟩
  let draws : CallDraws parties ot :=
    { constant := nonce
      multiply := fun _ => ⟨Parties.leastMask, Parties.leastMask⟩
      compare := fun _ => draw
      masks := fun _ => nonce
      last := fun _ => nonce
      fused := ⟨nonce, fun _ => draw, fun _ => nonce, fun _ => one, fun _ => one, 0, fun _ => 0⟩
      env := env
      finishEnv := env }
  refine ⟨⟨parties, fun bytes => BitVec.ofNat 256 (BigEndian.ofBytes bytes), ot, 1, fusion,
    fun _ => draws⟩, ⟨hcorrect, hsize.ge, by rw [hsize]; decide, ?_, ?_, ?_, ?_⟩, rfl, hsize⟩
  · exact fun _ => ⟨fun _ => nonce, rfl⟩
  · exact fun _ => ⟨fun _ => one, rfl⟩
  · exact fun _ _ => rfl
  · exact fun _ _ => rfl

/-- Two rows, each of them without one of the methods. -/
def sampleRows : List (CostRow Int) :=
  [![some 3, none, some 2], ![some 1, some 4, none]]

def sampleDomain : NumericDomain :=
  ⟨100, 4, 8, 16, 32, 32⟩

/-- A request with the costs of the rows, in any session. -/
theorem exists_request {d : Deployment} (h : d.Sane) {sessionId : Bytes}
    (hsession : validIdentifier sessionId) : ∃ request, request.sessionId = sessionId ∧
      request.thresholdScaled = 20 ∧ Poses d sampleDomain {} request sampleRows none := by
  let nonce := Parties.unitNonce h.one_lt
  let sealed (x : Int) : Ciphertext :=
    ⟨Runtime.canonicalBytes d.mode
      (BigEndian.magnitude (paillierEncrypt x d.parties.modulus nonce))⟩
  have hsealed (x : Int) : Carries d.parties d.mode (sealed x) x :=
    carries_canonicalBytes h.one_lt h.size d.mode (encrypts_paillierEncrypt x nonce)
  refine ⟨⟨sampleRows.map fun row m => (row m).map sealed, 20, sessionId⟩, rfl, rfl, ?_, ?_, ?_⟩
  · unfold checkRequest
    refine bind_eq_ok.2 ⟨(), ensure_eq_ok.2 rfl, bind_eq_ok.2 ⟨(), ensure_eq_ok.2 (by decide), ?_⟩⟩
    refine bind_eq_ok.2 ⟨(), ensure_eq_ok.2 (by decide : 2 ≤ 4), ?_⟩
    refine bind_eq_ok.2 ⟨(), ensure_eq_ok.2 (by decide : (0 : Int) ≤ 20 ∧ (20 : Int) < 100), ?_⟩
    refine bind_eq_ok.2 ⟨(), ensure_eq_ok.2 hsession, ?_⟩
    rfl
  · refine List.forall₂_map_left_iff.2 (List.forall₂_same.2 fun row _ m => ?_)
    change Option.Rel _ ((row m).map sealed) (row m)
    cases row m with
    | none => exact Option.Rel.none
    | some x => exact Option.Rel.some (hsealed x)
  · unfold CostsWithin
    decide

/-! ## What a runtime guarantees -/

/-- Solves in sessions of their own, one after the other and past every refusal: each of them
returns its optimum or was refused, and the connection stays ready. -/
theorem solves_in_sequence (h : runtime.deployment.Sane)
    (hdomain : checkNumericDomain runtime.domain = .ok ()) {server : Server}
    (hreached : ∃ history, server =
      Server.run runtime.deployment.parties.csp runtime.deployment.sha256 history)
    (hphase : server.phase = .serving) (hidle : server.state.pending = none)
    (client : ThresholdClient) {problems : List Problem}
    (hposes : ∀ problem ∈ problems, Poses runtime.deployment runtime.domain runtime.solverConfig
      problem.request problem.rows problem.grid)
    (hdistinct : (problems.map Problem.sessionId).Nodup)
    (hnew : ∀ problem ∈ problems, ∀ operation,
      (problem.sessionId, operation) ∉ consumedPairs server.state.events) :
    let ended := attempts (problems.map fun problem => runtime.optimize problem.request)
      (server, client)
    List.Forall₂ (Judged runtime) problems ended.1 ∧ ended.2.1.phase = .serving ∧
      ended.2.1.state.pending = none ∧ ∀ pair ∈ consumedPairs ended.2.1.state.events,
        pair ∈ consumedPairs server.state.events ∨
          ∃ problem ∈ problems, pair.1 = problem.sessionId := by
  have hstart := ready_of_history runtime.deployment client hreached hphase hidle
  have hrun := attempts_spec problems (fun problem => runtime.optimize problem.request)
    (Judged runtime) (fun done w => ∃ r b, Ready runtime.deployment
      (AfterAll (· ∈ consumedPairs server.state.events) done) r b w) ?_
    ⟨_, _, hstart.mono fun _ => Or.inl⟩
  · rcases hrun with ⟨houtcomes, r, b, hready⟩
    exact ⟨houtcomes, hready.phase, hready.idle, hready.pairs⟩
  · rintro done problem rest w hproblems ⟨r, b, hready⟩
    have hmem : problem ∈ problems := by
      rw [hproblems]
      exact List.mem_append_right _ List.mem_cons_self
    -- The sessions of the solves before this one are others.
    have hfresh : ∀ operation, ¬ AfterAll (· ∈ consumedPairs server.state.events) done
        (problem.sessionId, operation) := by
      rintro operation (hold | ⟨other, hother, hsame⟩)
      · exact hnew problem hmem operation hold
      · rw [hproblems, List.map_append, List.map_cons] at hdistinct
        exact (List.nodup_append.1 hdistinct).2.2 _ (List.mem_map_of_mem hother) _
          List.mem_cons_self hsame.symm
    have hspec := runtime_optimize h hdomain (hposes problem hmem) hfresh hready
    refine attempt_spec (R := fun outcome w => Judged runtime problem outcome ∧ ∃ r b,
      Ready runtime.deployment (AfterAll _ (done ++ [problem])) r b w) hspec rfl ?_ ?_
    · rintro out w ⟨hsolves, _, r, b, hw⟩
      exact ⟨hsolves, r, b, hw.mono fun _ => afterAll_concat⟩
    · rintro err w ⟨hstopped, r, b, hw⟩
      exact ⟨hstopped, r, b, hw.mono fun _ => afterAll_concat⟩

/-- Two sessions on one connection, with fused predicates. -/
theorem solves_in_sequence_3072 : ∃ (runtime : ThresholdConfidentialRuntime)
    (server : Server) (problems : List Problem),
    sizeInBase2 runtime.deployment.parties.modulus = 3072 ∧
      runtime.deployment.fusionEnabled = true ∧
      problems.map Problem.rows = [sampleRows, sampleRows] ∧
      (let ended := attempts (problems.map fun problem => runtime.optimize problem.request)
        (server, {})
      List.Forall₂ (Judged runtime) problems ended.1 ∧ ended.2.1.phase = .serving ∧
        ended.2.1.state.pending = none ∧ ∀ pair ∈ consumedPairs ended.2.1.state.events,
          pair ∈ consumedPairs server.state.events ∨
            ∃ problem ∈ problems, pair.1 = problem.sessionId) := by
  rcases exists_sane none with ⟨d, hsane, hfusion, hsize⟩
  rcases exists_request hsane (by decide : validIdentifier (ascii "first") = true) with
    ⟨first, hfirst, _, hposesFirst⟩
  rcases exists_request hsane (by decide : validIdentifier (ascii "second") = true) with
    ⟨second, hsecond, _, hposesSecond⟩
  let runtime : ThresholdConfidentialRuntime := ⟨d, sampleDomain, fun _ => .ok true, {}⟩
  let problems : List Problem := [⟨first, sampleRows, none⟩, ⟨second, sampleRows, none⟩]
  have hsessions : problems.map Problem.sessionId = [ascii "first", ascii "second"] := by
    simp only [problems, List.map_cons, List.map_nil, Problem.sessionId, hfirst, hsecond]
  have hposes : ∀ problem ∈ problems, Poses d sampleDomain {} problem.request problem.rows
      problem.grid := by
    intro problem hproblem
    rcases List.mem_cons.1 hproblem with rfl | hproblem
    · exact hposesFirst
    · rcases List.mem_singleton.1 hproblem with rfl
      exact hposesSecond
  have hruntime : runtime.deployment.Sane := hsane
  have hdomain : checkNumericDomain sampleDomain = .ok () := rfl
  refine ⟨runtime, Server.run d.parties.csp d.sha256 [.connect (.ok ())], problems, hsize, ?_, rfl,
    solves_in_sequence hruntime hdomain ⟨_, rfl⟩ rfl rfl {} hposes (by rw [hsessions]; decide)
      fun _ _ _ => List.not_mem_nil⟩
  rw [Deployment.fusionEnabled, hfusion]
  decide

/-- What the statistics of a solve say is what has happened: as many bits were revealed as the plain
search visits nodes, and the CSP has received the requests that were counted and the two for its
times. -/
theorem optimize_accounts (h : runtime.deployment.Sane)
    (hdomain : checkNumericDomain runtime.domain = .ok ()) {server : Server}
    (hreached : ∃ history, server =
      Server.run runtime.deployment.parties.csp runtime.deployment.sha256 history)
    (hphase : server.phase = .serving) (hidle : server.state.pending = none)
    (client : ThresholdClient)
    (hposes : Poses runtime.deployment runtime.domain runtime.solverConfig request rows grid)
    (hnew : ∀ operation, (request.sessionId, operation) ∉ consumedPairs server.state.events)
    {result : EncryptedBranchAndBoundResult Ciphertext} {counted : ThresholdStats}
    {after : ThresholdWorld}
    (hrun : runtime.optimize request (server, client) = .ok (result, counted) after) :
    Accounts runtime.deployment.fusionEnabled
      (framesOf after - UInt64.ofNat (receivedFrames server.state.events))
      (UInt64.ofNat (plainSearch runtime.domain request.thresholdScaled rows grid).visited.length)
      counted := by
  have hstart := ready_of_history runtime.deployment client hreached hphase hidle
  have hspec := runtime_optimize h hdomain hposes hnew hstart _ rfl
  rw [hrun] at hspec
  rcases hspec with ⟨hsolves, haccounts, _⟩
  rw [hsolves.visited] at haccounts
  exact haccounts

theorem not_refusal {err : Error} : ¬ Refusal (fun _ => .ok true) err := by
  rintro ⟨context, hrefused | ⟨hdenied, _⟩⟩
  · cases hrefused
  · cases hdenied

/-- Without fusion every revealed bit is one more call of the enclave of the CSP. -/
theorem optimize_accounts_3072 : ∃ (runtime : ThresholdConfidentialRuntime)
    (request : EncryptedOptimizationRequest Ciphertext) (server : Server)
    (result : EncryptedBranchAndBoundResult Ciphertext) (counted : ThresholdStats)
    (after : ThresholdWorld), sizeInBase2 runtime.deployment.parties.modulus = 3072 ∧
      runtime.deployment.fusionEnabled = false ∧
      runtime.optimize request (server, {}) = .ok (result, counted) after ∧
      Accounts false (framesOf after - UInt64.ofNat (receivedFrames server.state.events))
        (UInt64.ofNat (plainSearch sampleDomain 20 sampleRows none).visited.length) counted := by
  rcases exists_sane (some (ascii "0")) with ⟨d, hsane, hfusion, hsize⟩
  rcases exists_request hsane (by decide : validIdentifier (ascii "only") = true) with
    ⟨request, _, hthreshold, hposes⟩
  let runtime : ThresholdConfidentialRuntime := ⟨d, sampleDomain, fun _ => .ok true, {}⟩
  have hruntime : runtime.deployment.Sane := hsane
  have hoff : runtime.deployment.fusionEnabled = false := by
    rw [Deployment.fusionEnabled, hfusion]
    decide
  have hdomain : checkNumericDomain sampleDomain = .ok () := rfl
  have hnew : ∀ operation, (request.sessionId, operation) ∉ consumedPairs
      (Server.run d.parties.csp d.sha256 [.connect (.ok ())]).state.events :=
    fun _ => List.not_mem_nil
  have hstart := ready_of_history d {} ⟨[.connect (.ok ())], rfl⟩ rfl rfl
  rcases (runtime_optimize hruntime hdomain hposes hnew hstart).run rfl with
    ⟨⟨result, counted⟩, after, hrun, _⟩ | ⟨err, _, _, hrefusal | ⟨hwraps, _⟩, _⟩
  · have haccounts := optimize_accounts hruntime hdomain ⟨_, rfl⟩ rfl rfl {} hposes hnew hrun
    rw [hoff, hthreshold] at haccounts
    exact ⟨runtime, request, _, result, counted, after, hsize, hoff, hrun, haccounts⟩
  · exact absurd hrefusal not_refusal
  · -- Neither predicate is evaluated `2^64` times.
    rw [hthreshold] at hwraps
    have hfew : ¬ Wraps (plainSearch sampleDomain 20 sampleRows none) := by
      unfold Wraps
      decide
    exact absurd hwraps hfew

end Optimization
end SociSgx

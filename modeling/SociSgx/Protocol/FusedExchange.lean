import SociSgx.Protocol.FusedClient
import SociSgx.Protocol.FusedReplay
import SociSgx.Protocol.Masked
import SociSgx.Protocol.PredicateCircuit
import SociSgx.Secure.PredicateEngine

/-!
# FusedExchange — the two requests of a fused predicate and what they return

The CSP learns for each comparison whether its masked difference stands in the lower half, and opens
the label that stands at that place of the pair; the client has put the labels there so that it is
the label of the comparison.  The circuit is then evaluated on the comparisons.
-/

namespace SociSgx
namespace Protocol

open Exec Paillier
open Secure (PredicateType PredicateContext PruneInputs AcceptInputs)
open Secure.PredicateEngine (compared)

/-! ## The transfer -/

section

variable (ot : OtKey)

theorem OtKey.n_pos : 0 < ot.n := by
  refine Nat.pos_of_ne_zero fun hzero => ?_
  have hsize := ot.size
  rw [hzero] at hsize
  exact absurd hsize (by decide)

/-- The nonce that was chosen is taken away again, and the private exponent gives the key. -/
theorem OtKey.transferKey_eq {k x : Nat} (hk : k < ot.n) :
    ot.transferKey ((x + Modular.powMod k rsaF4 ot.n) % ot.n) x = k := by
  have hn := ot.n_pos
  let e := Modular.powMod k rsaF4 ot.n
  have he : e < ot.n := Modular.powMod_lt hn
  let d : Int := (((x + e) % ot.n : Nat) : Int) - x
  have hd : d ≡ (e : Int) [ZMOD ot.n] := by
    have hmod : (((x + e) % ot.n : Nat) : Int) ≡ ((x + e : Nat) : Int) [ZMOD ot.n] := by
      rw [Int.natCast_mod]
      exact Int.mod_modEq _ _
    have hsub := hmod.sub_right (x : Int)
    rwa [Nat.cast_add, add_sub_cancel_left] at hsub
  let base := (if d.tmod ot.n < 0 then d.tmod ot.n + ot.n else d.tmod ot.n).toNat
  have hbase : base ≡ e [MOD ot.n] :=
    Int.natCast_modEq_iff.1 ((normalized_modEq hn d).trans hd)
  have hkey : ot.transferKey ((x + e) % ot.n) x = Modular.powMod base ot.privateExponent ot.n := rfl
  have hinverts := ot.inverts k hk
  rw [ot.f4, Modular.powMod_eq] at hinverts
  calc
    ot.transferKey ((x + e) % ot.n) x = Modular.powMod base ot.privateExponent ot.n := hkey
    _ = base ^ ot.privateExponent % ot.n := Modular.powMod_eq _ _ _
    _ = e ^ ot.privateExponent % ot.n := hbase.pow _
    _ = k := hinverts

end

theorem cancel_pad (label pad : Label) : labelXor (labelXor label pad) pad = label := by
  change (label ^^^ pad) ^^^ pad = label
  rw [BitVec.xor_assoc, BitVec.xor_self, BitVec.xor_zero]

/-- The CSP opens the label of its choice, with the orientation undone. -/
theorem Parties.opened_transferPair (parties : Parties) (sha256 : Bytes → Label) (ot : OtKey)
    (garbled : GarbledPredicate) (draws : FusedDraws parties.modulus ot.n) {p : PendingFused}
    {i v k : Nat} {choice : Bool} (hchoice : p.choices.getD i false = choice)
    (hkey : p.keys.getD i 0 = k) (hk : k < ot.n)
    (hv : v = Csp.transferValue ot.n ⟨0, 0, (draws.x0 i).value, (draws.x1 i).value⟩ choice k) :
    opened sha256 p (parties.transferPair sha256 ot garbled draws v i) i =
      FreeXor.label (garbled.zero.getD i 0) garbled.delta
        (choice ^^ (draws.compare i).orientation) := by
  rw [opened, hchoice, hkey, hv]
  cases choice
  · have hsame : ot.transferKey (Csp.transferValue ot.n
        ⟨0, 0, (draws.x0 i).value, (draws.x1 i).value⟩ false k) (draws.x0 i).value = k :=
      ot.transferKey_eq hk
    simp only [transferPair, Bool.false_eq_true, if_false, hsame, cancel_pad]
    cases (draws.compare i).orientation <;> rfl
  · have hsame : ot.transferKey (Csp.transferValue ot.n
        ⟨0, 0, (draws.x0 i).value, (draws.x1 i).value⟩ true k) (draws.x1 i).value = k :=
      ot.transferKey_eq hk
    simp only [transferPair, if_true, hsame, cancel_pad]
    cases (draws.compare i).orientation <;> rfl

theorem choiceOf_eq (csp : Csp) (plaintext : Nat) :
    csp.choiceOf plaintext = decide (csp.halfBit plaintext = 1) := by
  unfold Csp.choiceOf Csp.halfBit
  rw [decide_eq_decide]
  split
  · rename_i hupper
    exact ⟨fun hle => absurd hupper (Nat.not_lt.2 hle), fun h => absurd h (by decide)⟩
  · rename_i hlower
    exact ⟨fun _ => rfl, fun _ => Nat.not_lt.1 hlower⟩

/-- The choice of the CSP is the comparison, or its negation when the orientation was reversed. -/
theorem choiceOf_difference {parties : Parties} (hwide : 3072 ≤ sizeInBase2 parties.modulus)
    {x y : Int} (hx : Small x) (hy : Small y) (draw : CompareDraw) :
    (parties.csp.choiceOf (Parties.maskedValue parties x y draw % parties.modulus).toNat ^^
      draw.orientation) = decide (y < x) := by
  rw [choiceOf_eq, Parties.halfBit_difference hwide hx hy draw, Parties.greater]
  by_cases hxy : y < x
  · rw [if_pos hxy, decide_eq_true hxy]
    cases draw.orientation <;> rfl
  · rw [if_neg hxy, decide_eq_false hxy]
    cases draw.orientation <;> rfl

/-! ## The handlers -/

namespace Csp

variable (csp : Csp) (sha256 : Bytes → Label)

/-- What stays pending of a start. -/
def transcript (start : FusedStart) (circuit : BooleanCircuit) (plain : List Nat)
    (key : Nat → Nat) : PendingFused where
  session := start.header.session
  operation := start.header.operation
  node := start.header.node
  type := start.header.type
  incumbent := start.incumbent
  depth := start.header.depth
  choices := tabulate start.header.count fun i => csp.choiceOf (plain.getD i 0)
  keys := tabulate start.header.count key
  circuit := circuit

/-- The values of the reply to a start. -/
def transferValues (start : FusedStart) (plain : List Nat) (key : Nat → Nat) : List Nat :=
  let choices := tabulate start.header.count fun i => csp.choiceOf (plain.getD i 0)
  tabulate start.header.count fun i =>
    transferValue start.rsaN (start.items.getD i default) (choices.getD i false) (key i)

variable {csp} {s : CspState} {request : Bytes}

theorem startFused_accepts {start : FusedStart} {circuit : BooleanCircuit} {plain : List Nat}
    {key : Nat → Nat} {reply : Bytes} (hhead : StartHead s.pending request)
    (hparsed : parseFusedStart request = .ok start) (hkey : start.header.key ∉ s.replays)
    (hcircuit : predicateCircuit start.header.type start.header.count start.incumbent = .ok circuit)
    (hplain : thresholdDecryptBatch csp.key (start.items.map OtItem.ciphertext)
      (start.items.map OtItem.cpShare) = .ok plain)
    (hreply : appendIntegers (0 :: writeU32 start.header.count)
      (csp.transferValues start plain key) = .ok reply) :
    Triple (fun t => t = s) (csp.startFused request (.ok key))
      (fun r t => r = reply ∧ t.pending = some (csp.transcript start circuit plain key)) Never := by
  refine get_at (require_at (fun _ => ?_) fun hno => absurd hhead hno)
  refine Triple.lift_bind hparsed ?_
  dsimp only
  unfold consume
  simp only [bind_assoc]
  refine get_at ?_
  have hfresh : replayKey start.header.session start.header.operation ∉ s.replays := hkey
  rw [if_neg (mt List.contains_iff_mem.1 hfresh)]
  simp only [bind_assoc]
  refine modify_at (modify_at (Triple.lift_bind hcircuit (modify_at ?_)))
  refine Triple.lift_bind hplain (Triple.lift_bind rfl (Triple.lift_bind hreply ?_))
  exact modify_at (modify_at (pure_at ⟨rfl, rfl⟩))

theorem finishFused_accepts {p : PendingFused} {header : FusedHeader} {bit : Bool}
    (hpending : s.pending = some p)
    (hhead : 8 ≤ request.length ∧ (1 ≤ request.getD 1 0 ∧ request.getD 1 0 ≤ 2) ∧
      request.getD 2 0 = 0 ∧ request.getD 3 0 = 0)
    (heval : evaluateFused sha256 p request = .ok (header, bit)) :
    Triple (fun t => t = s) (finishFused sha256 request)
      (fun r t => r = [0, if bit then 1 else 0] ∧ t.pending = none) Never := by
  refine get_at ?_
  rw [hpending]
  refine require_at (fun _ => ?_) fun hno => absurd hhead hno
  refine modify_at (Triple.lift_bind heval ?_)
  exact modify_at (pure_at ⟨rfl, rfl⟩)

theorem answer_finish (hfinish : request.head? = some (byteOf 'G'))
    (env : Surroundings csp.modulus) :
    csp.answer sha256 request env = finishFused sha256 request := by
  cases request with
  | nil => cases hfinish
  | cons operation rest =>
      have hG : operation = byteOf 'G' := Option.some.inj hfinish
      have hF : operation ≠ byteOf 'F' := by
        rw [hG]
        decide
      exact (if_neg hF).trans (if_pos hG)

/-! ## A request and its reply -/

/-- A request that is answered: the server goes on, and the client gets the rest of the reply. -/
theorem requestPayload_answers {server : Server} {env : Surroundings csp.modulus} {rest : Bytes}
    {Q : CspState → Prop} (hphase : server.phase = .serving)
    (hsend : ∀ reply, env.send reply = .ok ()) (hlen : request.length ≤ maxFrame)
    (hgoes : request.head? ≠ some (byteOf 'Q')) (hreply : (0 :: rest).length ≤ maxFrame)
    (hanswer : Triple (fun t => t = server.state.note (.received request))
      (csp.answer sha256 request env) (fun r t => r = 0 :: rest ∧ Q t) Never) :
    Triple (fun t => t = server) (csp.requestPayload sha256 request env)
      (fun r t => r = rest ∧ t.phase = .serving ∧ Q t.state) Never := by
  rcases hanswer.returns rfl with ⟨reply, s', hrun, rfl, hQ⟩
  have hframe : receivePayload request = .ok request :=
    bind_eq_ok.2 ⟨(), ensure_eq_ok.2 hlen, rfl⟩
  have hback : receivePayload (0 :: rest) = .ok (0 :: rest) :=
    bind_eq_ok.2 ⟨(), ensure_eq_ok.2 hreply, rfl⟩
  have hsent : lift (env.send (0 :: rest)) s' = .ok () s' := by
    rw [hsend]
    rfl
  have hrespond : csp.respond sha256 (.ok request) env server.state = .ok (0 :: rest) s' := by
    refine (bind_of_ok rfl).trans ((bind_of_ok rfl).trans ((bind_of_ok hrun).trans ?_))
    exact (bind_of_ok hsent).trans rfl
  -- The step of the server and the reply to the client are one run of the handler.
  have hserve : csp.serve sha256 (.ok request) env server.state = .ok false s' := by
    refine (bind_of_ok rfl).trans ((bind_of_ok rfl).trans ((bind_of_ok hrun).trans ?_))
    refine (bind_of_ok hsent).trans ?_
    rw [if_neg hgoes]
    rfl
  have hstep : server.step csp sha256 (.frame (.ok request) env) =
      { phase := .serving, state := s' } := by
    rcases server with ⟨phase, state⟩
    obtain rfl : phase = .serving := hphase
    unfold Server.step
    dsimp only at hserve ⊢
    rw [hserve]
    rfl
  have hanswered : csp.reply sha256 server (.ok request) env = .ok (0 :: rest) := by
    rw [reply, hphase]
    dsimp only
    rw [hrespond]
  have hwide : request.length ≤ uint32Max := hlen.trans (by decide)
  refine require_at (fun _ => get_at ?_) fun hno => absurd hwide hno
  dsimp only
  rw [hframe]
  refine modify_at ?_
  rw [hstep]
  refine Triple.lift_bind hanswered (Triple.lift_bind hback ?_)
  exact require_at (fun _ => pure_at ⟨rfl, rfl, hQ⟩) fun hno => absurd rfl hno

end Csp

/-! ## The first request -/

theorem getD_tabulate {α : Type} {n : Nat} (f : Nat → α) {i : Nat} (hi : i < n) (d : α) :
    (tabulate n f).getD i d = f i :=
  (entries_tabulate (R := fun i y => y = f i) fun _ _ => rfl).getD hi d

/-- What the client meets: a server between two predicates that has not consumed the pair, and
surroundings in which the replies arrive. -/
structure Meets (csp : Csp) (ot : OtKey) (context : PredicateContext) (server : Server)
    (key : Nat → BelowNonzero ot.n) (startEnv finishEnv : Surroundings csp.modulus) : Prop where
  phase : server.phase = .serving
  idle : server.state.pending = none
  fresh : pairKey (context.sessionId, context.operationId) ∉ server.state.replays
  keys : startEnv.keys = .ok fun i => (key i).value
  startSends : ∀ reply, startEnv.send reply = .ok ()
  finishSends : ∀ reply, finishEnv.send reply = .ok ()

namespace Parties

variable {parties : Parties} {sha256 : Bytes → Label} {ot : OtKey} {context : PredicateContext}
  {items : List (Nat × Nat)} {xs : List (Int × Int)} {hasIncumbent : Bool}
  {draws : FusedDraws parties.modulus ot.n} {startEnv finishEnv : Surroundings parties.modulus}
  {server : Server} {key : Nat → BelowNonzero ot.n} {ds shares : List Nat} {c : BooleanCircuit}
  {n : Nat} {ms : Nat → Int}

theorem cpShare_lt (h : parties.DecryptsCorrectly) (hmod : 1 < parties.modulus) (c : Nat) :
    parties.cpShare c < parties.modulus * parties.modulus := by
  rw [cpShare, EnclaveKey.nsq, h.cp_modulus]
  exact Modular.powMod_lt (Nat.mul_pos (by omega) (by omega))

theorem otItems_fit (draws : FusedDraws parties.modulus ot.n) (h : parties.DecryptsCorrectly)
    (hmod : 1 < parties.modulus)
    (hsize : sizeInBase2 parties.modulus ≤ 8192)
    (hds : Entries n ds fun i d => Encrypts parties.modulus d (ms i))
    (hshares : Entries n shares fun i s => s = parties.cpShare (ds.getD i 0)) :
    ∀ item ∈ parties.otItems ot n ds shares draws, item.Fits ot.n := by
  intro item hitem
  rcases List.mem_map.1 hitem with ⟨i, hi, rfl⟩
  have hi : i < n := List.mem_range.1 hi
  have hsquare := exportedSize_square hsize
  have hshort {z : Nat} (hz : z < parties.modulus * parties.modulus) : Short z :=
    (exportedSize_mono hz.le).trans hsquare
  have hnonce (x : BelowNonzero ot.n) : Short x.value :=
    (exportedSize_mono x.lt.le).trans ot.short.1
  have hshare : shares.getD i 0 < parties.modulus * parties.modulus := by
    rw [hshares.getD hi]
    exact cpShare_lt h hmod _
  refine ⟨fun z hz => ?_, ⟨(draws.x0 i).pos, (draws.x0 i).lt⟩, (draws.x1 i).pos, (draws.x1 i).lt⟩
  simp only [OtItem.integers, List.mem_cons, List.not_mem_nil, or_false] at hz
  rcases hz with rfl | rfl | rfl | rfl
  · exact hshort (hds.getD hi 0).lt
  · exact hshort hshare
  · exact hnonce _
  · exact hnonce _

/-- The start as the CSP reads it. -/
abbrev startOf (parties : Parties) (ot : OtKey) (context : PredicateContext) (hasIncumbent : Bool)
    (n : Nat) (ds shares : List Nat) (draws : FusedDraws parties.modulus ot.n) : FusedStart where
  header := headerOf context n
  incumbent := hasIncumbent
  rsaN := ot.n
  items := parties.otItems ot n ds shares draws

theorem transferValues_lt {start : FusedStart} {plain : List Nat} {key : Nat → Nat}
    (hpos : 0 < start.rsaN) :
    ∀ v ∈ parties.csp.transferValues start plain key, v < start.rsaN := by
  intro v hv
  rcases List.mem_map.1 hv with ⟨i, _, rfl⟩
  exact Nat.mod_lt _ hpos

theorem start_answered (sha256 : Bytes → Label) (draws : FusedDraws parties.modulus ot.n)
    (h : parties.DecryptsCorrectly) (hmod : 1 < parties.modulus)
    (hsize : sizeInBase2 parties.modulus ≤ 8192) (hcontext : Usable context)
    (hmeets : Meets parties.csp ot context server key startEnv finishEnv)
    (hn : 1 ≤ n ∧ n ≤ thresholdMaxBatchSize)
    (hcircuit : predicateCircuit context.predicateType n hasIncumbent = .ok c)
    (hds : Entries n ds fun i d => Encrypts parties.modulus d (ms i))
    (hshares : Entries n shares fun i s => s = parties.cpShare (ds.getD i 0)) :
    ∃ plain, Entries n plain (fun i p => p = (ms i % parties.modulus).toNat) ∧
      Triple (fun t => t = server) (parties.csp.requestPayload sha256
        (startBytes ot context hasIncumbent (parties.otItems ot n ds shares draws)) startEnv)
        (fun r t => r = writeU32 n ++ (parties.csp.transferValues
            (parties.startOf ot context hasIncumbent n ds shares draws) plain
              fun i => (key i).value).flatMap integerBytes ∧
          t.phase = .serving ∧ t.state.pending = some (parties.csp.transcript
            (parties.startOf ot context hasIncumbent n ds shares draws) c plain
              fun i => (key i).value)) Never := by
  let start := parties.startOf ot context hasIncumbent n ds shares draws
  have hlen : start.items.length = n := by simp [start, otItems, tabulate]
  have hcount : start.items.length ≤ 32 := hlen.symm ▸ hn.2
  have hfits := otItems_fit draws h hmod hsize hds hshares
  have hciphertexts : start.items.map OtItem.ciphertext = ds := by
    refine Entries.eq_of_getD (d := 0) ⟨(List.length_map _).trans hlen, fun i hi => ?_⟩ hds.length
    simp [start, otItems, tabulate]
  have hcpShares : start.items.map OtItem.cpShare = shares := by
    refine Entries.eq_of_getD (d := 0) ⟨(List.length_map _).trans hlen, fun i hi => ?_⟩
      hshares.length
    simp [start, otItems, tabulate]
  rcases h.thresholdDecryptBatch_csp hmod hn hds hshares with ⟨plain, hplain, hentries⟩
  rw [← hciphertexts, ← hcpShares] at hplain
  refine ⟨plain, hentries, ?_⟩
  -- the values are residues of the transfer key, so the reply is a small frame
  let values := parties.csp.transferValues start plain fun i => (key i).value
  have hvalues : values.length = n := (List.length_map _).trans List.length_range
  have hshort : ∀ v ∈ values, Short v := fun v hv =>
    (exportedSize_mono (transferValues_lt ot.n_pos v hv).le).trans ot.short.1
  have hbytes := length_integers_le hshort
  have hmax : n ≤ 32 := hn.2
  have hreply : appendIntegers (0 :: writeU32 n) values =
      .ok ((0 :: writeU32 n) ++ values.flatMap integerBytes) := by
    refine appendIntegers_eq values _ (fun v hv => (hshort v hv).writable) ?_
    rw [List.length_cons, length_writeU32, sizeMax]
    omega
  have hframe := length_startBytes ot hasIncumbent hcontext.fields hcount hfits
  have hparsed := parseFusedStart_startBytes ot hasIncumbent hcontext (hlen.symm ▸ hn) hfits
  rw [hlen] at hparsed
  have hhead := startHead_startBytes ot hasIncumbent hcontext hcount hfits
  have hsmall : (0 :: (writeU32 n ++ values.flatMap integerBytes)).length ≤ maxFrame := by
    rw [List.length_cons, List.length_append, length_writeU32, maxFrame]
    omega
  refine Csp.requestPayload_answers (Q := fun s => s.pending =
    some (parties.csp.transcript start c plain fun i => (key i).value)) sha256 hmeets.phase
    hmeets.startSends hframe.2 (fun hQ => absurd (Option.some.inj hQ) (by decide)) hsmall ?_
  rw [answer_start parties.csp sha256 rfl startEnv, hmeets.keys]
  refine Csp.startFused_accepts ?_ hparsed hmeets.fresh hcircuit hplain hreply
  rw [CspState.note, hmeets.idle]
  exact hhead

/-! ## The second request -/

theorem getElem?_openedLabels {p : PendingFused} {pairs : List LabelPair} {i : Nat}
    (hi : i < pairs.length) :
    (openedLabels sha256 p pairs)[i]? = some (opened sha256 p (pairs.getD i default) i) := by
  rw [openedLabels, List.getElem?_map, List.getElem?_zipIdx, List.getElem?_eq_getElem hi,
    List.getD_eq_getElem _ _ hi]
  simp

theorem finish_answered {p : PendingFused} {garbled : GarbledPredicate} {bits : List Bool}
    {pairs : List LabelPair} (hcontext : Usable context) (hphase : server.phase = .serving)
    (hsend : ∀ reply, finishEnv.send reply = .ok ()) (hpending : server.state.pending = some p)
    (hp : p.header = headerOf context pairs.length) (hcircuit : p.circuit = garbled.circuit)
    (hmax : pairs.length ≤ 32) (hbits : bits.length = pairs.length)
    (hgarbles : Garbles sha256 context.predicateType hasIncumbent bits garbled)
    (hopened : ∀ i < pairs.length, opened sha256 p (pairs.getD i default) i =
      FreeXor.label (garbled.zero.getD i 0) garbled.delta (bits.getD i false)) :
    ∃ request, fusedFinishRequest context pairs garbled = .ok request ∧
      Triple (fun t => t = server) (parties.csp.requestPayload sha256 request finishEnv)
        (fun r t => r = [if predicateBit context.predicateType hasIncumbent bits then 1 else 0] ∧
          t.phase = .serving ∧ t.state.pending = none) Never := by
  have hlabels : (openedLabels sha256 p pairs).length = bits.length := by
    simp [openedLabels, hbits]
  -- The opened labels are those of the bits, so the evaluation ends at the label of the decision.
  rcases hgarbles.evaluates _ hlabels fun i hi => by
    rw [getElem?_openedLabels (hbits ▸ hi), hopened i (hbits ▸ hi)] with ⟨all, heval, hout⟩
  rw [hbits, ← hcircuit] at heval
  have hgates : garbled.tables.length = p.circuit.andGates.length := by
    rw [hcircuit, hgarbles.gates]
  have htables : garbled.tables.length ≤ 32 := by
    have hle := predicateCircuit_gates hgarbles.circuit
    rw [hgarbles.gates]
    omega
  have hout' : all.getD p.circuit.output 0 =
      FreeXor.label (garbled.zero.getD garbled.circuit.output 0) garbled.delta
        (predicateBit context.predicateType hasIncumbent bits) := by
    rw [hcircuit, hout]
  have hdecided := evaluateFused_finishBytes sha256 p hcontext hp (by omega) hgates (by omega)
    hgarbles.rows heval hgarbles.odd hout'
  have hframe := length_finishBytes hcontext.fields hmax htables hgarbles.rows
    (garbled.zero.getD garbled.circuit.output 0)
    (labelXor (garbled.zero.getD garbled.circuit.output 0) garbled.delta)
  refine ⟨_, fusedFinishRequest_eq hcontext.fields _ garbled, ?_⟩
  refine Csp.requestPayload_answers (Q := fun s => s.pending = none) sha256 hphase hsend hframe.2
    (fun hQ => absurd (Option.some.inj hQ) (by decide)) (by rw [maxFrame]; simp) ?_
  rw [Csp.answer_finish sha256 rfl finishEnv]
  exact Csp.finishFused_accepts sha256 hpending
    ⟨hframe.1, typeByte_range hcontext.type, rfl, rfl⟩ hdecided

/-! ## The run -/

/-- The CSP opens the labels of the comparisons. -/
theorem opened_compared (hwide : 3072 ≤ sizeInBase2 parties.modulus)
    (hitems : Operands parties items xs) {plain : List Nat} (garbled : GarbledPredicate)
    (hplain : Entries items.length plain fun i p => p = (maskedValue parties (xs.getD i (0, 0)).1
      (xs.getD i (0, 0)).2 (draws.compare i) % parties.modulus).toNat) {i : Nat}
    (hi : i < items.length) :
    let start := parties.startOf ot context hasIncumbent items.length ds shares draws
    let values := parties.csp.transferValues start plain fun i => (key i).value
    opened sha256 (parties.csp.transcript start c plain fun i => (key i).value)
        (parties.transferPair sha256 ot garbled draws (values.getD i 0) i) i =
      FreeXor.label (garbled.zero.getD i 0) garbled.delta ((compared xs).getD i false) := by
  intro start values
  have hchoice :
      (parties.csp.transcript start c plain fun i => (key i).value).choices.getD i false =
      parties.csp.choiceOf (plain.getD i 0) := getD_tabulate _ hi _
  have hkey : (parties.csp.transcript start c plain fun i => (key i).value).keys.getD i 0 =
      (key i).value := getD_tabulate _ hi _
  -- The CSP has hidden its key under the value of its choice.
  have hvalue : values.getD i 0 = Csp.transferValue ot.n
      ⟨0, 0, (draws.x0 i).value, (draws.x1 i).value⟩ (parties.csp.choiceOf (plain.getD i 0))
        (key i).value := by
    have hitem : start.items.getD i default =
        ⟨ds.getD i 0, shares.getD i 0, (draws.x0 i).value, (draws.x1 i).value⟩ :=
      getD_tabulate _ hi _
    have hread : values.getD i 0 = Csp.transferValue ot.n (start.items.getD i default)
        ((tabulate items.length fun i => parties.csp.choiceOf (plain.getD i 0)).getD i false)
          (key i).value := getD_tabulate _ hi _
    rw [hread, hitem, getD_tabulate _ hi]
    rfl
  have hop := hitems.entries hi
  have hbit : (compared xs).getD i false =
      decide ((xs.getD i (0, 0)).2 < (xs.getD i (0, 0)).1) := by
    have hlt : i < xs.length := (List.Forall₂.length_eq hitems) ▸ hi
    rw [compared, List.getD_eq_getElem _ _ (by simpa using hlt), List.getElem_map,
      List.getD_eq_getElem _ _ hlt]
  rw [opened_transferPair parties sha256 ot garbled draws hchoice hkey (key i).lt hvalue,
    hplain.getD hi 0, choiceOf_difference hwide hop.1.2 hop.2.2, hbit]

theorem fusedExchange_spec (h : parties.DecryptsCorrectly)
    (hwide : 3072 ≤ sizeInBase2 parties.modulus) (hsize : sizeInBase2 parties.modulus ≤ 8192)
    (hcontext : Usable context)
    (hmeets : Meets parties.csp ot context server key startEnv finishEnv)
    (hitems : Operands parties items xs)
    (hn : 1 ≤ items.length ∧ items.length ≤ thresholdMaxBatchSize)
    (hcircuit : predicateCircuit context.predicateType items.length hasIncumbent = .ok c) :
    Triple (fun t => t = server)
      (parties.fusedExchange sha256 ot context items hasIncumbent draws startEnv finishEnv)
      (fun r t => r = predicateBit context.predicateType hasIncumbent (compared xs) ∧
        t.phase = .serving ∧ t.state.pending = none) Never := by
  have hmod := one_lt_modulus hwide
  have hmax : items.length ≤ 32 := hn.2
  rcases maskedDifferences_spec h hwide "invalid fused SCMP ciphertext" hitems hn draws.compare
    draws.masks with ⟨ds, shares, hmasked, hds, hshares⟩
  have hfits := otItems_fit draws h hmod hsize hds hshares
  have hlen : (parties.otItems ot items.length ds shares draws).length = items.length := by
    simp [otItems, tabulate]
  rcases start_answered sha256 draws h hmod hsize hcontext hmeets hn hcircuit hds hshares with
    ⟨plain, hplain, hstart⟩
  refine Triple.lift_bind hmasked ?_
  refine Triple.lift_bind (fusedStartRequest_eq ot hasIncumbent hcontext.fields
    (hlen.le.trans hmax) hfits) ?_
  refine hstart.bind fun reply => Triple.of_each fun mid hmid => ?_
  rcases hmid with ⟨rfl, hphase, hpending⟩
  let start := parties.startOf ot context hasIncumbent items.length ds shares draws
  let values := parties.csp.transferValues start plain fun i => (key i).value
  have hvalues : values.length = items.length := (List.length_map _).trans List.length_range
  have hwritable : ∀ v ∈ values, Writable v := fun v hv => Short.writable
    ((exportedSize_mono (transferValues_lt ot.n_pos v hv).le).trans ot.short.1)
  have hread : fusedStartReply items.length
      (writeU32 items.length ++ values.flatMap integerBytes) = .ok values := by
    rw [← hvalues]
    exact fusedStartReply_readsBack hwritable (by omega)
  -- the garbled circuit is the one that the CSP has built
  have hcompared : (compared xs).length = items.length :=
    (List.length_map _).trans (List.Forall₂.length_eq hitems).symm
  have hne : compared xs ≠ [] := List.length_pos_iff.1 (by omega)
  rw [← hcompared] at hcircuit
  obtain ⟨garbled, hgarbled, hgarbles⟩ : ∃ g, garblePredicate sha256 context.predicateType
      (compared xs).length hasIncumbent draws.delta draws.labels = .ok g ∧
        Garbles sha256 context.predicateType hasIncumbent (compared xs) g :=
    garblePredicate_spec hne hcircuit draws.delta draws.labels
  have hsame : c = garbled.circuit := Except.ok.inj (hcircuit.symm.trans hgarbles.circuit)
  rw [hcompared] at hgarbled
  let pairs := tabulate items.length fun i =>
    parties.transferPair sha256 ot garbled draws (values.getD i 0) i
  have hpairs : pairs.length = items.length := (List.length_map _).trans List.length_range
  have hheader : (parties.csp.transcript start c plain fun i => (key i).value).header =
      headerOf context pairs.length := by
    rw [hpairs]
    simp [PendingFused.header, Csp.transcript, headerOf, tabulate, start]
  rcases finish_answered hcontext hphase hmeets.finishSends hpending hheader hsame
    (hpairs.le.trans hmax) (hcompared.trans hpairs.symm) hgarbles (fun i hi => by
      rw [hpairs] at hi
      rw [getD_tabulate _ hi]
      exact opened_compared hwide hitems garbled hplain hi) with ⟨request, hrequest, hfinish⟩
  refine Triple.lift_bind hread (Triple.lift_bind hgarbled (Triple.lift_bind hrequest ?_))
  refine hfinish.bind fun decision => Triple.of_each fun last hlast => ?_
  rcases hlast with ⟨rfl, hidle⟩
  refine require_at (fun _ => pure_at ⟨?_, hidle⟩) fun hno => absurd ?_ hno
  · cases predicateBit context.predicateType hasIncumbent (compared xs) <;> rfl
  · cases predicateBit context.predicateType hasIncumbent (compared xs) <;>
      exact ⟨rfl, by decide⟩

theorem rethrown_never {σ α : Type} {error : Error} {m : EStateM Error σ α} {P : σ → Prop}
    {Q : α → σ → Prop} (h : Triple P m Q Never) : Triple P (rethrown error m) Q Never := by
  intro s hs
  rcases h.returns hs with ⟨a, s', hrun, hQ⟩
  rw [rethrown, hrun]
  exact hQ

theorem fusedPredicate_spec (h : parties.DecryptsCorrectly)
    (hwide : 3072 ≤ sizeInBase2 parties.modulus) (hsize : sizeInBase2 parties.modulus ≤ 8192)
    (hcontext : Usable context)
    (hmeets : Meets parties.csp ot context server key startEnv finishEnv)
    (hitems : Operands parties items xs)
    (hn : 1 ≤ items.length ∧ items.length ≤ thresholdMaxBatchSize)
    (hcircuit : predicateCircuit context.predicateType items.length hasIncumbent = .ok c) :
    Triple (fun t => t = server)
      (parties.fusedPredicate sha256 ot context items hasIncumbent draws startEnv finishEnv)
      (fun r t => r = predicateBit context.predicateType hasIncumbent (compared xs) ∧
        t.phase = .serving ∧ t.state.pending = none) Never := by
  refine (Triple.require_of hn).bind fun _ => rethrown_never ?_
  exact fusedExchange_spec h hwide hsize hcontext hmeets hitems hn hcircuit

end Parties

end Protocol
end SociSgx

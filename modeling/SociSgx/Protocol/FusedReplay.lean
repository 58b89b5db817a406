import SociSgx.Protocol.FusedRuns

/-!
# FusedReplay — the key of a consumed pair

The CSP keeps one string for each consumed pair: the session, a zero byte, the operation.  A context
string may hold zero bytes itself, so the string does not always tell the pair.  It does unless the
first zero byte of the one pair stands inside the session of the other.
-/

namespace SociSgx
namespace Protocol

open Exec Histories

/-! ## Keys -/

/-- The key of `p` is also split at a later zero byte, and gives `q`. -/
def Straddles (p q : Bytes × Bytes) : Prop :=
  ∃ t : Bytes, q.1 = p.1 ++ 0 :: t ∧ p.2 = t ++ 0 :: q.2

theorem pairKey_eq_iff {p q : Bytes × Bytes} :
    pairKey p = pairKey q ↔ p = q ∨ Straddles p q ∨ Straddles q p := by
  rcases p with ⟨session, operation⟩
  rcases q with ⟨session', operation'⟩
  constructor
  · intro h
    rcases List.append_eq_append_iff.1 h with ⟨t, hsession, hrest⟩ | ⟨t, hsession, hrest⟩
    · cases t with
      | nil =>
          refine Or.inl (Prod.ext ?_ (List.cons.inj hrest).2)
          exact (hsession.trans (List.append_nil session)).symm
      | cons b t =>
          rcases List.cons.inj hrest with ⟨rfl, hoperation⟩
          exact Or.inr (Or.inl ⟨t, hsession, hoperation⟩)
    · cases t with
      | nil =>
          refine Or.inl (Prod.ext ?_ (List.cons.inj hrest).2.symm)
          exact hsession.trans (List.append_nil session')
      | cons b t =>
          rcases List.cons.inj hrest with ⟨rfl, hoperation⟩
          exact Or.inr (Or.inr ⟨t, hsession, hoperation⟩)
  · rintro (h | ⟨t, hsession, hoperation⟩ | ⟨t, hsession, hoperation⟩)
    · exact congrArg pairKey h
    · change session ++ 0 :: operation = session' ++ 0 :: operation'
      dsimp only at hsession hoperation
      rw [hsession, hoperation, List.append_assoc, List.cons_append]
    · change session ++ 0 :: operation = session' ++ 0 :: operation'
      dsimp only at hsession hoperation
      rw [hsession, hoperation, List.append_assoc, List.cons_append]

/-- Identifiers without a zero byte, as the predicate engine requires them, have their own keys. -/
theorem not_straddles {p q : Bytes × Bytes} (h : 0 ∉ q.1) : ¬ Straddles p q := by
  rintro ⟨t, hsession, -⟩
  refine h ?_
  rw [hsession]
  exact List.mem_append_right _ List.mem_cons_self

/-! ## Refused frames -/

section

variable (csp : Csp) (sha256 : Bytes → Label)

/-- The server refuses the frame as a replay. -/
def Refuses (server : Server) (request : Bytes) (env : Surroundings csp.modulus) : Prop :=
  ∃ session operation, (server.step csp sha256 (.frame (.ok request) env)).state.events =
    server.state.events ++ [.received request] ++ [.refused session operation] ++
      [.rejected (Error.backend "fused predicate replay")]

/-- A well-formed fused start, on an open connection without a pending transcript. -/
structure Presents (server : Server) (request : Bytes) (start : FusedStart) : Prop where
  phase : server.phase = .serving
  idle : Csp.StartHead server.state.pending request
  frame : StartFrame request start

variable {csp sha256} {server : Server} {request : Bytes} {start : FusedStart} {s : CspState}

theorem startFused_refuses (hidle : Csp.StartHead s.pending request)
    (hparsed : parseFusedStart request = .ok start) (hkey : start.header.key ∈ s.replays)
    (draw : Except Error (Nat → Nat)) :
    Triple (fun t => t = s) (csp.startFused request draw) (fun _ _ => False) fun e t =>
      e = Error.backend "fused predicate replay" ∧
        t = s.note (.refused start.header.session start.header.operation) := by
  refine get_at (require_at (fun _ => ?_) fun hnot => absurd hidle hnot)
  refine lift_at (fun start' hstart => ?_) fun e he => ?_
  · cases hparsed.symm.trans hstart
    dsimp only
    unfold Csp.consume
    simp only [bind_assoc]
    refine get_at ?_
    have hmem : Csp.replayKey start.header.session start.header.operation ∈ s.replays := hkey
    rw [if_pos (List.contains_iff_mem.2 hmem)]
    simp only [bind_assoc]
    exact modify_at (throw_bind_at ⟨rfl, rfl⟩)
  · cases hparsed.symm.trans he

theorem answer_start (csp : Csp) (sha256 : Bytes → Label)
    (hhead : request.head? = some (byteOf 'F')) (env : Surroundings csp.modulus) :
    csp.answer sha256 request env = csp.startFused request env.keys := by
  cases request with
  | nil => cases hhead
  | cons operation rest => exact if_pos (Option.some.inj hhead)

theorem startFused_busy (hbusy : ¬ Csp.StartHead s.pending request)
    (draw : Except Error (Nat → Nat)) :
    Triple (fun t => t = s) (csp.startFused request draw) (fun _ _ => False) fun e t =>
      e = Error.backend "invalid fused predicate start" ∧ t = s :=
  get_at (require_at (fun hidle => absurd hidle hbusy) fun _ => ⟨rfl, rfl⟩)

/-- A start that throws ends the round. -/
theorem serve_start {E : Error → CspState → Prop} (hhead : request.head? = some (byteOf 'F'))
    (env : Surroundings csp.modulus)
    (h : Triple (fun t => t = s.note (.received request)) (csp.startFused request env.keys)
      (fun _ _ => False) E) :
    Triple (fun t => t = s) (csp.serve sha256 (.ok request) env) (fun _ _ => False) E := by
  refine lift_at (fun request' hrequest => ?_) fun e he => nomatch he
  cases hrequest
  rw [answer_start csp sha256 hhead]
  refine modify_at (h.bind fun reply => ?_)
  exact fun t ht => ht.elim

theorem step_of_serve (sha256 : Bytes → Label) {env : Surroundings csp.modulus} {e : Error}
    {t : CspState} (h : Triple (fun t => t = s) (csp.serve sha256 (.ok request) env)
      (fun _ _ => False) fun e' t' => e' = e ∧ t' = t) :
    Server.step csp sha256 ⟨.serving, s⟩ (.frame (.ok request) env) = Server.reject e t := by
  rcases h.run rfl with ⟨_, _, _, hfalse⟩ | ⟨e', t', hrun, rfl, rfl⟩
  · exact hfalse.elim
  · simp only [Server.step, hrun]

/-- What is refused is a fused start, and its key was there. -/
theorem refuses_reason (hsound : server.Sound) (hparsed : parseFusedStart request = .ok start)
    {env : Surroundings csp.modulus} (h : Refuses csp sha256 server request env) :
    StartFrame request start ∧
      start.header.key ∈ (consumedPairs server.state.events).map pairKey := by
  rcases h with ⟨session, operation, hevents⟩
  have hreasons :=
    ((Server.step_round csp sha256 server (.frame (.ok request) env)).sound hsound).state.reasons
  rw [hevents] at hreasons
  rcases hreasons.init.last with ⟨⟨request', start', hlast, hframe, hpair⟩, hkey⟩
  rw [List.getLast?_concat] at hlast
  cases hlast
  cases hparsed.symm.trans hframe.parsed
  rw [consumedPairs_concat _ _ (by simp), ← hpair] at hkey
  exact ⟨hframe, hkey⟩

/-- Only a start that finds no transcript is looked up. -/
theorem presents_of_refuses (hframe : StartFrame request start) {env : Surroundings csp.modulus}
    (h : Refuses csp sha256 server request env) : Presents server request start := by
  rcases h with ⟨session, operation, hevents⟩
  rcases server with ⟨phase, s⟩
  have hserving : phase = .serving := by
    cases phase with
    | serving => rfl
    | waiting => simp [Server.step] at hevents
    | stopped => simp [Server.step] at hevents
  subst hserving
  refine ⟨rfl, by_contra fun hbusy => ?_, hframe⟩
  rw [step_of_serve sha256 (serve_start hframe.head env
    (startFused_busy (s := s.note (.received request)) hbusy env.keys))] at hevents
  simp [Server.reject] at hevents

theorem refuses_iff (hsound : server.Sound) (hpresents : Presents server request start)
    (env : Surroundings csp.modulus) : Refuses csp sha256 server request env ↔
      start.header.key ∈ (consumedPairs server.state.events).map pairKey := by
  refine ⟨fun h => (refuses_reason hsound hpresents.frame.parsed h).2, fun hkey => ?_⟩
  have hmem := (hsound.state.mem_replays _).2 hkey
  rcases server with ⟨phase, s⟩
  have hserving : phase = .serving := hpresents.phase
  subst hserving
  refine ⟨start.header.session, start.header.operation, ?_⟩
  rw [step_of_serve sha256 (serve_start hpresents.frame.head env
    (startFused_refuses (s := s.note (.received request)) hpresents.idle hpresents.frame.parsed
      hmem env.keys))]
  rfl

end

/-! ## Whole runs -/

section

variable (csp : Csp) (sha256 : Bytes → Label)

/-- Whenever a fused start is refused as a replay, its own pair was consumed before. -/
def ReplaysTrue (inputs : List (Input csp.modulus)) : Prop :=
  ∀ before request env after start, inputs = before ++ .frame (.ok request) env :: after →
    parseFusedStart request = .ok start →
      Refuses csp sha256 (Server.run csp sha256 before) request env →
        start.header.pair ∈ consumedPairs (Server.history csp sha256 before)

/-- No fused start meets a key that another pair has left. -/
def Separate (inputs : List (Input csp.modulus)) : Prop :=
  ∀ before request env after start, inputs = before ++ .frame (.ok request) env :: after →
    Presents (Server.run csp sha256 before) request start →
      start.header.pair ∈ consumedPairs (Server.history csp sha256 before) ∨
        ∀ p ∈ consumedPairs (Server.history csp sha256 before),
          ¬ Straddles p start.header.pair ∧ ¬ Straddles start.header.pair p

theorem replays_true_iff (inputs : List (Input csp.modulus)) :
    ReplaysTrue csp sha256 inputs ↔ Separate csp sha256 inputs := by
  constructor
  · intro htrue before request env after start hinputs hpresents
    by_cases hmem : start.header.pair ∈ consumedPairs (Server.history csp sha256 before)
    · exact Or.inl hmem
    · have hunseen := fun hkey => hmem (htrue before request env after start hinputs
        hpresents.frame.parsed ((refuses_iff (Server.run_sound csp sha256 before) hpresents env).2
          hkey))
      refine Or.inr fun p hp => ⟨fun hstraddles => hunseen ?_, fun hstraddles => hunseen ?_⟩
      · exact List.mem_map.2 ⟨p, hp, pairKey_eq_iff.2 (Or.inr (Or.inl hstraddles))⟩
      · exact List.mem_map.2 ⟨p, hp, pairKey_eq_iff.2 (Or.inr (Or.inr hstraddles))⟩
  · intro hseparate before request env after start hinputs hparsed hrefuses
    have hsound := Server.run_sound csp sha256 before
    rcases refuses_reason hsound hparsed hrefuses with ⟨hframe, hkeys⟩
    rcases hseparate before request env after start hinputs
      (presents_of_refuses hframe hrefuses) with hmem | hapart
    · exact hmem
    · rcases List.mem_map.1 hkeys with ⟨p, hp, hkey⟩
      rcases pairKey_eq_iff.1 hkey with rfl | hstraddles | hstraddles
      · exact hp
      · exact absurd hstraddles (hapart p hp).1
      · exact absurd hstraddles (hapart p hp).2

end

/-! ## Two pairs with one key -/

/-- A start of `PRUNE_NODE` without an incumbent, whose one comparison has an invalid ciphertext. -/
def sampleStart (session operation : Bytes) : Bytes :=
  let field (value : Bytes) := writeU32 value.length ++ value
  [byteOf 'F', 1, 0, 0] ++ writeU32 0 ++ field session ++ field operation ++ field (ascii "n") ++
    writeU32 1 ++ field (0x80 :: List.replicate 383 0) ++ field [1, 0, 1] ++ field [0] ++
    field [0] ++ field [1] ++ field [1]

def sampleSurroundings : Surroundings 15 where
  keys := .error (Error.backend "getrandom CSPRNG failure")
  nonces := .error (Error.backend "getrandom CSPRNG failure")
  timings := fun _ => 0
  elapsed := 0
  send := fun _ => .ok ()

def sampleCsp : Csp where
  modulus := 15
  key := { n := 15, lambdaZ := 0, mu := 1 }

/-- The first start consumes (`a` NUL `b`, `c`) and fails; (`a`, `b` NUL `c`) has the same key. -/
def sampleInputs : List (Input 15) :=
  [.connect (.ok ()),
    .frame (.ok (sampleStart [97, 0, 98] [99])) sampleSurroundings,
    .connect (.ok ()),
    .frame (.ok (sampleStart [97] [98, 0, 99])) sampleSurroundings]

theorem refused_but_never_consumed : ¬ ReplaysTrue sampleCsp (fun _ => 0) sampleInputs := by
  intro htrue
  have hpair : (parseFusedStart (sampleStart [97] [98, 0, 99])).toOption.map (·.header.pair) =
      some ([97], [98, 0, 99]) := by decide +kernel
  rcases Option.map_eq_some_iff.1 hpair with ⟨start, hstart, hsame⟩
  have hparsed : parseFusedStart (sampleStart [97] [98, 0, 99]) = .ok start := by
    cases hcase : parseFusedStart (sampleStart [97] [98, 0, 99]) with
    | error e =>
        rw [hcase] at hstart
        cases hstart
    | ok start' =>
        rw [hcase] at hstart
        cases hstart
        rfl
  have hrefuses : Refuses sampleCsp (fun _ => 0)
      (Server.run sampleCsp (fun _ => 0) (sampleInputs.take 3)) (sampleStart [97] [98, 0, 99])
      sampleSurroundings := ⟨[97], [98, 0, 99], by decide +kernel⟩
  have hmem := htrue (sampleInputs.take 3) _ _ [] start rfl hparsed hrefuses
  have hconsumed : consumedPairs (Server.history sampleCsp (fun _ => 0) (sampleInputs.take 3)) =
      [([97, 0, 98], [99])] := by decide +kernel
  rw [hsame, hconsumed] at hmem
  exact absurd hmem (by decide)

end Protocol
end SociSgx

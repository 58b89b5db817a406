import SociSgx.Lib.Histories
import SociSgx.Protocol.CspServer

/-!
# FusedRuns — what holds in every run of the CSP

`Change` says once what a request can do to the consumed pairs, the pending transcript and the
events.  The invariant of all runs follows from it: every decryption of a fused predicate belongs to
a pair that was consumed for the first time, and every decision to the transcript that is pending.
-/

namespace SociSgx
namespace Protocol

open Exec Histories

/-- Between the two frames of a predicate, requests are received and nothing else happens. -/
def Event.Quiet (event : Event) : Prop :=
  ∃ request, event = .received request

/-- The pairs that were consumed, in order. -/
def consumedPairs (events : List Event) : List (Bytes × Bytes) :=
  events.filterMap fun event =>
    match event with
    | .consumed session operation => some (session, operation)
    | _ => none

def pairKey (pair : Bytes × Bytes) : Bytes :=
  Csp.replayKey pair.1 pair.2

def FusedHeader.pair (header : FusedHeader) : Bytes × Bytes :=
  (header.session, header.operation)

def FusedHeader.key (header : FusedHeader) : Bytes :=
  pairKey header.pair

/-! ## What a request can do -/

/-- A fused start that was parsed. -/
structure StartFrame (request : Bytes) (start : FusedStart) : Prop where
  head : request.head? = some (byteOf 'F')
  parsed : parseFusedStart request = .ok start

/-- What becomes of the consumed pairs, the pending transcript and the events. -/
inductive Change (request : Bytes) (s : CspState) : CspState → Prop where
  | nothing : Change request s s
  | refused {start : FusedStart} (hpending : s.pending = none) (hframe : StartFrame request start)
      (hkey : start.header.key ∈ s.replays) :
      Change request s
        { s with events := s.events ++ [.refused start.header.session start.header.operation] }
  | consumed {start : FusedStart} (hpending : s.pending = none) (hframe : StartFrame request start)
      (hkey : start.header.key ∉ s.replays) :
      Change request s { s with
        replays := start.header.key :: s.replays
        events := s.events ++ [.consumed start.header.session start.header.operation] }
  | decrypted {start : FusedStart} (hpending : s.pending = none)
      (hframe : StartFrame request start) (hkey : start.header.key ∉ s.replays) :
      Change request s { s with
        replays := start.header.key :: s.replays
        events := s.events ++ [.consumed start.header.session start.header.operation] ++
          [.decrypts start.header.session start.header.operation] }
  | started {start : FusedStart} {p : PendingFused} (hpending : s.pending = none)
      (hframe : StartFrame request start) (hkey : start.header.key ∉ s.replays)
      (hp : p.header = start.header) :
      Change request s {
        pending := some p
        replays := start.header.key :: s.replays
        events := s.events ++ [.consumed start.header.session start.header.operation] ++
          [.decrypts start.header.session start.header.operation] ++
          [.started request start.header] }
  | dropped {p : PendingFused} (hpending : s.pending = some p) :
      Change request s { s with pending := none }
  | decided {p : PendingFused} {offset : Nat} {decision : Bool} (hpending : s.pending = some p)
      (hhead : request.head? = some (byteOf 'G'))
      (hparsed : parseFinishHeader request = .ok (p.header, offset)) :
      Change request s { s with
        pending := none
        events := s.events ++ [.decided request p.header decision] }

/-- A program that does what a request can do, and may throw behind it. -/
def Changes {α : Type} (request : Bytes) (s : CspState) (m : CspM α) : Prop :=
  Triple (fun t => t = s) m (fun _ => Change request s) fun _ => Change request s

theorem throw_bind_at {α β : Type} {e : Error} {f : α → CspM β} {s : CspState}
    {Q : β → CspState → Prop} {E : Error → CspState → Prop} (h : E e s) :
    Triple (fun t => t = s) ((throw e : CspM α) >>= f) Q E := by
  intro t ht
  subst ht
  exact h

/-- A decision is about the context of the transcript. -/
theorem evaluateFused_header {sha256 : Bytes → Label} {p : PendingFused} {request : Bytes}
    {header : FusedHeader} {decision : Bool}
    (h : Csp.evaluateFused sha256 p request = .ok (header, decision)) :
    header = p.header ∧ ∃ offset, parseFinishHeader request = .ok (header, offset) := by
  rcases bind_eq_ok.1 h with ⟨⟨parsed, offset⟩, hparsed, h⟩
  rcases bind_eq_ok.1 h with ⟨_, hcontext, h⟩
  rcases bind_eq_ok.1 h with ⟨_, hshape, h⟩
  rcases bind_eq_ok.1 h with ⟨⟨inputs, offset₁⟩, _, h⟩
  rcases bind_eq_ok.1 h with ⟨⟨tables, offset₂⟩, _, h⟩
  rcases bind_eq_ok.1 h with ⟨⟨out0, offset₃⟩, _, h⟩
  rcases bind_eq_ok.1 h with ⟨⟨out1, offset₄⟩, _, h⟩
  rcases bind_eq_ok.1 h with ⟨_, _, h⟩
  rcases bind_eq_ok.1 h with ⟨labels, _, h⟩
  rcases ensure_eq_ok.1 hcontext with ⟨hsession, hoperation, htype, hdepth, hnode, _⟩
  rcases ensure_eq_ok.1 hshape with ⟨hcount, _⟩
  have hsame : parsed = p.header := by
    rcases parsed with ⟨session, operation, node, type, depth, count⟩
    exact FusedHeader.mk.injEq .. |>.mpr ⟨hsession, hoperation, hnode, htype, hdepth, hcount⟩
  have hheader : parsed = header := by
    dsimp only at h
    split at h
    · cases h
      rfl
    · split at h
      · cases h
        rfl
      · cases h
  exact ⟨hheader ▸ hsame, offset, hheader ▸ hparsed⟩

section

variable (csp : Csp) (sha256 : Bytes → Label) (s : CspState) (request : Bytes)

theorem startFused_changes (hhead : request.head? = some (byteOf 'F'))
    (draw : Except Error (Nat → Nat)) : Changes request s (csp.startFused request draw) := by
  refine get_at (require_at (fun hc => ?_) fun _ => .nothing)
  have hpending : s.pending = none := hc.1
  refine lift_at (fun start hstart => ?_) fun _ _ => .nothing
  dsimp only
  unfold Csp.consume
  simp only [bind_assoc]
  refine get_at ?_
  by_cases hkey : Csp.replayKey start.header.session start.header.operation ∈ s.replays
  · rw [if_pos (List.contains_iff_mem.2 hkey)]
    simp only [bind_assoc]
    exact modify_at (throw_bind_at (.refused hpending ⟨hhead, hstart⟩ hkey))
  · rw [if_neg (mt List.contains_iff_mem.1 hkey)]
    simp only [bind_assoc]
    refine modify_at (modify_at ?_)
    refine lift_at (fun circuit _ => ?_) fun _ _ => .consumed hpending ⟨hhead, hstart⟩ hkey
    refine modify_at ?_
    refine lift_at (fun plain _ => ?_) fun _ _ =>
      .decrypted hpending ⟨hhead, hstart⟩ hkey
    refine lift_at (fun key _ => ?_) fun _ _ =>
      .decrypted hpending ⟨hhead, hstart⟩ hkey
    refine lift_at (fun reply _ => ?_) fun _ _ =>
      .decrypted hpending ⟨hhead, hstart⟩ hkey
    refine modify_at (modify_at (pure_at ?_))
    refine .started hpending ⟨hhead, hstart⟩ hkey ?_
    simp [PendingFused.header, tabulate]

theorem finishFused_changes (hhead : request.head? = some (byteOf 'G')) :
    Changes request s (Csp.finishFused sha256 request) := by
  refine get_at ?_
  cases hpending : s.pending with
  | none => exact throw_at .nothing
  | some p =>
      refine require_at (fun _ => ?_) fun _ => .nothing
      refine modify_at ?_
      refine lift_at (fun outcome houtcome => ?_) fun _ _ => .dropped hpending
      refine modify_at (pure_at ?_)
      rcases outcome with ⟨header, decision⟩
      rcases evaluateFused_header houtcome with ⟨rfl, offset, hparsed⟩
      exact .decided hpending hhead hparsed

theorem changes_lift {α : Type} (x : Except Error α) : Changes request s (lift x) :=
  Triple.lift (fun _ _ _ hs => hs ▸ .nothing) fun _ _ _ hs => hs ▸ .nothing

/-- Frames `F` and `G` are the only ones that do anything. -/
theorem answer_changes (env : Surroundings csp.modulus) :
    Changes request s (csp.answer sha256 request env) := by
  cases request with
  | nil => exact throw_at .nothing
  | cons operation rest =>
      unfold Csp.answer
      dsimp only
      by_cases hF : operation = byteOf 'F'
      · rw [if_pos hF]
        exact startFused_changes csp s (operation :: rest) (congrArg some hF) env.keys
      · rw [if_neg hF]
        by_cases hG : operation = byteOf 'G'
        · rw [if_pos hG]
          exact finishFused_changes sha256 s (operation :: rest) (congrArg some hG)
        · rw [if_neg hG]
          split
          · exact changes_lift s (operation :: rest) _
          · split
            · exact changes_lift s (operation :: rest) _
            · split
              · exact changes_lift s (operation :: rest) _
              · exact changes_lift s (operation :: rest) _

end

/-! ## What a round can do -/

/-- `s` with one more event. -/
abbrev CspState.note (s : CspState) (event : Event) : CspState :=
  { s with events := s.events ++ [event] }

/-- One step of the server. -/
inductive Round (server : Server) : Server → Prop where
  | ignored : Round server server
  | connected (hphase : server.phase = .waiting) :
      Round server { phase := .serving, state := server.state.note .connected }
  | refusedConnection {e : Error} (hphase : server.phase = .waiting) :
      Round server (Server.reject e (server.state.note .connected))
  | lost {e : Error} (hphase : server.phase = .serving) :
      Round server (Server.reject e server.state)
  | served {request : Bytes} {s : CspState} (hphase : server.phase = .serving)
      (hchange : Change request (server.state.note (.received request)) s) :
      Round server { phase := .serving, state := s }
  | ended {request : Bytes} {s : CspState} (hphase : server.phase = .serving)
      (hchange : Change request (server.state.note (.received request)) s) :
      Round server { phase := .stopped, state := { s with pending := none }.note .stopped }
  | failed {request : Bytes} {s : CspState} {e : Error} (hphase : server.phase = .serving)
      (hchange : Change request (server.state.note (.received request)) s) :
      Round server (Server.reject e s)

/-- How a round of the inner loop leaves the state. -/
theorem serve_spec (csp : Csp) (sha256 : Bytes → Label) (s : CspState)
    (frame : Except Error Bytes) (env : Surroundings csp.modulus) :
    Triple (fun t => t = s) (csp.serve sha256 frame env)
      (fun ends t => ∃ request u, Change request (s.note (.received request)) u ∧
        t = if ends then { u with pending := none }.note .stopped else u)
      (fun _ t => t = s ∨ ∃ request, Change request (s.note (.received request)) t) := by
  refine lift_at (fun request _ => ?_) fun _ _ => Or.inl rfl
  refine modify_at ((answer_changes csp sha256 _ request env).weaken (fun _ h => h)
    (fun _ _ h => h) (fun _ _ h => Or.inr ⟨request, h⟩) |>.bind fun reply u hu => ?_)
  have hsent : Triple (fun t => t = u) (do
      lift (env.send reply)
      if request.head? = some (byteOf 'Q') then
        modify fun s => { s with pending := none }
        emit .stopped
        return true
      else
        return false)
      (fun ends t => ∃ request u, Change request (s.note (.received request)) u ∧
        t = if ends then { u with pending := none }.note .stopped else u)
      (fun _ t => t = s ∨ ∃ request, Change request (s.note (.received request)) t) := by
    refine lift_at (fun _ _ => ?_) fun _ _ => Or.inr ⟨request, hu⟩
    split
    · exact modify_at (modify_at (pure_at ⟨request, u, hu, rfl⟩))
    · exact pure_at ⟨request, u, hu, rfl⟩
  exact hsent u rfl

theorem Server.step_round (csp : Csp) (sha256 : Bytes → Label) (server : Server)
    (input : Input csp.modulus) : Round server (server.step csp sha256 input) := by
  rcases server with ⟨phase, state⟩
  cases input with
  | connect noDelay =>
      cases phase with
      | waiting =>
          cases noDelay with
          | ok u => exact .connected rfl
          | error e => exact .refusedConnection rfl
      | serving => exact .ignored
      | stopped => exact .ignored
  | frame frame env =>
      cases phase with
      | waiting => exact .ignored
      | stopped => exact .ignored
      | serving =>
          rcases (serve_spec csp sha256 state frame env).run rfl with
            ⟨ends, t, hrun, request, u, hchange, rfl⟩ | ⟨e, t, hrun, rfl | ⟨request, hchange⟩⟩
          · simp only [Server.step, hrun]
            cases ends with
            | false => exact .served rfl hchange
            | true => exact .ended rfl hchange
          · simp only [Server.step, hrun]
            exact .lost rfl
          · simp only [Server.step, hrun]
            exact .failed rfl hchange

/-! ## The invariant -/

/-- The last thing that was not only a received request is the start of this predicate. -/
def Opened (events : List Event) (header : FusedHeader) : Prop :=
  ∃ i request, events[i]? = some (.started request header) ∧ Since Event.Quiet events i

/-- The last request was a fused start of this pair. -/
def FromFrame (before : List Event) (pair : Bytes × Bytes) : Prop :=
  ∃ request start, before.getLast? = some (.received request) ∧ StartFrame request start ∧
    start.header.pair = pair

/-- The reason of an event in the events before it. -/
def Reason (before : List Event) : Event → Prop
  | .refused session operation => FromFrame before (session, operation) ∧
      pairKey (session, operation) ∈ (consumedPairs before).map pairKey
  | .consumed session operation => FromFrame before (session, operation) ∧
      pairKey (session, operation) ∉ (consumedPairs before).map pairKey
  | .decrypts session operation => before.getLast? = some (.consumed session operation)
  | .started request header => ∃ start, StartFrame request start ∧ start.header = header
  | .decided request header _ => Opened before header ∧
      before.getLast? = some (.received request) ∧ request.head? = some (byteOf 'G') ∧
        ∃ offset, parseFinishHeader request = .ok (header, offset)
  | _ => True

structure Sound (s : CspState) : Prop where
  keys : s.replays = ((consumedPairs s.events).map pairKey).reverse
  reasons : Each Reason s.events
  pending : ∀ p, s.pending = some p → Opened s.events p.header

theorem consumedPairs_concat (events : List Event) (event : Event)
    (h : ∀ session operation, event ≠ .consumed session operation) :
    consumedPairs (events ++ [event]) = consumedPairs events := by
  rw [consumedPairs, List.filterMap_append]
  cases event with
  | consumed session operation => exact absurd rfl (h session operation)
  | connected => exact List.append_nil _
  | received request => exact List.append_nil _
  | refused session operation => exact List.append_nil _
  | decrypts session operation => exact List.append_nil _
  | started request header => exact List.append_nil _
  | decided request header decision => exact List.append_nil _
  | rejected error => exact List.append_nil _
  | stopped => exact List.append_nil _

theorem consumedPairs_consumed (events : List Event) (session operation : Bytes) :
    consumedPairs (events ++ [.consumed session operation]) =
      consumedPairs events ++ [(session, operation)] := by
  rw [consumedPairs, List.filterMap_append]
  rfl

theorem Sound.mem_replays {s : CspState} (h : Sound s) (key : Bytes) :
    key ∈ s.replays ↔ key ∈ (consumedPairs s.events).map pairKey := by
  rw [h.keys, List.mem_reverse]

/-- One more event, and perhaps no pending transcript any more. -/
theorem Sound.note {s : CspState} {event : Event} {pending : Option PendingFused} (h : Sound s)
    (hevent : ∀ session operation, event ≠ .consumed session operation)
    (hreason : Reason s.events event)
    (hpending : ∀ p, pending = some p → Opened (s.events ++ [event]) p.header) :
    Sound { s with pending := pending, events := s.events ++ [event] } where
  keys := by
    rw [consumedPairs_concat _ _ hevent]
    exact h.keys
  reasons := h.reasons.concat hreason
  pending := hpending

theorem Sound.received {s : CspState} (h : Sound s) (request : Bytes) :
    Sound (s.note (.received request)) := by
  refine h.note (by simp) trivial fun p hp => ?_
  rcases h.pending p hp with ⟨i, start, hi, hsince⟩
  refine ⟨i, start, ?_, hsince.concat ⟨request, rfl⟩⟩
  rw [List.getElem?_append_left (List.getElem?_eq_some_iff.1 hi).1]
  exact hi

section

variable {request : Bytes} {start : FusedStart} {s t : CspState}

theorem Sound.consumed (h : Sound s) (hlast : s.events.getLast? = some (.received request))
    (hpending : s.pending = none) (hframe : StartFrame request start)
    (hkey : start.header.key ∉ s.replays) :
    Sound { s with
      replays := start.header.key :: s.replays
      events := s.events ++ [.consumed start.header.session start.header.operation] } where
  keys := by
    rw [consumedPairs_consumed, List.map_append, List.reverse_append, h.keys]
    rfl
  reasons := h.reasons.concat
    ⟨⟨request, start, hlast, hframe, rfl⟩, fun hmem => hkey ((h.mem_replays _).2 hmem)⟩
  pending := by
    intro p hp
    rw [hpending] at hp
    cases hp

theorem Sound.decrypts (h : Sound s) (hlast : s.events.getLast? = some (.received request))
    (hpending : s.pending = none) (hframe : StartFrame request start)
    (hkey : start.header.key ∉ s.replays) :
    Sound { s with
      replays := start.header.key :: s.replays
      events := s.events ++ [.consumed start.header.session start.header.operation] ++
        [.decrypts start.header.session start.header.operation] } := by
  refine (h.consumed hlast hpending hframe hkey).note (by simp) List.getLast?_concat fun p hp => ?_
  rw [hpending] at hp
  cases hp

theorem Change.sound (hchange : Change request s t) (h : Sound s)
    (hlast : s.events.getLast? = some (.received request)) : Sound t := by
  cases hchange with
  | nothing => exact h
  | refused hpending hframe hkey =>
      refine h.note (by simp) ⟨⟨request, _, hlast, hframe, rfl⟩, (h.mem_replays _).1 hkey⟩
        fun p hp => ?_
      rw [hpending] at hp
      cases hp
  | consumed hpending hframe hkey => exact h.consumed hlast hpending hframe hkey
  | decrypted hpending hframe hkey => exact h.decrypts hlast hpending hframe hkey
  | @started start p hpending hframe hkey hp =>
      refine (h.decrypts hlast hpending hframe hkey).note (by simp) ⟨start, hframe, rfl⟩ ?_
      rintro q ⟨⟩
      rw [hp]
      exact ⟨_, request, List.getElem?_concat_length, since_last _ _ _⟩
  | dropped hpending => exact ⟨h.keys, h.reasons, by rintro p ⟨⟩⟩
  | @decided p offset decision hpending hhead hparsed =>
      exact h.note (by simp) ⟨h.pending p hpending, hlast, hhead, offset, hparsed⟩
        (by rintro p ⟨⟩)

end

/-- What holds whenever the server waits for input. -/
structure Server.Sound (server : Server) : Prop where
  state : Protocol.Sound server.state
  idle : server.phase ≠ .serving → server.state.pending = none

theorem Server.sound_reject {s : CspState} (h : Protocol.Sound s) (error : Error) :
    (Server.reject error s).Sound where
  state := h.note (by simp) trivial (by rintro p ⟨⟩)
  idle := fun _ => rfl

theorem Round.sound {server server' : Server} (hround : Round server server')
    (h : server.Sound) : server'.Sound := by
  have hconnected (hphase : server.phase = .waiting) :
      Sound (server.state.note .connected) := by
    have hpending := h.idle (by rw [hphase]; decide)
    refine h.state.note (by simp) trivial fun p hp => ?_
    rw [hpending] at hp
    cases hp
  cases hround with
  | ignored => exact h
  | connected hphase => exact ⟨hconnected hphase, fun hne => absurd rfl hne⟩
  | refusedConnection hphase => exact Server.sound_reject (hconnected hphase) _
  | lost hphase => exact Server.sound_reject h.state _
  | served hphase hchange =>
      exact ⟨hchange.sound (h.state.received _) List.getLast?_concat, fun hne => absurd rfl hne⟩
  | ended hphase hchange =>
      exact ⟨(hchange.sound (h.state.received _) List.getLast?_concat).note (by simp) trivial
        (by rintro p ⟨⟩),
        fun _ => rfl⟩
  | failed hphase hchange =>
      exact Server.sound_reject (hchange.sound (h.state.received _) List.getLast?_concat) _

theorem Server.run_sound (csp : Csp) (sha256 : Bytes → Label) (inputs : List (Input csp.modulus)) :
    (Server.run csp sha256 inputs).Sound := by
  induction inputs using List.reverseRecOn with
  | nil => exact ⟨⟨rfl, each_nil _, by rintro p ⟨⟩⟩, fun _ => rfl⟩
  | append_singleton inputs input ih =>
      rw [Server.run, List.foldl_append]
      exact (Server.step_round csp sha256 _ input).sound ih

/-! ## Decryptions and decisions -/

/-- The events of a run. -/
def Server.history (csp : Csp) (sha256 : Bytes → Label) (inputs : List (Input csp.modulus)) :
    List Event :=
  (Server.run csp sha256 inputs).state.events

/-- Event `j` is the decision on the predicate that was started by event `i`; in between, requests
were received, and none of them was rejected or started a predicate. -/
def Answers (events : List Event) (i j : Nat) : Prop :=
  ∃ first second header decision, events[i]? = some (.started first header) ∧
    events[j]? = some (.decided second header decision) ∧ i < j ∧
      ∀ k, i < k → k < j → ∃ request, events[k]? = some (.received request)

theorem not_quiet_started (request : Bytes) (header : FusedHeader) :
    ¬ (Event.started request header).Quiet := by
  rintro ⟨request', h⟩
  cases h

section

variable {events : List Event}

theorem mem_consumedPairs {session operation : Bytes} :
    (session, operation) ∈ consumedPairs events ↔ .consumed session operation ∈ events := by
  rw [consumedPairs, List.mem_filterMap]
  constructor
  · rintro ⟨event, hmem, hevent⟩
    cases event with
    | consumed session' operation' =>
        cases hevent
        exact hmem
    | connected => cases hevent
    | received request => cases hevent
    | refused session' operation' => cases hevent
    | decrypts session' operation' => cases hevent
    | started request header => cases hevent
    | decided request header decision => cases hevent
    | rejected error => cases hevent
    | stopped => cases hevent
  · exact fun hmem => ⟨_, hmem, rfl⟩

/-- A pair is consumed once, and decrypted for right after that. -/
theorem count_decrypts_le (h : Each Reason events) (session operation : Bytes) :
    events.count (.decrypts session operation) ≤ 1 := by
  refine (Each.count_le_count (c := .consumed session operation) (by simp)
    (h.imp ?_)).trans (Each.count_le_one (h.imp ?_))
  · rintro before _ hreason rfl
    exact hreason
  · rintro before _ hreason rfl hmem
    exact hreason.2 (List.mem_map.2 ⟨_, mem_consumedPairs.2 hmem, rfl⟩)

/-- The start that a decision belongs to. -/
theorem answers_unique (h : Each Reason events) {j : Nat} {request : Bytes}
    {header : FusedHeader} {decision : Bool}
    (hj : events[j]? = some (.decided request header decision)) : ∃! i, Answers events i j := by
  rcases (h.at hj).1 with ⟨i, first, hi, hsince⟩
  have hbefore {k : Nat} {event : Event} (hk : (events.take j)[k]? = some event) :
      k < j ∧ events[k]? = some event := by
    rw [List.getElem?_take] at hk
    split at hk
    · exact ⟨‹_›, hk⟩
    · cases hk
  have hquiet : ∀ k, i < k → k < j → ∃ request, events[k]? = some (.received request) := by
    intro k hik hkj
    have hlt : k < (events.take j).length := by
      rw [List.length_take]
      exact Nat.lt_min.2 ⟨hkj, hkj.trans (List.getElem?_eq_some_iff.1 hj).1⟩
    have hk := List.getElem?_eq_getElem hlt
    rcases hsince k _ hik hk with ⟨request', hreceived⟩
    rw [hreceived] at hk
    exact ⟨request', (hbefore hk).2⟩
  refine ⟨i, ⟨first, request, header, decision, (hbefore hi).2, hj, (hbefore hi).1, hquiet⟩, ?_⟩
  rintro i' ⟨first', second, header', decision', hi', hj', hlt, hbetween⟩
  have htake : (events.take j)[i']? = some (.started first' header') := by
    rw [List.getElem?_take, if_pos hlt]
    exact hi'
  refine Since.unique (fun k event hk hevent => ?_) hsince htake hi (not_quiet_started _ _)
    (not_quiet_started _ _)
  rcases hbefore hevent with ⟨hkj, hevent'⟩
  rcases hbetween k hk hkj with ⟨request', hreceived⟩
  exact ⟨request', Option.some.inj (hevent'.symm.trans hreceived)⟩

theorem answers_once {i j j' : Nat} (h : Answers events i j) (h' : Answers events i j') :
    j = j' := by
  have hle {j j' : Nat} (h : Answers events i j) (h' : Answers events i j') : ¬ j < j' := by
    intro hlt
    rcases h with ⟨_, second, header, decision, _, hj, hij, _⟩
    rcases h' with ⟨_, _, _, _, _, _, _, hbetween⟩
    rcases hbetween j hij hlt with ⟨request, hreceived⟩
    cases hj.symm.trans hreceived
  exact Nat.le_antisymm (Nat.le_of_not_lt (hle h' h)) (Nat.le_of_not_lt (hle h h'))

end

/-- Over any connections, frames and failures, the fused predicates of a server are decrypted for
once, answered once, in the context they were started in, and dropped otherwise. -/
theorem fused_predicates_safe (csp : Csp) (sha256 : Bytes → Label)
    (inputs : List (Input csp.modulus)) :
    (∀ session operation,
      (Server.history csp sha256 inputs).count (.decrypts session operation) ≤ 1) ∧
    (∀ (i : Nat) (request : Bytes) (header : FusedHeader),
      (Server.history csp sha256 inputs)[i]? = some (Event.started request header) →
        ∃ start, StartFrame request start ∧ start.header = header) ∧
    (∀ (j : Nat) (request : Bytes) (header : FusedHeader) (decision : Bool),
      (Server.history csp sha256 inputs)[j]? = some (Event.decided request header decision) →
        request.head? = some (byteOf 'G') ∧
          (∃ offset, parseFinishHeader request = .ok (header, offset)) ∧
            ∃! i, Answers (Server.history csp sha256 inputs) i j) ∧
    (∀ i j j', Answers (Server.history csp sha256 inputs) i j →
      Answers (Server.history csp sha256 inputs) i j' → j = j') ∧
    ((Server.run csp sha256 inputs).phase ≠ .serving →
      (Server.run csp sha256 inputs).state.pending = none) ∧
    ∀ p, (Server.run csp sha256 inputs).state.pending = some p →
      ∃ (i : Nat) (request : Bytes),
        (Server.history csp sha256 inputs)[i]? = some (Event.started request p.header) ∧
          ∀ (k : Nat) (event : Event), i < k →
            (Server.history csp sha256 inputs)[k]? = some event →
              ∃ request, event = .received request := by
  have hsound := Server.run_sound csp sha256 inputs
  have hreasons := hsound.state.reasons
  refine ⟨count_decrypts_le hreasons, fun i request header hi => hreasons.at hi,
    fun j request header decision hj => ?_, fun i j j' => answers_once, hsound.idle,
    hsound.state.pending⟩
  exact ⟨(hreasons.at hj).2.2.1, (hreasons.at hj).2.2.2, answers_unique hreasons hj⟩

end Protocol
end SociSgx

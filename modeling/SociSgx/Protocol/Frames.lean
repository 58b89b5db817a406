import SociSgx.Protocol.Wire

/-!
# Frames — payloads on a byte stream

`sendFrame` and `receiveFrame` on a transport that moves as many bytes at a time as it likes.  What
the transport does is a function from the number of a call to a wish; a call moves at least one byte
and at most what is there.  The bytes on their way are those that were accepted and not delivered:
a receiver that runs beside the sender sees the same bytes in the same order, only in smaller parts.
-/

namespace SociSgx
namespace Protocol

open Exec BigEndian

/-- One direction of a connection. -/
structure Stream where
  /-- The bytes that are on their way. -/
  bytes : Bytes
  /-- The calls that were made at this end. -/
  calls : Nat
  deriving DecidableEq, Repr

/-- A loop that may throw; `none` is a loop that has not ended when its fuel is used up. -/
abbrev Transfer : Type → Type :=
  ExceptT Error Option

/-- The fuel is used up. -/
def unfinished {α : Type} : Transfer α :=
  ExceptT.mk none

/-! ## Sending -/

/-- `sendmsg` takes bytes from the buffers; it returns zero only if there are none. -/
def sendmsg (wish : Nat) (vectors : List Bytes) : Nat :=
  min vectors.flatten.length (max 1 wish)

/-- The buffers after `sent` bytes: full ones are skipped, the next one is moved forward. -/
def advance : List Bytes → Nat → List Bytes
  | [], _ => []
  | v :: rest, remaining =>
      if v.length ≤ remaining then advance rest (remaining - v.length)
      else v.drop remaining :: rest

/-- `while (index < 2)`, on the buffers from `index` on. -/
def sendLoop (accepts : Nat → Nat) : Nat → List Bytes → Stream → Transfer Stream
  | _, [], s => pure s
  | 0, _ :: _, _ => unfinished
  | fuel + 1, v :: rest, s =>
      let vectors := v :: rest
      let sent := sendmsg (accepts s.calls) vectors
      if sent = 0 then
        throw (Error.backend "socket closed")
      else
        sendLoop accepts fuel (advance vectors sent)
          { bytes := s.bytes ++ vectors.flatten.take sent, calls := s.calls + 1 }

def sendFrame (accepts : Nat → Nat) (payload : Bytes) (s : Stream) : Transfer Stream :=
  if payload.length > uint32Max then
    throw (Error.backend "frame too large")
  else
    sendLoop accepts (4 + payload.length) [writeU32 payload.length, payload] s

/-- The frames of several messages, in their order. -/
def sendFrames (accepts : Nat → Nat) : List Bytes → Stream → Transfer Stream
  | [], s => pure s
  | payload :: payloads, s => do
      let s ← sendFrame accepts payload s
      sendFrames accepts payloads s

/-! ## Receiving -/

/-- `recv` into a buffer of `size` bytes; it returns zero only if nothing is there. -/
def recv (wish size : Nat) (s : Stream) : Nat :=
  min size (min s.bytes.length (max 1 wish))

/-- `transferExact` in the receiving direction, with what it received. -/
def transferExact (delivers : Nat → Nat) : Nat → Nat → Stream → Transfer (Bytes × Stream)
  | _, 0, s => pure ([], s)
  | 0, _ + 1, _ => unfinished
  | fuel + 1, size + 1, s =>
      let count := recv (delivers s.calls) (size + 1) s
      if count = 0 then
        throw (Error.backend "socket closed")
      else do
        let (rest, s') ← transferExact delivers fuel (size + 1 - count)
          { bytes := s.bytes.drop count, calls := s.calls + 1 }
        return (s.bytes.take count ++ rest, s')

def maxFrame : Nat := 4 * 1024 * 1024

def receiveFrame (delivers : Nat → Nat) (s : Stream) : Transfer (Bytes × Stream) := do
  let (header, s) ← transferExact delivers 4 4 s
  let size := readU32 header 0
  if size > maxFrame then
    throw (Error.backend "frame too large")
  else
    transferExact delivers size size s

/-- `count` calls of `receiveFrame`. -/
def receiveFrames (delivers : Nat → Nat) : Nat → Stream → Transfer (List Bytes × Stream)
  | 0, s => pure ([], s)
  | count + 1, s => do
      let (payload, s) ← receiveFrame delivers s
      let (payloads, s) ← receiveFrames delivers count s
      return (payload :: payloads, s)

/-! ## Loops that end -/

/-- The loop ends and returns. -/
def Returns {α : Type} (x : Transfer α) (a : α) : Prop :=
  x = ExceptT.mk (some (.ok a))

theorem Returns.bind {α β : Type} {x : Transfer α} {f : α → Transfer β} {a : α} {b : β}
    (hx : Returns x a) (hf : Returns (f a) b) : Returns (x >>= f) b := by
  unfold Returns at hx
  rw [hx]
  exact hf

/-! ## The bytes that are sent -/

theorem flatten_advance (vectors : List Bytes) (k : Nat) :
    (advance vectors k).flatten = vectors.flatten.drop k := by
  induction vectors generalizing k with
  | nil => simp [advance]
  | cons v rest ih =>
      unfold advance
      split
      · rename_i hle
        rw [ih, List.flatten_cons, List.drop_append, List.drop_eq_nil_of_le hle, List.nil_append]
      · rename_i hlt
        rw [List.flatten_cons, List.flatten_cons,
          List.drop_append_of_le_length (Nat.le_of_not_le hlt)]

/-- After a call either nothing is left or the first buffer has bytes. -/
theorem advance_nil_or_pos (vectors : List Bytes) (k : Nat) :
    advance vectors k = [] ∨ 0 < (advance vectors k).flatten.length := by
  induction vectors generalizing k with
  | nil => exact Or.inl rfl
  | cons v rest ih =>
      unfold advance
      split
      · exact ih _
      · rename_i hlt
        refine Or.inr ?_
        rw [List.flatten_cons, List.length_append, List.length_drop]
        omega

/-- Every call sends a byte, so the number of bytes is fuel enough; they are sent in order. -/
theorem sendLoop_spec (accepts : Nat → Nat) : ∀ (fuel : Nat) (vectors : List Bytes) (s : Stream),
    (vectors = [] ∨ 0 < vectors.flatten.length) → vectors.flatten.length ≤ fuel →
      ∃ calls, Returns (sendLoop accepts fuel vectors s) ⟨s.bytes ++ vectors.flatten, calls⟩ := by
  intro fuel
  induction fuel with
  | zero =>
      intro vectors s hvectors hfuel
      cases vectors with
      | nil => exact ⟨s.calls, by rw [List.flatten_nil, List.append_nil]; rfl⟩
      | cons v rest =>
          rcases hvectors with hnil | hpos
          · exact absurd hnil (List.cons_ne_nil v rest)
          · omega
  | succ fuel ih =>
      intro vectors s hvectors hfuel
      cases vectors with
      | nil => exact ⟨s.calls, by rw [List.flatten_nil, List.append_nil]; rfl⟩
      | cons v rest =>
          have hpos : 0 < (v :: rest).flatten.length := by
            rcases hvectors with hnil | hpos
            · exact absurd hnil (List.cons_ne_nil v rest)
            · exact hpos
          -- The kernel takes at least one byte; the loop goes on with what is left.
          let sent := sendmsg (accepts s.calls) (v :: rest)
          have hsent : 0 < sent ∧ sent ≤ (v :: rest).flatten.length := by
            change 0 < min _ _ ∧ min _ _ ≤ _
            omega
          have hflat := flatten_advance (v :: rest) sent
          have hleft : (advance (v :: rest) sent).flatten.length ≤ fuel := by
            rw [hflat, List.length_drop]
            omega
          rcases ih (advance (v :: rest) sent)
            ⟨s.bytes ++ (v :: rest).flatten.take sent, s.calls + 1⟩
            (advance_nil_or_pos _ _) hleft with ⟨calls, hcalls⟩
          refine ⟨calls, ?_⟩
          rw [hflat, List.append_assoc, List.take_append_drop] at hcalls
          unfold sendLoop
          rw [if_neg hsent.1.ne']
          exact hcalls

/-- The four bytes of the length, and the payload. -/
def frameBytes (payload : Bytes) : Bytes :=
  writeU32 payload.length ++ payload

theorem sendFrame_spec (accepts : Nat → Nat) {payload : Bytes} (h : payload.length ≤ uint32Max)
    (s : Stream) :
    ∃ calls, Returns (sendFrame accepts payload s) ⟨s.bytes ++ frameBytes payload, calls⟩ := by
  have hflat : [writeU32 payload.length, payload].flatten = frameBytes payload := by
    rw [List.flatten_cons, List.flatten_cons, List.flatten_nil, List.append_nil]
    rfl
  have hlen : (frameBytes payload).length = 4 + payload.length := by
    rw [frameBytes, List.length_append, length_writeU32]
  rcases sendLoop_spec accepts (4 + payload.length) [writeU32 payload.length, payload] s
    (Or.inr (by rw [hflat, hlen]; omega)) (by rw [hflat, hlen]) with ⟨calls, hcalls⟩
  rw [hflat] at hcalls
  refine ⟨calls, ?_⟩
  unfold sendFrame
  rw [if_neg (Nat.not_lt.2 h)]
  exact hcalls

theorem sendFrames_spec (accepts : Nat → Nat) : ∀ (payloads : List Bytes) (s : Stream),
    (∀ payload ∈ payloads, payload.length ≤ uint32Max) →
      ∃ calls, Returns (sendFrames accepts payloads s)
        ⟨s.bytes ++ payloads.flatMap frameBytes, calls⟩ := by
  intro payloads
  induction payloads with
  | nil =>
      intro s _
      exact ⟨s.calls, by rw [List.flatMap_nil, List.append_nil]; rfl⟩
  | cons payload payloads ih =>
      intro s hsize
      rcases sendFrame_spec accepts (hsize payload List.mem_cons_self) s with ⟨mid, hmid⟩
      rcases ih ⟨s.bytes ++ frameBytes payload, mid⟩
        (fun p hp => hsize p (List.mem_cons_of_mem _ hp)) with ⟨calls, hcalls⟩
      rw [List.append_assoc, ← List.flatMap_cons] at hcalls
      exact ⟨calls, hmid.bind hcalls⟩

/-! ## The bytes that are received -/

/-- Every call takes a byte, so the size asked for is fuel enough; the bytes come in order. -/
theorem transferExact_spec (delivers : Nat → Nat) :
    ∀ (fuel size : Nat) (data after : Bytes) (calls : Nat), data.length = size → size ≤ fuel →
      ∃ calls', Returns (transferExact delivers fuel size ⟨data ++ after, calls⟩)
        (data, ⟨after, calls'⟩) := by
  intro fuel
  induction fuel with
  | zero =>
      intro size data after calls hdata hfuel
      obtain rfl : size = 0 := Nat.le_zero.1 hfuel
      rw [List.eq_nil_of_length_eq_zero hdata]
      exact ⟨calls, rfl⟩
  | succ fuel ih =>
      intro size data after calls hdata hfuel
      cases size with
      | zero =>
          rw [List.eq_nil_of_length_eq_zero hdata]
          exact ⟨calls, rfl⟩
      | succ size =>
          let count := recv (delivers calls) (size + 1) ⟨data ++ after, calls⟩
          -- A call returns at least one byte and at most what is missing.
          have hcount : 0 < count ∧ count ≤ data.length := by
            change 0 < min _ (min _ _) ∧ min _ (min _ _) ≤ _
            rw [List.length_append]
            omega
          have hleft : (data.drop count).length = size + 1 - count := by
            rw [List.length_drop, hdata]
          rcases ih (size + 1 - count) (data.drop count) after (calls + 1) hleft (by omega) with
            ⟨calls', hcalls⟩
          have htake : (data ++ after).take count = data.take count :=
            List.take_append_of_le_length hcount.2
          have hdrop : (data ++ after).drop count = data.drop count ++ after :=
            List.drop_append_of_le_length hcount.2
          refine ⟨calls', ?_⟩
          unfold transferExact
          rw [if_neg hcount.1.ne']
          rw [← hdrop] at hcalls
          refine hcalls.bind ?_
          dsimp only
          rw [htake, List.take_append_drop]
          rfl

theorem receiveFrame_spec (delivers : Nat → Nat) {payload : Bytes} (h : payload.length ≤ maxFrame)
    (after : Bytes) (calls : Nat) :
    ∃ calls', Returns (receiveFrame delivers ⟨frameBytes payload ++ after, calls⟩)
      (payload, ⟨after, calls'⟩) := by
  have hsmall : payload.length < 2 ^ 32 := Nat.lt_of_le_of_lt h (by decide)
  rcases transferExact_spec delivers 4 4 (writeU32 payload.length) (payload ++ after) calls
    (length_writeU32 _) le_rfl with ⟨mid, hmid⟩
  rcases transferExact_spec delivers payload.length payload.length payload after mid rfl le_rfl with
    ⟨calls', hcalls⟩
  have hsize : readU32 (writeU32 payload.length) 0 = payload.length := by
    have hread := readU32_writeU32 hsmall [] []
    rwa [List.append_nil] at hread
  rw [← List.append_assoc] at hmid
  refine ⟨calls', hmid.bind ?_⟩
  dsimp only
  rw [hsize, if_neg (Nat.not_lt.2 h)]
  exact hcalls

theorem receiveFrames_spec (delivers : Nat → Nat) : ∀ (payloads : List Bytes) (after : Bytes)
    (calls : Nat), (∀ payload ∈ payloads, payload.length ≤ maxFrame) →
      ∃ calls', Returns
        (receiveFrames delivers payloads.length ⟨payloads.flatMap frameBytes ++ after, calls⟩)
        (payloads, ⟨after, calls'⟩) := by
  intro payloads
  induction payloads with
  | nil =>
      intro after calls _
      exact ⟨calls, rfl⟩
  | cons payload payloads ih =>
      intro after calls hsize
      rcases receiveFrame_spec delivers (hsize payload List.mem_cons_self)
        (payloads.flatMap frameBytes ++ after) calls with ⟨mid, hmid⟩
      rcases ih after mid (fun p hp => hsize p (List.mem_cons_of_mem _ hp)) with ⟨calls', hcalls⟩
      rw [← List.append_assoc, ← List.flatMap_cons] at hmid
      exact ⟨calls', hmid.bind (hcalls.bind rfl)⟩

/-- However the transport splits the traffic, a frame is sent as its length and its payload, and the
payloads of a sequence of frames are received as they were sent. -/
theorem frames_arrive (accepts delivers : Nat → Nat) (payloads : List Bytes)
    (hsize : ∀ payload ∈ payloads, payload.length ≤ 4 * 1024 * 1024) :
    (∀ payload ∈ payloads, ∀ s : Stream, ∃ calls, Returns (sendFrame accepts payload s)
      ⟨s.bytes ++ (writeU32 payload.length ++ payload), calls⟩) ∧
    ∃ stream calls, Returns (sendFrames accepts payloads ⟨[], 0⟩) stream ∧
      Returns (receiveFrames delivers payloads.length ⟨stream.bytes, 0⟩)
        (payloads, ⟨[], calls⟩) := by
  have hwide : ∀ payload ∈ payloads, payload.length ≤ uint32Max := fun payload hp =>
    (hsize payload hp).trans (by decide)
  refine ⟨fun payload hp s => sendFrame_spec accepts (hwide payload hp) s, ?_⟩
  rcases sendFrames_spec accepts payloads ⟨[], 0⟩ hwide with ⟨sent, hsent⟩
  rcases receiveFrames_spec delivers payloads [] 0 hsize with ⟨calls, hcalls⟩
  rw [List.append_nil] at hcalls
  exact ⟨_, calls, hsent, hcalls⟩

/-- An empty payload between two others, three bytes at a time on the one side and one on the
other. -/
theorem frames_arrive_empty :
    (∀ payload ∈ [[1, 2, 3, 4, 5], [], [6]], ∀ s : Stream, ∃ calls,
      Returns (sendFrame (fun _ => 3) payload s)
        ⟨s.bytes ++ (writeU32 payload.length ++ payload), calls⟩) ∧
    ∃ stream calls, Returns (sendFrames (fun _ => 3) [[1, 2, 3, 4, 5], [], [6]] ⟨[], 0⟩) stream ∧
      Returns (receiveFrames (fun _ => 1) 3 ⟨stream.bytes, 0⟩)
        ([[1, 2, 3, 4, 5], [], [6]], ⟨[], calls⟩) :=
  frames_arrive (fun _ => 3) (fun _ => 1) [[1, 2, 3, 4, 5], [], [6]] (by decide)

end Protocol
end SociSgx

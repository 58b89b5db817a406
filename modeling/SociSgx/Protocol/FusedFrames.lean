import SociSgx.Protocol.CspServer
import SociSgx.Protocol.Frames
import SociSgx.Protocol.Garbling

/-!
# FusedFrames — the two frames as the client writes them

`ThresholdProtocolClient::fusedPredicate` writes a start and a finish; the handlers of the CSP read
back what stands in them, to the last byte.
-/

namespace SociSgx
namespace Protocol

open Exec BigEndian OffsetCodec
open Secure (PredicateType PredicateContext)

/-! ## Writing -/

def appendContextString (output value : Bytes) : Except Error Bytes := do
  ensure (value ≠ [] ∧ value.length ≤ 128) (Error.predicate "invalid predicate context field")
  return output ++ writeU32 value.length ++ value

/-- `static_cast<std::uint8_t>(context.predicate_type)` -/
def typeByte : PredicateType → UInt8
  | .pruneNode => 1
  | .acceptCandidate => 2
  | .other value => value

/-- The RSA key of the transfer, from `RSA_generate_key_ex(rsa, 3072, RSA_F4)`. -/
structure OtKey where
  n : Nat
  publicExponent : Nat
  privateExponent : Nat
  size : sizeInBase2 n = 3072
  f4 : publicExponent = rsaF4
  inverts : ∀ k < n,
    Modular.powMod (Modular.powMod k publicExponent n) privateExponent n = k

/-- The first eight bytes of a frame, and the context. -/
def appendContext (head : Bytes) (context : PredicateContext) : Except Error Bytes := do
  let request := head ++ writeU32 context.depth.toNat
  let request ← appendContextString request context.sessionId
  let request ← appendContextString request context.operationId
  appendContextString request context.nodeId

def OtItem.integers (item : OtItem) : List Nat :=
  [item.ciphertext, item.cpShare, item.x0, item.x1]

/-- Frame `F`. -/
def fusedStartRequest (ot : OtKey) (context : PredicateContext) (hasIncumbent : Bool)
    (items : List OtItem) : Except Error Bytes := do
  let request ← appendContext
    [byteOf 'F', typeByte context.predicateType, if hasIncumbent then 1 else 0, 0] context
  appendIntegers (request ++ writeU32 items.length)
    (ot.n :: ot.publicExponent :: items.flatMap OtItem.integers)

/-- The reply to frame `F` behind its status byte. -/
def fusedStartReply (count : Nat) (reply : Bytes) : Except Error (List Nat) := do
  ensure (4 ≤ reply.length ∧ readU32 reply 0 = count)
    (Error.backend "bad fused predicate OT response")
  let (values, offset) ← readMany takeInteger count reply 4
  ensure (offset = reply.length) (Error.backend "trailing fused OT response")
  return values

/-- The two labels of an input, each under the pad of a key. -/
structure LabelPair where
  m0 : Label
  m1 : Label
  deriving DecidableEq, Repr, Inhabited

def pairBytes (pair : LabelPair) : Bytes :=
  labelBytes pair.m0 ++ labelBytes pair.m1

/-- Frame `G`. -/
def fusedFinishRequest (context : PredicateContext) (pairs : List LabelPair)
    (garbled : GarbledPredicate) : Except Error Bytes := do
  let request ← appendContext [byteOf 'G', typeByte context.predicateType, 0, 0] context
  let out := garbled.zero.getD garbled.circuit.output 0
  return request ++ writeU32 pairs.length ++ writeU32 garbled.tables.length ++
    pairs.flatMap pairBytes ++ garbled.tables.flatMap (·.flatMap labelBytes) ++
    labelBytes out ++ labelBytes (labelXor out garbled.delta)

/-! ## The context -/

/-- What `appendContextString` accepts. -/
def ContextField (value : Bytes) : Prop :=
  value ≠ [] ∧ value.length ≤ 128

def contextBytes (value : Bytes) : Bytes :=
  writeU32 value.length ++ value

theorem appendContextString_eq (output : Bytes) {value : Bytes} (h : ContextField value) :
    appendContextString output value = .ok (output ++ contextBytes value) := by
  refine bind_eq_ok.2 ⟨(), ensure_eq_ok.2 h, ?_⟩
  rw [List.append_assoc]
  rfl

theorem takeContextString_readsBack : ReadsBack takeContextString contextBytes ContextField := by
  rintro value ⟨hne, hlen⟩ before after
  have hpos : 0 < value.length := List.length_pos_iff.2 hne
  have htotal : (before ++ (contextBytes value ++ after)).length =
      before.length + (4 + value.length) + after.length := by
    rw [List.length_append, List.length_append, contextBytes, List.length_append, length_writeU32]
    omega
  have hsize : readU32 (before ++ (contextBytes value ++ after)) before.length = value.length := by
    rw [contextBytes, List.append_assoc]
    exact readU32_writeU32 (by omega) _ _
  have hfield : (before ++ (contextBytes value ++ after)).drop (before.length + 4) =
      value ++ after := by
    rw [contextBytes, List.append_assoc, ← List.drop_drop, List.drop_left,
      List.drop_left' (length_writeU32 _)]
  refine bind_eq_ok.2 ⟨(), ensure_eq_ok.2 (by omega), ?_⟩
  refine bind_eq_ok.2 ⟨(), ensure_eq_ok.2 ⟨by omega, by omega, by omega⟩, ?_⟩
  rw [hsize, hfield, List.take_left' rfl, contextBytes, List.length_append, length_writeU32,
    Nat.add_assoc]
  rfl

structure ContextFields (context : PredicateContext) : Prop where
  session : ContextField context.sessionId
  operation : ContextField context.operationId
  node : ContextField context.nodeId

def contextFields (context : PredicateContext) : Bytes :=
  writeU32 context.depth.toNat ++ (contextBytes context.sessionId ++
    (contextBytes context.operationId ++ contextBytes context.nodeId))

theorem appendContext_eq (head : Bytes) {context : PredicateContext} (h : ContextFields context) :
    appendContext head context = .ok (head ++ contextFields context) := by
  refine bind_eq_ok.2 ⟨_, appendContextString_eq _ h.session, ?_⟩
  refine bind_eq_ok.2 ⟨_, appendContextString_eq _ h.operation, ?_⟩
  rw [appendContextString_eq _ h.node, contextFields]
  simp only [List.append_assoc]

theorem readU32_next {n : Nat} (hn : n < 2 ^ 32) {input rest : Bytes} {offset : Nat}
    (h : Behind input offset (writeU32 n ++ rest)) : readU32 input offset = n := by
  unfold readU32
  rw [h.rest_eq, List.take_left' (length_writeU32 n)]
  exact BigEndian.ofBytes_toBytes_of_lt hn

/-- The handlers of both frames begin with this. -/
theorem readContext {request rest : Bytes} {context : PredicateContext} (h : ContextFields context)
    (hrequest : Behind request 4 (contextFields context ++ rest)) :
    ∃ o₁ o₂ o₃, readU32 request 4 = context.depth.toNat ∧
      takeContextString request 8 = .ok (context.sessionId, o₁) ∧
        takeContextString request o₁ = .ok (context.operationId, o₂) ∧
          takeContextString request o₂ = .ok (context.nodeId, o₃) ∧ Behind request o₃ rest := by
  have hfields : contextFields context ++ rest = writeU32 context.depth.toNat ++
      (contextBytes context.sessionId ++ (contextBytes context.operationId ++
        (contextBytes context.nodeId ++ rest))) := by
    simp only [contextFields, List.append_assoc]
  rw [hfields] at hrequest
  have hsession := hrequest.skip
  rw [length_writeU32] at hsession
  exact ⟨_, _, _, readU32_next context.depth.toNat_lt hrequest,
    takeContextString_readsBack.next h.session hsession,
    takeContextString_readsBack.next h.operation hsession.skip,
    takeContextString_readsBack.next h.node hsession.skip.skip, hsession.skip.skip.skip⟩

theorem predicateTypeOf_typeByte {type : PredicateType}
    (h : type = .pruneNode ∨ type = .acceptCandidate) :
    predicateTypeOf (typeByte type) = type := by
  rcases h with rfl | rfl
  · rfl
  · rfl

/-! ## The start -/

/-- The integers of a key of at most 8192 bits, and of the transfer. -/
def Short (z : Nat) : Prop :=
  exportedSize z ≤ 2048

theorem Short.writable {z : Nat} (h : Short z) : Writable z :=
  Nat.lt_of_le_of_lt h (by decide)

theorem length_flatMap_le {α : Type} {f : α → Bytes} {k : Nat} :
    ∀ {as : List α}, (∀ a ∈ as, (f a).length ≤ k) → (as.flatMap f).length ≤ as.length * k := by
  intro as
  induction as with
  | nil => exact fun _ => Nat.zero_le _
  | cons a as ih =>
      intro h
      have hfirst := h a List.mem_cons_self
      have hrest := ih fun b hb => h b (List.mem_cons_of_mem a hb)
      rw [List.flatMap_cons, List.length_append, List.length_cons, Nat.succ_mul]
      omega

theorem length_integers_le {zs : List Nat} (h : ∀ z ∈ zs, Short z) :
    (zs.flatMap integerBytes).length ≤ zs.length * 2052 := by
  refine length_flatMap_le fun z hz => ?_
  rw [length_integerBytes]
  exact Nat.add_le_add_left (h z hz) 4

theorem OtKey.short (ot : OtKey) : Short ot.n ∧ Short ot.publicExponent := by
  refine ⟨?_, ?_⟩
  · rw [Short, exportedSize, ot.size]
    decide
  · rw [Short, ot.f4]
    decide

/-- An item that the CSP takes. -/
structure OtItem.Fits (rsaN : Nat) (item : OtItem) : Prop where
  short : ∀ z ∈ item.integers, Short z
  x0 : 0 < item.x0 ∧ item.x0 < rsaN
  x1 : 0 < item.x1 ∧ item.x1 < rsaN

def otItemBytes (item : OtItem) : Bytes :=
  item.integers.flatMap integerBytes

theorem takeOtItem_readsBack (rsaN : Nat) :
    ReadsBack (takeOtItem rsaN) otItemBytes (OtItem.Fits rsaN) := by
  rintro ⟨c, share, x0, x1⟩ ⟨hshort, hx0, hx1⟩ before after
  have hwritable (z : Nat) (hz : z ∈ [c, share, x0, x1]) : Writable z := (hshort z hz).writable
  have hbytes : otItemBytes ⟨c, share, x0, x1⟩ ++ after =
      integerBytes c ++
        (integerBytes share ++ (integerBytes x0 ++ (integerBytes x1 ++ after))) := by
    simp [otItemBytes, OtItem.integers]
  have hbehind := behind_append before (otItemBytes ⟨c, share, x0, x1⟩ ++ after)
  have hend : (otItemBytes ⟨c, share, x0, x1⟩).length = (integerBytes c).length +
      (integerBytes share).length + (integerBytes x0).length + (integerBytes x1).length := by
    simp [otItemBytes, OtItem.integers]
    omega
  rw [hend]
  rw [hbytes] at hbehind ⊢
  refine bind_eq_ok.2 ⟨_, takeInteger_readsBack.next (hwritable c (by simp)) hbehind, ?_⟩
  refine bind_eq_ok.2 ⟨_, takeInteger_readsBack.next (hwritable share (by simp)) hbehind.skip, ?_⟩
  refine bind_eq_ok.2 ⟨_, takeInteger_readsBack.next (hwritable x0 (by simp))
    hbehind.skip.skip, ?_⟩
  refine bind_eq_ok.2 ⟨_, takeInteger_readsBack.next (hwritable x1 (by simp))
    hbehind.skip.skip.skip, ?_⟩
  refine bind_eq_ok.2 ⟨(), ensure_eq_ok.2 ⟨hx0, hx1⟩, ?_⟩
  simp only [Nat.add_assoc]
  rfl

/-- What a frame says about its predicate. -/
def headerOf (context : PredicateContext) (count : Nat) : FusedHeader where
  session := context.sessionId
  operation := context.operationId
  node := context.nodeId
  type := context.predicateType
  depth := context.depth.toNat
  count := count

/-- A context under which both sides take a frame. -/
structure Usable (context : PredicateContext) : Prop where
  fields : ContextFields context
  type : context.predicateType = .pruneNode ∨ context.predicateType = .acceptCandidate

theorem length_contextFields {context : PredicateContext} (h : ContextFields context) :
    (contextFields context).length ≤ 400 := by
  have hsession := h.session.2
  have hoperation := h.operation.2
  have hnode := h.node.2
  simp only [contextFields, contextBytes, List.length_append, length_writeU32]
  omega

theorem typeByte_range {type : PredicateType}
    (h : type = .pruneNode ∨ type = .acceptCandidate) : 1 ≤ typeByte type ∧ typeByte type ≤ 2 := by
  rcases h with rfl | rfl
  · decide
  · decide

/-- What frame `F` looks like. -/
def startBytes (ot : OtKey) (context : PredicateContext) (hasIncumbent : Bool)
    (items : List OtItem) : Bytes :=
  byteOf 'F' :: typeByte context.predicateType :: (if hasIncumbent then 1 else 0) :: 0 ::
    (contextFields context ++ (writeU32 items.length ++ (integerBytes ot.n ++
      (integerBytes ot.publicExponent ++ items.flatMap otItemBytes))))

section

variable (ot : OtKey) {context : PredicateContext} (hasIncumbent : Bool) {items : List OtItem}

theorem fusedStartRequest_eq (hcontext : ContextFields context) (hcount : items.length ≤ 32)
    (hitems : ∀ item ∈ items, item.Fits ot.n) :
    fusedStartRequest ot context hasIncumbent items =
      .ok (startBytes ot context hasIncumbent items) := by
  have hbytes : (items.flatMap OtItem.integers).flatMap integerBytes =
      items.flatMap otItemBytes := List.flatMap_assoc
  have hshort : ∀ z ∈ ot.n :: ot.publicExponent :: items.flatMap OtItem.integers, Short z := by
    refine List.forall_mem_cons.2 ⟨ot.short.1, List.forall_mem_cons.2 ⟨ot.short.2, fun z hz => ?_⟩⟩
    rcases List.mem_flatMap.1 hz with ⟨item, hitem, hz⟩
    exact (hitems item hitem).short z hz
  have hmany : (items.flatMap OtItem.integers).length = items.length * 4 := by
    simp [OtItem.integers]
  have hroom := length_integers_le hshort
  have hfields := length_contextFields hcontext
  rw [List.length_cons, List.length_cons, hmany] at hroom
  refine bind_eq_ok.2 ⟨_, appendContext_eq _ hcontext, ?_⟩
  refine (appendIntegers_eq _ _ (fun z hz => (hshort z hz).writable) ?_).trans ?_
  · rw [List.length_append, List.length_append, length_writeU32]
    simp only [List.length_cons, List.length_nil, sizeMax]
    exact Nat.le_trans (Nat.add_le_add_left hroom _) (by omega)
  · rw [List.flatMap_cons, List.flatMap_cons, hbytes]
    simp only [List.append_assoc]
    rfl

theorem length_startBytes (hcontext : ContextFields context) (hcount : items.length ≤ 32)
    (hitems : ∀ item ∈ items, item.Fits ot.n) :
    8 ≤ (startBytes ot context hasIncumbent items).length ∧
      (startBytes ot context hasIncumbent items).length ≤ maxFrame := by
  have hfields := length_contextFields hcontext
  have heach : (items.flatMap otItemBytes).length ≤ items.length * (4 * 2052) :=
    length_flatMap_le fun item hitem => length_integers_le (hitems item hitem).short
  have hn : (integerBytes ot.n).length ≤ 4 + 2048 := by
    rw [length_integerBytes]
    exact Nat.add_le_add_left ot.short.1 4
  have he : (integerBytes ot.publicExponent).length ≤ 4 + 2048 := by
    rw [length_integerBytes]
    exact Nat.add_le_add_left ot.short.2 4
  have htotal : (startBytes ot context hasIncumbent items).length =
      8 + (contextFields context).length + (integerBytes ot.n).length +
        (integerBytes ot.publicExponent).length + (items.flatMap otItemBytes).length := by
    simp only [startBytes, List.length_cons, List.length_append, length_writeU32]
    omega
  rw [htotal, maxFrame]
  omega

theorem startHead_startBytes (hcontext : Usable context) (hcount : items.length ≤ 32)
    (hitems : ∀ item ∈ items, item.Fits ot.n) :
    Csp.StartHead none (startBytes ot context hasIncumbent items) := by
  refine ⟨rfl, (length_startBytes ot hasIncumbent hcontext.fields hcount hitems).1,
    typeByte_range hcontext.type, ?_, rfl⟩
  cases hasIncumbent
  · exact UInt8.le_of_lt (by decide : (0 : UInt8) < 1)
  · exact UInt8.le_refl 1

/-- The CSP reads a start as it was meant. -/
theorem parseFusedStart_startBytes (hcontext : Usable context)
    (hcount : 1 ≤ items.length ∧ items.length ≤ thresholdMaxBatchSize)
    (hitems : ∀ item ∈ items, item.Fits ot.n) :
    parseFusedStart (startBytes ot context hasIncumbent items) = .ok {
      header := headerOf context items.length
      incumbent := hasIncumbent
      rsaN := ot.n
      items := items } := by
  have hbehind := behind_append
    [byteOf 'F', typeByte context.predicateType, if hasIncumbent then 1 else 0, 0]
    (contextFields context ++ (writeU32 items.length ++ (integerBytes ot.n ++
      (integerBytes ot.publicExponent ++ (items.flatMap otItemBytes ++ [])))))
  rw [List.append_nil] at hbehind
  change Behind (startBytes ot context hasIncumbent items) _ _ at hbehind
  rcases readContext hcontext.fields hbehind with ⟨o₁, o₂, o₃, hdepth, hs, ho, hnode, hrest⟩
  -- From here on each field is read where the one before it ended.
  have hread := readU32_next (Nat.lt_of_le_of_lt hcount.2 (by decide)) hrest
  have hleft : 4 ≤ (startBytes ot context hasIncumbent items).length - o₃ := by
    rw [hrest.length_eq, List.length_append, length_writeU32]
    exact Nat.le_add_right ..
  have hn := hrest.skip
  rw [length_writeU32] at hn
  have hitemsEnd := hn.skip.skip
  rw [← List.append_nil (items.flatMap otItemBytes)] at hitemsEnd
  have hmany := (takeOtItem_readsBack ot.n).nextMany hitems hitemsEnd
  have hbit : decide ((startBytes ot context hasIncumbent items).getD 2 0 ≠ 0) =
      hasIncumbent := by
    cases hasIncumbent <;> rfl
  have htype : predicateTypeOf ((startBytes ot context hasIncumbent items).getD 1 0) =
      context.predicateType := predicateTypeOf_typeByte hcontext.type
  refine bind_eq_ok.2 ⟨_, hs, bind_eq_ok.2 ⟨_, ho, bind_eq_ok.2 ⟨_, hnode, ?_⟩⟩⟩
  refine bind_eq_ok.2 ⟨(), ensure_eq_ok.2 hleft, ?_⟩
  dsimp only
  rw [hread]
  refine bind_eq_ok.2 ⟨(), ensure_eq_ok.2 ⟨by omega, hcount.2⟩, ?_⟩
  refine bind_eq_ok.2 ⟨_, takeInteger_readsBack.next ot.short.1.writable hn, ?_⟩
  refine bind_eq_ok.2 ⟨_, takeInteger_readsBack.next ot.short.2.writable hn.skip, ?_⟩
  refine bind_eq_ok.2 ⟨(), ensure_eq_ok.2 ⟨ot.size, ot.f4⟩, ?_⟩
  refine bind_eq_ok.2 ⟨_, hmany, ?_⟩
  refine bind_eq_ok.2 ⟨(), ensure_eq_ok.2 hitemsEnd.skip.end_eq, ?_⟩
  rw [hdepth, htype, hbit]
  rfl

end

/-- The client reads the transferred values as they were sent. -/
theorem fusedStartReply_readsBack {values : List Nat} (hvalues : ∀ v ∈ values, Writable v)
    (hcount : values.length < 2 ^ 32) :
    fusedStartReply values.length (writeU32 values.length ++ values.flatMap integerBytes) =
      .ok values := by
  have hbehind : Behind (writeU32 values.length ++ values.flatMap integerBytes) 0
      (writeU32 values.length ++ (values.flatMap integerBytes ++ [])) := by
    rw [List.append_nil]
    exact behind_append [] _
  have hread := readU32_next hcount hbehind
  have hnext := hbehind.skip
  rw [Nat.zero_add, length_writeU32] at hnext
  refine bind_eq_ok.2 ⟨(), ensure_eq_ok.2 ⟨hnext.inside, hread⟩, ?_⟩
  refine bind_eq_ok.2 ⟨_, takeInteger_readsBack.nextMany hvalues hnext, ?_⟩
  exact bind_eq_ok.2 ⟨(), ensure_eq_ok.2 hnext.skip.end_eq, rfl⟩

/-! ## The finish -/

theorem length_labelBytes (label : Label) : (labelBytes label).length = 32 :=
  BigEndian.length_toBytes 32 _

theorem takeLabel_readsBack : ReadsBack takeLabel labelBytes fun _ => True := by
  intro label _ before after
  have hlabel : label.toNat < 256 ^ 32 := label.isLt
  have hroom : 32 ≤ (before ++ (labelBytes label ++ after)).length - before.length := by
    rw [List.length_append, List.length_append, length_labelBytes]
    omega
  refine bind_eq_ok.2 ⟨(), ensure_eq_ok.2 hroom, ?_⟩
  rw [List.drop_left, List.take_left' (length_labelBytes label), labelBytes,
    BigEndian.ofBytes_toBytes_of_lt hlabel, BitVec.ofNat_toNat, BitVec.setWidth_eq,
    BigEndian.length_toBytes]
  rfl

/-- What frame `G` looks like. -/
def finishBytes (context : PredicateContext) (pairs : List LabelPair) (tables : List (List Label))
    (out0 out1 : Label) : Bytes :=
  byteOf 'G' :: typeByte context.predicateType :: 0 :: 0 ::
    (contextFields context ++ (writeU32 pairs.length ++ (writeU32 tables.length ++
      (pairs.flatMap pairBytes ++ (tables.flatMap (·.flatMap labelBytes) ++
        (labelBytes out0 ++ labelBytes out1))))))

theorem length_finishBytes {context : PredicateContext} (hcontext : ContextFields context)
    {pairs : List LabelPair} {tables : List (List Label)} (hpairs : pairs.length ≤ 32)
    (htables : tables.length ≤ 32) (hrows : ∀ rows ∈ tables, rows.length = 4)
    (out0 out1 : Label) :
    8 ≤ (finishBytes context pairs tables out0 out1).length ∧
      (finishBytes context pairs tables out0 out1).length ≤ maxFrame := by
  have hfields := length_contextFields hcontext
  have hlabels : (pairs.flatMap pairBytes).length ≤ pairs.length * 64 := by
    refine length_flatMap_le fun pair _ => ?_
    rw [pairBytes, List.length_append, length_labelBytes, length_labelBytes]
  have hgates : (tables.flatMap (·.flatMap labelBytes)).length ≤ tables.length * (4 * 32) := by
    refine length_flatMap_le fun rows hrow => ?_
    rw [← hrows rows hrow]
    exact length_flatMap_le fun label _ => (length_labelBytes label).le
  have htotal : (finishBytes context pairs tables out0 out1).length =
      76 + (contextFields context).length + (pairs.flatMap pairBytes).length +
        (tables.flatMap (·.flatMap labelBytes)).length := by
    simp only [finishBytes, List.length_cons, List.length_append, length_writeU32,
      length_labelBytes]
    omega
  rw [htotal, maxFrame]
  omega

theorem fusedFinishRequest_eq {context : PredicateContext} (hcontext : ContextFields context)
    (pairs : List LabelPair) (garbled : GarbledPredicate) :
    let out := garbled.zero.getD garbled.circuit.output 0
    fusedFinishRequest context pairs garbled =
      .ok (finishBytes context pairs garbled.tables out (labelXor out garbled.delta)) := by
  refine bind_eq_ok.2 ⟨_, appendContext_eq _ hcontext, ?_⟩
  simp only [List.append_assoc]
  rfl

section

variable (sha256 : Bytes → Label) (p : PendingFused)

/-- The label of a pair that the CSP can open. -/
def opened (pair : LabelPair) (i : Nat) : Label :=
  labelXor (if p.choices.getD i false then pair.m1 else pair.m0)
    (otPad sha256 (p.keys.getD i 0) i)

theorem takeInputLabels_next {request rest : Bytes} :
    ∀ {pairs : List LabelPair} {i offset : Nat},
      Behind request offset (pairs.flatMap pairBytes ++ rest) →
        Csp.takeInputLabels sha256 p request pairs.length i offset =
          .ok ((pairs.zipIdx i).map fun pair => opened sha256 p pair.1 pair.2,
            offset + (pairs.flatMap pairBytes).length) := by
  intro pairs
  induction pairs with
  | nil => exact fun {i offset} _ => rfl
  | cons pair pairs ih =>
      intro i offset h
      rw [List.flatMap_cons, pairBytes] at h
      simp only [List.append_assoc] at h
      have hfirst : Csp.takeInputLabel sha256 p request i offset =
          .ok (opened sha256 p pair i, offset + (labelBytes pair.m0).length +
            (labelBytes pair.m1).length) :=
        bind_eq_ok.2 ⟨_, takeLabel_readsBack.next trivial h,
          bind_eq_ok.2 ⟨_, takeLabel_readsBack.next trivial h.skip, rfl⟩⟩
      refine bind_eq_ok.2 ⟨_, hfirst, bind_eq_ok.2 ⟨_, ih h.skip.skip, ?_⟩⟩
      rw [List.flatMap_cons, pairBytes, List.length_append, List.length_append, List.zipIdx_cons,
        List.map_cons]
      simp only [Nat.add_assoc]
      rfl

theorem takeTable_readsBack : ReadsBack (readMany takeLabel 4)
    (fun rows : List Label => rows.flatMap labelBytes) fun rows => rows.length = 4 := by
  intro rows hrows before after
  have hread := readMany_readsBack takeLabel_readsBack rows before after fun _ _ => trivial
  rwa [hrows] at hread

/-- The labels that the CSP opens in a list of pairs. -/
def openedLabels (pairs : List LabelPair) : List Label :=
  pairs.zipIdx.map fun pair => opened sha256 p pair.1 pair.2

variable {context : PredicateContext} {pairs : List LabelPair} {tables : List (List Label)}
  {out0 delta : Label} {labels : List Label} {bit : Bool}

/-- The CSP reads a finish as it was meant: the label at the output is the one of the decision. -/
theorem evaluateFused_finishBytes (hcontext : Usable context)
    (hp : p.header = headerOf context pairs.length) (hpairs : pairs.length < 2 ^ 32)
    (hgates : tables.length = p.circuit.andGates.length) (htables : tables.length < 2 ^ 32)
    (hrows : ∀ rows ∈ tables, rows.length = 4)
    (heval : evaluateWires sha256 p.circuit.andGates tables (p.circuit.wires.drop pairs.length)
      pairs.length 0 (openedLabels sha256 p pairs ++
        List.replicate (p.circuit.wires.length - pairs.length) 0) = .ok labels)
    (hodd : delta.getLsbD 0 = true)
    (hout : labels.getD p.circuit.output 0 = FreeXor.label out0 delta bit) :
    Csp.evaluateFused sha256 p (finishBytes context pairs tables out0 (labelXor out0 delta)) =
      .ok (headerOf context pairs.length, bit) := by
  let request := finishBytes context pairs tables out0 (labelXor out0 delta)
  have hbehind : Behind request 4 (contextFields context ++ (writeU32 pairs.length ++
      (writeU32 tables.length ++ (pairs.flatMap pairBytes ++
        (tables.flatMap (·.flatMap labelBytes) ++
        (labelBytes out0 ++ (labelBytes (labelXor out0 delta) ++ []))))))) := by
    rw [List.append_nil]
    exact behind_append [byteOf 'G', typeByte context.predicateType, 0, 0] _
  rcases readContext hcontext.fields hbehind with ⟨o₁, o₂, o₃, hdepth, hs, ho, hnode, hrest⟩
  have hcount := readU32_next hpairs hrest
  have hnext := hrest.skip
  rw [length_writeU32] at hnext
  have hgatesRead := readU32_next htables hnext
  have hlabels := hnext.skip
  rw [length_writeU32] at hlabels
  have htype : predicateTypeOf (request.getD 1 0) = context.predicateType :=
    predicateTypeOf_typeByte hcontext.type
  have hparsed : parseFinishHeader request = .ok (headerOf context pairs.length, o₃) := by
    refine bind_eq_ok.2 ⟨_, hs, bind_eq_ok.2 ⟨_, ho, bind_eq_ok.2 ⟨_, hnode, ?_⟩⟩⟩
    dsimp only
    rw [hdepth, htype, hcount]
    rfl
  have hleft : 8 ≤ request.length - o₃ := by
    rw [hrest.length_eq, List.length_append, List.length_append, length_writeU32, length_writeU32]
    omega
  have hchoices : pairs.length = p.choices.length := (congrArg FusedHeader.count hp).symm
  -- The labels of the inputs are opened while they are read.
  have hinputs := takeInputLabels_next sha256 p (i := 0) hlabels
  have htablesRead := takeTable_readsBack.nextMany hrows hlabels.skip
  rw [hgates] at htablesRead
  refine bind_eq_ok.2 ⟨_, hparsed, ?_⟩
  refine bind_eq_ok.2 ⟨(), ensure_eq_ok.2 ?_, ?_⟩
  · exact ⟨(congrArg FusedHeader.session hp).symm, (congrArg FusedHeader.operation hp).symm,
      (congrArg FusedHeader.type hp).symm, (congrArg FusedHeader.depth hp).symm,
      (congrArg FusedHeader.node hp).symm, hleft⟩
  refine bind_eq_ok.2 ⟨(), ensure_eq_ok.2 ⟨hchoices, hgatesRead.trans hgates⟩, ?_⟩
  refine bind_eq_ok.2 ⟨_, hinputs, ?_⟩
  dsimp only
  rw [hgatesRead, hgates]
  refine bind_eq_ok.2 ⟨_, htablesRead, ?_⟩
  refine bind_eq_ok.2 ⟨_, takeLabel_readsBack.next trivial hlabels.skip.skip, ?_⟩
  refine bind_eq_ok.2 ⟨_, takeLabel_readsBack.next trivial hlabels.skip.skip.skip, ?_⟩
  refine bind_eq_ok.2 ⟨(), ensure_eq_ok.2 hlabels.skip.skip.skip.skip.end_eq, ?_⟩
  refine bind_eq_ok.2 ⟨labels, heval, ?_⟩
  dsimp only
  rw [hout]
  cases bit with
  | false => exact if_pos rfl
  | true =>
      -- The two output labels differ, since `delta` is odd.
      have hne : labelXor out0 delta ≠ out0 := fun heq =>
        absurd (FreeXor.label_inj (v := true) (w := false) hodd heq) (by decide)
      exact (if_neg hne).trans (if_pos rfl)

end

end Protocol
end SociSgx

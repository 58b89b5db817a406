import SociSgx.Protocol.Garbling

/-!
# PredicateCircuit — the bit that a predicate circuit computes

The builders of `predicateCircuit` append wires.  `Valued inputs c vals` says that `vals` are the
bits on the wires of `c` for these inputs; each builder keeps the bits that are there and puts a
known bit on its wire.
-/

namespace SociSgx
namespace Protocol

open Exec
open Secure (PredicateType)

/-! ## One more wire -/

theorem gateCount_append (rest : List LinearWire) (lin : LinearWire) :
    gateCount (rest ++ [lin]) = gateCount rest + gateCount [lin] := by
  induction rest with
  | nil => rw [List.nil_append, gateCount, Nat.zero_add]
  | cons first rest ih => rw [List.cons_append, gateCount, gateCount, ih, Nat.add_assoc]

section

variable {gates gates' : List BooleanGate} {bits bits' : Nat → Bool}

theorem Consistent.concat : ∀ {rest : List LinearWire} {lin : LinearWire} {w gi : Nat},
    Consistent gates bits rest w gi →
      Consistent gates bits [lin] (w + rest.length) (gi + gateCount rest) →
        Consistent gates bits (rest ++ [lin]) w gi := by
  intro rest
  induction rest with
  | nil => exact fun {lin w gi} _ hlast => hlast
  | cons first rest ih =>
      intro lin w gi h hlast
      rw [List.length_cons] at hlast
      unfold Consistent at h
      unfold gateCount at hlast
      rw [List.cons_append]
      unfold Consistent
      by_cases hfirst : first.terms = []
      · rw [if_neg (not_not.2 hfirst)] at h ⊢
        rw [if_pos hfirst] at hlast
        refine ⟨h.1, ih h.2 ?_⟩
        rwa [Nat.add_assoc, Nat.add_assoc, Nat.add_comm 1]
      · rw [if_pos hfirst] at h ⊢
        rw [if_neg hfirst] at hlast
        refine ⟨h.1, h.2.1, ih h.2.2 ?_⟩
        rwa [Nat.add_assoc, Nat.add_comm 1, ← Nat.zero_add (gateCount rest)]

theorem xorBits_congr {terms : List Nat} (h : ∀ t ∈ terms, bits' t = bits t) :
    xorBits bits' terms = xorBits bits terms := by
  unfold xorBits
  exact List.foldl_ext _ _ _ fun v t ht => by rw [h t ht]

/-- Later wires and gates change nothing. -/
theorem Consistent.mono (hgates : ∀ (k : Nat) (gate : BooleanGate),
    gates[k]? = some gate → gates'[k]? = some gate) :
    ∀ {rest : List LinearWire} {w gi : Nat}, (∀ t < w + rest.length, bits' t = bits t) →
      Consistent gates bits rest w gi → Consistent gates' bits' rest w gi := by
  intro rest
  induction rest with
  | nil => exact fun {w gi} _ _ => trivial
  | cons first rest ih =>
      intro w gi hbits h
      rw [List.length_cons] at hbits
      have hearlier : ∀ t < w, bits' t = bits t := fun t ht => hbits t (by omega)
      have hrest : ∀ t < w + 1 + rest.length, bits' t = bits t := fun t ht => hbits t (by omega)
      have hself : bits' w = bits w := hbits w (by omega)
      unfold Consistent at h ⊢
      by_cases hfirst : first.terms = []
      · rw [if_neg (not_not.2 hfirst)] at h ⊢
        rcases h with ⟨⟨gate, hgate, hleft, hright, hbit⟩, h⟩
        refine ⟨⟨gate, hgates gi gate hgate, hleft, hright, ?_⟩, ih hrest h⟩
        rw [hself, hearlier _ hleft, hearlier _ hright, hbit]
      · rw [if_pos hfirst] at h ⊢
        rcases h with ⟨hterms, hbit, h⟩
        refine ⟨hterms, ?_, ih hrest h⟩
        rw [hself, hbit, xorBits_congr fun t ht => hearlier t (hterms t ht)]

end

/-! ## The builders -/

/-- The bits on the wires of a circuit. -/
structure Valued (inputs : List Bool) (c : BooleanCircuit) (vals : List Bool) : Prop where
  size : vals.length = c.wires.length
  start : inputs <+: vals
  gates : c.andGates.length = gateCount (c.wires.drop inputs.length)
  consistent : Consistent c.andGates (fun t => vals.getD t false) (c.wires.drop inputs.length)
    inputs.length 0

theorem valued_inputs (inputs : List Bool) : Valued inputs (inputCircuit inputs.length) inputs := by
  have hwires : (inputCircuit inputs.length).wires.drop inputs.length = [] :=
    List.drop_eq_nil_of_le (by simp [inputCircuit])
  refine ⟨by simp [inputCircuit], List.prefix_refl _, ?_, ?_⟩
  · rw [hwires]
    rfl
  · rw [hwires]
    trivial

section

variable {inputs vals : List Bool} {c : BooleanCircuit}

theorem Valued.output (h : Valued inputs c vals) (output : Nat) :
    Valued inputs { c with output := output } vals :=
  ⟨h.size, h.start, h.gates, h.consistent⟩

/-- A wire is appended, perhaps with a gate. -/
theorem Valued.append (h : Valued inputs c vals) {lin : LinearWire} {more : List BooleanGate}
    {bit : Bool} (hmore : more.length = gateCount [lin])
    (hlin : Consistent (c.andGates ++ more) (fun t => (vals ++ [bit]).getD t false) [lin]
      vals.length c.andGates.length) :
    Valued inputs { c with andGates := c.andGates ++ more, wires := c.wires ++ [lin] }
      (vals ++ [bit]) := by
  have hle : inputs.length ≤ c.wires.length := h.size ▸ h.start.length_le
  have hdrop : (c.wires ++ [lin]).drop inputs.length = c.wires.drop inputs.length ++ [lin] :=
    List.drop_append_of_le_length hle
  have hrest : inputs.length + (c.wires.drop inputs.length).length = vals.length := by
    rw [List.length_drop, h.size]
    omega
  refine ⟨?_, h.start.trans (List.prefix_append _ _), ?_, ?_⟩
  · rw [List.length_append, List.length_append, h.size]
    rfl
  · rw [List.length_append, hdrop, gateCount_append, h.gates, hmore]
  · rw [hdrop]
    refine Consistent.concat (h.consistent.mono (fun k gate hk => ?_) fun t ht => ?_) ?_
    · rw [List.getElem?_append_left (List.getElem?_eq_some_iff.1 hk).1]
      exact hk
    · rw [hrest] at ht
      exact List.getD_append _ _ _ _ ht
    · rw [hrest, Nat.zero_add, ← h.gates]
      exact hlin

theorem getD_of_start {vals' : List Bool} (h : vals <+: vals') {t : Nat} {bit : Bool}
    (ht : vals[t]? = some bit) : vals'[t]? = some bit := by
  rcases h with ⟨more, rfl⟩
  rw [List.getElem?_append_left (List.getElem?_eq_some_iff.1 ht).1]
  exact ht

theorem bit_eq {more : List Bool} {t : Nat} {bit : Bool} (ht : vals[t]? = some bit) :
    (vals ++ more).getD t false = bit := by
  rw [List.getD_eq_getElem?_getD, getD_of_start (List.prefix_append vals more) ht]
  rfl

theorem new_bit (vals : List Bool) (bit : Bool) :
    (vals ++ [bit])[vals.length]? = some bit ∧ (vals ++ [bit]).getD vals.length false = bit := by
  rw [List.getD_eq_getElem?_getD, List.getElem?_concat_length]
  exact ⟨rfl, rfl⟩

/-- A sum of wires. -/
theorem Valued.linear (h : Valued inputs c vals) {terms : List Nat} {bits : List Bool}
    (hterms : List.Forall₂ (fun t bit => vals[t]? = some bit) terms bits) (hne : terms ≠ [])
    (constant : Bool) :
    ∃ vals', Valued inputs (c.linear terms constant).2 vals' ∧ vals <+: vals' ∧
      vals'[(c.linear terms constant).1]? =
        some (bits.foldl (fun v bit => v ^^ bit) false ^^ constant) := by
  have hsum {more : List Bool} {terms : List Nat} {bits : List Bool}
      (hterms : List.Forall₂ (fun t bit => vals[t]? = some bit) terms bits) : ∀ v,
      terms.foldl (fun v t => v ^^ (vals ++ more).getD t false) v =
        bits.foldl (fun v bit => v ^^ bit) v := by
    induction hterms with
    | nil => exact fun v => rfl
    | cons hfirst _ ih =>
        intro v
        rw [List.foldl_cons, List.foldl_cons, bit_eq hfirst]
        exact ih _
  let bit := bits.foldl (fun v bit => v ^^ bit) false ^^ constant
  have happend : Valued inputs { c with
      andGates := c.andGates ++ [], wires := c.wires ++ [⟨terms, constant⟩] } (vals ++ [bit]) := by
    refine h.append ?_ ?_
    · rw [gateCount, if_neg hne]
      rfl
    · unfold Consistent
      rw [if_pos hne]
      refine ⟨fun t ht => ?_, ?_, trivial⟩
      · rcases List.mem_iff_getElem.1 ht with ⟨k, hk, rfl⟩
        have hget := (List.forall₂_iff_get.1 hterms).2 k hk ((List.Forall₂.length_eq hterms) ▸ hk)
        exact (List.getElem?_eq_some_iff.1 hget).1
      · rw [xorBits, hsum hterms, (new_bit vals bit).2]
  rw [List.append_nil] at happend
  refine ⟨vals ++ [bit], happend, List.prefix_append _ _, ?_⟩
  have hout : (c.linear terms constant).1 = vals.length := h.size.symm
  rw [hout]
  exact (new_bit vals bit).1

/-- A gate. -/
theorem Valued.land (h : Valued inputs c vals) {a b : Nat} {x y : Bool}
    (ha : vals[a]? = some x) (hb : vals[b]? = some y) :
    ∃ vals', Valued inputs (c.land a b).2 vals' ∧ vals <+: vals' ∧
      vals'[(c.land a b).1]? = some (x && y) := by
  have hout : c.wires.length = vals.length := h.size.symm
  refine ⟨vals ++ [x && y], ?_, List.prefix_append _ _, ?_⟩
  · have hmore : [(⟨a, b, c.wires.length⟩ : BooleanGate)].length = gateCount [⟨[], false⟩] := rfl
    refine h.append hmore ?_
    unfold Consistent
    rw [if_neg (not_not.2 rfl)]
    refine ⟨⟨⟨a, b, c.wires.length⟩, List.getElem?_concat_length,
      (List.getElem?_eq_some_iff.1 ha).1, (List.getElem?_eq_some_iff.1 hb).1, ?_⟩, trivial⟩
    rw [(new_bit vals _).2, bit_eq ha, bit_eq hb]
  · have hwire : (c.land a b).1 = vals.length := hout
    rw [hwire]
    exact (new_bit vals _).1

/-- `a OR b` -/
theorem Valued.lor (h : Valued inputs c vals) {a b : Nat} {x y : Bool}
    (ha : vals[a]? = some x) (hb : vals[b]? = some y) :
    ∃ vals', Valued inputs (c.lor a b).2 vals' ∧ vals <+: vals' ∧
      vals'[(c.lor a b).1]? = some (x || y) := by
  rcases h.land ha hb with ⟨mid, hmid, hsub, hp⟩
  have hterms : List.Forall₂ (fun t bit => mid[t]? = some bit) [a, b, (c.land a b).1]
      [x, y, x && y] :=
    .cons (getD_of_start hsub ha) (.cons (getD_of_start hsub hb) (.cons hp .nil))
  rcases hmid.linear hterms (by simp) false with ⟨vals', hvals, hsub', hout⟩
  refine ⟨vals', hvals, hsub.trans hsub', ?_⟩
  have hor : (([x, y, x && y].foldl (fun v bit => v ^^ bit) false) ^^ false) = (x || y) := by
    cases x <;> cases y <;> rfl
  rw [hor] at hout
  exact hout

/-- The chain of ORs over some inputs. -/
theorem Valued.fold : ∀ {is : List Nat} {c : BooleanCircuit} {vals : List Bool} {folded : Nat}
    {x : Bool}, Valued inputs c vals → vals[folded]? = some x → (∀ i ∈ is, i < inputs.length) →
      ∃ vals', Valued inputs (is.foldl (fun p i => p.2.lor p.1 i) (folded, c)).2 vals' ∧
        vals <+: vals' ∧ vals'[(is.foldl (fun p i => p.2.lor p.1 i) (folded, c)).1]? =
          some (x || is.any fun i => inputs.getD i false) := by
  intro is
  induction is with
  | nil =>
      intro c vals folded x h hx _
      rw [List.any_nil, Bool.or_false]
      exact ⟨vals, h, List.prefix_refl _, hx⟩
  | cons i is ih =>
      intro c vals folded x h hx his
      have hi : inputs[i]? = some (inputs.getD i false) := by
        rw [List.getD_eq_getElem _ _ (his i List.mem_cons_self)]
        exact List.getElem?_eq_getElem _
      rcases h.lor hx (getD_of_start h.start hi) with ⟨mid, hmid, hsub, hor⟩
      rcases ih hmid hor (fun j hj => his j (List.mem_cons_of_mem _ hj)) with
        ⟨vals', hvals, hsub', hout⟩
      refine ⟨vals', hvals, hsub.trans hsub', ?_⟩
      rw [List.any_cons, ← Bool.or_assoc]
      exact hout

end

/-! ## The predicates -/

/-- `PRUNE_NODE` on its comparison bits. -/
def pruneBit (hasIncumbent : Bool) (bits : List Bool) : Bool :=
  if hasIncumbent then bits.any id else bits.getD 0 false

/-- `ACCEPT_CANDIDATE` on its comparison bits. -/
def acceptBit (hasIncumbent : Bool) (bits : List Bool) : Bool :=
  let bit := fun i => bits.getD i false
  !bit 0 && bit 1 && (!hasIncumbent || (bit 2 ^^ (!(bit 2 ^^ bit 3) && bit 4)))

def predicateBit (type : PredicateType) (hasIncumbent : Bool) (bits : List Bool) : Bool :=
  match type with
  | .pruneNode => pruneBit hasIncumbent bits
  | _ => acceptBit hasIncumbent bits

variable {inputs : List Bool}

theorem input_bit {i : Nat} (hi : i < inputs.length) :
    inputs[i]? = some (inputs.getD i false) := by
  rw [List.getD_eq_getElem _ _ hi]
  exact List.getElem?_eq_getElem hi

/-- Reading a list at every index, the first two apart. -/
theorem any_bits (h : 2 ≤ inputs.length) :
    (inputs.getD 0 false || (inputs.getD 1 false ||
      (List.range' 2 (inputs.length - 2)).any fun i => inputs.getD i false)) = inputs.any id := by
  have hall : (List.range inputs.length).map (fun i => inputs.getD i false) = inputs := by
    refine List.ext_getElem (by simp) fun i hi hi' => ?_
    rw [List.getElem_map, List.getElem_range, List.getD_eq_getElem _ _ hi']
  have hrange : List.range inputs.length = 0 :: 1 :: List.range' 2 (inputs.length - 2) := by
    have hlen : inputs.length = inputs.length - 2 + 1 + 1 := by omega
    rw [List.range_eq_range', hlen, List.range'_succ, List.range'_succ]
    rfl
  calc
    _ = (List.range inputs.length).any (fun i => inputs.getD i false) := by
      rw [hrange, List.any_cons, List.any_cons]
    _ = ((List.range inputs.length).map fun i => inputs.getD i false).any id := by
      rw [List.any_map]
      rfl
    _ = inputs.any id := by rw [hall]

theorem pruneCircuit_valued (h : 2 ≤ inputs.length) :
    ∃ vals, Valued inputs (pruneCircuit inputs.length) vals ∧
      vals[(pruneCircuit inputs.length).output]? = some (inputs.any id) := by
  have hstart := valued_inputs inputs
  have hrange : ∀ i ∈ List.range' 2 (inputs.length - 2), i < inputs.length := by
    intro i hi
    have hmem := List.mem_range'_1.1 hi
    omega
  rcases hstart.fold (input_bit (by omega : 1 < inputs.length)) hrange with
    ⟨mid, hmid, hsub, hfolded⟩
  rcases hmid.lor (getD_of_start hsub (input_bit (by omega : 0 < inputs.length))) hfolded with
    ⟨vals, hvals, _, hout⟩
  rw [any_bits h] at hout
  exact ⟨vals, hvals.output _, hout⟩

theorem acceptCircuit_valued {hasIncumbent : Bool}
    (h : inputs.length = if hasIncumbent then 5 else 2) :
    ∃ vals, Valued inputs (acceptCircuit inputs.length hasIncumbent) vals ∧
      vals[(acceptCircuit inputs.length hasIncumbent).output]? =
        some (acceptBit hasIncumbent inputs) := by
  have htwo : 2 ≤ inputs.length := by
    rw [h]
    split <;> decide
  have h0 := input_bit (by omega : 0 < inputs.length)
  have h1 := input_bit (by omega : 1 < inputs.length)
  rcases (valued_inputs inputs).linear (.cons h0 .nil) (by simp) true with
    ⟨v1, hv1, s1, hnot⟩
  -- Feasible: the linear sum is not negative and there is a method 3.
  rcases hv1.land hnot (getD_of_start s1 h1) with ⟨v2, hv2, s2, hfeasible⟩
  cases hasIncumbent with
  | false =>
      refine ⟨v2, hv2.output _, ?_⟩
      simp only [List.foldl_cons, List.foldl_nil, Bool.false_xor, Bool.xor_true] at hfeasible
      simp only [acceptBit, Bool.not_false, Bool.true_or, Bool.and_true]
      exact hfeasible
  | true =>
      have hfive : inputs.length = 5 := h
      have h2 := getD_of_start (s1.trans s2) (input_bit (by omega : 2 < inputs.length))
      have h3 := getD_of_start (s1.trans s2) (input_bit (by omega : 3 < inputs.length))
      have h4 := getD_of_start (s1.trans s2) (input_bit (by omega : 4 < inputs.length))
      -- Equal costs are those that are neither less nor greater; only then the tie is decided.
      rcases hv2.linear (.cons h2 (.cons h3 .nil)) (by simp) true with ⟨v3, hv3, s3, hcostEq⟩
      rcases hv3.land hcostEq (getD_of_start s3 h4) with ⟨v4, hv4, s4, hequal⟩
      rcases hv4.linear (.cons (getD_of_start (s3.trans s4) h2) (.cons hequal .nil)) (by simp)
        false with ⟨v5, hv5, s5, hbetter⟩
      rcases hv5.land (getD_of_start (s3.trans (s4.trans s5)) hfeasible) hbetter with
        ⟨v6, hv6, s6, hout⟩
      refine ⟨v6, hv6.output _, ?_⟩
      simp only [List.foldl_cons, List.foldl_nil, Bool.false_xor, Bool.xor_true,
        Bool.xor_false] at hout
      simp only [acceptBit, Bool.not_true, Bool.false_or]
      exact hout

/-- Whatever circuit `predicateCircuit` returns computes its predicate. -/
theorem predicateCircuit_valued {type : PredicateType} {hasIncumbent : Bool} {c : BooleanCircuit}
    (hne : inputs ≠ []) (h : predicateCircuit type inputs.length hasIncumbent = .ok c) :
    ∃ vals, Valued inputs c vals ∧
      vals[c.output]? = some (predicateBit type hasIncumbent inputs) := by
  have hpos : 0 < inputs.length := List.length_pos_iff.2 hne
  cases type with
  | pruneNode =>
      unfold predicateCircuit at h
      dsimp only at h
      cases hasIncumbent with
      | false =>
          cases h
          exact ⟨inputs, (valued_inputs inputs).output _, input_bit hpos⟩
      | true =>
          rw [if_neg (by decide)] at h
          split at h
          · cases h
          · cases h
            exact pruneCircuit_valued (by omega)
  | acceptCandidate =>
      unfold predicateCircuit at h
      dsimp only at h
      by_cases hcount : inputs.length = if hasIncumbent then 5 else 2
      · rw [if_pos hcount] at h
        cases h
        exact acceptCircuit_valued hcount
      · rw [if_neg hcount] at h
        cases h
  | other value => cases h

theorem fold_gates (is : List Nat) : ∀ (folded : Nat) (c : BooleanCircuit),
    (is.foldl (fun p i => p.2.lor p.1 i) (folded, c)).2.andGates.length =
      c.andGates.length + is.length := by
  induction is with
  | nil => exact fun _ _ => rfl
  | cons i is ih =>
      intro folded c
      have hone : (c.lor folded i).2.andGates.length = c.andGates.length + 1 := by
        simp [BooleanCircuit.lor, BooleanCircuit.land, BooleanCircuit.linear]
      rw [List.foldl_cons, ih, hone, List.length_cons]
      omega

/-- There are no more gates than comparisons. -/
theorem predicateCircuit_gates {type : PredicateType} {count : Nat} {hasIncumbent : Bool}
    {c : BooleanCircuit} (h : predicateCircuit type count hasIncumbent = .ok c) :
    c.andGates.length ≤ count := by
  cases type with
  | pruneNode =>
      unfold predicateCircuit at h
      dsimp only at h
      cases hasIncumbent with
      | false =>
          cases h
          exact Nat.zero_le _
      | true =>
          rw [if_neg (by decide)] at h
          split at h
          · cases h
          · cases h
            -- One gate for each comparison of a cost but the first one, and one for the last OR.
            have hfold := fold_gates (List.range' 2 (count - 2)) 1 (inputCircuit count)
            simp only [pruneCircuit, BooleanCircuit.lor, BooleanCircuit.land,
              BooleanCircuit.linear, List.length_append, List.length_singleton] at hfold ⊢
            rw [hfold, List.length_range']
            simp only [inputCircuit, List.length_nil]
            omega
  | acceptCandidate =>
      unfold predicateCircuit at h
      dsimp only at h
      by_cases hcount : count = if hasIncumbent then 5 else 2
      · rw [if_pos hcount] at h
        cases h
        cases hasIncumbent with
        | false => simp [hcount, acceptCircuit, BooleanCircuit.land, BooleanCircuit.linear,
            inputCircuit]
        | true => simp [hcount, acceptCircuit, BooleanCircuit.land, BooleanCircuit.linear,
            inputCircuit]
      · rw [if_neg hcount] at h
        cases h
  | other value => cases h

/-! ## Garbled predicates -/

section

variable {sha256 : Bytes → Label} {type : PredicateType} {hasIncumbent : Bool} {drawn : Label}
  {random : Nat → Label}

/-- What a garbled predicate is good for. -/
structure Garbles (sha256 : Bytes → Label) (type : PredicateType) (hasIncumbent : Bool)
    (inputs : List Bool) (g : GarbledPredicate) : Prop where
  circuit : predicateCircuit type inputs.length hasIncumbent = .ok g.circuit
  odd : g.delta.getLsbD 0 = true
  gates : g.tables.length = g.circuit.andGates.length
  rows : ∀ rows ∈ g.tables, rows.length = 4
  evaluates : ∀ labels : List Label, labels.length = inputs.length →
    (∀ i < inputs.length, labels[i]? =
      some (FreeXor.label (g.zero.getD i 0) g.delta (inputs.getD i false))) →
      ∃ all, evaluateWires sha256 g.circuit.andGates g.tables (g.circuit.wires.drop inputs.length)
          inputs.length 0 (labels ++ List.replicate (g.circuit.wires.length - inputs.length) 0) =
            .ok all ∧
        all.getD g.circuit.output 0 = FreeXor.label (g.zero.getD g.circuit.output 0) g.delta
          (predicateBit type hasIncumbent inputs)

theorem garblePredicate_spec {c : BooleanCircuit} (hne : inputs ≠ [])
    (hcircuit : predicateCircuit type inputs.length hasIncumbent = .ok c) (drawn : Label)
    (random : Nat → Label) :
    ∃ g, garblePredicate sha256 type inputs.length hasIncumbent drawn random = .ok g ∧
      Garbles sha256 type hasIncumbent inputs g := by
  rcases predicateCircuit_valued hne hcircuit with ⟨vals, hvals, hout⟩
  have hle : inputs.length ≤ c.wires.length := hvals.size ▸ hvals.start.length_le
  have hodd : (drawn ||| 1).getLsbD 0 = true := by
    rw [BitVec.getLsbD_or]
    exact Bool.or_true _
  let zero := (List.range inputs.length).map random ++
    List.replicate (c.wires.length - inputs.length) 0
  have hlen : zero.length = inputs.length + (c.wires.drop inputs.length).length := by
    simp [zero]
  rcases garbleWires_ok sha256 (drawn ||| 1) random zero hvals.consistent with
    ⟨last, tables, hrun, hlast, hgates, hrows, hkept⟩
  refine ⟨⟨c, drawn ||| 1, last, tables⟩, ?_, hcircuit, hodd, hgates.trans hvals.gates.symm,
    hrows, fun labels hlabels heach => ?_⟩
  · exact bind_eq_ok.2 ⟨c, hcircuit, bind_eq_ok.2 ⟨_, hrun, rfl⟩⟩
  · -- The input wires carry the labels of the input bits before the first gate.
    have hbegin : Labelled (fun t => vals.getD t false) (drawn ||| 1) zero
        (labels ++ List.replicate (c.wires.length - inputs.length) 0) inputs.length := by
      intro t ht
      have hbit : vals.getD t false = inputs.getD t false := by
        rw [List.getD_eq_getElem?_getD, getD_of_start hvals.start (input_bit ht)]
        rfl
      have hzero : last.getD t 0 = zero.getD t 0 := by
        rw [List.getD_eq_getElem?_getD, hkept t ht, ← List.getD_eq_getElem?_getD]
      rw [List.getElem?_append_left (hlabels.symm ▸ ht), heach t ht]
      dsimp only
      rw [hbit, hzero]
    rcases evaluateWires_ok sha256 hodd hvals.consistent hlen (by simp [hlabels]) hbegin hrun
      rfl with ⟨all, heval, hall⟩
    refine ⟨all, heval, ?_⟩
    have hlt : c.output < inputs.length + (c.wires.drop inputs.length).length := by
      have hsome := (List.getElem?_eq_some_iff.1 hout).1
      rw [hvals.size] at hsome
      rw [List.length_drop]
      omega
    have hbit : vals.getD c.output false = predicateBit type hasIncumbent inputs := by
      rw [List.getD_eq_getElem?_getD, hout]
      rfl
    rw [List.getD_eq_getElem?_getD, hall c.output hlt, ← hbit]
    rfl

end

end Protocol
end SociSgx

import SociSgx.Lib.Exec

/-!
# OffsetCodec — items written one behind the other

A reader gets the whole buffer and an offset, and returns an item with the offset behind it.  A
format is a reader that finds what its writer wrote, wherever that stands in a buffer; repeated
reading then finds a list of items.  A reader that always moves on inside the buffer ends every loop
that reads up to the end of the buffer.
-/

namespace SociSgx
namespace OffsetCodec

open Exec

universe u

variable {ε α β : Type u}

abbrev Reader (ε β α : Type u) : Type u :=
  List β → Nat → Except ε (α × Nat)

/-- `read` finds an item with `P` that `write` wrote between other data. -/
def ReadsBack (read : Reader ε β α) (write : α → List β) (P : α → Prop) : Prop :=
  ∀ a, P a → ∀ before after : List β,
    read (before ++ (write a ++ after)) before.length = .ok (a, before.length + (write a).length)

/-- An item that was read is not empty and ends inside the buffer. -/
def Advances (read : Reader ε β α) : Prop :=
  ∀ input offset a offset', offset ≤ input.length → read input offset = .ok (a, offset') →
    offset < offset' ∧ offset' ≤ input.length

/-! ## A known number of items -/

/-- `for (i = 0; i < count; ++i) items.push_back(read(input, offset));` -/
def readMany (read : Reader ε β α) : Nat → Reader ε β (List α)
  | 0, _, offset => .ok ([], offset)
  | count + 1, input, offset => do
      let (a, offset) ← read input offset
      let (as, offset) ← readMany read count input offset
      return (a :: as, offset)

variable {read : Reader ε β α} {write : α → List β} {P : α → Prop}

theorem readMany_readsBack (h : ReadsBack read write P) : ∀ (as : List α) (before after : List β),
    (∀ a ∈ as, P a) →
      readMany read as.length (before ++ (as.flatMap write ++ after)) before.length =
        .ok (as, before.length + (as.flatMap write).length) := by
  intro as
  induction as with
  | nil =>
      intro before after _
      rfl
  | cons a as ih =>
      intro before after hP
      have hfirst := h a (hP a (by simp)) before (as.flatMap write ++ after)
      -- the items behind the first one stand behind a longer prefix
      have hrest := ih (before ++ write a) after fun b hb => hP b (by simp [hb])
      rw [List.append_assoc, List.length_append] at hrest
      rw [List.flatMap_cons, List.append_assoc]
      refine bind_eq_ok.2 ⟨_, hfirst, ?_⟩
      refine bind_eq_ok.2 ⟨_, hrest, ?_⟩
      rw [List.length_append, Nat.add_assoc]
      rfl

theorem readMany_length : ∀ {count : Nat} {input : List β} {offset offset' : Nat} {as : List α},
    readMany read count input offset = .ok (as, offset') → as.length = count := by
  intro count
  induction count with
  | zero =>
      intro input offset offset' as h
      cases h
      rfl
  | succ count ih =>
      intro input offset offset' as h
      rcases bind_eq_ok.1 h with ⟨⟨a, mid⟩, _, h⟩
      rcases bind_eq_ok.1 h with ⟨⟨rest, last⟩, hrest, h⟩
      cases h
      rw [List.length_cons, ih hrest]

/-- A reader that makes a check on each item reads what the other one reads, if all items pass. -/
theorem readMany_checked {read' : Reader ε β α}
    (h : ∀ input offset a offset', read' input offset = .ok (a, offset') ↔
      read input offset = .ok (a, offset') ∧ P a) :
    ∀ {count : Nat} {input : List β} {offset offset' : Nat} {as : List α},
      readMany read' count input offset = .ok (as, offset') ↔
        readMany read count input offset = .ok (as, offset') ∧ ∀ a ∈ as, P a := by
  intro count
  induction count with
  | zero =>
      intro input offset offset' as
      constructor
      · intro hread
        cases hread
        exact ⟨rfl, fun a ha => absurd ha List.not_mem_nil⟩
      · exact fun hread => hread.1
  | succ count ih =>
      intro input offset offset' as
      constructor
      · intro hread
        rcases bind_eq_ok.1 hread with ⟨⟨a, mid⟩, hfirst, hread⟩
        rcases bind_eq_ok.1 hread with ⟨⟨rest, last⟩, hrest, hread⟩
        cases hread
        have hfirst' := (h _ _ _ _).1 hfirst
        have hrest' := ih.1 hrest
        refine ⟨bind_eq_ok.2 ⟨_, hfirst'.1, bind_eq_ok.2 ⟨_, hrest'.1, rfl⟩⟩, ?_⟩
        exact List.forall_mem_cons.2 ⟨hfirst'.2, hrest'.2⟩
      · rintro ⟨hread, hP⟩
        rcases bind_eq_ok.1 hread with ⟨⟨a, mid⟩, hfirst, hread⟩
        rcases bind_eq_ok.1 hread with ⟨⟨rest, last⟩, hrest, hread⟩
        cases hread
        have hP' := List.forall_mem_cons.1 hP
        refine bind_eq_ok.2 ⟨_, (h _ _ _ _).2 ⟨hfirst, hP'.1⟩, ?_⟩
        exact bind_eq_ok.2 ⟨_, ih.2 ⟨hrest, hP'.2⟩, rfl⟩

/-! ## One item after the other -/

/-- What stands in a buffer from an offset on. -/
structure Behind (input : List β) (offset : Nat) (rest : List β) : Prop where
  inside : offset ≤ input.length
  rest_eq : input.drop offset = rest

theorem behind_append (before rest : List β) : Behind (before ++ rest) before.length rest where
  inside := by
    rw [List.length_append]
    exact Nat.le_add_right ..
  rest_eq := List.drop_left

theorem Behind.skip {input before rest : List β} {offset : Nat}
    (h : Behind input offset (before ++ rest)) : Behind input (offset + before.length) rest where
  inside := by
    have hlen := congrArg List.length h.rest_eq
    rw [List.length_drop, List.length_append] at hlen
    have hinside := h.inside
    omega
  rest_eq := by
    rw [← List.drop_drop, h.rest_eq, List.drop_left]

theorem Behind.length_eq {input rest : List β} {offset : Nat} (h : Behind input offset rest) :
    input.length - offset = rest.length := by
  rw [← h.rest_eq, List.length_drop]

theorem Behind.end_eq {input : List β} {offset : Nat} (h : Behind input offset []) :
    offset = input.length := by
  have hlen := h.length_eq
  have hinside := h.inside
  rw [List.length_nil] at hlen
  omega

theorem ReadsBack.next (h : ReadsBack read write P) {a : α} (ha : P a) {input rest : List β}
    {offset : Nat} (hbehind : Behind input offset (write a ++ rest)) :
    read input offset = .ok (a, offset + (write a).length) := by
  have hlen : (input.take offset).length = offset := by
    rw [List.length_take, Nat.min_eq_left hbehind.inside]
  have hread := h a ha (input.take offset) rest
  rwa [← hbehind.rest_eq, List.take_append_drop, hlen] at hread

theorem ReadsBack.nextMany (h : ReadsBack read write P) {as : List α} (has : ∀ a ∈ as, P a)
    {input rest : List β} {offset : Nat}
    (hbehind : Behind input offset (as.flatMap write ++ rest)) :
    readMany read as.length input offset = .ok (as, offset + (as.flatMap write).length) := by
  have hlen : (input.take offset).length = offset := by
    rw [List.length_take, Nat.min_eq_left hbehind.inside]
  have hread := readMany_readsBack h as (input.take offset) rest has
  rwa [← hbehind.rest_eq, List.take_append_drop, hlen] at hread

/-! ## Up to the end of the buffer -/

/-- `while (offset < input.size()) items.push_back(read(input, offset));`, with `none` for a loop
that has not ended after `fuel` rounds. -/
def readAll (read : Reader ε β α) (input : List β) : Nat → Nat → Option (Except ε (List α))
  | 0, _ => none
  | fuel + 1, offset =>
      if offset < input.length then
        match read input offset with
        | .error e => some (.error e)
        | .ok (a, offset) => (readAll read input fuel offset).map fun rest => (a :: ·) <$> rest
      else
        some (.ok [])

/-- Every round takes an element off what is left, so its length is enough fuel. -/
theorem readAll_terminates (h : Advances read) (input : List β) :
    ∀ (fuel offset : Nat), offset ≤ input.length → input.length - offset < fuel →
      ∃ outcome, readAll read input fuel offset = some outcome := by
  intro fuel
  induction fuel with
  | zero =>
      intro offset _ hfuel
      exact absurd hfuel (Nat.not_lt_zero _)
  | succ fuel ih =>
      intro offset hoffset hfuel
      unfold readAll
      split
      · rename_i hmore
        cases hread : read input offset with
        | error e => exact ⟨_, rfl⟩
        | ok item =>
            rcases item with ⟨a, offset'⟩
            rcases h input offset a offset' hoffset hread with ⟨hlt, hle⟩
            rcases ih offset' hle (by omega) with ⟨rest, hrest⟩
            refine ⟨(a :: ·) <$> rest, ?_⟩
            simp only [hrest, Option.map_some]
      · exact ⟨_, rfl⟩

/-- The loop ends with the items that stand at the end of the buffer. -/
theorem readAll_readsBack (h : ReadsBack read write P) (hadv : Advances read) :
    ∀ (as : List α) (before : List β) (fuel : Nat), (∀ a ∈ as, P a) → as.length < fuel →
      readAll read (before ++ as.flatMap write) fuel before.length = some (.ok as) := by
  intro as
  induction as with
  | nil =>
      intro before fuel _ hfuel
      obtain ⟨fuel, rfl⟩ : ∃ k, fuel = k + 1 := ⟨fuel - 1, by omega⟩
      simp [readAll]
  | cons a as ih =>
      intro before fuel hP hfuel
      obtain ⟨fuel, rfl⟩ : ∃ k, fuel = k + 1 := ⟨fuel - 1, by omega⟩
      have hfirst := h a (hP a (by simp)) before (as.flatMap write)
      have hrest := ih (before ++ write a) fuel (fun b hb => hP b (by simp [hb]))
        (by simpa using hfuel)
      rw [List.append_assoc, List.length_append] at hrest
      have hmoved := hadv _ _ _ _ (by simp) hfirst
      have hmore : before.length < (before ++ (write a ++ as.flatMap write)).length := by omega
      rw [List.flatMap_cons, readAll, if_pos hmore, hfirst]
      simp only [hrest, Option.map_some]
      rfl

end OffsetCodec
end SociSgx

import SociSgx.Secure.PredicateEngine
import SociSgx.Lib.TwoRuns

/-!
# Leakage — what a backend sees of the calls that it gets

`AlikeOps G A S` relates two backends whose calls end in the same way whenever the operands are
related by `A`: what differs between them are the plaintexts.  `traced` wraps a backend and a
predicate engine; it gives every ciphertext a name, the call that made it, and writes down every
call with its scalars, the sizes of its batches and the names of its operands.  Two runs of a
program over alike backends leave the same trace, unless the program looks into its ciphertexts.

The one thing that a program may learn is the answer of a predicate.  A traced engine compares the
answers with a given sequence, and gives the run up at the first one that differs, so that runs
that are not given up have been answered alike.
-/

namespace SociSgx
namespace Secure

open Exec

/-! ## Alike backends -/

section Alike

variable {G : Error → Prop} {σ τ C D : Type} [CiphertextLike C] [CiphertextLike D]

/-- Pairs of operands of a batch. -/
def PairsAlike (A : C → D → Prop) : List (C × C) → List (D × D) → Prop :=
  List.Forall₂ fun item item' => A item.1 item'.1 ∧ A item.2 item'.2

def BitAlike (A : C → D → Prop) (bit : EncryptedBit C) (bit' : EncryptedBit D) : Prop :=
  A bit.ciphertext bit'.ciphertext

/-- Related operands give related results, or the same exception. -/
structure AlikeOps (G : Error → Prop) (A : C → D → Prop) (S : σ → τ → Prop) (ops : SecureOps σ C)
    (ops' : SecureOps τ D) : Prop where
  blank : A default default
  empty : ∀ {a a'}, A a a' → CiphertextLike.empty a = CiphertextLike.empty a'
  domain : ops.domain = ops'.domain
  encryptConstant : ∀ v, Lockstep G S (ops.encryptConstant v) (ops'.encryptConstant v) A
  add : ∀ {a b a' b'}, A a a' → A b b' → Lockstep G S (ops.add a b) (ops'.add a' b') A
  scalarMul : ∀ {a a'} k, A a a' → Lockstep G S (ops.scalarMul a k) (ops'.scalarMul a' k) A
  secureMul : ∀ {a b a' b'}, A a a' → A b b' →
    Lockstep G S (ops.secureMul a b) (ops'.secureMul a' b') A
  secureMulBatch : ∀ {items items'}, PairsAlike A items items' →
    Lockstep G S (ops.secureMulBatch items) (ops'.secureMulBatch items') (List.Forall₂ A)
  greaterThan : ∀ {a b a' b'}, A a a' → A b b' →
    Lockstep G S (ops.greaterThan a b) (ops'.greaterThan a' b') (BitAlike A)
  greaterThanBatch : ∀ {items items'}, PairsAlike A items items' →
    Lockstep G S (ops.greaterThanBatch items) (ops'.greaterThanBatch items')
      (List.Forall₂ (BitAlike A))

namespace AlikeOps

variable {A : C → D → Prop} {S : σ → τ → Prop} {ops : SecureOps σ C} {ops' : SecureOps τ D}
  (h : AlikeOps G A S ops ops') {a b : C} {a' b' : D}
include h

theorem sub (ha : A a a') (hb : A b b') : Lockstep G S (ops.sub a b) (ops'.sub a' b') A :=
  (h.scalarMul (-1) hb).bind fun _ _ hc => h.add ha hc

theorem bitNot {bit : EncryptedBit C} {bit' : EncryptedBit D} (hbit : BitAlike A bit bit') :
    Lockstep G S (ops.bitNot bit) (ops'.bitNot bit') (BitAlike A) := by
  refine (h.encryptConstant 1).bind fun _ _ hone => ?_
  exact (h.sub hone hbit).map fun _ _ hc => hc

variable {s t : EncryptedBit C} {s' t' : EncryptedBit D}

theorem bitAnd (hs : BitAlike A s s') (ht : BitAlike A t t') :
    Lockstep G S (ops.bitAnd s t) (ops'.bitAnd s' t') (BitAlike A) :=
  (h.secureMul hs ht).map fun _ _ hc => hc

theorem bitOr (hs : BitAlike A s s') (ht : BitAlike A t t') :
    Lockstep G S (ops.bitOr s t) (ops'.bitOr s' t') (BitAlike A) := by
  refine (h.secureMul hs ht).bind fun _ _ hproduct => ?_
  refine (h.add hs ht).bind fun _ _ hsum => ?_
  exact (h.sub hsum hproduct).map fun _ _ hc => hc

theorem bitOrExclusive (hs : BitAlike A s s') (ht : BitAlike A t t') :
    Lockstep G S (ops.bitOrExclusive s t) (ops'.bitOrExclusive s' t') (BitAlike A) :=
  (h.add hs ht).map fun _ _ hc => hc

theorem bitOrBatch {items : List (EncryptedBit C × EncryptedBit C)}
    {items' : List (EncryptedBit D × EncryptedBit D)}
    (hitems : List.Forall₂ (fun item item' => BitAlike A item.1 item'.1 ∧
      BitAlike A item.2 item'.2) items items') :
    Lockstep G S (ops.bitOrBatch items) (ops'.bitOrBatch items') (List.Forall₂ (BitAlike A)) := by
  have hpairs : PairsAlike A (items.map fun item => (item.1.ciphertext, item.2.ciphertext))
      (items'.map fun item => (item.1.ciphertext, item.2.ciphertext)) := by
    simpa [PairsAlike, BitAlike, List.forall₂_map_left_iff, List.forall₂_map_right_iff] using hitems
  refine (h.secureMulBatch hpairs).bind fun products products' hproducts => ?_
  refine Lockstep.mapM (zip_rel hitems hproducts) fun entry entry' hentry => ?_
  refine (h.add hentry.1.1 hentry.1.2).bind fun _ _ hsum => ?_
  exact (h.sub hsum hentry.2).map fun _ _ hc => hc

theorem select (hs : BitAlike A s s') (ha : A a a') (hb : A b b') :
    Lockstep G S (ops.select s a b) (ops'.select s' a' b') A := by
  refine (h.sub ha hb).bind fun _ _ hdelta => ?_
  refine (h.secureMul hs hdelta).bind fun _ _ hproduct => ?_
  exact h.add hb hproduct

theorem min (ha : A a a') (hb : A b b') : Lockstep G S (ops.min a b) (ops'.min a' b') A :=
  (h.greaterThan hb ha).bind fun _ _ hbit => h.select hbit ha hb

theorem max (ha : A a a') (hb : A b b') : Lockstep G S (ops.max a b) (ops'.max a' b') A :=
  (h.greaterThan ha hb).bind fun _ _ hbit => h.select hbit ha hb

theorem onFst {κ μ : Type} (K : κ → μ → Prop) :
    AlikeOps G A (Both S K) (ops.onFst κ) (ops'.onFst μ) where
  blank := h.blank
  empty := h.empty
  domain := h.domain
  encryptConstant := fun v => (h.encryptConstant v).onFst K
  add := fun ha hb => (h.add ha hb).onFst K
  scalarMul := fun k ha => (h.scalarMul k ha).onFst K
  secureMul := fun ha hb => (h.secureMul ha hb).onFst K
  secureMulBatch := fun hitems => (h.secureMulBatch hitems).onFst K
  greaterThan := fun ha hb => (h.greaterThan ha hb).onFst K
  greaterThanBatch := fun hitems => (h.greaterThanBatch hitems).onFst K

end AlikeOps

/-- Inputs of a predicate. -/
structure PruneInputs.Alike (A : C → D → Prop) (inputs : PruneInputs C)
    (inputs' : PruneInputs D) : Prop where
  linearUpper : A inputs.linearUpper inputs'.linearUpper
  costLowers : List.Forall₂ A inputs.costLowers inputs'.costLowers
  hasIncumbent : inputs.hasIncumbent = inputs'.hasIncumbent
  incumbentCost : A inputs.incumbentCost inputs'.incumbentCost

structure AcceptInputs.Alike (A : C → D → Prop) (inputs : AcceptInputs C)
    (inputs' : AcceptInputs D) : Prop where
  linear : A inputs.linear inputs'.linear
  c3 : A inputs.c3 inputs'.c3
  cost : A inputs.cost inputs'.cost
  c12 : A inputs.c12 inputs'.c12
  hasIncumbent : inputs.hasIncumbent = inputs'.hasIncumbent
  incumbentCost : A inputs.incumbentCost inputs'.incumbentCost
  incumbentC12 : A inputs.incumbentC12 inputs'.incumbentC12

/-- The parties of two engines end their calls in the same way; which bits they reveal is open. -/
structure AlikeParties (G : Error → Prop) (A : C → D → Prop) (S : σ → τ → Prop)
    (e : PredicateEngine σ C) (e' : PredicateEngine τ D) : Prop where
  ops : AlikeOps G A S e.ops e'.ops
  authorize : ∀ context, Lockstep G S (e.authorizer context) (e'.authorizer context) Eq
  resolve : ∀ context {bit bit'}, BitAlike A bit bit' →
    Lockstep G S (e.resolver context bit) (e'.resolver context bit') fun _ _ => True
  fused : (e.ops.fused = none ∧ e'.ops.fused = none) ∨ ∃ f f', e.ops.fused = some f ∧
    e'.ops.fused = some f' ∧ Lockstep G S f.predicateFusionEnabled f'.predicateFusionEnabled Eq ∧
    (∀ context {inputs inputs'}, PruneInputs.Alike A inputs inputs' →
      Lockstep G S (f.fusedPruneNode context inputs) (f'.fusedPruneNode context inputs')
        fun _ _ => True) ∧
    ∀ context {inputs inputs'}, AcceptInputs.Alike A inputs inputs' →
      Lockstep G S (f.fusedAcceptCandidate context inputs)
        (f'.fusedAcceptCandidate context inputs') fun _ _ => True

end Alike

/-! ## Names and traces -/

/-- Where a ciphertext comes from. -/
inductive Name where
  | blank
  | given (row method : Nat)
  | result (call item : Nat)
  deriving DecidableEq, Repr

structure Named (C : Type) where
  value : C
  name : Name

instance {C : Type} [CiphertextLike C] : CiphertextLike (Named C) where
  default := ⟨default, .blank⟩
  empty := fun c => CiphertextLike.empty c.value
  empty_default := CiphertextLike.empty_default

def PruneInputs.map {C D : Type} (f : C → D) (inputs : PruneInputs C) : PruneInputs D :=
  { linearUpper := f inputs.linearUpper
    costLowers := inputs.costLowers.map f
    hasIncumbent := inputs.hasIncumbent
    incumbentCost := f inputs.incumbentCost }

def AcceptInputs.map {C D : Type} (f : C → D) (inputs : AcceptInputs C) : AcceptInputs D :=
  { linear := f inputs.linear
    c3 := f inputs.c3
    cost := f inputs.cost
    c12 := f inputs.c12
    hasIncumbent := inputs.hasIncumbent
    incumbentCost := f inputs.incumbentCost
    incumbentC12 := f inputs.incumbentC12 }

/-- A call, with everything about it but the plaintexts. -/
inductive TracedCall where
  | encryptConstant (value : Int)
  | add (a b : Name)
  | scalarMul (a : Name) (scalar : Int)
  | secureMul (a b : Name)
  | secureMulBatch (items : List (Name × Name))
  | greaterThan (a b : Name)
  | greaterThanBatch (items : List (Name × Name))
  | authorize (context : PredicateContext)
  | resolve (context : PredicateContext) (bit : Name)
  | fusedPruneNode (context : PredicateContext) (inputs : PruneInputs Name)
  | fusedAcceptCandidate (context : PredicateContext) (inputs : AcceptInputs Name)

abbrev Trace := List TracedCall

/-- The contexts of the predicates whose bits have been revealed, in their order. -/
def Trace.contexts (trace : Trace) : List PredicateContext :=
  trace.filterMap fun call =>
    match call with
    | .resolve context _ => some context
    | .fusedPruneNode context _ => some context
    | .fusedAcceptCandidate context _ => some context
    | _ => none

/-- Numbers of evaluations. -/
abbrev Counts := PredicateType → Nat

/-- One evaluation more. -/
def Counts.tick (k : Counts) (type : PredicateType) : Counts :=
  k + Pi.single type 1

/-- How many predicates of each type have been evaluated. -/
def Trace.evaluated (trace : Trace) : Counts := fun type =>
  (trace.contexts.filter fun context => context.predicateType = type).length

theorem Trace.evaluated_append (trace trace' : Trace) :
    Trace.evaluated (trace ++ trace') = trace.evaluated + trace'.evaluated := by
  funext type
  simp [Trace.evaluated, Trace.contexts]

theorem Trace.evaluated_single {call : TracedCall} {context : PredicateContext}
    (h : Trace.contexts [call] = [context]) (k : Counts) :
    k + Trace.evaluated [call] = k.tick context.predicateType := by
  refine congrArg (k + ·) (funext fun type => ?_)
  by_cases htype : type = context.predicateType
  · subst htype
    simp [Trace.evaluated, h]
  · simp [Trace.evaluated, h, Ne.symm htype]

/-- A trace with predicates of the two known types only. -/
theorem Trace.length_contexts {trace : Trace} (h : ∀ v, trace.evaluated (.other v) = 0) :
    trace.contexts.length = trace.evaluated .pruneNode + trace.evaluated .acceptCandidate := by
  have hnone : ∀ context ∈ trace.contexts, ∀ v, context.predicateType ≠ .other v := by
    intro context hcontext v htype
    have hempty := List.eq_nil_of_length_eq_zero (h v)
    rw [List.filter_eq_nil_iff] at hempty
    exact hempty context hcontext (by simpa using htype)
  simp only [Trace.evaluated]
  generalize trace.contexts = contexts at hnone
  clear h
  induction contexts with
  | nil => rfl
  | cons context contexts ih =>
      have hrest := ih fun c hc => hnone c (List.mem_cons_of_mem _ hc)
      have hhead := hnone context List.mem_cons_self
      cases htype : context.predicateType with
      | pruneNode => simp [htype, hrest]; omega
      | acceptCandidate => simp [htype, hrest]; omega
      | other v => exact absurd htype (hhead v)

variable {σ τ C D α β : Type}

/-- Write a call down, make it, and name what it returns. -/
def traceCall (call : TracedCall) (m : SecureM σ α) (name : Nat → α → β) :
    SecureM (σ × Trace) β := do
  let trace ← locals
  update fun trace => trace ++ [call]
  let value ← onFst m
  return name trace.length value

def nameResult (call : Nat) (c : C) : Named C :=
  ⟨c, .result call 0⟩

def nameBit (call : Nat) (bit : EncryptedBit C) : EncryptedBit (Named C) :=
  ⟨nameResult call bit.ciphertext⟩

def nameResults (call : Nat) (cs : List C) : List (Named C) :=
  cs.mapIdx fun i c => ⟨c, .result call i⟩

def nameBits (call : Nat) (bits : List (EncryptedBit C)) : List (EncryptedBit (Named C)) :=
  bits.mapIdx fun i bit => ⟨⟨bit.ciphertext, .result call i⟩⟩

def pairNames (items : List (Named C × Named C)) : List (Name × Name) :=
  items.map fun item => (item.1.name, item.2.name)

def pairValues (items : List (Named C × Named C)) : List (C × C) :=
  items.map fun item => (item.1.value, item.2.value)

def tracedOps (ops : SecureOps σ C) : SecureOps (σ × Trace) (Named C) :=
  { encryptConstant := fun v => traceCall (.encryptConstant v) (ops.encryptConstant v) nameResult
    add := fun a b => traceCall (.add a.name b.name) (ops.add a.value b.value) nameResult
    scalarMul := fun a k => traceCall (.scalarMul a.name k) (ops.scalarMul a.value k) nameResult
    secureMul := fun a b =>
      traceCall (.secureMul a.name b.name) (ops.secureMul a.value b.value) nameResult
    secureMulBatch := fun items =>
      traceCall (.secureMulBatch (pairNames items)) (ops.secureMulBatch (pairValues items))
        nameResults
    greaterThan := fun a b =>
      traceCall (.greaterThan a.name b.name) (ops.greaterThan a.value b.value) nameBit
    greaterThanBatch := fun items =>
      traceCall (.greaterThanBatch (pairNames items)) (ops.greaterThanBatch (pairValues items))
        nameBits
    domain := ops.domain
    fused := ops.fused.map fun fused =>
      { predicateFusionEnabled := onFst fused.predicateFusionEnabled
        fusedPruneNode := fun context inputs =>
          traceCall (.fusedPruneNode context (inputs.map Named.name))
            (fused.fusedPruneNode context (inputs.map Named.value)) fun _ bit => bit
        fusedAcceptCandidate := fun context inputs =>
          traceCall (.fusedAcceptCandidate context (inputs.map Named.name))
            (fused.fusedAcceptCandidate context (inputs.map Named.value)) fun _ bit => bit } }

/-- The exception of a run that has been given up. -/
def unexpectedAnswer : Error := .backend "unexpected predicate answer"

def Unexpected (e : Error) : Prop :=
  e = unexpectedAnswer

instance : DecidablePred Unexpected := fun e => decEq e unexpectedAnswer

/-- The answer of the evaluation with number `k`, counted from one, has to be `answers k`. -/
def expectAnswer (answers : Nat → Bool) (m : SecureM (σ × Trace) Bool) :
    SecureM (σ × Trace) Bool := do
  let bit ← m
  let trace ← locals
  require (bit = answers trace.contexts.length) unexpectedAnswer
  return bit

def expectFused (answers : Nat → Bool) (ops : SecureOps (σ × Trace) C) :
    SecureOps (σ × Trace) C :=
  { ops with
    fused := ops.fused.map fun fused =>
      { fused with
        fusedPruneNode := fun context inputs =>
          expectAnswer answers (fused.fusedPruneNode context inputs)
        fusedAcceptCandidate := fun context inputs =>
          expectAnswer answers (fused.fusedAcceptCandidate context inputs) } }

/-- The engine over a traced backend. -/
def tracedEngine (answers : Nat → Bool) (e : PredicateEngine σ C) :
    PredicateEngine (σ × Trace) (Named C) :=
  { ops := expectFused answers (tracedOps e.ops)
    authorizer := fun context =>
      traceCall (.authorize context) (e.authorizer context) fun _ bit => bit
    resolver := fun context bit =>
      expectAnswer answers (traceCall (.resolve context bit.ciphertext.name)
        (e.resolver context ⟨bit.ciphertext.value⟩) fun _ bit => bit) }

/-- The traces are the same, and `k` says how many evaluations of each type they hold. -/
def Synced (S : σ → τ → Prop) (k : Counts) (s : σ × Trace) (t : τ × Trace) : Prop :=
  S s.1 t.1 ∧ s.2 = t.2 ∧ s.2.evaluated = k

/-- Ciphertexts of one origin. -/
def Same (A : C → D → Prop) (c : Named C) (d : Named D) : Prop :=
  c.name = d.name ∧ A c.value d.value

section Traced

variable {G : Error → Prop} {S : σ → τ → Prop} {A : C → D → Prop} {γ δ : Type} {m : SecureM σ α}
  {n : SecureM τ β} {R : α → β → Prop} {T : γ → δ → Prop}

theorem traceCall_twin {call call' : TracedCall} {f : Nat → α → γ} {g : Nat → β → δ}
    (k : Counts) (hcall : call = call') (hmn : Lockstep G S m n R)
    (hfg : ∀ i a b, R a b → T (f i a) (g i b)) :
    Twin G (Synced S k) (traceCall call m f) (traceCall call' n g)
      (fun a b s t => T a b ∧ Synced S (k + Trace.evaluated [call]) s t)
      (Synced S (k + Trace.evaluated [call])) := by
  subst hcall
  refine Twin.bind (Q := fun i j s t => i.length = j.length ∧ Synced S k s t) ?_ fun i j =>
    Twin.assuming fun hij => ?_
  · rintro ⟨s, trace⟩ ⟨t, trace'⟩ ⟨hst, heq, hk⟩
    exact Or.inr (Or.inr ⟨congrArg List.length heq, hst, heq, hk⟩)
  refine Twin.bind (Q := fun _ _ => Synced S (k + Trace.evaluated [call])) ?_
    fun _ _ => ?_
  · refine Twin.update fun s t hst => ⟨hst.1, by rw [hst.2.1], ?_⟩
    rw [Trace.evaluated_append, hst.2.2]
  refine Twin.bind (Q := fun a b s t => R a b ∧
    Synced S (k + Trace.evaluated [call]) s t) ?_ fun a b => Twin.assuming fun hab =>
      Twin.pure fun s t hst => ⟨hij ▸ hfg _ _ _ hab, hst⟩
  exact (Twin.onFst hmn fun (trace trace' : Trace) => trace = trace' ∧
    trace.evaluated = k + Trace.evaluated [call]).weaken (fun _ _ hst => hst)
      (fun _ _ _ _ hst => ⟨hst.1.1, hst.1.2, hst.2⟩) fun _ _ hst => hst

/-- A call that is no evaluation. -/
theorem traceCall_lockstep {call call' : TracedCall} {f : Nat → α → γ} {g : Nat → β → δ}
    (k : Counts) (hcall : call = call') (hnone : Trace.contexts [call] = [])
    (hmn : Lockstep G S m n R) (hfg : ∀ i a b, R a b → T (f i a) (g i b)) :
    Lockstep G (Synced S k) (traceCall call m f) (traceCall call' n g) T := by
  have hcount : Trace.evaluated [call] = 0 := by
    funext type
    simp [Trace.evaluated, hnone]
  have htwin := traceCall_twin k hcall hmn hfg
  rw [hcount] at htwin
  exact htwin

theorem pairs_traced {items : List (Named C × Named C)} {items' : List (Named D × Named D)}
    (h : PairsAlike (Same A) items items') :
    pairNames items = pairNames items' ∧ PairsAlike A (pairValues items) (pairValues items') := by
  induction h with
  | nil => exact ⟨rfl, List.Forall₂.nil⟩
  | @cons item item' items items' hitem _ ih =>
      refine ⟨?_, List.Forall₂.cons ⟨hitem.1.2, hitem.2.2⟩ ih.2⟩
      have hhead : (item.1.name, item.2.name) = (item'.1.name, item'.2.name) :=
        Prod.ext hitem.1.1 hitem.2.1
      exact congrArg₂ List.cons hhead ih.1

theorem nameResults_same {cs : List C} {ds : List D} (i : Nat) (h : List.Forall₂ A cs ds) :
    List.Forall₂ (Same A) (nameResults i cs) (nameResults i ds) := by
  refine List.forall₂_iff_get.2 ⟨?_, fun j hj hj' => ?_⟩
  · simp [nameResults, h.length_eq]
  · simp only [nameResults, List.get_eq_getElem, List.getElem_mapIdx]
    exact ⟨rfl, h.get (by simpa [nameResults] using hj) (by simpa [nameResults] using hj')⟩

theorem nameBits_same {bits : List (EncryptedBit C)} {bits' : List (EncryptedBit D)} (i : Nat)
    (h : List.Forall₂ (fun bit bit' => A bit.ciphertext bit'.ciphertext) bits bits') :
    List.Forall₂ (fun bit bit' => Same A bit.ciphertext bit'.ciphertext) (nameBits i bits)
      (nameBits i bits') := by
  refine List.forall₂_iff_get.2 ⟨?_, fun j hj hj' => ?_⟩
  · simp [nameBits, h.length_eq]
  · simp only [nameBits, List.get_eq_getElem, List.getElem_mapIdx]
    exact ⟨rfl, h.get (by simpa [nameBits] using hj) (by simpa [nameBits] using hj')⟩

theorem names_eq {cs : List (Named C)} {ds : List (Named D)} (h : List.Forall₂ (Same A) cs ds) :
    cs.map Named.name = ds.map Named.name ∧
      List.Forall₂ A (cs.map Named.value) (ds.map Named.value) := by
  induction h with
  | nil => exact ⟨rfl, List.Forall₂.nil⟩
  | cons hcd _ ih => exact ⟨congrArg₂ List.cons hcd.1 ih.1, List.Forall₂.cons hcd.2 ih.2⟩

theorem PruneInputs.Alike.traced {inputs : PruneInputs (Named C)} {inputs' : PruneInputs (Named D)}
    (h : PruneInputs.Alike (Same A) inputs inputs') :
    inputs.map Named.name = inputs'.map Named.name ∧
      PruneInputs.Alike A (inputs.map Named.value) (inputs'.map Named.value) := by
  have hlowers := names_eq h.costLowers
  constructor
  · simp only [PruneInputs.map, h.linearUpper.1, hlowers.1, h.hasIncumbent, h.incumbentCost.1]
  · exact ⟨h.linearUpper.2, hlowers.2, h.hasIncumbent, h.incumbentCost.2⟩

theorem AcceptInputs.Alike.traced {inputs : AcceptInputs (Named C)}
    {inputs' : AcceptInputs (Named D)} (h : AcceptInputs.Alike (Same A) inputs inputs') :
    inputs.map Named.name = inputs'.map Named.name ∧
      AcceptInputs.Alike A (inputs.map Named.value) (inputs'.map Named.value) := by
  constructor
  · simp only [AcceptInputs.map, h.linear.1, h.c3.1, h.cost.1, h.c12.1, h.hasIncumbent,
      h.incumbentCost.1, h.incumbentC12.1]
  · exact ⟨h.linear.2, h.c3.2, h.cost.2, h.c12.2, h.hasIncumbent, h.incumbentCost.2,
      h.incumbentC12.2⟩

variable [CiphertextLike C] [CiphertextLike D]

/-- Traced backends are alike, and they write the same trace. -/
theorem tracedOps_alike {ops : SecureOps σ C} {ops' : SecureOps τ D} (h : AlikeOps G A S ops ops')
    (k : Counts) : AlikeOps G (Same A) (Synced S k) (tracedOps ops) (tracedOps ops') where
  blank := ⟨rfl, h.blank⟩
  empty := fun ha => h.empty ha.2
  domain := h.domain
  encryptConstant := fun v =>
    traceCall_lockstep k rfl rfl (h.encryptConstant v) fun _ _ _ hc => ⟨rfl, hc⟩
  add := fun ha hb =>
    traceCall_lockstep k (by rw [ha.1, hb.1]) rfl (h.add ha.2 hb.2) fun _ _ _ hc => ⟨rfl, hc⟩
  scalarMul := fun v ha =>
    traceCall_lockstep k (by rw [ha.1]) rfl (h.scalarMul v ha.2) fun _ _ _ hc => ⟨rfl, hc⟩
  secureMul := fun ha hb =>
    traceCall_lockstep k (by rw [ha.1, hb.1]) rfl (h.secureMul ha.2 hb.2)
      fun _ _ _ hc => ⟨rfl, hc⟩
  secureMulBatch := fun hitems =>
    traceCall_lockstep k (by rw [(pairs_traced hitems).1]) rfl
      (h.secureMulBatch (pairs_traced hitems).2) fun i _ _ hcs => nameResults_same i hcs
  greaterThan := fun ha hb =>
    traceCall_lockstep k (by rw [ha.1, hb.1]) rfl (h.greaterThan ha.2 hb.2)
      fun _ _ _ hc => ⟨rfl, hc⟩
  greaterThanBatch := fun hitems =>
    traceCall_lockstep k (by rw [(pairs_traced hitems).1]) rfl
      (h.greaterThanBatch (pairs_traced hitems).2) fun i _ _ hbits => nameBits_same i hbits

omit [CiphertextLike C] [CiphertextLike D] in
/-- A call that is no evaluation, seen from the tracer. -/
theorem onFst_traced (k : Counts) (hmn : Lockstep G S m n R) :
    Lockstep G (Synced S k) (onFst m) (onFst n) R :=
  hmn.onFst fun (trace trace' : Trace) => trace = trace' ∧ trace.evaluated = k

/-- Both runs evaluate one predicate of the type, and the answers are the same. -/
def EvaluatedAlike (S : σ → τ → Prop) (k : Counts) (type : PredicateType)
    (m : SecureM (σ × Trace) Bool) (n : SecureM (τ × Trace) Bool) : Prop :=
  Twin Unexpected (Synced S k) m n (fun b b' s t => b = b' ∧ Synced S (k.tick type) s t)
    (Synced S (k.tick type))

omit [CiphertextLike C] [CiphertextLike D] in
/-- Answers that both have the expected value are the same. -/
theorem expectAnswer_alike {call call' : TracedCall} {context : PredicateContext}
    {m : SecureM σ Bool} {n : SecureM τ Bool} (answers : Nat → Bool) (k : Counts)
    (hcall : call = call') (hone : Trace.contexts [call] = [context])
    (hmn : Lockstep Unexpected S m n fun _ _ => True) :
    EvaluatedAlike S k context.predicateType
      (expectAnswer answers (traceCall call m fun _ bit => bit))
      (expectAnswer answers (traceCall call' n fun _ bit => bit)) := by
  have htrace := traceCall_twin (f := fun _ bit => bit) (g := fun _ bit => bit)
    (T := fun _ _ => True) k hcall hmn fun _ _ _ _ => trivial
  rw [Trace.evaluated_single hone] at htrace
  refine htrace.bind fun b b' => Twin.assuming fun _ => ?_
  refine Twin.locals_bind (P := S) (K := fun (trace trace' : Trace) => trace = trace' ∧
    trace.evaluated = k.tick context.predicateType) fun trace trace' htraces => ?_
  rcases htraces with ⟨rfl, hk⟩
  have hrelated : ∀ (s : σ × Trace) (t : τ × Trace),
      Both S (fun trace₁ trace₂ => trace₁ = trace ∧ trace₂ = trace) s t →
        Synced S (k.tick context.predicateType) s t := by
    intro s t hst
    exact ⟨hst.1, hst.2.1.trans hst.2.2.symm, by rw [hst.2.1, hk]⟩
  refine Twin.weaken ?_ hrelated (fun _ _ _ _ hst => hst) fun _ _ hst => hst
  have hexpected : Lockstep Unexpected (Synced S (k.tick context.predicateType))
      (require (b = answers trace.contexts.length) unexpectedAnswer)
      (require (b' = answers trace.contexts.length) unexpectedAnswer) _ :=
    Lockstep.require_givenUp rfl
  refine hexpected.bind fun _ _ hanswers => ?_
  exact Lockstep.pure (hanswers.1.trans hanswers.2.symm)

theorem expectFused_alike (answers : Nat → Bool) {k : Counts}
    {ops : SecureOps (σ × Trace) C} {ops' : SecureOps (τ × Trace) D}
    (h : AlikeOps G A (Synced S k) ops ops') :
    AlikeOps G A (Synced S k) (expectFused answers ops) (expectFused answers ops') :=
  ⟨h.blank, h.empty, h.domain, h.encryptConstant, h.add, h.scalarMul, h.secureMul,
    h.secureMulBatch, h.greaterThan, h.greaterThanBatch⟩

end Traced

/-! ## The predicate engine -/

namespace PredicateEngine

section Bits

variable {G : Error → Prop} {A : C → D → Prop} {S : σ → τ → Prop} {ops : SecureOps σ C}
  {ops' : SecureOps τ D}

theorem front_alike {bits : List (EncryptedBit C)} {bits' : List (EncryptedBit D)}
    (h : List.Forall₂ (BitAlike A) bits bits') :
    Lockstep G S (front bits : SecureM σ (EncryptedBit C))
      (front bits' : SecureM τ (EncryptedBit D)) (BitAlike A) := by
  cases h with
  | nil => exact Lockstep.throw
  | cons hbit _ => exact Lockstep.pure hbit

variable [CiphertextLike C] [CiphertextLike D]

theorem foldLayers_alike (h : AlikeOps G A S ops ops') (fuel : Nat) :
    ∀ {layer : List (EncryptedBit C)} {layer' : List (EncryptedBit D)},
      List.Forall₂ (BitAlike A) layer layer' →
      Lockstep G S (foldLayers ops fuel layer) (foldLayers ops' fuel layer')
        (List.Forall₂ (BitAlike A)) := by
  induction fuel with
  | zero => exact fun hlayer => Lockstep.pure hlayer
  | succ fuel ih =>
      intro layer layer' hlayer
      have hlength := hlayer.length_eq
      rw [foldLayers, foldLayers]
      by_cases hshort : layer.length ≤ 1
      · rw [if_pos hshort, if_pos (hlength ▸ hshort)]
        exact Lockstep.pure hlayer
      · rw [if_neg hshort, if_neg (hlength ▸ hshort)]
        refine (h.bitOrBatch (pairUp_forall₂ hlayer).1).bind fun next next' hnext => ?_
        exact ih (List.rel_append hnext (pairUp_forall₂ hlayer).2)

/-- Every test of `pruneNode` before its final bit is about public values. -/
theorem pruneBit_alike (h : AlikeOps G A S ops ops') {inputs : PruneInputs C}
    {inputs' : PruneInputs D} (hin : PruneInputs.Alike A inputs inputs') :
    Lockstep G S (pruneBit ops inputs) (pruneBit ops' inputs') (BitAlike A) := by
  have hinc := hin.hasIncumbent
  have hlowers : inputs.costLowers.isEmpty = inputs'.costLowers.isEmpty := by
    rw [Bool.eq_iff_iff, List.isEmpty_iff_length_eq_zero, List.isEmpty_iff_length_eq_zero,
      hin.costLowers.length_eq]
  refine (h.encryptConstant 0).bind fun zero zero' hzero => ?_
  refine Lockstep.bind (Lockstep.require (by rw [hinc, h.empty hin.incumbentCost]))
    fun _ _ _ => ?_
  refine Lockstep.bind (Lockstep.require (by rw [hinc, hlowers])) fun _ _ _ => ?_
  have hcomparisons : PairsAlike A (pruneComparisons zero inputs)
      (pruneComparisons zero' inputs') := by
    refine List.Forall₂.cons ⟨hzero, hin.linearUpper⟩ ?_
    rw [hinc]
    split
    · simpa [List.forall₂_map_left_iff, List.forall₂_map_right_iff] using
        hin.costLowers.imp fun _ _ hlower => ⟨hlower, hin.incumbentCost⟩
    · exact List.Forall₂.nil
  refine (h.greaterThanBatch hcomparisons).bind fun bits bits' hbits => ?_
  refine (front_alike hbits).bind fun bit bit' hbit => ?_
  rw [hinc]
  by_cases hinc' : inputs'.hasIncumbent = true
  · rw [if_pos hinc', if_pos hinc']
    have htail : List.Forall₂ (BitAlike A) bits.tail bits'.tail := by
      cases hbits with
      | nil => exact List.Forall₂.nil
      | cons _ hrest => exact hrest
    rw [htail.length_eq]
    refine (foldLayers_alike h _ htail).bind fun layers layers' hlayers => ?_
    exact (front_alike hlayers).bind fun _ _ hcost => h.bitOr hbit hcost
  · rw [if_neg hinc', if_neg hinc']
    exact Lockstep.pure hbit

theorem acceptBit_alike (h : AlikeOps G A S ops ops') {inputs : AcceptInputs C}
    {inputs' : AcceptInputs D} (hin : AcceptInputs.Alike A inputs inputs') :
    Lockstep G S (acceptBit ops inputs) (acceptBit ops' inputs') (BitAlike A) := by
  have hinc := hin.hasIncumbent
  refine (h.encryptConstant 0).bind fun zero zero' hzero => ?_
  refine Lockstep.bind (Lockstep.require (by
    rw [hinc, h.empty hin.incumbentCost, h.empty hin.incumbentC12])) fun _ _ _ => ?_
  have hcomparisons : PairsAlike A (acceptComparisons zero inputs)
      (acceptComparisons zero' inputs') := by
    refine List.Forall₂.cons ⟨hzero, hin.linear⟩ (List.Forall₂.cons ⟨hin.c3, hzero⟩ ?_)
    -- Whether there is an incumbent is public, so both make the same gates.
    rw [hinc]
    split
    · exact List.Forall₂.cons ⟨hin.incumbentCost, hin.cost⟩ (List.Forall₂.cons
        ⟨hin.cost, hin.incumbentCost⟩ (List.Forall₂.cons ⟨hin.incumbentC12, hin.c12⟩
          List.Forall₂.nil))
    · exact List.Forall₂.nil
  refine (h.greaterThanBatch hcomparisons).bind fun bits bits' hbits => ?_
  rw [hinc]
  cases inputs'.hasIncumbent with
  | false =>
      rcases hbits with _ | ⟨hlinear, _ | ⟨hc3, _⟩⟩
      · exact Lockstep.throw
      · exact Lockstep.throw
      · exact (h.bitNot hlinear).bind fun _ _ hge => h.bitAnd hge hc3
  | true =>
      rcases hbits with _ | ⟨hlinear, _ | ⟨hc3, _ | ⟨hlt, _ | ⟨hgt, _ | ⟨hc12, _⟩⟩⟩⟩⟩
      · exact Lockstep.throw
      · exact Lockstep.throw
      · exact Lockstep.throw
      · exact Lockstep.throw
      · exact Lockstep.throw
      · refine (h.bitNot hlinear).bind fun _ _ hge => ?_
        refine (h.bitAnd hge hc3).bind fun _ _ hfeasible => ?_
        refine (h.bitOrExclusive hlt hgt).bind fun _ _ hneq => ?_
        refine (h.bitNot hneq).bind fun _ _ heq => ?_
        refine (h.bitAnd heq hc12).bind fun _ _ htie => ?_
        exact (h.bitOrExclusive hlt htie).bind fun _ _ hbetter => h.bitAnd hfeasible hbetter

end Bits

section Engine

variable [CiphertextLike C] [CiphertextLike D] {A : C → D → Prop} {S : σ → τ → Prop}
  {e : PredicateEngine σ C} {e' : PredicateEngine τ D} {answers : Nat → Bool}
  {context : PredicateContext}

/-- The traces and the consumed pairs are the same. -/
def EngineSynced (S : σ → τ → Prop) (k : Counts) :
    EngineWorld (σ × Trace) → EngineWorld (τ × Trace) → Prop :=
  Both (Synced S k) Eq

def EngineEnded (S : σ → τ → Prop) (s : EngineWorld (σ × Trace)) (t : EngineWorld (τ × Trace)) :
    Prop :=
  ∃ k, EngineSynced S k s t

omit [CiphertextLike C] [CiphertextLike D] in
/-- What is no evaluation. -/
theorem ended_of_lockstep {k : Counts} {m : SecureM (EngineWorld (σ × Trace)) α}
    {n : SecureM (EngineWorld (τ × Trace)) β} {R : α → β → Prop}
    (h : Lockstep Unexpected (EngineSynced S k) m n R) :
    Twin Unexpected (EngineSynced S k) m n (fun a b s t => R a b ∧ EngineSynced S k s t)
      (EngineEnded S) :=
  h.weaken (fun _ _ hst => hst) (fun _ _ _ _ hst => hst) fun _ _ hst => ⟨k, hst⟩

omit [CiphertextLike C] [CiphertextLike D] in
theorem consume_alike {G : Error → Prop} {k : Counts} (key : Bytes) : Lockstep G (EngineSynced S k)
    (consume key : SecureM (EngineWorld (σ × Trace)) Unit)
    (consume key : SecureM (EngineWorld (τ × Trace)) Unit) (fun _ _ => True) := by
  rintro ⟨s, keys⟩ ⟨t, keys'⟩ ⟨hst, heq⟩
  change keys = keys' at heq
  subst heq
  unfold consume
  by_cases hkey : key ∈ keys
  · simp only [if_pos hkey]
    exact Or.inr (Or.inr ⟨trivial, hst, rfl⟩)
  · simp only [if_neg hkey]
    exact Or.inr (Or.inr ⟨trivial, hst, rfl⟩)

theorem authorizeAndConsume_alike (h : AlikeParties Unexpected A S e e') (k : Counts)
    (expectedType : PredicateType) :
    Lockstep Unexpected (EngineSynced S k)
      ((tracedEngine answers e).authorizeAndConsume context expectedType)
      ((tracedEngine answers e').authorizeAndConsume context expectedType)
      (fun _ _ => context.predicateType = expectedType) := by
  refine Lockstep.bind (Lockstep.bind (Lockstep.require Iff.rfl) fun _ _ _ =>
    Lockstep.require Iff.rfl) fun _ _ _ => ?_
  refine Lockstep.bind (Lockstep.require Iff.rfl) fun _ _ htype => ?_
  have hauthorize : Lockstep Unexpected (Synced S k)
      ((tracedEngine answers e).authorizer context) ((tracedEngine answers e').authorizer context)
      Eq :=
    traceCall_lockstep k rfl rfl (h.authorize context) fun _ _ _ hbit => hbit
  refine (hauthorize.onFst Eq).bind fun authorized authorized' hauthorized => ?_
  refine Lockstep.bind (Lockstep.require (by rw [hauthorized])) fun _ _ _ => ?_
  exact (consume_alike _).post fun _ _ _ => htype

/-- The predicates of a fused backend, as far as two backends can be compared. -/
theorem fusedBackend_alike (h : AlikeParties Unexpected A S e e') (k : Counts) :
    Lockstep Unexpected (EngineSynced S k) (tracedEngine answers e).fusedBackend
      (tracedEngine answers e').fusedBackend
      (fun fused fused' => (fused = none ∧ fused' = none) ∨ ∃ f f', fused = some f ∧
        fused' = some f' ∧
        (∀ context {inputs inputs'}, PruneInputs.Alike (Same A) inputs inputs' →
          EvaluatedAlike S k context.predicateType (f.fusedPruneNode context inputs)
            (f'.fusedPruneNode context inputs')) ∧
        ∀ context {inputs inputs'}, AcceptInputs.Alike (Same A) inputs inputs' →
          EvaluatedAlike S k context.predicateType (f.fusedAcceptCandidate context inputs)
            (f'.fusedAcceptCandidate context inputs')) := by
  rcases h.fused with ⟨hnone, hnone'⟩ | ⟨f, f', hf, hf', henabled, hprune, haccept⟩
  · simp only [fusedBackend, tracedEngine, expectFused, tracedOps, hnone, hnone', Option.map_none]
    exact Lockstep.pure (Or.inl ⟨rfl, rfl⟩)
  · simp only [fusedBackend, tracedEngine, expectFused, tracedOps, hf, hf', Option.map_some]
    refine ((onFst_traced k henabled).onFst Eq).bind fun enabled enabled' henabled' => ?_
    subst henabled'
    cases enabled with
    | false => exact Lockstep.pure (Or.inl ⟨rfl, rfl⟩)
    | true =>
        refine Lockstep.pure (Or.inr ⟨_, _, rfl, rfl, ?_, ?_⟩)
        · intro context inputs inputs' hin
          exact expectAnswer_alike answers k (by rw [hin.traced.1]) rfl
            (hprune context hin.traced.2)
        · intro context inputs inputs' hin
          exact expectAnswer_alike answers k (by rw [hin.traced.1]) rfl
            (haccept context hin.traced.2)

omit [CiphertextLike C] [CiphertextLike D] in
/-- An evaluation, seen from the engine. -/
theorem onFst_evaluated {k : Counts} {type expectedType : PredicateType}
    {m : SecureM (σ × Trace) Bool} {n : SecureM (τ × Trace) Bool} (h : EvaluatedAlike S k type m n)
    (htype : type = expectedType) :
    Twin Unexpected (EngineSynced S k) (onFst m) (onFst n)
      (fun b b' s t => b = b' ∧ EngineSynced S (k.tick expectedType) s t) (EngineEnded S) := by
  subst htype
  exact (Twin.onFst h Eq).weaken (fun _ _ hst => hst)
    (fun _ _ _ _ hst => ⟨hst.1.1, hst.1.2, hst.2⟩) fun _ _ hst => ⟨k.tick type, hst⟩

/-- The end of the unfused path. -/
theorem evaluateFinalBit_alike (h : AlikeParties Unexpected A S e e') (k : Counts)
    {expectedType : PredicateType} {bit : EncryptedBit (Named C)} {bit' : EncryptedBit (Named D)}
    (hbit : BitAlike (Same A) bit bit') :
    Twin Unexpected (EngineSynced S k)
      ((tracedEngine answers e).evaluateFinalBit context expectedType bit)
      ((tracedEngine answers e').evaluateFinalBit context expectedType bit')
      (fun b b' s t => b = b' ∧ EngineSynced S (k.tick expectedType) s t) (EngineEnded S) := by
  refine Twin.bind (ended_of_lockstep (authorizeAndConsume_alike h k expectedType)) fun _ _ =>
    Twin.assuming fun htype => ?_
  have hvalues : BitAlike A ⟨bit.ciphertext.value⟩ ⟨bit'.ciphertext.value⟩ := hbit.2
  exact onFst_evaluated (expectAnswer_alike answers k (by rw [hbit.1]) rfl
    (h.resolve context hvalues)) htype

theorem pruneNode_alike (h : AlikeParties Unexpected A S e e') (k : Counts)
    {inputs : PruneInputs (Named C)} {inputs' : PruneInputs (Named D)}
    (hin : PruneInputs.Alike (Same A) inputs inputs') :
    Twin Unexpected (EngineSynced S k) ((tracedEngine answers e).pruneNode context inputs)
      ((tracedEngine answers e').pruneNode context inputs')
      (fun b b' s t => b = b' ∧ EngineSynced S (k.tick .pruneNode) s t) (EngineEnded S) := by
  have hops := expectFused_alike answers (tracedOps_alike h.ops k)
  have hlowers : inputs.costLowers.isEmpty = inputs'.costLowers.isEmpty := by
    rw [Bool.eq_iff_iff, List.isEmpty_iff_length_eq_zero, List.isEmpty_iff_length_eq_zero,
      hin.costLowers.length_eq]
  refine Twin.bind (ended_of_lockstep (fusedBackend_alike h k)) fun fused fused' =>
    Twin.assuming fun hfused => ?_
  rcases hfused with ⟨rfl, rfl⟩ | ⟨f, f', rfl, rfl, hprune, _⟩
  · refine Twin.bind (ended_of_lockstep ((pruneBit_alike hops hin).onFst Eq)) fun bit bit' =>
      Twin.assuming fun hbit => ?_
    exact evaluateFinalBit_alike h k hbit
  · refine Twin.bind (ended_of_lockstep (Lockstep.require (by
      rw [hin.hasIncumbent, hops.empty hin.incumbentCost, hlowers]))) fun _ _ =>
        Twin.assuming fun _ => ?_
    refine Twin.bind (ended_of_lockstep (authorizeAndConsume_alike h k _)) fun _ _ =>
      Twin.assuming fun htype => ?_
    exact onFst_evaluated (hprune context hin) htype

theorem acceptCandidate_alike (h : AlikeParties Unexpected A S e e') (k : Counts)
    {inputs : AcceptInputs (Named C)} {inputs' : AcceptInputs (Named D)}
    (hin : AcceptInputs.Alike (Same A) inputs inputs') :
    Twin Unexpected (EngineSynced S k) ((tracedEngine answers e).acceptCandidate context inputs)
      ((tracedEngine answers e').acceptCandidate context inputs')
      (fun b b' s t => b = b' ∧ EngineSynced S (k.tick .acceptCandidate) s t) (EngineEnded S) := by
  have hops := expectFused_alike answers (tracedOps_alike h.ops k)
  refine Twin.bind (ended_of_lockstep (fusedBackend_alike h k)) fun fused fused' =>
    Twin.assuming fun hfused => ?_
  rcases hfused with ⟨rfl, rfl⟩ | ⟨f, f', rfl, rfl, _, haccept⟩
  · refine Twin.bind (ended_of_lockstep ((acceptBit_alike hops hin).onFst Eq)) fun bit bit' =>
      Twin.assuming fun hbit => ?_
    exact evaluateFinalBit_alike h k hbit
  · refine Twin.bind (ended_of_lockstep (Lockstep.require (by
      rw [hin.hasIncumbent, hops.empty hin.incumbentCost, hops.empty hin.incumbentC12])))
        fun _ _ => Twin.assuming fun _ => ?_
    refine Twin.bind (ended_of_lockstep (authorizeAndConsume_alike h k _)) fun _ _ =>
      Twin.assuming fun htype => ?_
    exact onFst_evaluated (haccept context hin) htype

end Engine

end PredicateEngine

end Secure
end SociSgx

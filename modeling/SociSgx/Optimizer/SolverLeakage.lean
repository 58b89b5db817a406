import SociSgx.Secure.Leakage
import SociSgx.Optimizer.EngineSession

/-!
# SolverLeakage — what a solve shows of the costs

Two solves over alike backends, of requests with the same public part, make the same calls with the
same scalars, batches and operands, and ask the same predicates, as long as the parties of the
engine give the same answers; and they return the same solution and the same counters.  Every
evaluation is counted once.
-/

namespace SociSgx
namespace Optimization

open Exec Secure Secure.PredicateEngine

/-! ## Public parts -/

section Public

variable {C D : Type} {A : C → D → Prop}

/-- Rows with the same available methods. -/
def RowAlike (A : C → D → Prop) (row : CostRow C) (row' : CostRow D) : Prop :=
  ∀ m, Option.Rel A (row m) (row' m)

/-- Requests that differ in the plaintexts only. -/
structure RequestAlike (A : C → D → Prop) (request : EncryptedOptimizationRequest C)
    (request' : EncryptedOptimizationRequest D) : Prop where
  costs : List.Forall₂ (RowAlike A) request.costs request'.costs
  threshold : request.thresholdScaled = request'.thresholdScaled
  session : request.sessionId = request'.sessionId

structure EntryAlike (A : C → D → Prop) (entry : MethodEntry C) (entry' : MethodEntry D) :
    Prop where
  method : entry.method = entry'.method
  cost : A entry.cost entry'.cost
  linear : A entry.linear entry'.linear
  scores : List.Forall₂ A entry.scores entry'.scores

structure TableAlike (A : C → D → Prop) (table : RowTables C) (table' : RowTables D) : Prop where
  entries : List.Forall₂ (EntryAlike A) table.entries table'.entries
  maxLinear : A table.maxLinear table'.maxLinear
  lower : List.Forall₂ A table.lower table'.lower

structure LevelAlike (A : C → D → Prop) (level : Level C) (level' : Level D) : Prop where
  entries : List.Forall₂ (EntryAlike A) level.entries level'.entries
  maxLinearSuffix : A level.maxLinearSuffix level'.maxLinearSuffix
  lowerSuffix : List.Forall₂ A level.lowerSuffix level'.lowerSuffix

structure PrefixAlike (A : C → D → Prop) (pre : Prefix C) (pre' : Prefix D) : Prop where
  total : A pre.total pre'.total
  c12 : A pre.c12 pre'.c12
  c3 : A pre.c3 pre'.c3
  linear : A pre.linear pre'.linear

/-- The local variables of the two searches. -/
structure SearchAlike (A : C → D → Prop) (s : Search C) (t : Search D) : Prop where
  hasIncumbent : s.hasIncumbent = t.hasIncumbent
  incumbent : PrefixAlike A s.incumbent t.incumbent
  scaledIncumbent : A s.scaledIncumbent t.scaledIncumbent
  solution : s.solution = t.solution
  nodeSequence : s.nodeSequence = t.nodeSequence
  pruneSequence : s.pruneSequence = t.pruneSequence
  acceptSequence : s.acceptSequence = t.acceptSequence
  stats : s.stats = t.stats
  trace : s.trace = t.trace

/-- Results with the same public part; the totals are of one origin. -/
structure ResultAlike (A : C → D → Prop) (r : EncryptedBranchAndBoundResult C)
    (r' : EncryptedBranchAndBoundResult D) : Prop where
  feasible : r.feasible = r'.feasible
  solution : r.solution = r'.solution
  totalCost : A r.totalCost r'.totalCost
  c12 : A r.c12 r'.c12
  c3 : A r.c3 r'.c3
  linear : A r.linear r'.linear
  stats : r.stats = r'.stats

end Public

/-! ## Preprocessing -/

section Preprocessing

variable {G : Error → Prop} {W V C D : Type} {A : C → D → Prop} {S : W → V → Prop}

theorem keepBest_alike {op : C → C → SecureM W C} {op' : D → D → SecureM V D}
    (hop : ∀ {a b a' b'}, A a a' → A b b' → Lockstep G S (op a b) (op' a' b') A)
    {current : Option C} {current' : Option D} (hcurrent : Option.Rel A current current')
    {value : C} {value' : D} (hvalue : A value value') :
    Lockstep G S (keepBest op current value) (keepBest op' current' value') A := by
  cases hcurrent with
  | none => exact Lockstep.pure hvalue
  | some hbest => exact hop hbest hvalue

theorem replicate_alike {a : C} {a' : D} (ha : A a a') (k : Nat) :
    List.Forall₂ A (List.replicate k a) (List.replicate k a') := by
  induction k with
  | zero => exact List.Forall₂.nil
  | succ k ih => exact List.Forall₂.cons ha ih

variable [CiphertextLike C] [CiphertextLike D] {ops : SecureOps W C} {ops' : SecureOps V D}
  {grid : Option LagrangianGrid}

theorem checkRow_alike (hempty : ∀ {a a'}, A a a' →
      CiphertextLike.empty a = CiphertextLike.empty a') {row : CostRow C} {row' : CostRow D}
    (h : RowAlike A row row') : checkRow row = checkRow row' := by
  have hoptions := options_rel h
  have hall : (∀ c ∈ options row, CiphertextLike.empty c.cost = false) ↔
      ∀ c ∈ options row', CiphertextLike.empty c.cost = false := by
    generalize options row = cs at hoptions
    generalize options row' = ds at hoptions
    induction hoptions with
    | nil => simp
    | cons hcd _ ih => simp only [List.forall_mem_cons, hempty hcd.2, ih]
  have hnil : options row ≠ [] ↔ options row' ≠ [] := by
    rw [← List.length_pos_iff, ← List.length_pos_iff, hoptions.length_eq]
  simp only [checkRow, ensure, hall, hnil]

theorem checkRows_alike (hempty : ∀ {a a'}, A a a' →
      CiphertextLike.empty a = CiphertextLike.empty a') {rows : List (CostRow C)}
    {rows' : List (CostRow D)} (h : List.Forall₂ (RowAlike A) rows rows') :
    rows.forM checkRow = rows'.forM checkRow := by
  induction h with
  | nil => rfl
  | cons hhead _ ih =>
      exact congrArg₂ (fun x (y : Except Error PUnit) => x >>= fun _ => y)
        (checkRow_alike hempty hhead) ih

omit [CiphertextLike C] [CiphertextLike D] in
theorem RequestAlike.isEmpty {request : EncryptedOptimizationRequest C}
    {request' : EncryptedOptimizationRequest D} (h : RequestAlike A request request') :
    request.costs.isEmpty = request'.costs.isEmpty := by
  rw [Bool.eq_iff_iff, List.isEmpty_iff_length_eq_zero, List.isEmpty_iff_length_eq_zero,
    h.costs.length_eq]

/-- What is checked before the first call is public. -/
theorem checkRequest_alike (hempty : ∀ {a a'}, A a a' →
      CiphertextLike.empty a = CiphertextLike.empty a') (domain : NumericDomain)
    (config : EncryptedBranchAndBoundConfig) {request : EncryptedOptimizationRequest C}
    {request' : EncryptedOptimizationRequest D} (h : RequestAlike A request request') :
    checkRequest domain config request = checkRequest domain config request' := by
  simp only [checkRequest, h.isEmpty, h.costs.length_eq, h.threshold, h.session,
    checkRows_alike hempty h.costs]

theorem getD_alike (hblank : A default default) {current : Option C} {current' : Option D}
    (hcurrent : Option.Rel A current current') :
    A (current.getD default) (current'.getD default) := by
  cases hcurrent with
  | none => exact hblank
  | some hbest => exact hbest

theorem listGetD_alike (hblank : A default default) {cs : List C} {ds : List D}
    (hcs : List.Forall₂ A cs ds) (k : Nat) : A (cs.getD k default) (ds.getD k default) := by
  induction hcs generalizing k with
  | nil => exact hblank
  | cons hcd _ ih =>
      cases k with
      | zero => exact hcd
      | succ k => exact ih k

variable (h : AlikeOps G A S ops ops')
include h

/-- Sums of two lists, entry by entry. -/
theorem zipAdd_alike {as bs : List C} {as' bs' : List D} (ha : List.Forall₂ A as as')
    (hb : List.Forall₂ A bs bs') :
    Lockstep G S ((as.zip bs).mapM fun item => ops.add item.1 item.2)
      ((as'.zip bs').mapM fun item => ops'.add item.1 item.2) (List.Forall₂ A) := by
  exact Lockstep.mapM (zip_rel ha hb) fun item item' hitem => h.add hitem.1 hitem.2

/-- The scan of a row. -/
structure ScanAlike (A : C → D → Prop) (scan : RowScan C) (scan' : RowScan D) : Prop where
  entries : List.Forall₂ (EntryAlike A) scan.entries scan'.entries
  maximum : Option.Rel A scan.maximum scan'.maximum
  minimum : Option.Rel A scan.minimum scan'.minimum

theorem scanMethod_alike (positive negative : Int) {scan : RowScan C} {scan' : RowScan D}
    (hscan : ScanAlike A scan scan') {c : Choice C} {d : Choice D} (hcd : Choice.Rel A c d) :
    Lockstep G S (scanMethod ops grid positive negative scan c)
      (scanMethod ops' grid positive negative scan' d) (ScanAlike A) := by
  rcases c with ⟨m, c⟩
  rcases d with ⟨m', d⟩
  rcases hcd with ⟨hm, hcost⟩
  change m = m' at hm
  change A c d at hcost
  subst hm
  refine (h.scalarMul _ hcost).bind fun contribution contribution' hcontribution => ?_
  refine (keepBest_alike (fun ha hb => h.max ha hb) hscan.maximum hcontribution).bind
    fun maximum maximum' hmaximum => ?_
  cases grid with
  | none =>
      refine (keepBest_alike (fun ha hb => h.min ha hb) hscan.minimum hcost).bind
        fun minimum minimum' hminimum => ?_
      exact Lockstep.pure ⟨List.rel_append hscan.entries
        (List.Forall₂.cons ⟨rfl, hcost, hcontribution, List.Forall₂.nil⟩ List.Forall₂.nil),
        Option.Rel.some hmaximum, Option.Rel.some hminimum⟩
  | some grid =>
      refine (h.scalarMul grid.q hcost).bind fun scaled scaled' hscaled => ?_
      refine Lockstep.bind (Lockstep.mapM (B := A) (List.forall₂_same.2 fun _ _ => rfl)
        fun mu mu' (hmu : mu = mu') => ?_) fun scores scores' hscores => ?_
      · subst hmu
        by_cases hzero : mu = 0
        · rw [if_pos hzero, if_pos hzero]
          exact Lockstep.pure hscaled
        · rw [if_neg hzero, if_neg hzero]
          exact (h.scalarMul mu hcontribution).bind fun _ _ hproduct => h.sub hscaled hproduct
      · exact Lockstep.pure ⟨List.rel_append hscan.entries
          (List.Forall₂.cons ⟨rfl, hcost, hcontribution, hscores⟩ List.Forall₂.nil),
          Option.Rel.some hmaximum, Option.Rel.none⟩

theorem lagrangianLower_alike {entries : List (MethodEntry C)} {entries' : List (MethodEntry D)}
    (hentries : List.Forall₂ (EntryAlike A) entries entries') (k : Nat) :
    Lockstep G S (lagrangianLower ops entries k) (lagrangianLower ops' entries' k) A := by
  refine Lockstep.bind (Lockstep.foldlM (B := Option.Rel A) hentries
    (fun entry entry' lower lower' hentry hlower => ?_) Option.Rel.none) fun lower lower' hlower =>
      Lockstep.pure (getD_alike h.blank hlower)
  refine (keepBest_alike (fun ha hb => h.min ha hb) hlower
    (listGetD_alike h.blank hentry.scores k)).bind fun _ _ hnext =>
      Lockstep.pure (Option.Rel.some hnext)

theorem preprocessRow_alike (positive negative : Int) {row : CostRow C} {row' : CostRow D}
    (hrow : RowAlike A row row') :
    Lockstep G S (preprocessRow ops grid positive negative row)
      (preprocessRow ops' grid positive negative row') (TableAlike A) := by
  refine Lockstep.bind (Lockstep.foldlM (B := ScanAlike A) (options_rel hrow)
    (fun c d scan scan' hcd hscan => scanMethod_alike h positive negative hscan hcd)
    ⟨List.Forall₂.nil, Option.Rel.none, Option.Rel.none⟩) fun scan scan' hscan => ?_
  have hmaximum := getD_alike h.blank hscan.maximum
  cases grid with
  | none =>
      exact Lockstep.bind (Lockstep.pure (R := List.Forall₂ A)
        (List.Forall₂.cons (getD_alike h.blank hscan.minimum) List.Forall₂.nil))
        fun lower lower' hlower => Lockstep.pure ⟨hscan.entries, hmaximum, hlower⟩
  | some grid =>
      refine Lockstep.bind (Lockstep.mapM (B := A) (List.forall₂_same.2 fun _ _ => rfl)
        fun k k' (hk : k = k') => ?_) fun lower lower' hlower =>
          Lockstep.pure ⟨hscan.entries, hmaximum, hlower⟩
      subst hk
      exact lagrangianLower_alike h hscan.entries k

theorem suffixSums_alike {zeros : List C} {zeros' : List D} (hzeros : List.Forall₂ A zeros zeros')
    {values : List (List C)} {values' : List (List D)}
    (hvalues : List.Forall₂ (List.Forall₂ A) values values') :
    Lockstep G S (suffixSums ops zeros values) (suffixSums ops' zeros' values')
      (List.Forall₂ (List.Forall₂ A)) := by
  induction hvalues with
  | nil => exact Lockstep.pure List.Forall₂.nil
  | cons hhead _ ih =>
      refine ih.bind fun suffix suffix' hsuffix => ?_
      have hnext : List.Forall₂ A (suffix.headD zeros) (suffix'.headD zeros') := by
        cases hsuffix with
        | nil => exact hzeros
        | cons hsums _ => exact hsums
      exact (zipAdd_alike h hhead hnext).bind fun sums sums' hsums =>
        Lockstep.pure (List.Forall₂.cons hsums hsuffix)

theorem preprocess_alike (positive negative : Int) {zero : C} {zero' : D} (hzero : A zero zero')
    {costs : List (CostRow C)} {costs' : List (CostRow D)}
    (hcosts : List.Forall₂ (RowAlike A) costs costs') :
    Lockstep G S (preprocess ops grid positive negative zero costs)
      (preprocess ops' grid positive negative zero' costs') (List.Forall₂ (LevelAlike A)) := by
  refine Lockstep.bind (Lockstep.mapM hcosts fun row row' hrow =>
    preprocessRow_alike h positive negative hrow) fun tables tables' htables => ?_
  have hlower : List.Forall₂ (List.Forall₂ A) (tables.map RowTables.lower)
      (tables'.map RowTables.lower) := by
    rw [List.forall₂_map_left_iff, List.forall₂_map_right_iff]
    exact htables.imp fun _ _ htable => htable.lower
  have hlinear : List.Forall₂ (List.Forall₂ A) (tables.map fun table => [table.maxLinear])
      (tables'.map fun table => [table.maxLinear]) := by
    rw [List.forall₂_map_left_iff, List.forall₂_map_right_iff]
    exact htables.imp fun _ _ htable => List.Forall₂.cons htable.maxLinear List.Forall₂.nil
  refine (suffixSums_alike h (replicate_alike hzero _) hlower).bind
    fun lowers lowers' hlowers => ?_
  refine (suffixSums_alike h (List.Forall₂.cons hzero List.Forall₂.nil) hlinear).bind
    fun linears linears' hlinears => Lockstep.pure ?_
  rw [List.forall₂_map_left_iff, List.forall₂_map_right_iff]
  clear hlower hlinear hcosts
  induction htables generalizing linears linears' lowers lowers' with
  | nil => exact List.Forall₂.nil
  | cons htable _ ih =>
      cases hlinears with
      | nil => exact List.Forall₂.nil
      | cons hlinear hlinears =>
          cases hlowers with
          | nil => exact List.Forall₂.nil
          | cons hlower hlowers =>
              refine List.Forall₂.cons ⟨htable.entries, ?_, hlower⟩ (ih _ _ hlowers _ _ hlinears)
              cases hlinear with
              | nil => exact h.blank
              | cons hhead _ => exact hhead

end Preprocessing

/-! ## The search -/

section Searching

variable {G : Error → Prop} {W V C D : Type} {A : C → D → Prop} {T : Counts → W → V → Prop}

/-- The local variables are alike; the counters of predicates are `p` and `a` ahead of `k`. -/
structure Counted (A : C → D → Prop) (k : Counts) (p a : UInt64) (s : Search C) (t : Search D) :
    Prop where
  alike : SearchAlike A s t
  prunes : UInt64.ofNat (k .pruneNode) + p = s.stats.prunePredicates
  accepts : UInt64.ofNat (k .acceptCandidate) + a = s.stats.acceptPredicates
  others : ∀ v, k (.other v) = 0

/-- Between two steps every evaluation has been counted. -/
def InStep (A : C → D → Prop) (T : Counts → W → V → Prop) (x : W × Search C) (y : V × Search D) :
    Prop :=
  ∃ k, Both (T k) (Counted A k 0 0) x y

/-- What is left of an exception. -/
def Stopped (T : Counts → W → V → Prop) (x : W × Search C) (y : V × Search D) : Prop :=
  ∃ k, T k x.1 y.1

theorem counted_succ {n : Nat} {counter : UInt64} (h : UInt64.ofNat n + 1 = counter) :
    UInt64.ofNat (n + 1) + 0 = counter := by
  rw [UInt64.add_zero, ← ofNat_succ, h]

theorem Counted.pruned {k : Counts} {s : Search C} {t : Search D} (h : Counted A k 1 0 s t) :
    Counted A (k.tick .pruneNode) 0 0 s t :=
  ⟨h.alike, counted_succ h.prunes, h.accepts, h.others⟩

theorem Counted.accepted {k : Counts} {s : Search C} {t : Search D} (h : Counted A k 0 1 s t) :
    Counted A (k.tick .acceptCandidate) 0 0 s t :=
  ⟨h.alike, h.prunes, counted_succ h.accepts, h.others⟩

/-- A call that is no evaluation. -/
theorem onFst_counted {α β : Type} {m : SecureM W α} {n : SecureM V β} {R : α → β → Prop}
    {k : Counts} {K : Search C → Search D → Prop} (h : Lockstep G (T k) m n R) :
    Twin G (Both (T k) K) (onFst m) (onFst n) (fun a b x y => R a b ∧ Both (T k) K x y)
      (Stopped T) :=
  (h.onFst K).weaken (fun _ _ hxy => hxy) (fun _ _ _ _ hxy => hxy) fun _ _ hxy => ⟨k, hxy.1⟩

/-- An evaluation. -/
theorem onFst_answered {m : SecureM W Bool} {n : SecureM V Bool} {k l : Counts}
    {K : Search C → Search D → Prop}
    (h : Twin G (T k) m n (fun b b' w v => b = b' ∧ T l w v) fun w v => ∃ k, T k w v) :
    Twin G (Both (T k) K) (onFst m) (onFst n)
      (fun b b' x y => b = b' ∧ Both (T l) K x y) (Stopped T) :=
  (h.onFst K).weaken (fun _ _ hxy => hxy) (fun _ _ _ _ hxy => ⟨hxy.1.1, hxy.1.2, hxy.2⟩)
    fun _ _ hxy => hxy.1

theorem SearchAlike.enter {s : Search C} {t : Search D} (h : SearchAlike A s t)
    (chosen : List UInt8) : SearchAlike A (s.enter chosen) (t.enter chosen) :=
  ⟨h.hasIncumbent, h.incumbent, h.scaledIncumbent, h.solution, by
    simp only [Search.enter, h.nodeSequence], h.pruneSequence, h.acceptSequence, by
    simp only [Search.enter, h.stats], by simp only [Search.enter, h.trace]⟩

theorem SearchAlike.cut {s : Search C} {t : Search D} (h : SearchAlike A s t)
    (chosen : List UInt8) : SearchAlike A (s.cut chosen) (t.cut chosen) :=
  ⟨h.hasIncumbent, h.incumbent, h.scaledIncumbent, h.solution, h.nodeSequence, h.pruneSequence,
    h.acceptSequence, by simp only [Search.cut, h.stats], by simp only [Search.cut, h.trace]⟩

theorem SearchAlike.atNode {s : Search C} {t : Search D} (h : SearchAlike A s t) :
    SearchAlike A s.atNode t.atNode :=
  ⟨h.hasIncumbent, h.incumbent, h.scaledIncumbent, h.solution, h.nodeSequence, by
    simp only [Search.atNode, h.pruneSequence], h.acceptSequence, by
    simp only [Search.atNode, h.stats], h.trace⟩

theorem SearchAlike.countBounds {s : Search C} {t : Search D} (h : SearchAlike A s t)
    (grid : Option LagrangianGrid) : SearchAlike A (s.countBounds grid) (t.countBounds grid) :=
  ⟨h.hasIncumbent, h.incumbent, h.scaledIncumbent, h.solution, h.nodeSequence, h.pruneSequence,
    h.acceptSequence, by simp only [Search.countBounds, h.hasIncumbent, h.stats], h.trace⟩

theorem countBounds_counters (s : Search C) (grid : Option LagrangianGrid) :
    (s.countBounds grid).stats.prunePredicates = s.stats.prunePredicates ∧
      (s.countBounds grid).stats.acceptPredicates = s.stats.acceptPredicates := by
  unfold Search.countBounds
  cases grid <;> cases s.hasIncumbent <;> exact ⟨rfl, rfl⟩

variable [CiphertextLike C] [CiphertextLike D] {solver : EncryptedBranchAndBoundSolver W C}
  {solver' : EncryptedBranchAndBoundSolver V D} {grid : Option LagrangianGrid}
  {sessionId : Bytes}

/-- Solvers over alike worlds; `T k` relates worlds after `k` evaluations. -/
structure AlikeSolver (G : Error → Prop) (A : C → D → Prop) (T : Counts → W → V → Prop)
    (solver : EncryptedBranchAndBoundSolver W C) (solver' : EncryptedBranchAndBoundSolver V D) :
    Prop where
  ops : ∀ k, AlikeOps G A (T k) solver.ops solver'.ops
  config : solver.config = solver'.config
  prune : ∀ k context {inputs inputs'}, PruneInputs.Alike A inputs inputs' →
    Twin G (T k) (solver.predicates.pruneNode context inputs)
      (solver'.predicates.pruneNode context inputs')
      (fun b b' w v => b = b' ∧ T (k.tick .pruneNode) w v) (fun w v => ∃ k, T k w v)
  accept : ∀ k context {inputs inputs'}, AcceptInputs.Alike A inputs inputs' →
    Twin G (T k) (solver.predicates.acceptCandidate context inputs)
      (solver'.predicates.acceptCandidate context inputs')
      (fun b b' w v => b = b' ∧ T (k.tick .acceptCandidate) w v) (fun w v => ∃ k, T k w v)

theorem leaf_alike (h : AlikeSolver G A T solver solver') (depth : Nat) {pre : Prefix C}
    {pre' : Prefix D} (hpre : PrefixAlike A pre pre') (chosen : List UInt8) :
    Twin G (InStep A T) (solver.leaf sessionId grid depth pre chosen)
      (solver'.leaf sessionId grid depth pre' chosen) (fun _ _ => InStep A T) (Stopped T) := by
  refine Twin.ofExists fun k => ?_
  refine Twin.bind (Q := fun _ _ => Both (T k) (Counted A k 0 1)) (Twin.update fun x y hxy => ?_)
    fun _ _ => Twin.locals_bind fun s t hst => ?_
  · rcases hxy with ⟨hworld, halike, hprunes, haccepts, hothers⟩
    refine ⟨hworld, ?_, hprunes, ?_, hothers⟩
    · exact ⟨halike.hasIncumbent, halike.incumbent, halike.scaledIncumbent, halike.solution,
        halike.nodeSequence, halike.pruneSequence, by
          simp only [Search.atLeaf, halike.acceptSequence], by
          simp only [Search.atLeaf, halike.stats], halike.trace⟩
    · rw [UInt64.add_zero] at haccepts
      simp only [Search.atLeaf, haccepts]
  have halike := hst.alike
  -- The operands of ACCEPT are ciphertexts of the prefix and of the incumbent, in both solves.
  have hinputs : AcceptInputs.Alike A
      { linear := pre.linear
        c3 := pre.c3
        cost := pre.total
        c12 := pre.c12
        hasIncumbent := s.hasIncumbent
        incumbentCost := s.incumbent.total
        incumbentC12 := s.incumbent.c12 }
      { linear := pre'.linear
        c3 := pre'.c3
        cost := pre'.total
        c12 := pre'.c12
        hasIncumbent := t.hasIncumbent
        incumbentCost := t.incumbent.total
        incumbentC12 := t.incumbent.c12 } :=
    ⟨hpre.linear, hpre.c3, hpre.total, hpre.c12, halike.hasIncumbent, halike.incumbent.total,
      halike.incumbent.c12⟩
  rw [halike.nodeSequence, halike.acceptSequence]
  refine (onFst_answered (h.accept k _ hinputs)).bind fun accepted accepted' =>
    Twin.assuming fun haccepted => ?_
  subst haccepted
  have hcounted := hst.accepted
  -- The bit that is revealed is the same in both, so both take the leaf or neither does.
  have haccept : ∀ {scaled : C} {scaled' : D}, A scaled scaled' →
      Twin G (Both (T (k.tick .acceptCandidate)) fun s₁ t₁ => s₁ = s ∧ t₁ = t)
        (update (Search.accept pre scaled chosen) : SecureM (W × Search C) Unit)
        (update (Search.accept pre' scaled' chosen)) (fun _ _ => InStep A T) (Stopped T) := by
    intro scaled scaled' hscaled
    refine Twin.update fun x y hxy => ⟨_, hxy.1, ?_, ?_, ?_, hcounted.others⟩
    · rw [hxy.2.1, hxy.2.2]
      exact ⟨rfl, hpre, hscaled, rfl, halike.nodeSequence, halike.pruneSequence,
        halike.acceptSequence, halike.stats, by simp only [Search.accept, halike.trace]⟩
    · rw [hxy.2.1]
      exact hcounted.prunes
    · rw [hxy.2.1]
      exact hcounted.accepts
  cases accepted with
  | true =>
      cases grid with
      | none =>
          exact haccept halike.scaledIncumbent
      | some grid =>
          have hops := h.ops (k.tick .acceptCandidate)
          refine (onFst_counted (hops.scalarMul grid.q hpre.total)).bind
            fun scaled scaled' => Twin.assuming fun hscaled => haccept hscaled
  | false =>
      refine Twin.update fun x y hxy => ⟨_, hxy.1, ?_, ?_, ?_, hcounted.others⟩
      · rw [hxy.2.1, hxy.2.2]
        exact ⟨halike.hasIncumbent, halike.incumbent, halike.scaledIncumbent, halike.solution,
          halike.nodeSequence, halike.pruneSequence, halike.acceptSequence, halike.stats, by
            simp only [Search.reject, halike.trace]⟩
      · rw [hxy.2.1]
        exact hcounted.prunes
      · rw [hxy.2.1]
        exact hcounted.accepts

theorem costLowers_alike (h : AlikeSolver G A T solver solver') (k : Counts) {level : Level C}
    {level' : Level D} (hlevel : LevelAlike A level level') {pre : Prefix C} {pre' : Prefix D}
    (hpre : PrefixAlike A pre pre') {lagPrefix : List C} {lagPrefix' : List D}
    (hlag : List.Forall₂ A lagPrefix lagPrefix') (hasIncumbent : Bool) :
    Lockstep G (T k) (solver.costLowers grid level pre lagPrefix hasIncumbent)
      (solver'.costLowers grid level' pre' lagPrefix' hasIncumbent) (List.Forall₂ A) := by
  cases hasIncumbent with
  | false => exact Lockstep.pure List.Forall₂.nil
  | true =>
      cases grid with
      | none =>
          exact Lockstep.mapM hlevel.lowerSuffix fun _ _ hsuffix =>
            (h.ops k).add hpre.total hsuffix
      | some grid => exact zipAdd_alike (h.ops k) hlag hlevel.lowerSuffix

theorem askPrune_alike (h : AlikeSolver G A T solver solver') (k : Counts)
    (depth : Nat) {level : Level C}
    {level' : Level D} (hlevel : LevelAlike A level level') {pre : Prefix C} {pre' : Prefix D}
    (hpre : PrefixAlike A pre pre') {lagPrefix : List C} {lagPrefix' : List D}
    (hlag : List.Forall₂ A lagPrefix lagPrefix') :
    Twin G (Both (T k) (Counted A k 0 0))
      (solver.askPrune sessionId grid level depth pre lagPrefix)
      (solver'.askPrune sessionId grid level' depth pre' lagPrefix')
      (fun b b' x y => b = b' ∧ InStep A T x y) (Stopped T) := by
  refine Twin.locals_bind fun s t hst => ?_
  have halike := hst.alike
  refine (onFst_counted ((h.ops k).add hpre.linear hlevel.maxLinearSuffix)).bind
    fun upper upper' => Twin.assuming fun hupper => ?_
  refine Twin.bind (Q := fun _ _ => Both (T k) (Counted A k 0 0)) (Twin.update fun x y hxy => ?_)
    fun _ _ => ?_
  · have hcounters := countBounds_counters s grid
    rw [hxy.2.1, hxy.2.2]
    exact ⟨hxy.1, halike.countBounds grid, hst.prunes.trans hcounters.1.symm,
      hst.accepts.trans hcounters.2.symm, hst.others⟩
  rw [← halike.hasIncumbent]
  refine (onFst_counted (costLowers_alike h k hlevel hpre hlag s.hasIncumbent)).bind
    fun lowers lowers' => Twin.assuming fun hlowers => ?_
  refine Twin.bind (Q := fun _ _ => Both (T k) (Counted A k 1 0)) (Twin.update fun x y hxy => ?_)
    fun _ _ => ?_
  · rcases hxy with ⟨hworld, hsearch, hprunes, haccepts, hothers⟩
    rw [UInt64.add_zero] at hprunes
    exact ⟨hworld, hsearch.atNode, by simp only [Search.atNode, hprunes], haccepts, hothers⟩
  -- Which incumbent is compared depends on the grid and on whether there is one, both public.
  have hincumbent : A (if s.hasIncumbent then
        (if grid.isSome then s.scaledIncumbent else s.incumbent.total) else default)
      (if s.hasIncumbent then
        (if grid.isSome then t.scaledIncumbent else t.incumbent.total) else default) := by
    split
    · split
      · exact halike.scaledIncumbent
      · exact halike.incumbent.total
    · exact (h.ops k).blank
  rw [halike.nodeSequence, halike.pruneSequence]
  refine (onFst_answered (h.prune k _ ⟨hupper, hlowers, rfl, hincumbent⟩)).weaken
    (fun _ _ hxy => hxy) (fun b b' x y hxy => ?_) fun _ _ hxy => hxy
  exact ⟨hxy.1, _, hxy.2.1, hxy.2.2.pruned⟩

theorem childPrefix_alike (h : AlikeSolver G A T solver solver') (k : Counts) {pre : Prefix C}
    {pre' : Prefix D} (hpre : PrefixAlike A pre pre') {entry : MethodEntry C}
    {entry' : MethodEntry D} (hentry : EntryAlike A entry entry') :
    Lockstep G (T k) (solver.childPrefix pre entry) (solver'.childPrefix pre' entry')
      (PrefixAlike A) := by
  refine ((h.ops k).add hpre.total hentry.cost).bind fun total total' htotal => ?_
  rw [hentry.method]
  by_cases hm : entry'.method < 2
  · rw [if_pos hm, if_pos hm]
    refine ((h.ops k).add hpre.c12 hentry.cost).bind fun c12 c12' hc12 => ?_
    exact ((h.ops k).add hpre.linear hentry.linear).bind fun linear linear' hlinear =>
      Lockstep.pure ⟨htotal, hc12, hpre.c3, hlinear⟩
  · rw [if_neg hm, if_neg hm]
    refine ((h.ops k).add hpre.c3 hentry.cost).bind fun c3 c3' hc3 => ?_
    exact ((h.ops k).add hpre.linear hentry.linear).bind fun linear linear' hlinear =>
      Lockstep.pure ⟨htotal, hpre.c12, hc3, hlinear⟩

theorem childLagPrefix_alike (h : AlikeSolver G A T solver solver') (k : Counts)
    {lagPrefix : List C} {lagPrefix' : List D} (hlag : List.Forall₂ A lagPrefix lagPrefix')
    {entry : MethodEntry C}
    {entry' : MethodEntry D} (hentry : EntryAlike A entry entry') :
    Lockstep G (T k) (solver.childLagPrefix grid lagPrefix entry)
      (solver'.childLagPrefix grid lagPrefix' entry') (List.Forall₂ A) := by
  cases grid with
  | none => exact Lockstep.pure List.Forall₂.nil
  | some grid => exact zipAdd_alike (h.ops k) hlag hentry.scores

/-- The search takes the same way in both solves. -/
theorem dfs_alike (h : AlikeSolver G A T solver solver') {levels : List (Level C)}
    {levels' : List (Level D)} (hlevels : List.Forall₂ (LevelAlike A) levels levels') :
    ∀ {depth : Nat} {pre : Prefix C} {pre' : Prefix D} {lagPrefix : List C}
      {lagPrefix' : List D} {chosen : List UInt8}, PrefixAlike A pre pre' →
      List.Forall₂ A lagPrefix lagPrefix' →
      Twin G (InStep A T) (solver.dfs sessionId grid levels depth pre lagPrefix chosen)
        (solver'.dfs sessionId grid levels' depth pre' lagPrefix' chosen)
        (fun _ _ => InStep A T) (Stopped T) := by
  have henter : ∀ chosen : List UInt8, Twin G (InStep A T)
      (update (Search.enter chosen) : SecureM (W × Search C) Unit)
      (update (Search.enter chosen)) (fun _ _ => InStep A T) (Stopped T) := fun chosen =>
    Twin.update fun _ _ ⟨k, hworld, hsearch⟩ =>
      ⟨k, hworld, hsearch.alike.enter chosen, hsearch.prunes, hsearch.accepts, hsearch.others⟩
  induction hlevels with
  | nil =>
      intro depth pre pre' lagPrefix lagPrefix' chosen hpre _
      exact (henter chosen).bind fun _ _ => leaf_alike h depth hpre chosen
  | @cons level level' levels levels' hlevel _ ih =>
      intro depth pre pre' lagPrefix lagPrefix' chosen hpre hlag
      refine (henter chosen).bind fun _ _ => ?_
      refine Twin.bind (Twin.ofExists fun k => askPrune_alike h k depth hlevel hpre hlag)
        fun pruned pruned' => Twin.assuming fun hpruned => ?_
      subst hpruned
      -- The answer is the same in both solves, so they cut or descend together.
      cases pruned with
      | true =>
          exact Twin.update fun _ _ ⟨k, hworld, hsearch⟩ =>
            ⟨k, hworld, hsearch.alike.cut chosen, hsearch.prunes, hsearch.accepts,
              hsearch.others⟩
      | false =>
          refine Lockstep.forM hlevel.entries fun entry entry' hentry => ?_
          refine Twin.ofExists fun k => ?_
          refine (onFst_counted (childPrefix_alike h k hpre hentry)).bind
            fun child child' => Twin.assuming fun hchild => ?_
          refine (onFst_counted (childLagPrefix_alike h k hlag hentry)).bind
            fun childLag childLag' => Twin.assuming fun hchildLag => ?_
          rw [hentry.method]
          exact (ih hchild hchildLag).weaken (fun _ _ hxy => ⟨k, hxy⟩)
            (fun _ _ _ _ hxy => hxy) fun _ _ hxy => hxy

theorem finish_alike (hblank : A default default)
    {s : Search C} {t : Search D} (h : SearchAlike A s t) :
    ResultAlike A (EncryptedBranchAndBoundSolver.finish s)
      (EncryptedBranchAndBoundSolver.finish t) := by
  unfold EncryptedBranchAndBoundSolver.finish
  rw [h.hasIncumbent]
  split
  · exact ⟨rfl, h.solution, h.incumbent.total, h.incumbent.c12, h.incumbent.c3,
      h.incumbent.linear, h.stats⟩
  · exact ⟨rfl, rfl, hblank, hblank, hblank, hblank, h.stats⟩

/-- Two solves, from worlds before any evaluation. -/
theorem solve_alike (h : AlikeSolver G A T solver solver')
    {request : EncryptedOptimizationRequest C} {request' : EncryptedOptimizationRequest D}
    (hrequest : RequestAlike A request request') :
    Twin G (T 0) (solver.solve request) (solver'.solve request')
      (fun r r' w v => ResultAlike A r r' ∧ ∃ k, T k w v ∧
        UInt64.ofNat (k .pruneNode) = r.stats.prunePredicates ∧
        UInt64.ofNat (k .acceptCandidate) = r.stats.acceptPredicates ∧ ∀ v, k (.other v) = 0)
      (fun w v => ∃ k, T k w v) := by
  have hops := h.ops 0
  have hcheck := checkRequest_alike hops.empty solver'.ops.domain solver'.config hrequest
  unfold EncryptedBranchAndBoundSolver.solve EncryptedBranchAndBoundSolver.search
  rw [map_eq_pure_bind, map_eq_pure_bind, hops.domain, h.config, hcheck, hrequest.threshold,
    hrequest.session]
  -- Nothing is evaluated before the search, so a failure there is at count zero.
  have hended : ∀ {α β : Type} {m : SecureM W α} {n : SecureM V β} {R : α → β → Prop},
      Lockstep G (T 0) m n R → Twin G (T 0) m n (fun a b w v => R a b ∧ T 0 w v)
        (fun w v => ∃ k, T k w v) := fun hmn =>
    hmn.weaken (fun _ _ hwv => hwv) (fun _ _ _ _ hwv => hwv) fun _ _ hwv => ⟨0, hwv⟩
  refine Twin.bind (Q := fun s t w v => SearchAlike A s t ∧ ∃ k, T k w v ∧
    UInt64.ofNat (k .pruneNode) = s.stats.prunePredicates ∧
    UInt64.ofNat (k .acceptCandidate) = s.stats.acceptPredicates ∧ ∀ v, k (.other v) = 0) ?_
      fun s t => Twin.pure fun w v hwv => ?_
  · refine Twin.bind (hended Lockstep.lift) fun grid grid' => Twin.assuming fun hgrid => ?_
    subst hgrid
    refine Twin.bind (hended (hops.encryptConstant 0)) fun zero zero' =>
      Twin.assuming fun hzero => ?_
    refine Twin.bind (hended (preprocess_alike hops _ _ hzero hrequest.costs))
      fun levels levels' => Twin.assuming fun hlevels => ?_
    have hlag : List.Forall₂ A (if grid.isSome then List.replicate (gridSize grid) zero else [])
        (if grid.isSome then List.replicate (gridSize grid) zero' else []) := by
      split
      · exact replicate_alike hzero _
      · exact List.Forall₂.nil
    have hstart : Counted A 0 0 0 (Search.start : Search C) (Search.start : Search D) :=
      ⟨⟨rfl, ⟨hops.blank, hops.blank, hops.blank, hops.blank⟩, hops.blank, rfl, rfl, rfl, rfl, rfl,
        rfl⟩, rfl, rfl, fun _ => rfl⟩
    refine Twin.bind (Twin.withLocals (K := Counted A 0 0 0) (P := T 0)
      ((dfs_alike h hlevels ⟨hzero, hzero, hzero, hzero⟩ hlag).weaken
        (fun _ _ hxy => ⟨0, hxy⟩) (fun _ _ _ _ hxy => hxy) fun _ _ hxy => hxy) hstart
      fun _ _ hxy => hxy) fun finished finished' => Twin.pure fun w v hwv => ?_
    rcases hwv with ⟨k, hworld, hsearch⟩
    exact ⟨hsearch.alike, k, hworld, (UInt64.add_zero _).symm.trans hsearch.prunes,
      (UInt64.add_zero _).symm.trans hsearch.accepts, hsearch.others⟩
  · refine ⟨finish_alike hops.blank hwv.1, ?_⟩
    rcases hwv.2 with ⟨k, hworld, hprunes, haccepts, hothers⟩
    have hstats : (EncryptedBranchAndBoundSolver.finish s).stats = s.stats := by
      unfold EncryptedBranchAndBoundSolver.finish
      split <;> rfl
    exact ⟨k, hworld, by rw [hstats, hprunes], by rw [hstats, haccepts], hothers⟩

end Searching

/-! ## A solve over a traced engine -/

/-- The request with names for its ciphertexts. -/
def nameRequest {C : Type} (request : EncryptedOptimizationRequest C) :
    EncryptedOptimizationRequest (Named C) :=
  { costs := request.costs.mapIdx fun i row m => (row m).map fun c => ⟨c, .given i m⟩
    thresholdScaled := request.thresholdScaled
    sessionId := request.sessionId }

section Traced

variable {σ τ C D : Type} {A : C → D → Prop} {S : σ → τ → Prop}

theorem named_rel (name : Name) {cost : Option C} {cost' : Option D}
    (h : Option.Rel A cost cost') :
    Option.Rel (Same A) (cost.map fun c => ⟨c, name⟩) (cost'.map fun c => ⟨c, name⟩) := by
  cases h with
  | none => exact Option.Rel.none
  | some hcost => exact Option.Rel.some ⟨rfl, hcost⟩

theorem nameRequest_alike {request : EncryptedOptimizationRequest C}
    {request' : EncryptedOptimizationRequest D} (h : RequestAlike A request request') :
    RequestAlike (Same A) (nameRequest request) (nameRequest request') := by
  refine ⟨List.forall₂_iff_get.2 ⟨?_, fun i hi hi' m => ?_⟩, h.threshold, h.session⟩
  · simp [nameRequest, h.costs.length_eq]
  · have hrow := h.costs.get (by simpa [nameRequest] using hi) (by simpa [nameRequest] using hi') m
    simp only [nameRequest, List.get_eq_getElem, List.getElem_mapIdx]
    exact named_rel _ hrow

variable [CiphertextLike C] [CiphertextLike D] {e : PredicateEngine σ C} {e' : PredicateEngine τ D}
  {answers : Nat → Bool}

theorem engineSolver_alike (h : AlikeParties Unexpected A S e e') (answers : Nat → Bool)
    (config : EncryptedBranchAndBoundConfig) :
    AlikeSolver Unexpected (Same A) (EngineSynced S)
      (engineSolver (tracedEngine answers e) config)
      (engineSolver (tracedEngine answers e') config) where
  ops := fun k => (expectFused_alike answers (tracedOps_alike h.ops k)).onFst Eq
  config := rfl
  prune := fun k _ _ _ hin => pruneNode_alike h k hin
  accept := fun k _ _ _ hin => acceptCandidate_alike h k hin

/-- Two solves over traced engines end in the same way, with the same calls and the same consumed
pairs; the public parts of their results are the same, and every evaluation has been counted. -/
inductive Indistinguishable (A : C → D → Prop) (S : σ → τ → Prop) :
    EStateM.Result Error (EngineWorld (σ × Trace)) (EncryptedBranchAndBoundResult (Named C)) →
    EStateM.Result Error (EngineWorld (τ × Trace)) (EncryptedBranchAndBoundResult (Named D)) → Prop
  | returned {result : EncryptedBranchAndBoundResult (Named C)}
      {result' : EncryptedBranchAndBoundResult (Named D)} {s : σ} {t : τ} {trace : Trace}
      {keys : List Bytes} (hresult : ResultAlike (Same A) result result') (hst : S s t)
      (hcontexts : trace.contexts.length =
        trace.evaluated .pruneNode + trace.evaluated .acceptCandidate)
      (hprunes : UInt64.ofNat (trace.evaluated .pruneNode) = result.stats.prunePredicates)
      (haccepts : UInt64.ofNat (trace.evaluated .acceptCandidate) =
        result.stats.acceptPredicates) :
      Indistinguishable A S (.ok result ((s, trace), keys)) (.ok result' ((t, trace), keys))
  | raised (error : Error) {s : σ} {t : τ} {trace : Trace} {keys : List Bytes} :
      Indistinguishable A S (.error error ((s, trace), keys)) (.error error ((t, trace), keys))

/-- Two runs that have been answered by the same sequence of bits cannot be told apart by their
calls, and the counters say how many predicates they have evaluated. -/
theorem solve_oblivious (h : AlikeParties Unexpected A S e e')
    (config : EncryptedBranchAndBoundConfig) {request : EncryptedOptimizationRequest C}
    {request' : EncryptedOptimizationRequest D} (hrequest : RequestAlike A request request') {s : σ}
    {t : τ} (hst : S s t) (keys : List Bytes)
    (hrun : ¬ GivenUp Unexpected ((engineSolver (tracedEngine answers e) config).solve
      (nameRequest request) ((s, []), keys)))
    (hrun' : ¬ GivenUp Unexpected ((engineSolver (tracedEngine answers e') config).solve
      (nameRequest request') ((t, []), keys))) :
    Indistinguishable A S
      ((engineSolver (tracedEngine answers e) config).solve (nameRequest request) ((s, []), keys))
      ((engineSolver (tracedEngine answers e') config).solve (nameRequest request')
        ((t, []), keys)) := by
  have hstart : EngineSynced S 0 ((s, []), keys) ((t, []), keys) := ⟨⟨hst, rfl, rfl⟩, rfl⟩
  have hsolve := solve_alike (engineSolver_alike h answers config)
    (nameRequest_alike hrequest)
  rcases hsolve.run hstart with hup | ⟨r, r', w, w', hm, hn, hresult, k, hworld, hcounters⟩ |
    ⟨error, w, w', hm, hn, k, hworld⟩
  · exact (hup.elim hrun hrun').elim
  · rw [hm, hn]
    rcases w with ⟨⟨s', trace⟩, keys'⟩
    rcases w' with ⟨⟨t', trace'⟩, keys''⟩
    rcases hworld with ⟨⟨hst', rfl, rfl⟩, rfl⟩
    exact .returned hresult hst' (Trace.length_contexts hcounters.2.2) hcounters.1 hcounters.2.1
  · rw [hm, hn]
    rcases w with ⟨⟨s', trace⟩, keys'⟩
    rcases w' with ⟨⟨t', trace'⟩, keys''⟩
    rcases hworld with ⟨⟨hst', rfl, rfl⟩, rfl⟩
    exact .raised error

end Traced

/-- Ciphertexts in the clear that are both there. -/
def BothPresent (c d : Option Int) : Prop :=
  c.isSome = d.isSome

theorem clearOps_alike {G : Error → Prop} (domain : NumericDomain) :
    AlikeOps G BothPresent (fun _ _ => True) (clearOps domain) (clearOps domain) where
  blank := rfl
  empty := fun h => by cases_type* Option <;> simp_all [BothPresent, CiphertextLike.empty]
  domain := rfl
  encryptConstant := fun _ => Lockstep.pure rfl
  add := fun _ _ => Lockstep.pure rfl
  scalarMul := fun _ _ => Lockstep.pure rfl
  secureMul := fun _ _ => Lockstep.pure rfl
  secureMulBatch := fun hitems => Lockstep.mapM hitems fun _ _ _ => Lockstep.pure rfl
  greaterThan := fun _ _ => Lockstep.pure rfl
  greaterThanBatch := fun hitems => Lockstep.mapM hitems fun _ _ _ => Lockstep.pure rfl

theorem clearEngine_alike (domain : NumericDomain) :
    AlikeParties Unexpected BothPresent (fun _ _ => True) (clearEngine domain)
      (clearEngine domain) where
  ops := clearOps_alike domain
  authorize := fun _ => Lockstep.pure rfl
  resolve := fun _ _ _ _ => Lockstep.pure trivial
  fused := Or.inl ⟨rfl, rfl⟩

theorem clearRequest_alike {rows rows' : List (CostRow Int)}
    (h : List.Forall₂ (fun row row' => ∀ m, (row m).isSome = (row' m).isSome) rows rows')
    (threshold : Int) (session : String) :
    RequestAlike BothPresent (clearRequest rows threshold session)
      (clearRequest rows' threshold session) := by
  refine ⟨?_, rfl, rfl⟩
  refine List.forall₂_map_left_iff.2 (List.forall₂_map_right_iff.2
    (h.imp fun row row' hrow m => ?_))
  have hm := hrow m
  change Option.Rel BothPresent ((row m).map some) ((row' m).map some)
  cases hx : row m with
  | none =>
      cases hy : row' m with
      | none => exact Option.Rel.none
      | some y => rw [hx, hy] at hm; cases hm
  | some x =>
      cases hy : row' m with
      | none => rw [hx, hy] at hm; cases hm
      | some y => exact Option.Rel.some rfl

/-- A solve of two rows over a traced engine that is answered by one bit `true`, the sixth. -/
def tracedSolve (rows : List (CostRow Int)) :=
  (engineSolver (tracedEngine (· == 6) (clearEngine ⟨100, 4, 8, 16, 32, 32⟩)) {}).solve
    (nameRequest (clearRequest rows 20 "two-rows")) (((), []), [])

/-- Other costs, the same answers. -/
theorem solve_oblivious_twoRows :
    Indistinguishable BothPresent (fun _ _ => True)
      (tracedSolve [![some 3, none, some 2], ![some 1, some 4, none]])
      (tracedSolve [![some 30, none, some 25], ![some 7, some 40, none]]) := by
  have hnear : ¬ GivenUp Unexpected
      (tracedSolve [![some 3, none, some 2], ![some 1, some 4, none]]) := by decide +kernel
  have hfar : ¬ GivenUp Unexpected
      (tracedSolve [![some 30, none, some 25], ![some 7, some 40, none]]) := by decide +kernel
  have hrequest : RequestAlike BothPresent
      (clearRequest [![some 3, none, some 2], ![some 1, some 4, none]] 20 "two-rows")
      (clearRequest [![some 30, none, some 25], ![some 7, some 40, none]] 20 "two-rows") :=
    clearRequest_alike (List.Forall₂.cons (by decide) (List.Forall₂.cons (by decide)
      List.Forall₂.nil)) 20 "two-rows"
  exact solve_oblivious (clearEngine_alike _) {} hrequest trivial [] hnear hfar

end Optimization
end SociSgx

import SociSgx.Optimizer.Preprocess

/-!
# EncryptedSearch — the encrypted search is the search on plain integers

`dfs_spec` follows the recursion of `dfs`: over an exact backend, and with predicates that answer
by a relation `Ans`, every run of the encrypted search is a run of the branch and bound of
`Lib/BranchBound.lean` on the plain costs.  With `Ans := Eq` that run is `explore` under the
decisions of `Bounds.lean`.
-/

namespace SociSgx
namespace Optimization

open Exec Secure BranchBound

variable {W C : Type} [CiphertextLike C]

/-! ## What the predicates promise -/

/-- The predicates answer by `Ans`.  `I p a` is the world after `p` PRUNE and `a` ACCEPT evaluations
of the session; `E type p a` is what the next evaluation, of this type, may throw then. -/
structure PredicateContract (predicates : Predicates W C) (D : C → Int → Prop)
    (Fits : Int → Prop) (Batch : Nat → Prop) (sessionId : Bytes) (Ans : Bool → Bool → Prop)
    (I : Nat → Nat → W → Prop) (E : PredicateType → Nat → Nat → Error → W → Prop) : Prop where
  pruneNode : ∀ p a depth node {inputs : PruneInputs C} {v : PruneInputs Int},
    inputs.Holds D v → v.Admits Fits Batch →
    Triple (I p a)
      (predicates.pruneNode (predicateContext sessionId .pruneNode depth node
        (operationId "prune-" (UInt64.ofNat (p + 1)))) inputs)
      (fun b w => Ans v.holds b ∧ I (p + 1) a w) (E .pruneNode p a)
  acceptCandidate : ∀ p a depth node {inputs : AcceptInputs C} {v : AcceptInputs Int},
    inputs.Holds D v → v.Admits Fits Batch →
    Triple (I p a)
      (predicates.acceptCandidate (predicateContext sessionId .acceptCandidate depth node
        (operationId "accept-" (UInt64.ofNat (a + 1)))) inputs)
      (fun b w => Ans v.holds b ∧ I p (a + 1) w) (E .acceptCandidate p a)

/-- The answers that the plain search may get. -/
def answers (Ans : Bool → Bool → Prop) (bound : CostBound) (scale threshold : Int) :
    Answers (CostRow Int) (Choice Int) :=
  { prune := fun inc path rest b =>
      match rest with
      | [] => b = false
      | row :: rest => Ans (bound.pruneInputs scale threshold inc path (row :: rest)).holds b
    accept := fun inc path b => Ans (CostBound.acceptInputs scale threshold inc path).holds b }

theorem answers_eq (bound : CostBound) (scale threshold : Int) :
    answers Eq bound scale threshold = (bound.decisions scale threshold).answers := by
  unfold answers Decisions.answers
  congr 1
  funext inc path rest b
  cases rest with
  | nil => simp [CostBound.decisions, eq_comm]
  | cons row rest => simp [CostBound.decisions]

/-! ## The state of the search -/

def reportPath (path : List (Choice Int)) : List UInt8 :=
  (methods path).map report

/-- The trace of a run, seen by its methods. -/
def reportLog (log : Log (Choice Int)) : Log UInt8 :=
  { visited := log.visited.map reportPath
    pruned := log.pruned.map reportPath
    candidates := log.candidates.map reportPath
    accepted := log.accepted.map reportPath }

theorem reportLog_visit (log : Log (Choice Int)) (path : List (Choice Int)) :
    reportLog (log.visit path) = (reportLog log).visit (reportPath path) := by
  simp [reportLog, Log.visit]

theorem reportLog_cut (log : Log (Choice Int)) (path : List (Choice Int)) :
    reportLog (log.cut path) = (reportLog log).cut (reportPath path) := by
  simp [reportLog, Log.cut]

theorem reportLog_candidate (log : Log (Choice Int)) (path : List (Choice Int)) (kept : Bool) :
    reportLog (log.candidate path kept) = (reportLog log).candidate (reportPath path) kept := by
  cases kept <;> simp [reportLog, Log.candidate]

/-- The sums of a node. -/
structure PrefixHolds (D : C → Int → Prop) (scale threshold : Int) (pre : Prefix C)
    (path : List (Choice Int)) : Prop where
  total : D pre.total (total path)
  c12 : D pre.c12 (c12 path)
  c3 : D pre.c3 (c3 path)
  linear : D pre.linear (linear scale threshold path)

/-- The objectives of a node; only the Lagrangian bound has them. -/
def LagHolds (D : C → Int → Prop) (grid : Option LagrangianGrid) (scale threshold : Int)
    (lagPrefix : List C) (path : List (Choice Int)) : Prop :=
  grid.isSome = true → List.Forall₂
    (fun c mu => D c (sumOf (objective grid scale threshold mu) path)) lagPrefix
    (boundOf grid).multipliers

/-- The incumbent of the search is the leaf `best`. -/
structure IncumbentHolds (D : C → Int → Prop) (grid : Option LagrangianGrid)
    (scale threshold : Int) (rows : List (CostRow Int)) (incumbent : Prefix C)
    (scaledIncumbent : C) (solution : List UInt8) (best : List (Choice Int)) : Prop where
  sums : PrefixHolds D scale threshold incumbent best
  scaled : grid.isSome = true → D scaledIncumbent ((boundOf grid).weight * total best)
  solution : solution = reportPath best
  assignment : IsAssignment rows best

/-- The local variables describe the log after `p` PRUNE evaluations. -/
structure SearchHolds (D : C → Int → Prop) (grid : Option LagrangianGrid)
    (scale threshold : Int) (rows : List (CostRow Int)) (log : Log (Choice Int)) (p : Nat)
    (s : Search C) : Prop where
  hasIncumbent : s.hasIncumbent = log.incumbent.isSome
  incumbent : ∀ best, log.incumbent = some best →
    IncumbentHolds D grid scale threshold rows s.incumbent s.scaledIncumbent s.solution best
  trace : s.trace = reportLog log
  pruneSequence : s.pruneSequence = UInt64.ofNat p
  acceptSequence : s.acceptSequence = UInt64.ofNat log.candidates.length
  visitedNodes : s.stats.visitedNodes = UInt64.ofNat log.visited.length
  prunedNodes : s.stats.prunedNodes = UInt64.ofNat log.pruned.length
  candidateCount : s.stats.candidateCount = UInt64.ofNat log.candidates.length

/-- The world and the local variables agree with the log. -/
def Agrees (D : C → Int → Prop) (I : Nat → Nat → W → Prop) (grid : Option LagrangianGrid)
    (scale threshold : Int) (rows : List (CostRow Int)) (log : Log (Choice Int)) (p : Nat)
    (t : W × Search C) : Prop :=
  I p log.candidates.length t.1 ∧ SearchHolds D grid scale threshold rows log p t.2

/-- Between two nodes every visited node has been evaluated once. -/
def Between (D : C → Int → Prop) (I : Nat → Nat → W → Prop) (grid : Option LagrangianGrid)
    (scale threshold : Int) (rows : List (CostRow Int)) (log : Log (Choice Int))
    (t : W × Search C) : Prop :=
  ∃ p, p + log.candidates.length = log.visited.length ∧
    Agrees D I grid scale threshold rows log p t

theorem ofNat_succ (n : Nat) : UInt64.ofNat n + 1 = UInt64.ofNat (n + 1) := by
  simp

section Steps

variable {D : C → Int → Prop} {grid : Option LagrangianGrid} {scale threshold : Int}
  {rows : List (CostRow Int)} {log : Log (Choice Int)} {p : Nat} {s : Search C}

omit [CiphertextLike C]

theorem SearchHolds.enter (h : SearchHolds D grid scale threshold rows log p s)
    (path : List (Choice Int)) :
    SearchHolds D grid scale threshold rows (log.visit path) p (s.enter (reportPath path)) where
  hasIncumbent := h.hasIncumbent
  incumbent := h.incumbent
  trace := by
    rw [reportLog_visit, ← h.trace]
    rfl
  pruneSequence := h.pruneSequence
  acceptSequence := h.acceptSequence
  visitedNodes := by
    change s.stats.visitedNodes + 1 = _
    rw [h.visitedNodes, ofNat_succ]
    simp
  prunedNodes := h.prunedNodes
  candidateCount := h.candidateCount

theorem SearchHolds.cut (h : SearchHolds D grid scale threshold rows log p s)
    (path : List (Choice Int)) :
    SearchHolds D grid scale threshold rows (log.cut path) p (s.cut (reportPath path)) where
  hasIncumbent := h.hasIncumbent
  incumbent := h.incumbent
  trace := by
    rw [reportLog_cut, ← h.trace]
    rfl
  pruneSequence := h.pruneSequence
  acceptSequence := h.acceptSequence
  visitedNodes := h.visitedNodes
  prunedNodes := by
    change s.stats.prunedNodes + 1 = _
    rw [h.prunedNodes, ofNat_succ]
    simp [Log.cut]
  candidateCount := h.candidateCount

/-- The counters of the bounds are not among the variables that the log describes. -/
theorem SearchHolds.countBounds (h : SearchHolds D grid scale threshold rows log p s)
    (g : Option LagrangianGrid) :
    SearchHolds D grid scale threshold rows log p (s.countBounds g) := by
  have hstats : (s.countBounds g).stats.visitedNodes = s.stats.visitedNodes ∧
      (s.countBounds g).stats.prunedNodes = s.stats.prunedNodes ∧
      (s.countBounds g).stats.candidateCount = s.stats.candidateCount := by
    cases g with
    | none => exact ⟨rfl, rfl, rfl⟩
    | some g => cases hinc : s.hasIncumbent <;> simp [Search.countBounds, hinc]
  exact ⟨h.hasIncumbent, h.incumbent, h.trace, h.pruneSequence, h.acceptSequence,
    hstats.1.trans h.visitedNodes, hstats.2.1.trans h.prunedNodes,
    hstats.2.2.trans h.candidateCount⟩

theorem SearchHolds.atNode (h : SearchHolds D grid scale threshold rows log p s) :
    SearchHolds D grid scale threshold rows log (p + 1) s.atNode where
  hasIncumbent := h.hasIncumbent
  incumbent := h.incumbent
  trace := h.trace
  pruneSequence := by
    change s.pruneSequence + 1 = _
    rw [h.pruneSequence, ofNat_succ]
  acceptSequence := h.acceptSequence
  visitedNodes := h.visitedNodes
  prunedNodes := h.prunedNodes
  candidateCount := h.candidateCount

/-- The sequence numbers after a leaf has been counted. -/
theorem atLeaf_counters (h : SearchHolds D grid scale threshold rows log p s)
    (path : List (Choice Int)) (kept : Bool) :
    s.atLeaf.acceptSequence = UInt64.ofNat (log.candidate path kept).candidates.length ∧
      s.atLeaf.stats.candidateCount =
        UInt64.ofNat (log.candidate path kept).candidates.length := by
  constructor
  · change s.acceptSequence + 1 = _
    rw [h.acceptSequence, ofNat_succ]
    simp [Log.candidate]
  · change s.stats.candidateCount + 1 = _
    rw [h.candidateCount, ofNat_succ]
    simp [Log.candidate]

theorem SearchHolds.reject (h : SearchHolds D grid scale threshold rows log p s)
    (path : List (Choice Int)) :
    SearchHolds D grid scale threshold rows (log.candidate path false) p
      (s.atLeaf.reject (reportPath path)) where
  hasIncumbent := h.hasIncumbent
  incumbent := h.incumbent
  trace := by
    rw [reportLog_candidate, ← h.trace]
    rfl
  pruneSequence := h.pruneSequence
  acceptSequence := (atLeaf_counters h path false).1
  visitedNodes := h.visitedNodes
  prunedNodes := h.prunedNodes
  candidateCount := (atLeaf_counters h path false).2

theorem SearchHolds.accept (h : SearchHolds D grid scale threshold rows log p s)
    {path : List (Choice Int)} {pre : Prefix C} {scaled : C}
    (hpre : PrefixHolds D scale threshold pre path)
    (hscaled : grid.isSome = true → D scaled ((boundOf grid).weight * total path))
    (hpath : IsAssignment rows path) :
    SearchHolds D grid scale threshold rows (log.candidate path true) p
      (s.atLeaf.accept pre scaled (reportPath path)) where
  hasIncumbent := by simp [Search.accept, Log.candidate, Log.incumbent]
  incumbent := by
    intro best hbest
    have hlast : path = best := by simpa [Log.candidate, Log.incumbent] using hbest
    subst hlast
    exact ⟨hpre, hscaled, rfl, hpath⟩
  trace := by
    rw [reportLog_candidate, ← h.trace]
    rfl
  pruneSequence := h.pruneSequence
  acceptSequence := (atLeaf_counters h path true).1
  visitedNodes := h.visitedNodes
  prunedNodes := h.prunedNodes
  candidateCount := (atLeaf_counters h path true).2

end Steps

/-! ## One node -/

section Nodes

variable {solver : EncryptedBranchAndBoundSolver W C} {D : C → Int → Prop} {Fits : Int → Prop}
  {Batch : Nat → Prop} {sessionId : Bytes} {Ans : Bool → Bool → Prop}
  {I : Nat → Nat → W → Prop} {E : PredicateType → Nat → Nat → Error → W → Prop}
  {grid : Option LagrangianGrid}
  {scale threshold : Int} {rows : List (CostRow Int)} {log : Log (Choice Int)} {p a : Nat}

/-- What a search needs of its surroundings. -/
structure Setting (solver : EncryptedBranchAndBoundSolver W C) (D : C → Int → Prop)
    (Fits : Int → Prop) (Batch : Nat → Prop) (sessionId : Bytes) (Ans : Bool → Bool → Prop)
    (I : Nat → Nat → W → Prop) (E : PredicateType → Nat → Nat → Error → W → Prop)
    (grid : Option LagrangianGrid) (scale threshold : Int) (rows : List (CostRow Int)) : Prop where
  ops : ∀ p a, ExactOps solver.ops D Fits Batch (I p a)
  predicates : PredicateContract solver.predicates D Fits Batch sessionId Ans I E
  operands : OperandsFit Fits Batch (boundOf grid) scale threshold rows
  multipliers : (boundOf grid).multipliers ≠ []

/-- `cost_lowers` decrypts to the lower bounds. -/
theorem costLowers_spec
    (h : Setting solver D Fits Batch sessionId Ans I E grid scale threshold rows)
    {level : Level C} {row : CostRow Int} {rest : List (CostRow Int)}
    (hlevel : LevelHolds D grid scale threshold level row rest) {pre : Prefix C}
    {lagPrefix : List C} {path : List (Choice Int)}
    (hpre : PrefixHolds D scale threshold pre path)
    (hlag : LagHolds D grid scale threshold lagPrefix path) (inc : Option (List (Choice Int))) :
    Yields (I p a) (solver.costLowers grid level pre lagPrefix inc.isSome)
      (fun cs => List.Forall₂ D cs
        ((boundOf grid).pruneInputs scale threshold inc path (row :: rest)).costLowers)
      Never := by
  cases inc with
  | none => exact Yields.pure List.Forall₂.nil
  | some best =>
      have hlowers : ∀ cs, List.Forall₂ (fun c mu => D c
          (sumOf (objective grid scale threshold mu) path +
            suffix min (objective grid scale threshold mu) (row :: rest))) cs
            (boundOf grid).multipliers →
          List.Forall₂ D cs ((boundOf grid).lowers scale threshold path (row :: rest)) := by
        intro cs hcs
        unfold CostBound.lowers
        rwa [List.forall₂_map_right_iff]
      cases grid with
      | none =>
          refine (Yields.mapM hlevel.lowerSuffix fun s mu _ hmu hs => ?_).post hlowers
          have hzero : mu = 0 := List.mem_singleton.1 hmu
          subst hzero
          have htotal : sumOf (objective none scale threshold 0) path = total path := by
            rw [objective, CostBound.sumOf_score]
            simp [boundOf, CostBound.weight]
          rw [htotal]
          exact (h.ops p a).add hpre.total hs
      | some g => exact (zipAdd_spec (h.ops p a) (hlag rfl) hlevel.lowerSuffix).post hlowers

/-- The inputs of a PRUNE evaluation are admissible. -/
theorem pruneInputs_admissible
    (h : Setting solver D Fits Batch sessionId Ans I E grid scale threshold rows)
    {done : List (CostRow Int)} {row : CostRow Int} {rest : List (CostRow Int)}
    (hsplit : rows = done ++ row :: rest) {path : List (Choice Int)}
    (hpath : IsAssignment done path) {inc : Option (List (Choice Int))}
    (hinc : ∀ best, inc = some best → IsAssignment rows best) :
    ((boundOf grid).pruneInputs scale threshold inc path (row :: rest)).Admits Fits Batch where
  bits := h.operands.bits
  linearUpper := h.operands.uppers done (row :: rest) path hsplit hpath
  costLowers := by
    intro hsome
    rcases Option.isSome_iff_exists.1 hsome with ⟨best, rfl⟩
    refine ⟨?_, ?_, (h.operands.results best (hinc best rfl)).1⟩
    · simpa [CostBound.pruneInputs, CostBound.lowers] using h.multipliers
    · exact h.operands.lowers done (row :: rest) path hsplit hpath
  batch := by
    intro k hk hle
    refine h.operands.batch k hk (Or.inr (hle.trans ?_))
    cases inc <;> simp [CostBound.pruneInputs, CostBound.lowers]

theorem acceptInputs_admissible
    (h : Setting solver D Fits Batch sessionId Ans I E grid scale threshold rows)
    {path : List (Choice Int)} (hpath : IsAssignment rows path)
    {inc : Option (List (Choice Int))}
    (hinc : ∀ best, inc = some best → IsAssignment rows best) :
    (CostBound.acceptInputs scale threshold inc path).Admits Fits Batch where
  bits := h.operands.bits
  candidate := by
    have hfit := h.operands.results path hpath
    exact ⟨hfit.2.2.2.2, hfit.2.2.2.1, hfit.2.1, hfit.2.2.1⟩
  incumbent := by
    intro hsome
    rcases Option.isSome_iff_exists.1 hsome with ⟨best, rfl⟩
    have hfit := h.operands.results best (hinc best rfl)
    exact ⟨hfit.2.1, hfit.2.2.1⟩
  batch := fun k hk hle => h.operands.batch k hk (Or.inl hle)

/-- Whether a node is cut is decided by the PRUNE predicate on the plain bounds. -/
theorem askPrune_spec
    (h : Setting solver D Fits Batch sessionId Ans I E grid scale threshold rows)
    {done : List (CostRow Int)} {row : CostRow Int} {rest : List (CostRow Int)}
    (hsplit : rows = done ++ row :: rest) {level : Level C}
    (hlevel : LevelHolds D grid scale threshold level row rest) {pre : Prefix C}
    {lagPrefix : List C} {path : List (Choice Int)} (hpath : IsAssignment done path)
    (hpre : PrefixHolds D scale threshold pre path)
    (hlag : LagHolds D grid scale threshold lagPrefix path) (depth : Nat) :
    Triple (Agrees D I grid scale threshold rows log p)
      (solver.askPrune sessionId grid level depth pre lagPrefix)
      (fun b t =>
        Ans ((boundOf grid).pruneInputs scale threshold log.incumbent path (row :: rest)).holds b ∧
          Agrees D I grid scale threshold rows log (p + 1) t)
      (fun err t => E .pruneNode p log.candidates.length err t.1) := by
  unfold EncryptedBranchAndBoundSolver.askPrune
  -- From here on the variables are known: `s`, and then `s` with its counters updated.
  refine Triple.locals_bind (P := I p log.candidates.length)
    (K := SearchHolds D grid scale threshold rows log p) fun s hs => ?_
  have hinc : ∀ best, log.incumbent = some best → IsAssignment rows best :=
    fun best hbest => (hs.incumbent best hbest).assignment
  refine (((h.ops p log.candidates.length).add hpre.linear hlevel.maxLinearSuffix).onFst
    (fun k => k = s)).ofNever.bind fun linearUpper hupper => ?_
  refine Triple.bind (Q := fun _ t => I p log.candidates.length t.1 ∧ t.2 = s.countBounds grid)
    (Triple.update fun (t : W × Search C) ht => ⟨ht.1, congrArg (Search.countBounds grid) ht.2⟩)
    fun _ => ?_
  have hlowersSpec := costLowers_spec (p := p) (a := log.candidates.length) h hlevel hpre hlag
    log.incumbent
  rw [← hs.hasIncumbent] at hlowersSpec
  refine (hlowersSpec.onFst (fun k => k = s.countBounds grid)).ofNever.bind fun lowers hlowers => ?_
  refine Triple.bind (Q := fun _ t => I p log.candidates.length t.1 ∧
    SearchHolds D grid scale threshold rows log (p + 1) t.2)
    (Triple.update fun (t : W × Search C) ht =>
      ⟨ht.1, by rw [ht.2]; exact (hs.countBounds grid).atNode⟩)
    fun _ => ?_
  rw [hs.pruneSequence, ofNat_succ]
  have hholds : PruneInputs.Holds D
      { linearUpper := linearUpper
        costLowers := lowers
        hasIncumbent := s.hasIncumbent
        incumbentCost := if s.hasIncumbent then
          (if grid.isSome then s.scaledIncumbent else s.incumbent.total) else default }
      ((boundOf grid).pruneInputs scale threshold log.incumbent path (row :: rest)) := by
    refine ⟨hupper, hlowers, hs.hasIncumbent, fun hsome => ?_⟩
    rcases Option.isSome_iff_exists.1 hsome with ⟨best, hbest⟩
    have hbestHolds := hs.incumbent best hbest
    rw [hs.hasIncumbent, hbest]
    cases grid with
    | none => simpa [CostBound.pruneInputs, boundOf, CostBound.weight] using hbestHolds.sums.total
    | some g => simpa [CostBound.pruneInputs] using hbestHolds.scaled rfl
  have hcall := h.predicates.pruneNode p log.candidates.length depth s.nodeSequence hholds
    (pruneInputs_admissible h hsplit hpath hinc)
  refine (Triple.onFst hcall _).weaken (fun _ ht => ht) ?_ ?_
  · intro b t ht
    exact ⟨ht.1.1, ht.1.2, ht.2⟩
  · intro err t ht
    exact ht.1

/-- A leaf is offered to the ACCEPT predicate with its plain sums. -/
theorem leaf_spec
    (h : Setting solver D Fits Batch sessionId Ans I E grid scale threshold rows)
    {pre : Prefix C} {path : List (Choice Int)} (hpath : IsAssignment rows path)
    (hpre : PrefixHolds D scale threshold pre path) (depth : Nat) :
    Triple (Agrees D I grid scale threshold rows log p)
      (solver.leaf sessionId grid depth pre (reportPath path))
      (fun _ t => ∃ kept,
        Ans (CostBound.acceptInputs scale threshold log.incumbent path).holds kept ∧
          Agrees D I grid scale threshold rows (log.candidate path kept) p t)
      (fun err t => E .acceptCandidate p log.candidates.length err t.1) := by
  unfold EncryptedBranchAndBoundSolver.leaf
  refine Triple.bind (Q := fun _ t => I p log.candidates.length t.1 ∧
    ∃ s, SearchHolds D grid scale threshold rows log p s ∧ t.2 = s.atLeaf)
    (Triple.update fun t ht => ⟨ht.1, t.2, ht.2, rfl⟩) fun _ => ?_
  refine Triple.locals_bind (P := I p log.candidates.length) (K := fun k =>
    ∃ s, SearchHolds D grid scale threshold rows log p s ∧ k = s.atLeaf) fun k hk => ?_
  rcases hk with ⟨s, hs, rfl⟩
  have hinc : ∀ best, log.incumbent = some best → IsAssignment rows best :=
    fun best hbest => (hs.incumbent best hbest).assignment
  have hholds : AcceptInputs.Holds D
      { linear := pre.linear
        c3 := pre.c3
        cost := pre.total
        c12 := pre.c12
        hasIncumbent := s.atLeaf.hasIncumbent
        incumbentCost := s.atLeaf.incumbent.total
        incumbentC12 := s.atLeaf.incumbent.c12 }
      (CostBound.acceptInputs scale threshold log.incumbent path) := by
    refine ⟨hpre.linear, hpre.c3, hpre.total, hpre.c12, hs.hasIncumbent, ?_, ?_⟩
    · intro hsome
      rcases Option.isSome_iff_exists.1 hsome with ⟨best, hbest⟩
      simpa [CostBound.acceptInputs, hbest, Search.atLeaf] using
        (hs.incumbent best hbest).sums.total
    · intro hsome
      rcases Option.isSome_iff_exists.1 hsome with ⟨best, hbest⟩
      simpa [CostBound.acceptInputs, hbest, Search.atLeaf] using
        (hs.incumbent best hbest).sums.c12
  have hsequence : s.atLeaf.acceptSequence = UInt64.ofNat (log.candidates.length + 1) := by
    change s.acceptSequence + 1 = _
    rw [hs.acceptSequence, ofNat_succ]
  rw [hsequence]
  -- The sequence number of the call is the count of candidates so far.
  have hcall := h.predicates.acceptCandidate p log.candidates.length depth
    s.atLeaf.nodeSequence hholds (acceptInputs_admissible h hpath hinc)
  have hcount : ∀ kept,
      (log.candidate path kept).candidates.length = log.candidates.length + 1 := by
    intro kept
    simp [Log.candidate]
  refine Triple.bind ((Triple.onFst hcall (fun k => k = s.atLeaf)).weaken (fun _ ht => ht)
    (fun accepted t ht => (⟨ht.1.1, ht.1.2, ht.2⟩ : _ ∧ _ ∧ _)) (fun err t ht => ht.1))
    fun accepted => Triple.assuming fun hanswer => ?_
  cases accepted
  · refine Triple.update fun t ht => ⟨false, hanswer, ?_, ?_⟩
    · rw [hcount]
      exact ht.1
    · rw [ht.2]
      exact hs.reject path
  · cases hgrid : grid with
    | none =>
        refine Triple.update fun t ht => ⟨true, hanswer, ?_, ?_⟩
        · rw [hcount]
          exact ht.1
        · rw [ht.2]
          exact hgrid ▸ hs.accept hpre (by simp [hgrid]) hpath
    -- With a grid the weighted incumbent is kept as well.
    | some g =>
        refine (((h.ops p (log.candidates.length + 1)).scalarMul g.q hpre.total).onFst
          (fun k => k = s.atLeaf)).ofNever.bind fun scaled hscaled => ?_
        refine Triple.update fun t ht => ⟨true, hanswer, ?_, ?_⟩
        · rw [hcount]
          exact ht.1
        · rw [ht.2]
          exact hgrid ▸ hs.accept hpre (by rw [hgrid]; exact fun _ => hscaled) hpath

/-- The sums of a child are those of its path. -/
theorem childPrefix_spec
    (h : Setting solver D Fits Batch sessionId Ans I E grid scale threshold rows)
    {entry : MethodEntry C} {c : Choice Int} (hentry : EntryHolds D grid scale threshold entry c)
    {pre : Prefix C} {path : List (Choice Int)} (hpre : PrefixHolds D scale threshold pre path) :
    Yields (I p a) (solver.childPrefix pre entry)
      (fun child => PrefixHolds D scale threshold child (path ++ [c])) Never := by
  have hops := h.ops p a
  unfold EncryptedBranchAndBoundSolver.childPrefix
  refine (hops.add hpre.total hentry.cost).bind fun totalC htotal => ?_
  have htotal' : D totalC (total (path ++ [c])) := by simpa [total] using htotal
  rw [hentry.method]
  by_cases hmethod : c.method < 2
  · rw [if_pos hmethod]
    refine (hops.add hpre.c12 hentry.cost).bind fun c12C hc12 => ?_
    refine (hops.add hpre.linear hentry.linear).bind fun linearC hlinear => ?_
    refine Yields.pure ⟨htotal', ?_, ?_, ?_⟩
    · simpa [c12, hmethod] using hc12
    · simpa [c3, hmethod] using hpre.c3
    · simpa [linear] using hlinear
  · rw [if_neg hmethod]
    refine (hops.add hpre.c3 hentry.cost).bind fun c3C hc3 => ?_
    refine (hops.add hpre.linear hentry.linear).bind fun linearC hlinear => ?_
    refine Yields.pure ⟨htotal', ?_, ?_, ?_⟩
    · simpa [c12, hmethod] using hpre.c12
    · simpa [c3, hmethod] using hc3
    · simpa [linear] using hlinear

theorem childLagPrefix_spec
    (h : Setting solver D Fits Batch sessionId Ans I E grid scale threshold rows)
    {entry : MethodEntry C} {c : Choice Int} (hentry : EntryHolds D grid scale threshold entry c)
    {lagPrefix : List C} {path : List (Choice Int)}
    (hlag : LagHolds D grid scale threshold lagPrefix path) :
    Yields (I p a) (solver.childLagPrefix grid lagPrefix entry)
      (fun child => LagHolds D grid scale threshold child (path ++ [c])) Never := by
  cases grid with
  | none => exact Yields.pure fun hno => absurd hno (by simp)
  | some g =>
      refine (zipAdd_spec (h.ops p a) (hlag rfl) (hentry.scores rfl)).post fun cs hcs _ => ?_
      simpa using hcs

/-! ## The recursion -/

/-- The predicate that a node with these rows below it asks. -/
def askedType : List (CostRow Int) → PredicateType
  | [] => .acceptCandidate
  | _ :: _ => .pruneNode

/-- An evaluation failed at a node that a run with these answers reaches. -/
def FailsAt (Ans : Bool → Bool → Prop) (E : PredicateType → Nat → Nat → Error → W → Prop)
    (bound : CostBound) (scale threshold : Int) (rest : List (CostRow Int))
    (path : List (Choice Int)) (log : Log (Choice Int)) (err : Error) (w : W) : Prop :=
  ∃ mid below p,
    BranchBound.Reaches options (answers Ans bound scale threshold) rest path log mid below ∧
    p + mid.candidates.length + 1 = mid.visited.length ∧
    E (askedType below) p mid.candidates.length err w

/-- The encrypted search below a node is a run of the plain search below it.  If it throws, it
does so at a node that the plain search reaches. -/
theorem dfs_spec
    (h : Setting solver D Fits Batch sessionId Ans I E grid scale threshold rows)
    (levels : List (Level C)) : ∀ {rest done : List (CostRow Int)} {path : List (Choice Int)}
      {pre : Prefix C} {lagPrefix : List C} {log : Log (Choice Int)} (depth : Nat),
      LevelsHold D grid scale threshold levels rest → rows = done ++ rest →
      IsAssignment done path → PrefixHolds D scale threshold pre path →
      LagHolds D grid scale threshold lagPrefix path →
      Triple (Between D I grid scale threshold rows log)
        (solver.dfs sessionId grid levels depth pre lagPrefix (reportPath path))
        (fun _ t => ∃ log', Explores options (answers Ans (boundOf grid) scale threshold) rest
          path log log' ∧ Between D I grid scale threshold rows log' t)
        (fun err t => FailsAt Ans E (boundOf grid) scale threshold rest path log err t.1) := by
  induction levels with
  | nil =>
      intro rest done path pre lagPrefix log depth hlevels hsplit hpath hpre _
      have hrest : rest = [] := hlevels
      subst hrest
      have hassignment : IsAssignment rows path := by
        rw [hsplit, List.append_nil]
        exact hpath
      rintro t ⟨p, hp, hagrees⟩
      have hcount :
          p + (log.visit path).candidates.length + 1 = (log.visit path).visited.length := by
        simp [Log.visit, ← hp]
      refine (Triple.bind (Q := fun _ => Agrees D I grid scale threshold rows (log.visit path) p)
        (Triple.update fun (t : W × Search C) ht => ⟨ht.1, ht.2.enter path⟩)
        fun _ => (leaf_spec h hassignment hpre depth).weaken (fun _ ht => ht) ?_ ?_) t hagrees
      · rintro _ t ⟨kept, hanswer, ht⟩
        refine ⟨(log.visit path).candidate path kept, Or.inr ⟨rfl, kept, hanswer, rfl⟩, p, ?_, ht⟩
        simp only [Log.candidate, Log.visit, List.length_append, List.length_singleton]
        omega
      · intro err t ht
        exact ⟨log.visit path, [], p, ⟨rfl, rfl⟩, hcount, ht⟩
  | cons level levels ih =>
      intro rest done path pre lagPrefix log depth hlevels hsplit hpath hpre hlag
      -- The node asks PRUNE first, and fails there or knows the answer.
      rcases hlevels with ⟨row, rest', rfl, hlevel, hlevels⟩
      rintro t ⟨p, hp, hagrees⟩
      have hcount :
          p + (log.visit path).candidates.length + 1 = (log.visit path).visited.length := by
        simp [Log.visit, ← hp]
      refine (Triple.bind (Q := fun _ => Agrees D I grid scale threshold rows (log.visit path) p)
        (Triple.update fun (t : W × Search C) ht => ⟨ht.1, ht.2.enter path⟩) fun _ => ?_) t hagrees
      refine Triple.bind ((askPrune_spec h hsplit hlevel hpath hpre hlag depth).weaken
        (fun _ ht => ht) (fun _ _ ht => ht) fun err t ht => ?_) fun pruned => ?_
      · exact ⟨log.visit path, row :: rest', p, Or.inl ⟨rfl, rfl⟩, hcount, ht⟩
      · refine Triple.assuming fun hanswer => ?_
        cases pruned
        · -- The node stays open: its children are explored one after the other.
          refine (Triple.forM (fun doneOptions t => ∃ mid,
            Sweep (fun c l l' => Explores options (answers Ans (boundOf grid) scale threshold)
              rest' (path ++ [c]) l l') doneOptions (log.visit path) mid ∧
            Between D I grid scale threshold rows mid t) hlevel.entries ?_).weaken ?_ ?_
            (fun _ _ ht => ht)
          · intro before c after entry hoptions hentry
            rintro t ⟨mid, hsweep, hmid⟩
            have hmem : row c.method = some c.cost := mem_options.1 (by rw [hoptions]; simp)
            have hchild : IsAssignment (done ++ [row]) (path ++ [c]) :=
              List.rel_append hpath (List.Forall₂.cons hmem List.Forall₂.nil)
            refine (Triple.bind (Q := fun child t => PrefixHolds D scale threshold child
                (path ++ [c]) ∧ Between D I grid scale threshold rows mid t) ?_ fun child =>
              Triple.assuming fun hprefix => Triple.bind (Q := fun childLag t =>
                LagHolds D grid scale threshold childLag (path ++ [c]) ∧
                  Between D I grid scale threshold rows mid t) ?_ fun childLag =>
              Triple.assuming fun hchildLag => ?_) t hmid
            · rintro t ⟨p', hp', ht⟩
              refine (((childPrefix_spec h hentry hpre).onFst _).ofNever.weaken
                (fun _ ht => ht) ?_ (fun _ _ he => he)) t ht
              intro child t ht
              exact ⟨ht.1, p', hp', ht.2⟩
            · rintro t ⟨p', hp', ht⟩
              refine (((childLagPrefix_spec h hentry hlag).onFst _).ofNever.weaken
                (fun _ ht => ht) ?_ (fun _ _ he => he)) t ht
              intro child t ht
              exact ⟨ht.1, p', hp', ht.2⟩
            · have hreport : reportPath path ++ [report entry.method] =
                  reportPath (path ++ [c]) := by
                simp [reportPath, methods, hentry.method]
              rw [hreport]
              refine (ih (depth + 1) hlevels (by rw [hsplit]; simp) hchild hprefix
                hchildLag).weaken (fun _ ht => ht) ?_ ?_
              · rintro _ t ⟨log', hexplores, hlog'⟩
                exact ⟨log', hsweep.append hexplores, hlog'⟩
              · rintro err t ⟨mid', below, k, hreaches, hk, hE⟩
                exact ⟨mid', below, k,
                  Or.inr ⟨hanswer, before, c, after, mid, hoptions, hsweep, hreaches⟩, hk, hE⟩
          · intro t ht
            refine ⟨log.visit path, rfl, p + 1, ?_, ht⟩
            omega
          · rintro _ t ⟨mid, hsweep, hmid⟩
            exact ⟨mid, Or.inr ⟨hanswer, hsweep⟩, hmid⟩
        · refine Triple.update fun t ht => ⟨(log.visit path).cut path, Or.inl ⟨hanswer, rfl⟩,
            p + 1, ?_, ht.1, ht.2.cut path⟩
          simp only [Log.cut]
          omega

/-! ## The whole search -/

/-- The log is empty before the root is visited. -/
theorem between_start {w : W} (hw : I 0 0 w) :
    Between D I grid scale threshold rows {} (w, Search.start) :=
  ⟨0, rfl, hw, rfl, fun best hbest => absurd hbest (by simp [Log.incumbent]), rfl, rfl, rfl, rfl,
    rfl, rfl⟩

theorem checkRequest_costs {domain : NumericDomain} {config : EncryptedBranchAndBoundConfig}
    {request : EncryptedOptimizationRequest C}
    (h : checkRequest domain config request = .ok grid) :
    validIdentifier request.sessionId ∧ (∀ row ∈ request.costs, options row ≠ []) ∧
      (config.costBound = .currentSuffix ∧ grid = none ∨
        ∃ g, config.costBound = .lagrangian ∧ grid = some g ∧
          buildLagrangianGrid domain request.thresholdScaled config.lagrangianGrid = .ok g) := by
  rcases bind_eq_ok.1 h with ⟨_, _, h⟩
  rcases bind_eq_ok.1 h with ⟨_, _, h⟩
  rcases bind_eq_ok.1 h with ⟨_, _, h⟩
  rcases bind_eq_ok.1 h with ⟨_, _, h⟩
  rcases bind_eq_ok.1 h with ⟨_, hsession, h⟩
  rcases bind_eq_ok.1 h with ⟨_, hrows, h⟩
  rw [ensure_eq_ok] at hsession
  refine ⟨hsession, ?_, ?_⟩
  · intro row hrow
    clear h hsession
    generalize request.costs = costs at hrows hrow
    induction costs with
    | nil => cases hrow
    | cons first costs ih =>
        rcases bind_eq_ok.1 hrows with ⟨_, hfirst, hrest⟩
        rcases List.mem_cons.1 hrow with rfl | hrow
        · rcases bind_eq_ok.1 hfirst with ⟨_, _, hne⟩
          exact ensure_eq_ok.1 hne
        · exact ih hrest hrow
  · cases hbound : config.costBound with
    | other value => rw [hbound] at h; cases h
    | currentSuffix => rw [hbound] at h; cases h; exact Or.inl ⟨rfl, rfl⟩
    | lagrangian =>
        rw [hbound] at h
        rcases bind_eq_ok.1 h with ⟨g, hg, hgrid⟩
        cases hgrid
        exact Or.inr ⟨g, rfl, rfl, hg⟩

theorem checkRequest_bounds {domain : NumericDomain} {config : EncryptedBranchAndBoundConfig}
    {request : EncryptedOptimizationRequest C}
    (h : checkRequest domain config request = .ok grid) :
    request.costs ≠ [] ∧ request.costs.length ≤ domain.maxRows ∧ 0 < domain.scale ∧
      0 ≤ request.thresholdScaled ∧ request.thresholdScaled < domain.scale := by
  rcases bind_eq_ok.1 h with ⟨_, hcosts, h⟩
  rcases bind_eq_ok.1 h with ⟨_, hdomain, h⟩
  rcases bind_eq_ok.1 h with ⟨_, hlength, h⟩
  rcases bind_eq_ok.1 h with ⟨_, hthreshold, _⟩
  rw [ensure_eq_ok] at hcosts hdomain hlength hthreshold
  exact ⟨List.isEmpty_eq_false_iff.1 hcosts, hlength, hdomain.1, hthreshold.1, hthreshold.2⟩

/-- An accepted request has a bound with positive weight and non-negative multipliers. -/
theorem checkRequest_valid {domain : NumericDomain} {config : EncryptedBranchAndBoundConfig}
    {request : EncryptedOptimizationRequest C} (h : checkRequest domain config request = .ok grid) :
    (boundOf grid).Valid := by
  rcases (checkRequest_costs h).2.2 with ⟨_, rfl⟩ | ⟨g, _, rfl, hg⟩
  · exact CostBound.valid_currentSuffix
  · have hfacts := (accepted_facts hg).1
    exact ⟨hfacts.q, hfacts.nonneg, List.ne_nil_of_mem hfacts.zero⟩

omit [CiphertextLike C] in
theorem prefixHolds_nil {zero : C} (hzero : D zero 0) :
    PrefixHolds D scale threshold ⟨zero, zero, zero, zero⟩ [] :=
  ⟨hzero, hzero, hzero, hzero⟩

omit [CiphertextLike C] in
theorem lagHolds_nil {zero : C} (hzero : D zero 0) :
    LagHolds D grid scale threshold
      (if grid.isSome then List.replicate (gridSize grid) zero else []) [] := by
  intro hsome
  rw [if_pos hsome, ← length_multipliers]
  induction (boundOf grid).multipliers with
  | nil => exact List.Forall₂.nil
  | cons mu mus ih => exact List.Forall₂.cons hzero ih

/-- A search over an exact backend is a run of the plain search. -/
theorem search_spec {request : EncryptedOptimizationRequest C}
    (hcheck : checkRequest solver.ops.domain solver.config request = .ok grid)
    (hcosts : List.Forall₂ (RowHolds D) request.costs rows)
    (h : Setting solver D Fits Batch request.sessionId Ans I E grid solver.ops.domain.scale
      request.thresholdScaled rows) :
    Triple (I 0 0) (solver.search request)
      (fun s w => ∃ log, Explores options (answers Ans (boundOf grid) solver.ops.domain.scale
          request.thresholdScaled) rows [] {} log ∧
        Between D I grid solver.ops.domain.scale request.thresholdScaled rows log (w, s))
      (fun err w => FailsAt Ans E (boundOf grid) solver.ops.domain.scale
        request.thresholdScaled rows [] {} err w) := by
  -- The options of a row are those of its ciphertexts, of which there is at least one.
  have hne : ∀ row ∈ rows, options row ≠ [] := by
    have havailable := (checkRequest_costs hcheck).2.1
    intro row hrow
    rcases List.mem_iff_get.1 hrow with ⟨i, rfl⟩
    have hi : i.val < request.costs.length := by
      rw [hcosts.length_eq]
      exact i.isLt
    have hlen := (options_hold (hcosts.get hi i.isLt)).length_eq
    have hpos := List.length_pos_of_ne_nil (havailable _ (List.get_mem request.costs ⟨i, hi⟩))
    rw [hlen] at hpos
    exact List.ne_nil_of_length_pos hpos
  unfold EncryptedBranchAndBoundSolver.search
  refine Triple.bind (Q := fun found w => found = grid ∧ I 0 0 w) (Triple.lift
    (fun found w hfound hw => ⟨Except.ok.inj (hfound.symm.trans hcheck), hw⟩)
    (fun err w herr _ => absurd (herr.symm.trans hcheck) (by simp))) fun found => ?_
  refine Triple.assuming fun hfound => ?_
  subst hfound
  refine ((h.ops 0 0).encryptConstant 0).ofNever.bind fun zero hzero => ?_
  refine (preprocess_spec (h.ops 0 0) h.operands hne hcosts hzero).ofNever.bind
    fun levels hlevels => ?_
  refine Triple.bind (Triple.withLocals ((dfs_spec h levels 0 hlevels rfl List.Forall₂.nil
    (prefixHolds_nil hzero) (lagHolds_nil hzero)).pre fun t ht => ?_)) fun finished => ?_
  · rcases ht with ⟨hw, hstart⟩
    rw [← Prod.mk.eta (p := t), hstart]
    exact between_start hw
  · exact Triple.pure fun w hw => hw

end Nodes
end Optimization
end SociSgx

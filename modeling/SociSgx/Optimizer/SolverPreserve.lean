import SociSgx.Optimizer.EncryptedSolver
import SociSgx.Secure.OpsPreserve

/-!
# SolverPreserve — a solve preserves what its calls preserve

Nothing is assumed about the ciphertexts, the answers or the exceptions: the solver reaches its
backend through calls only, and asks its predicates in the session of the request only.
-/

namespace SociSgx
namespace Optimization

open Exec Secure Secure.PredicateEngine

variable {W C : Type} [CiphertextLike C] {I : W → Prop}

/-! ## Preprocessing -/

section Tables

variable {ops : SecureOps W C} (h : OpsPreserve ops I) (grid : Option LagrangianGrid)

omit [CiphertextLike C] in
theorem keepBest_preserves {op : C → C → SecureM W C} (hop : ∀ a b, Preserves I (op a b))
    (current : Option C) (value : C) : Preserves I (keepBest op current value) := by
  cases current with
  | none => exact Preserves.pure value
  | some best => exact hop best value

include h

omit [CiphertextLike C] in
theorem zipAdd_preserves (items : List (C × C)) :
    Preserves I (items.mapM fun item => ops.add item.1 item.2) :=
  Preserves.mapM (fun item => h.add item.1 item.2) items

omit [CiphertextLike C] in
theorem scanMethod_preserves (positive negative : Int) (scan : RowScan C) (c : Choice C) :
    Preserves I (scanMethod ops grid positive negative scan c) := by
  refine (h.scalarMul _ _).bind fun contribution =>
    (keepBest_preserves h.max _ _).bind fun maximum => ?_
  cases grid with
  | none => exact (keepBest_preserves h.min _ _).bind fun minimum => Preserves.pure _
  | some grid =>
      refine (h.scalarMul _ _).bind fun scaledCost => ?_
      refine (Preserves.mapM (fun mu => ?_) grid.mu).bind fun scores => Preserves.pure _
      split
      · exact Preserves.pure scaledCost
      · exact (h.scalarMul _ _).bind fun product => h.sub scaledCost product

theorem lagrangianLower_preserves (entries : List (MethodEntry C)) (k : Nat) :
    Preserves I (lagrangianLower ops entries k) := by
  refine (Preserves.foldlM (fun lower entry => ?_) entries none).bind fun _ => Preserves.pure _
  exact (keepBest_preserves h.min _ _).bind fun _ => Preserves.pure _

theorem preprocessRow_preserves (positive negative : Int) (row : CostRow C) :
    Preserves I (preprocessRow ops grid positive negative row) := by
  refine (Preserves.foldlM (scanMethod_preserves h grid positive negative) _ _).bind
    fun scan => ?_
  cases grid with
  | none => exact (Preserves.pure _).bind fun _ => Preserves.pure _
  | some grid =>
      refine (Preserves.mapM (lagrangianLower_preserves h _) _).bind fun lower => ?_
      exact Preserves.pure _

omit [CiphertextLike C] in
theorem suffixSums_preserves (zeros : List C) (values : List (List C)) :
    Preserves I (suffixSums ops zeros values) := by
  induction values with
  | nil => exact Preserves.pure []
  | cons values rest ih =>
      refine ih.bind fun suffix => (zipAdd_preserves h _).bind fun sums => ?_
      exact Preserves.pure _

theorem preprocess_preserves (positive negative : Int) (zero : C) (costs : List (CostRow C)) :
    Preserves I (preprocess ops grid positive negative zero costs) := by
  refine (Preserves.mapM (preprocessRow_preserves h grid positive negative) costs).bind
    fun tables => ?_
  refine (suffixSums_preserves h _ _).bind fun lowerSuffix => ?_
  exact (suffixSums_preserves h _ _).bind fun linearSuffix => Preserves.pure _

end Tables

/-! ## The search -/

/-- The calls of a solver preserve `I`, the predicates in one session. -/
structure SolverPreserves (solver : EncryptedBranchAndBoundSolver W C) (sessionId : Bytes)
    (I : W → Prop) : Prop where
  ops : OpsPreserve solver.ops I
  pruneNode : ∀ context inputs, context.sessionId = sessionId →
    Preserves I (solver.predicates.pruneNode context inputs)
  acceptCandidate : ∀ context inputs, context.sessionId = sessionId →
    Preserves I (solver.predicates.acceptCandidate context inputs)

namespace EncryptedBranchAndBoundSolver

variable {solver : EncryptedBranchAndBoundSolver W C} {sessionId : Bytes}
  (h : SolverPreserves solver sessionId I) (grid : Option LagrangianGrid)
include h

omit [CiphertextLike C] in
theorem leaf_preserves (depth : Nat) (pre : Prefix C) (chosen : List UInt8) :
    Preserves (Preserves.First I) (solver.leaf sessionId grid depth pre chosen) := by
  refine (Preserves.update _).bind fun _ => Preserves.locals_bind fun s => ?_
  refine (h.acceptCandidate _ _ rfl).onFst.bind fun accepted => ?_
  cases accepted with
  | false => exact Preserves.update _
  | true =>
      cases grid with
      | none => exact Preserves.update _
      | some grid => exact (h.ops.scalarMul _ _).onFst.bind fun scaled => Preserves.update _

omit [CiphertextLike C] in
theorem costLowers_preserves (level : Level C) (pre : Prefix C) (lagPrefix : List C)
    (hasIncumbent : Bool) :
    Preserves I (solver.costLowers grid level pre lagPrefix hasIncumbent) := by
  cases hasIncumbent with
  | false => exact Preserves.pure []
  | true =>
      cases grid with
      | none => exact Preserves.mapM (fun suffix => h.ops.add pre.total suffix) _
      | some grid => exact zipAdd_preserves h.ops _

theorem askPrune_preserves (level : Level C) (depth : Nat) (pre : Prefix C)
    (lagPrefix : List C) :
    Preserves (Preserves.First I)
      (solver.askPrune sessionId grid level depth pre lagPrefix) := by
  refine Preserves.locals_bind fun s => (h.ops.add _ _).onFst.bind fun linearUpper => ?_
  refine (Preserves.update _).bind fun _ => ?_
  refine (costLowers_preserves h grid level pre lagPrefix _).onFst.bind fun lowers => ?_
  exact (Preserves.update _).bind fun _ => (h.pruneNode _ _ rfl).onFst

omit [CiphertextLike C] in
theorem childPrefix_preserves (pre : Prefix C) (entry : MethodEntry C) :
    Preserves I (solver.childPrefix pre entry) := by
  refine (h.ops.add _ _).bind fun total => ?_
  split
  · exact (h.ops.add _ _).bind fun _ => (h.ops.add _ _).bind fun _ => Preserves.pure _
  · exact (h.ops.add _ _).bind fun _ => (h.ops.add _ _).bind fun _ => Preserves.pure _

omit [CiphertextLike C] in
theorem childLagPrefix_preserves (lagPrefix : List C) (entry : MethodEntry C) :
    Preserves I (solver.childLagPrefix grid lagPrefix entry) := by
  cases grid with
  | none => exact Preserves.pure []
  | some grid => exact zipAdd_preserves h.ops _

theorem dfs_preserves (levels : List (Level C)) : ∀ depth pre lagPrefix chosen,
    Preserves (Preserves.First I)
      (solver.dfs sessionId grid levels depth pre lagPrefix chosen) := by
  induction levels with
  | nil =>
      intro depth pre lagPrefix chosen
      exact (Preserves.update _).bind fun _ => leaf_preserves h grid depth pre chosen
  | cons level levels ih =>
      intro depth pre lagPrefix chosen
      refine (Preserves.update _).bind fun _ => ?_
      refine (askPrune_preserves h grid level depth pre lagPrefix).bind fun pruned => ?_
      cases pruned with
      | true => exact Preserves.update _
      | false =>
          refine Preserves.forM level.entries fun entry _ => ?_
          refine (childPrefix_preserves h pre entry).onFst.bind fun child => ?_
          refine (childLagPrefix_preserves h grid lagPrefix entry).onFst.bind fun childLag => ?_
          exact ih (depth + 1) child childLag _

end EncryptedBranchAndBoundSolver

theorem solve_preserves {solver : EncryptedBranchAndBoundSolver W C}
    {request : EncryptedOptimizationRequest C}
    (h : SolverPreserves solver request.sessionId I) : Preserves I (solver.solve request) := by
  refine Preserves.map ((Preserves.lift _).bind fun grid => ?_)
  refine (h.ops.encryptConstant 0).bind fun zero => ?_
  refine (preprocess_preserves h.ops grid _ _ zero request.costs).bind fun levels => ?_
  refine Preserves.bind (Preserves.withLocals Search.start ?_) fun finished => Preserves.pure _
  exact EncryptedBranchAndBoundSolver.dfs_preserves h grid levels 0 _ _ _

/-- A solve with an engine of its own, whose parties preserve `I`. -/
theorem optimize_preserves {σ : Type} {J : σ → Prop} {e : PredicateEngine σ C}
    {Allowed : PredicateContext → Prop} {request : EncryptedOptimizationRequest C}
    (h : PartiesPreserve e J (fun context => context.sessionId = request.sessionId) Allowed)
    (config : EncryptedBranchAndBoundConfig) : Preserves J (optimize e config request) := by
  refine (Preserves.withLocals [] (solve_preserves ⟨h.ops.onFst _, ?_, ?_⟩)).bind
    fun result => Preserves.pure _
  · exact fun context inputs hsession => pruneNode_preserves h hsession inputs
  · exact fun context inputs hsession => acceptCandidate_preserves h hsession inputs

end Optimization
end SociSgx

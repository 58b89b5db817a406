import SociSgx.Optimizer.EngineSession
import SociSgx.Protocol.NumericDomain
import SociSgx.Secure.Recorder

/-!
# OperandRange — every operand of a solve fits the masked protocols

The guards of the constructor of `ThresholdSecureOps` and of `buildLagrangianGrid` are sums of bit
counts.  They leave room for what the solver computes: sums over a prefix and a suffix of the rows,
and differences of two values of one row.  So a recording backend that is exact below `2^127` sees
no other operand, in any run, whatever its parties answer and whenever they throw.
-/

namespace SociSgx
namespace Optimization

open Exec Secure Secure.PredicateEngine Protocol

/-- The plaintexts that the masked protocols handle. -/
def InRange (x : Int) : Prop := |x| < 2 ^ 127

def BatchSize (k : Nat) : Prop := 1 ≤ k ∧ k ≤ 32

theorem batchSize_one : BatchSize 1 := ⟨le_rfl, by decide⟩

/-! ## Sums over a node -/

section Sums

variable {f : Choice Int → Int} {bound : Int} {rows done rest : List (CostRow Int)}
  {path : List (Choice Int)}

/-- No option of the rows has a larger magnitude than `bound`. -/
abbrev BoundedBy (f : Choice Int → Int) (bound : Int) (rows : List (CostRow Int)) : Prop :=
  Within f (fun _ => bound) rows

theorem sum_const (bound : Int) (rows : List (CostRow Int)) :
    (rows.map fun _ => bound).sum = bound * rows.length := by
  simp [mul_comm]

/-- There is room for two values of a row and for one value of each row. -/
structure Room (bound : Int) (n : Nat) : Prop where
  nonneg : 0 ≤ bound
  twice : 2 * bound < 2 ^ 127
  rows : bound * n < 2 ^ 127

/-- The bits of a factor, of the costs and of the rows add up. -/
theorem room_of_bits {factor : Int} {s c r n : Nat} (hfactor : 0 ≤ factor)
    (hs : factor ≤ 2 ^ s) (hn : (n : Int) ≤ 2 ^ r) (hbits : c + s + r ≤ 127)
    (hdelta : c + s + 1 ≤ 127) : Room (factor * (2 ^ c - 1)) n := by
  have hcost : (0 : Int) ≤ 2 ^ c - 1 := by
    have hpos := Int.pow_pos (n := 2) (m := c) (by decide)
    omega
  have hproduct : factor * (2 ^ c - 1) ≤ 2 ^ s * (2 ^ c - 1) :=
    mul_le_mul_of_nonneg_right hs hcost
  have hstrict : ∀ k : Nat, c + s + k ≤ 127 →
      2 ^ s * (2 ^ c - 1) * 2 ^ k < (2 : Int) ^ 127 := by
    intro k hk
    have hless : (2 : Int) ^ s * (2 ^ c - 1) * 2 ^ k < 2 ^ s * 2 ^ c * 2 ^ k := by
      refine mul_lt_mul_of_pos_right (mul_lt_mul_of_pos_left (by omega) ?_) ?_ <;> positivity
    calc
      (2 : Int) ^ s * (2 ^ c - 1) * 2 ^ k < 2 ^ s * 2 ^ c * 2 ^ k := hless
      _ = 2 ^ (c + s + k) := by rw [pow_add, pow_add, mul_comm ((2 : Int) ^ s)]
      _ ≤ 2 ^ 127 := pow_le_pow_right₀ (by decide) hk
  refine ⟨mul_nonneg hfactor hcost, ?_, ?_⟩
  · have htwo := hstrict 1 hdelta
    rw [pow_one] at htwo
    linarith
  · calc
      factor * (2 ^ c - 1) * n ≤ 2 ^ s * (2 ^ c - 1) * n :=
        mul_le_mul_of_nonneg_right hproduct (Int.natCast_nonneg n)
      _ ≤ 2 ^ s * (2 ^ c - 1) * 2 ^ r := mul_le_mul_of_nonneg_left hn (by positivity)
      _ < 2 ^ 127 := hstrict r hbits

variable (hroom : Room bound rows.length) (h : BoundedBy f bound rows)
include hroom h

theorem inRange_option {row : CostRow Int} (hrow : row ∈ rows) {c d : Choice Int}
    (hc : c ∈ options row) (hd : d ∈ options row) : InRange (f c) ∧ InRange (f c - f d) := by
  have hfc := (h row hrow).2 c hc
  have hfd := (h row hrow).2 d hd
  have htwice := hroom.twice
  have hnonneg := hroom.nonneg
  refine ⟨?_, ?_⟩
  · unfold InRange
    linarith
  · unfold InRange
    have hsub := abs_sub (f c) (f d)
    linarith

theorem inRange_node {op : Int → Int → Int} (hop : Selective op) (hsplit : rows = done ++ rest)
    (hpath : IsAssignment done path) : InRange (sumOf f path + suffix op f rest) := by
  have hnode := abs_node_le hop h hsplit hpath
  rw [sum_const] at hnode
  exact hnode.trans_lt hroom.rows

theorem inRange_leaf (hpath : IsAssignment rows path) : InRange (sumOf f path) := by
  have hleaf := abs_sumOf_le h hpath
  rw [sum_const] at hleaf
  exact hleaf.trans_lt hroom.rows

end Sums

/-! ## The values of an option -/

/-- The available costs fit the cost bits of the domain. -/
def CostsWithin (maxCostBits : Nat) (rows : List (CostRow Int)) : Prop :=
  ∀ row ∈ rows, ∀ m x, row m = some x → 0 ≤ x ∧ x < 2 ^ maxCostBits

section Values

variable {rows : List (CostRow Int)} {b : Nat} {scale threshold : Int}

/-- A value that is a small multiple of the cost. -/
theorem boundedBy_mul {f : Choice Int → Int} {factor : Int} (hcosts : CostsWithin b rows)
    (hnonneg : 0 ≤ factor) (h : ∀ c, ∃ k, f c = k * c.cost ∧ |k| ≤ factor) :
    BoundedBy f (factor * (2 ^ b - 1)) rows := by
  intro row hrow
  have hpower : (0 : Int) < 2 ^ b := by positivity
  refine ⟨mul_nonneg hnonneg (by omega), fun c hc => ?_⟩
  rcases h c with ⟨k, hk, hfactor⟩
  have hcost := hcosts row hrow c.method c.cost (mem_options.1 hc)
  have hle : c.cost ≤ 2 ^ b - 1 := by omega
  rw [hk, abs_mul, abs_of_nonneg hcost.1]
  exact mul_le_mul hfactor hle hcost.1 ((abs_nonneg k).trans hfactor)

theorem boundedBy_cost {f : Choice Int → Int} (hcosts : CostsWithin b rows)
    (h : ∀ c, f c = c.cost ∨ f c = 0) : BoundedBy f (1 * (2 ^ b - 1)) rows := by
  refine boundedBy_mul hcosts (by decide) fun c => ?_
  rcases h c with hcost | hzero
  · exact ⟨1, by rw [hcost, one_mul], by norm_num⟩
  · exact ⟨0, by rw [hzero, zero_mul], by norm_num⟩

theorem boundedBy_contribution (hcosts : CostsWithin b rows) (hthreshold : 0 ≤ threshold)
    (hscale : threshold < scale) :
    BoundedBy (contribution scale threshold) (scale * (2 ^ b - 1)) rows := by
  refine boundedBy_mul hcosts (by omega) fun c => ⟨coefficient scale threshold c.method, rfl, ?_⟩
  unfold coefficient
  split
  · rw [abs_of_nonneg (by omega)]
    omega
  · rw [abs_neg, abs_of_nonneg hthreshold]
    omega

/-- The factor of a cost in the objective of a multiplier. -/
theorem abs_weight_sub_le {q mu : Int} (hq : 0 ≤ q) (hmu : 0 ≤ mu) (hthreshold : 0 ≤ threshold)
    (m : Method) : |q - mu * coefficient scale threshold m| ≤
      coefficientBound q mu (scale - threshold) threshold := by
  unfold coefficient coefficientBound
  split
  · exact le_max_left _ _
  · have hproduct : 0 ≤ mu * threshold := mul_nonneg hmu hthreshold
    have hsum : q - mu * -threshold = q + mu * threshold := by ring
    rw [hsum, abs_of_nonneg (add_nonneg hq hproduct)]
    exact le_max_right _ _

theorem boundedBy_score {q mu factor : Int} (hcosts : CostsWithin b rows)
    (hfactor : ∀ m, |q - mu * coefficient scale threshold m| ≤ factor) :
    BoundedBy (CostBound.score q scale threshold mu) (factor * (2 ^ b - 1)) rows := by
  refine boundedBy_mul hcosts ((abs_nonneg _).trans (hfactor 0)) fun c =>
    ⟨q - mu * coefficient scale threshold c.method, ?_, hfactor c.method⟩
  unfold CostBound.score contribution
  ring

/-- The multipliers of an accepted bound share a factor for which there is room. -/
theorem score_room {C : Type} [CiphertextLike C] {domain : NumericDomain}
    {config : EncryptedBranchAndBoundConfig} {request : EncryptedOptimizationRequest C}
    {grid : Option LagrangianGrid} (hcheck : checkRequest domain config request = .ok grid)
    {r : Nat} (hrows : (domain.maxRows : Int) ≤ 2 ^ r) (hr : domain.maxCostBits + r ≤ 127)
    (hone : domain.maxCostBits + 1 ≤ 127) {n : Nat} (hn : n ≤ domain.maxRows) :
    ∃ factor, Room (factor * (2 ^ domain.maxCostBits - 1)) n ∧
      ∀ mu ∈ (boundOf grid).multipliers, ∀ m,
        |(boundOf grid).weight - mu * coefficient domain.scale request.thresholdScaled m| ≤
          factor := by
  have hn' : (n : Int) ≤ domain.maxRows := by exact_mod_cast hn
  rcases (checkRequest_costs hcheck).2.2 with ⟨_, rfl⟩ | ⟨g, _, rfl, hg⟩
  · refine ⟨1, room_of_bits (s := 0) (by decide) (by norm_num) (hn'.trans hrows) (by omega)
      (by omega), fun mu hmu m => ?_⟩
    have hzero : mu = 0 := List.mem_singleton.1 hmu
    subst hzero
    simp [boundOf, CostBound.weight]
  · have hfacts := (accepted_facts hg).1
    rcases hfacts.bits with ⟨s, r', hfits⟩
    have hzero := hfits 0 hfacts.zero
    have hdelta := hzero.delta
    have hbound := hzero.bound
    simp only [kSecureOperandBits] at hdelta hbound
    refine ⟨2 ^ s, room_of_bits (by positivity) le_rfl (hn'.trans hzero.rows) hbound hdelta,
      fun mu hmu m => ?_⟩
    exact (abs_weight_sub_le hfacts.q.le (hfacts.nonneg mu hmu) hfacts.range.1 m).trans
      (hfits mu hmu).coefficient

end Values

/-! ## The operands of an accepted request -/

section Operands

variable {C : Type} [CiphertextLike C]

theorem zero_mem_multipliers {domain : NumericDomain} {config : EncryptedBranchAndBoundConfig}
    {request : EncryptedOptimizationRequest C} {grid : Option LagrangianGrid}
    (hcheck : checkRequest domain config request = .ok grid) : 0 ∈ (boundOf grid).multipliers := by
  rcases (checkRequest_costs hcheck).2.2 with ⟨_, rfl⟩ | ⟨g, _, rfl, hg⟩
  · exact List.mem_singleton_self 0
  · exact (accepted_facts hg).1.zero

theorem length_multipliers_le {domain : NumericDomain} {config : EncryptedBranchAndBoundConfig}
    {request : EncryptedOptimizationRequest C} {grid : Option LagrangianGrid}
    (hcheck : checkRequest domain config request = .ok grid) :
    (boundOf grid).multipliers.length ≤ 19 := by
  rcases (checkRequest_costs hcheck).2.2 with ⟨_, rfl⟩ | ⟨g, _, rfl, hg⟩
  · decide
  · exact (accepted_facts hg).2

/-- The guards of the domain and of the grid keep every operand of the solve in range. -/
theorem operandsFit_accepted {domain : NumericDomain} {config : EncryptedBranchAndBoundConfig}
    {request : EncryptedOptimizationRequest C} {grid : Option LagrangianGrid}
    (hdomain : checkNumericDomain domain = .ok ())
    (hcheck : checkRequest domain config request = .ok grid)
    {rows : List (CostRow Int)} (hlength : request.costs.length = rows.length)
    (hcosts : CostsWithin domain.maxCostBits rows) :
    OperandsFit InRange BatchSize (boundOf grid) domain.scale request.thresholdScaled rows := by
  rcases checkNumericDomain_ok hdomain with ⟨hscale, r, s, hr, hs, hbits⟩
  rcases checkRequest_bounds hcheck with ⟨_, hmaxRows, _, hthreshold, hbelow⟩
  have hn : rows.length ≤ domain.maxRows := hlength ▸ hmaxRows
  have hn' : ((rows.length : Nat) : Int) ≤ 2 ^ r := (by exact_mod_cast hn : _ ≤ _).trans hr
  -- Costs, linear terms and scores: how much room each of them needs over all rows.
  have hcost : Room (1 * (2 ^ domain.maxCostBits - 1)) rows.length :=
    room_of_bits (s := 0) (by decide) (by norm_num) hn' (by omega) (by omega)
  have hlinear : Room (domain.scale * (2 ^ domain.maxCostBits - 1)) rows.length :=
    room_of_bits hscale.le hs hn' (by omega) (by omega)
  have hcontribution := boundedBy_contribution hcosts hthreshold hbelow
  rcases score_room hcheck hr (by omega) (by omega) hn with ⟨factor, hscore, hfactor⟩
  have hscores : ∀ mu ∈ (boundOf grid).multipliers, BoundedBy
      (CostBound.score (boundOf grid).weight domain.scale request.thresholdScaled mu)
      (factor * (2 ^ domain.maxCostBits - 1)) rows :=
    fun mu hmu => boundedBy_score hcosts (hfactor mu hmu)
  refine ⟨?_, ?_, ?_, ?_, ?_, ?_, ?_⟩
  · exact ⟨by norm_num [InRange], by norm_num [InRange]⟩
  · exact fun row hrow c hc d hd => inRange_option hlinear hcontribution hrow hc hd
  · exact fun mu hmu row hrow c hc d hd => inRange_option hscore (hscores mu hmu) hrow hc hd
  · exact fun done rest path hsplit hpath =>
      inRange_node hlinear hcontribution selective_max hsplit hpath
  · intro done rest path hsplit hpath x hx
    rcases List.mem_map.1 hx with ⟨mu, hmu, rfl⟩
    exact inRange_node hscore (hscores mu hmu) selective_min hsplit hpath
  · intro leaf hleaf
    -- The total in units of the grid is the score of the multiplier zero.
    have hweighted : (boundOf grid).weight * total leaf =
        sumOf (CostBound.score (boundOf grid).weight domain.scale request.thresholdScaled 0)
          leaf := by
      rw [CostBound.sumOf_score]
      ring
    rw [hweighted]
    refine ⟨inRange_leaf hscore (hscores 0 (zero_mem_multipliers hcheck)) hleaf,
      inRange_leaf hcost (boundedBy_cost hcosts fun c => Or.inl rfl) hleaf,
      inRange_leaf hcost (boundedBy_cost hcosts fun c => ?_) hleaf,
      inRange_leaf hcost (boundedBy_cost hcosts fun c => ?_) hleaf,
      inRange_leaf hlinear hcontribution hleaf⟩
    · by_cases hm : c.method < 2 <;> simp [hm]
    · by_cases hm : c.method < 2 <;> simp [hm]
  · intro k hk hle
    have hmultipliers := length_multipliers_le hcheck
    exact ⟨hk, by omega⟩

end Operands

/-! ## The record of a solve -/

section Record

variable {σ C : Type} [CiphertextLike C]

/-- The record that a run leaves, whether it returns or throws. -/
def recordAfter {α : Type} (m : SecureM (EngineWorld (Recording σ C)) α)
    (world : EngineWorld (Recording σ C)) : List (SecureCall C) :=
  match m world with
  | .ok _ after => after.1.2
  | .error _ after => after.1.2

omit [CiphertextLike C] in
theorem recordAfter_good {α : Type} {m : SecureM (EngineWorld (Recording σ C)) α}
    {D : C → Int → Prop} {Fits : Int → Prop} {Batch : Nat → Prop} {J : σ → Prop}
    (h : Triple (fun world => RecordOk J D Fits Batch world.1) m
      (fun _ world => RecordOk J D Fits Batch world.1)
      (fun _ world => RecordOk J D Fits Batch world.1))
    {world : EngineWorld (Recording σ C)} (hworld : RecordOk J D Fits Batch world.1) :
    RecordGood D Fits Batch (recordAfter m world) := by
  unfold recordAfter
  rcases h.run hworld with ⟨a, after, hrun, hafter⟩ | ⟨err, after, hrun, hafter⟩
  · rw [hrun]
    exact hafter.2
  · rw [hrun]
    exact hafter.2

/-- The engine evaluates in any session; what it has consumed does not matter to the record. -/
theorem recorded_contract {e : PredicateEngine σ C} {D : C → Int → Prop} {J : σ → Prop}
    (hops : ExactOps e.ops D InRange BatchSize J) (hkeeps : Keeps e J) {sessionId : Bytes}
    (hsession : validIdentifier sessionId) :
    PredicateContract (enginePredicates (recordedEngine e)) D InRange BatchSize sessionId
      (fun _ _ => True) (fun _ _ world => RecordOk J D InRange BatchSize world.1)
      (fun _ _ _ _ world => RecordOk J D InRange BatchSize world.1) := by
  have hparties := recorded_parties hops hkeeps batchSize_one
  refine ⟨?_, ?_⟩
  · rintro p a depth node inputs v hin hadm ⟨t, keys⟩ ht
    have hvalid := valid_context hsession (operationId "prune-" (UInt64.ofNat (p + 1)))
      (validIdentifier_append_decimal (by decide) (by decide) _) .pruneNode depth node
    refine ((pruneNode_spec keys hparties hvalid rfl hin hadm).weaken (fun _ ht => ht) ?_ ?_)
      (t, keys) ⟨ht, rfl⟩
    · exact fun b world hworld => ⟨trivial, hworld.2.2.1⟩
    · rintro err world (⟨_, _, hspent⟩ | hfail)
      · exact hspent.1
      · exact hfail
  · rintro p a depth node inputs v hin hadm ⟨t, keys⟩ ht
    have hvalid := valid_context hsession (operationId "accept-" (UInt64.ofNat (a + 1)))
      (validIdentifier_append_decimal (by decide) (by decide) _) .acceptCandidate depth node
    refine ((acceptCandidate_spec keys hparties hvalid rfl hin hadm).weaken (fun _ ht => ht)
      ?_ ?_) (t, keys) ⟨ht, rfl⟩
    · exact fun b world hworld => ⟨trivial, hworld.2.2.1⟩
    · rintro err world (⟨_, _, hspent⟩ | hfail)
      · exact hspent.1
      · exact hfail

/-- Whatever the authorizer and the resolver do, and whether or not the solve completes, every
secure call of an accepted request has operands below `2^127` and between 1 and 32 items. -/
theorem solve_operands_in_range {e : PredicateEngine σ C} {D : C → Int → Prop} {J : σ → Prop}
    (hops : ExactOps e.ops D InRange BatchSize J) (hkeeps : Keeps e J)
    (hdomain : checkNumericDomain e.ops.domain = .ok ())
    {config : EncryptedBranchAndBoundConfig} {request : EncryptedOptimizationRequest C}
    {grid : Option LagrangianGrid} (hcheck : checkRequest e.ops.domain config request = .ok grid)
    {rows : List (CostRow Int)} (hrows : List.Forall₂ (RowHolds D) request.costs rows)
    (hcosts : CostsWithin e.ops.domain.maxCostBits rows) {s : σ} (hs : J s)
    (keys : List Bytes) :
    RecordGood D InRange BatchSize
      (recordAfter ((engineSolver (recordedEngine e) config).solve request) ((s, []), keys)) := by
  have hoperands := operandsFit_accepted hdomain hcheck hrows.length_eq hcosts
  have hsetting : Setting (engineSolver (recordedEngine e) config) D InRange BatchSize
      request.sessionId (fun _ _ => True) (fun _ _ world => RecordOk J D InRange BatchSize world.1)
      (fun _ _ _ _ world => RecordOk J D InRange BatchSize world.1) grid e.ops.domain.scale
      request.thresholdScaled rows := by
    refine ⟨fun _ _ => ?_, recorded_contract hops hkeeps (checkRequest_costs hcheck).1, hoperands,
      (checkRequest_valid hcheck).nonempty⟩
    have hexact := (recorded_exact hops batchSize_one).onFst (fun _ : List Bytes => True)
    simp only [and_true] at hexact
    exact hexact
  have hsearch := search_spec hcheck hrows hsetting
  have hsolve : Triple (fun world => RecordOk J D InRange BatchSize world.1)
      ((engineSolver (recordedEngine e) config).solve request)
      (fun _ world => RecordOk J D InRange BatchSize world.1)
      (fun _ world => RecordOk J D InRange BatchSize world.1) := by
    refine Triple.map (hsearch.weaken (fun _ hw => hw) (fun _ _ hq => hq) ?_) ?_
    · rintro err world ⟨_, _, _, _, _, hrecord⟩
      exact hrecord
    · rintro found world ⟨log, _, p, _, hrecord, _⟩
      exact hrecord
  have hstart : RecordOk J D InRange BatchSize ((s, []) : Recording σ C) :=
    ⟨hs, fun call hcall => absurd hcall List.not_mem_nil⟩
  exact recordAfter_good hsolve hstart

theorem clearEngine_keeps (domain : NumericDomain) : Keeps (clearEngine domain) fun _ => True where
  authorize := fun _ => Triple.pure fun _ _ => trivial
  resolve := fun _ _ => Triple.pure fun _ _ => trivial
  enabled := fun _ hfused => absurd hfused (by simp [clearEngine, clearOps])
  fusedPrune := fun _ hfused => absurd hfused (by simp [clearEngine, clearOps])
  fusedAccept := fun _ hfused => absurd hfused (by simp [clearEngine, clearOps])

/-- Two rows with costs of 8 bits in an accepted domain. -/
theorem solve_operands_in_range_twoRows :
    RecordGood (fun c x => c = some x) InRange BatchSize
      (recordAfter ((engineSolver (recordedEngine (clearEngine ⟨100, 4, 8, 16, 32, 32⟩))
        {}).solve (clearRequest [![some 3, none, some 255], ![some 1, some 4, none]] 20 "range"))
        (((), []), [])) := by
  have hcosts : CostsWithin (clearEngine ⟨100, 4, 8, 16, 32, 32⟩).ops.domain.maxCostBits
      [![some 3, none, some 255], ![some 1, some 4, none]] := by
    unfold CostsWithin
    decide
  have hcheck : checkRequest (clearEngine ⟨100, 4, 8, 16, 32, 32⟩).ops.domain {}
      (clearRequest [![some 3, none, some 255], ![some 1, some 4, none]] 20 "range") =
        .ok none := rfl
  exact solve_operands_in_range (clearOps_exact _ _ _) (clearEngine_keeps _) rfl hcheck
    (clearRequest_holds _ 20 "range") hcosts trivial []

end Record

end Optimization
end SociSgx

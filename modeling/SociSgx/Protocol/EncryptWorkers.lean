import SociSgx.Lib.IndexLoop
import SociSgx.Lib.WorkerPool
import SociSgx.Protocol.Paillier

/-!
# EncryptWorkers — `paillierEncryptBatch` under every schedule

The threads of `paillierEncryptBatch` share a counter, a vector, and the first failure behind a
mutex.  A schedule is the order of their atomic steps with the nonce that each encryption draws.
Whatever it is, the call returns what the batch of `Protocol.Paillier` returns, or it throws.
-/

namespace SociSgx
namespace Protocol

open Exec Paillier WorkerPool

/-- How the loop of `paillierEncrypt` over `randomBelow` ends: `getrandom` may fail. -/
abbrev NonceDraw (modulus : Nat) : Type :=
  Except Error (Nonce modulus)

/-- `output[i]=paillierEncrypt(plaintexts[i],modulus,modulus_squared)` -/
def encryptAt (plaintexts : List Int) (modulus i : Nat) (draw : NonceDraw modulus) :
    Except Error Nat :=
  draw.map (paillierEncrypt (plaintexts.getD i 0) modulus)

/-- The number of threads, also when no thread is made. -/
def batchThreads (configuredThreads : Nat) (plaintexts : List Int) : Nat :=
  min configuredThreads plaintexts.length

/-- What decides a call: the draws of the loop without threads, or the steps of the threads. -/
structure Schedule (modulus : Nat) where
  draws : Nat → NonceDraw modulus
  moves : List (Move (NonceDraw modulus))

section

variable (configuredThreads : Nat) (plaintexts : List Int) {modulus : Nat}

/-- The vector, the counter and the threads before the first step. -/
def batchStart : Pool Nat Error :=
  start plaintexts.length (batchThreads configuredThreads plaintexts) 0

/-- `paillierEncryptBatch`; it has no result yet if the schedule leaves a thread running. -/
def encryptBatch (schedule : Schedule modulus) : Option (Except Error (List Nat)) :=
  if plaintexts.isEmpty then
    some (.ok (List.replicate plaintexts.length 0))
  else if batchThreads configuredThreads plaintexts = 1 then
    some (tabulateM plaintexts.length fun i => encryptAt plaintexts modulus i (schedule.draws i))
  else do
    let pool ← run (encryptAt plaintexts modulus) plaintexts.length
      (batchStart configuredThreads plaintexts) schedule.moves
    if pool.Finished then some pool.result else none

/-- Some encryption of the call throws `error`. -/
def Schedule.Throws (schedule : Schedule modulus) (error : Error) : Prop :=
  if plaintexts.isEmpty then
    False
  else if batchThreads configuredThreads plaintexts = 1 then
    ∃ i < plaintexts.length, schedule.draws i = .error error
  else
    Threw (encryptAt plaintexts modulus) schedule.moves error

end

variable {configuredThreads : Nat} {plaintexts : List Int} {modulus : Nat}

/-- The ciphertexts of a batch, one for each index. -/
abbrev Encrypted (plaintexts : List Int) (modulus : Nat) (ciphertexts : List Nat) : Prop :=
  Entries plaintexts.length ciphertexts fun i c =>
    ∃ nonce : Nonce modulus, c = paillierEncrypt (plaintexts.getD i 0) modulus nonce

theorem encryptAt_eq_ok {i c : Nat} {draw : NonceDraw modulus}
    (h : encryptAt plaintexts modulus i draw = .ok c) :
    ∃ nonce : Nonce modulus, c = paillierEncrypt (plaintexts.getD i 0) modulus nonce := by
  cases draw with
  | error e => cases h
  | ok nonce =>
      cases h
      exact ⟨nonce, rfl⟩

theorem batchThreads_pos (hconfigured : 1 ≤ configuredThreads) (hne : plaintexts ≠ []) :
    0 < batchThreads configuredThreads plaintexts :=
  Nat.lt_min.2 ⟨hconfigured, List.length_pos_iff.2 hne⟩

/-! ## The loop without threads -/

theorem inOrder_of_not_throws {draws : Nat → NonceDraw modulus}
    (h : ∀ e, ¬ ∃ i < plaintexts.length, draws i = .error e) :
    ∃ cs, tabulateM plaintexts.length (fun i => encryptAt plaintexts modulus i (draws i)) = .ok cs ∧
      Encrypted plaintexts modulus cs := by
  refine tabulateM_entries fun i hi => ?_
  cases hdraw : draws i with
  | error e => exact absurd ⟨i, hi, hdraw⟩ (h e)
  | ok nonce => exact ⟨_, rfl, nonce, rfl⟩

theorem inOrder_of_throws {draws : Nat → NonceDraw modulus} {e : Error}
    (h : ∃ i < plaintexts.length, draws i = .error e) :
    ∃ e', (∃ i < plaintexts.length, draws i = .error e') ∧
      tabulateM plaintexts.length (fun i => encryptAt plaintexts modulus i (draws i)) =
        .error e' := by
  have hfails : ∃ i ∈ List.range plaintexts.length, ∃ e,
      encryptAt plaintexts modulus i (draws i) = .error e := by
    rcases h with ⟨i, hi, he⟩
    refine ⟨i, List.mem_range.2 hi, e, ?_⟩
    rw [he]
    rfl
  rcases mapM_error hfails with ⟨j, hj, e', he', hrun⟩
  refine ⟨e', ⟨j, List.mem_range.1 hj, ?_⟩, hrun⟩
  cases hdraw : draws j with
  | error e'' =>
      rw [hdraw] at he'
      cases he'
      rfl
  | ok nonce =>
      rw [hdraw] at he'
      cases he'

/-! ## The threads -/

section

variable {moves : List (Move (NonceDraw modulus))} {pool : Pool Nat Error}

/-- What the threads leave behind if no encryption throws. -/
theorem pool_of_not_threw
    (h : run (encryptAt plaintexts modulus) plaintexts.length
      (batchStart configuredThreads plaintexts) moves = some pool)
    (hfinished : pool.Finished) (hthreads : 0 < batchThreads configuredThreads plaintexts)
    (hnone : ∀ e, ¬ Threw (encryptAt plaintexts modulus) moves e) :
    (∃ cs, pool.result = .ok cs ∧ Encrypted plaintexts modulus cs) ∧
      (claims plaintexts.length moves).map Prod.snd = List.range plaintexts.length := by
  rcases (run_invariant h).result_of_not_threw hfinished hthreads hnone with
    ⟨hresult, hlength, hclaims, hdone⟩
  refine ⟨⟨pool.output, hresult, hlength, fun i hi => ?_⟩, hclaims⟩
  rcases hdone i (hlength ▸ hi) with ⟨c, ⟨w, draw, -, hdraw⟩, hentry⟩
  rw [List.getElem?_eq_getElem hi] at hentry
  cases hentry
  exact encryptAt_eq_ok hdraw

end

/-- One entry for each index makes one worker for each index. -/
theorem claimed_once {n : Nat} {pairs : List (Nat × Nat)}
    (h : pairs.map Prod.snd = List.range n) : ∀ i < n, ∃! w, (w, i) ∈ pairs := by
  intro i hi
  have hmem : i ∈ pairs.map Prod.snd := h ▸ List.mem_range.2 hi
  have hnodup : (pairs.map Prod.snd).Nodup := h ▸ List.nodup_range
  rcases List.mem_map.1 hmem with ⟨⟨w, j⟩, hw, rfl⟩
  refine ⟨w, hw, fun v hv => ?_⟩
  exact congrArg Prod.fst (List.inj_on_of_nodup_map hnodup hv hw rfl)

/-! ## The call -/

variable {schedule : Schedule modulus} {result : Except Error (List Nat)}

/-- The three ways through `paillierEncryptBatch`. -/
inductive Returned (configuredThreads : Nat) (plaintexts : List Int) (schedule : Schedule modulus) :
    Except Error (List Nat) → Prop where
  | nothing (hnil : plaintexts = [])
      (hnone : ∀ e, ¬ schedule.Throws configuredThreads plaintexts e) :
      Returned configuredThreads plaintexts schedule (.ok [])
  | inOrder (hone : batchThreads configuredThreads plaintexts = 1)
      (hthrows : ∀ e, schedule.Throws configuredThreads plaintexts e ↔
        ∃ i < plaintexts.length, schedule.draws i = .error e) :
      Returned configuredThreads plaintexts schedule
        (tabulateM plaintexts.length fun i => encryptAt plaintexts modulus i (schedule.draws i))
  | joined {pool : Pool Nat Error} (hne : plaintexts ≠ [])
      (hrun : run (encryptAt plaintexts modulus) plaintexts.length
        (batchStart configuredThreads plaintexts) schedule.moves = some pool)
      (hfinished : pool.Finished)
      (hthrows : ∀ e, schedule.Throws configuredThreads plaintexts e ↔
        Threw (encryptAt plaintexts modulus) schedule.moves e) :
      Returned configuredThreads plaintexts schedule pool.result

theorem encryptBatch_cases (h : encryptBatch configuredThreads plaintexts schedule = some result) :
    Returned configuredThreads plaintexts schedule result := by
  unfold encryptBatch at h
  by_cases hempty : plaintexts.isEmpty
  · rw [if_pos hempty] at h
    have hnil : plaintexts = [] := List.isEmpty_iff.1 hempty
    have hreturned := Option.some.inj h
    rw [hnil] at hreturned
    rw [← hreturned]
    refine .nothing hnil fun e hthrows => ?_
    rw [Schedule.Throws, if_pos hempty] at hthrows
    exact hthrows
  · have hne : plaintexts ≠ [] := fun hnil => hempty (List.isEmpty_iff.2 hnil)
    rw [if_neg hempty] at h
    by_cases hone : batchThreads configuredThreads plaintexts = 1
    · rw [if_pos hone] at h
      rw [← Option.some.inj h]
      refine .inOrder hone fun e => ?_
      rw [Schedule.Throws, if_neg hempty, if_pos hone]
    · rw [if_neg hone] at h
      rcases Option.bind_eq_some_iff.1 h with ⟨pool, hpool, hjoined⟩
      by_cases hfinished : pool.Finished
      · rw [if_pos hfinished] at hjoined
        rw [← Option.some.inj hjoined]
        refine .joined hne hpool hfinished fun e => ?_
        rw [Schedule.Throws, if_neg hempty, if_neg hone]
      · rw [if_neg hfinished] at hjoined
        cases hjoined

theorem encryptBatch_of_not_throws (hconfigured : 1 ≤ configuredThreads)
    (h : encryptBatch configuredThreads plaintexts schedule = some result)
    (hnone : ∀ e, ¬ schedule.Throws configuredThreads plaintexts e) :
    (∃ cs, result = .ok cs ∧ Encrypted plaintexts modulus cs) ∧
      (1 < batchThreads configuredThreads plaintexts →
        (claims plaintexts.length schedule.moves).map Prod.snd =
          List.range plaintexts.length) := by
  cases encryptBatch_cases h with
  | nothing hnil _ =>
      subst hnil
      refine ⟨⟨[], rfl, rfl, fun i hi => absurd hi (Nat.not_lt_zero i)⟩, fun hlt => ?_⟩
      simp [batchThreads] at hlt
  | inOrder hone hthrows =>
      refine ⟨inOrder_of_not_throws fun e he => hnone e ((hthrows e).2 he), fun hlt => ?_⟩
      exact absurd hone (Nat.ne_of_gt hlt)
  | joined hne hrun hfinished hthrows =>
      have hreturned := pool_of_not_threw hrun hfinished (batchThreads_pos hconfigured hne)
        fun e he => hnone e ((hthrows e).2 he)
      exact ⟨hreturned.1, fun _ => hreturned.2⟩

theorem encryptBatch_of_throws {e : Error}
    (h : encryptBatch configuredThreads plaintexts schedule = some result)
    (he : schedule.Throws configuredThreads plaintexts e) :
    ∃ e', schedule.Throws configuredThreads plaintexts e' ∧ result = .error e' := by
  cases encryptBatch_cases h with
  | nothing _ hnone => exact absurd he (hnone e)
  | inOrder _ hthrows =>
      rcases inOrder_of_throws ((hthrows e).1 he) with ⟨e', he', hresult⟩
      exact ⟨e', (hthrows e').2 he', hresult⟩
  | joined _ hrun hfinished hthrows =>
      rcases (run_invariant hrun).result_of_threw hfinished ((hthrows e).1 he) with
        ⟨e', hresult, he'⟩
      exact ⟨e', (hthrows e').2 he', hresult⟩

/-- The callers' batch, with one nonce for each index, is what every schedule returns. -/
theorem encryptBatch_refines (hconfigured : 1 ≤ configuredThreads)
    (hnonce : Nonempty (Nonce modulus))
    (h : encryptBatch configuredThreads plaintexts schedule = some result)
    (hnone : ∀ e, ¬ schedule.Throws configuredThreads plaintexts e) :
    ∃ nonces : Nat → Nonce modulus,
      result = .ok (paillierEncryptBatch plaintexts modulus nonces) := by
  rcases encryptBatch_of_not_throws hconfigured h hnone with ⟨⟨cs, rfl, hcs⟩, -⟩
  have hchosen : ∀ i, ∃ nonce : Nonce modulus, ∀ hi : i < cs.length,
      cs[i] = paillierEncrypt (plaintexts.getD i 0) modulus nonce := by
    intro i
    by_cases hi : i < cs.length
    · rcases hcs.entry i hi with ⟨nonce, hnonce⟩
      exact ⟨nonce, fun _ => hnonce⟩
    · exact ⟨hnonce.some, fun hi' => absurd hi' hi⟩
  choose nonces hnonces using hchosen
  refine ⟨nonces, congrArg Except.ok (List.ext_getElem ?_ fun i hi hi' => ?_)⟩
  · rw [hcs.length, length_paillierEncryptBatch]
  · have hlt : i < plaintexts.length := hcs.length ▸ hi
    rw [hnonces i hi]
    simp only [paillierEncryptBatch, List.getElem_mapIdx, List.getD_eq_getElem _ _ hlt]

/-- Under every order of the steps the threads end, every index is encrypted once and filed in its
place, and a failed encryption reaches the caller. -/
theorem encryptBatch_every_schedule (configuredThreads : Nat) (hconfigured : 1 ≤ configuredThreads)
    (plaintexts : List Int) (modulus : Nat) :
    (∀ (moves : List (Move (NonceDraw modulus))) (pool : Pool Nat Error),
      run (encryptAt plaintexts modulus) plaintexts.length
          (batchStart configuredThreads plaintexts) moves = some pool →
        moves.length ≤ 5 * plaintexts.length + batchThreads configuredThreads plaintexts ∧
        pool.next ≤ plaintexts.length + batchThreads configuredThreads plaintexts ∧
        ((claims plaintexts.length moves).map Prod.snd).Nodup ∧
        ∃ (more : List (Move (NonceDraw modulus))) (last : Pool Nat Error),
          run (encryptAt plaintexts modulus) plaintexts.length pool more = some last ∧
            last.Finished) ∧
    ∀ (schedule : Schedule modulus) (result : Except Error (List Nat)),
      encryptBatch configuredThreads plaintexts schedule = some result →
        ((∀ e, ¬ schedule.Throws configuredThreads plaintexts e) →
          (∃ cs, result = .ok cs ∧ cs.length = plaintexts.length ∧
            ∀ i < plaintexts.length, ∃ c nonce, cs[i]? = some c ∧
              c = paillierEncrypt (plaintexts.getD i 0) modulus nonce ∧
              Encrypts modulus c (plaintexts.getD i 0)) ∧
          (1 < batchThreads configuredThreads plaintexts →
            ∀ i < plaintexts.length, ∃! w, (w, i) ∈ claims plaintexts.length schedule.moves)) ∧
        ∀ e, schedule.Throws configuredThreads plaintexts e →
          ∃ e', schedule.Throws configuredThreads plaintexts e' ∧ result = .error e' := by
  refine ⟨fun moves pool hrun => ?_, fun schedule result h => ⟨fun hnone => ?_, fun e he => ?_⟩⟩
  -- Any beginning of a run, and how it can be completed.
  · have hinvariant := run_invariant hrun
    have hlength := run_length_le hrun
    rw [batchStart, remaining_start] at hlength
    exact ⟨(Nat.le_add_right ..).trans hlength, hinvariant.next_le, hinvariant.claims_nodup,
      hinvariant.locked.completes (.error (.backend "getrandom CSPRNG failure"))⟩
  · rcases encryptBatch_of_not_throws hconfigured h hnone with ⟨⟨cs, hresult, hcs⟩, hclaims⟩
    refine ⟨⟨cs, hresult, hcs.length, fun i hi => ?_⟩, fun hmany => claimed_once (hclaims hmany)⟩
    have hlt : i < cs.length := hcs.length.symm ▸ hi
    rcases hcs.entry i hlt with ⟨nonce, hnonce⟩
    refine ⟨cs[i], nonce, List.getElem?_eq_getElem hlt, hnonce, ?_⟩
    rw [hnonce]
    exact encrypts_paillierEncrypt _ nonce
  · exact encryptBatch_of_throws h he

/-- Three threads and a generator that fails once: the failing thread stores `3` in the counter
after another thread has moved it to `4`, and the third thread counts on from there. -/
def failingSchedule : Schedule 15 where
  draws := fun _ => .error (.backend "getrandom CSPRNG failure")
  moves :=
    [(0, .claim 0), (1, .claim 1), (2, .claim 2),
      (2, .work 2 (.ok ⟨2, by decide, by decide, by decide⟩)),
      (1, .work 1 (.error (.backend "getrandom CSPRNG failure"))), (1, .acquire), (1, .record),
      (2, .claim 3), (1, .store), (0, .work 0 (.ok ⟨4, by decide, by decide, by decide⟩)),
      (0, .claim 3), (1, .release)]

theorem encryptBatch_every_schedule_failing :
    encryptBatch 4 [3, -5, 7] failingSchedule =
        some (.error (.backend "getrandom CSPRNG failure")) ∧
      ∃ e, failingSchedule.Throws 4 [3, -5, 7] e ∧
        (.error (.backend "getrandom CSPRNG failure") : Except Error (List Nat)) = .error e := by
  have hcall : encryptBatch 4 [3, -5, 7] failingSchedule =
      some (.error (.backend "getrandom CSPRNG failure")) := by decide
  have hthrows : failingSchedule.Throws 4 [3, -5, 7] (.backend "getrandom CSPRNG failure") :=
    ⟨1, 1, .error (.backend "getrandom CSPRNG failure"), by simp [failingSchedule], rfl⟩
  exact ⟨hcall, ((encryptBatch_every_schedule 4 (by decide) [3, -5, 7] 15).2 failingSchedule _
    hcall).2 _ hthrows⟩

end Protocol
end SociSgx

import Mathlib

/-!
# BranchBound — depth-first search with an incumbent

A search over a list of rows picks one option per row.  It keeps the last accepted leaf as its
incumbent and may cut a subtree.  This module is about any such search:

* `Explores` — the runs of the search when the two questions (cut here? accept this leaf?) are
  answered by a relation;
* `explore` — the run when they are answered by decision functions;
* `explore_accepted` — cutting only subtrees without acceptable leaves changes nothing about
  the accepted leaves;
* `visited_sublist` — of two such searches, the one that cuts more visits a sublist of the nodes;
* `describes_explore` — accepting strict improvements of a key ends in the first least leaf.
-/

namespace SociSgx
namespace BranchBound

universe u v

variable {ρ : Type u} {κ : Type v}

/-! ## What a run did -/

/-- The nodes of a run, as the paths that lead to them, in the order of the run. -/
structure Log (κ : Type v) where
  visited : List (List κ) := []
  pruned : List (List κ) := []
  candidates : List (List κ) := []
  accepted : List (List κ) := []

namespace Log

def incumbent (log : Log κ) : Option (List κ) :=
  log.accepted.getLast?

def visit (log : Log κ) (path : List κ) : Log κ :=
  { log with visited := log.visited ++ [path] }

def cut (log : Log κ) (path : List κ) : Log κ :=
  { log with pruned := log.pruned ++ [path] }

def candidate (log : Log κ) (path : List κ) (kept : Bool) : Log κ :=
  { log with
    candidates := log.candidates ++ [path]
    accepted := if kept then log.accepted ++ [path] else log.accepted }

@[simp] theorem visit_accepted (log : Log κ) (path : List κ) :
    (log.visit path).accepted = log.accepted := rfl

@[simp] theorem visit_incumbent (log : Log κ) (path : List κ) :
    (log.visit path).incumbent = log.incumbent := rfl

@[simp] theorem visit_visited (log : Log κ) (path : List κ) :
    (log.visit path).visited = log.visited ++ [path] := rfl

@[simp] theorem cut_accepted (log : Log κ) (path : List κ) :
    (log.cut path).accepted = log.accepted := rfl

@[simp] theorem cut_visited (log : Log κ) (path : List κ) :
    (log.cut path).visited = log.visited := rfl

@[simp] theorem candidate_visited (log : Log κ) (path : List κ) (kept : Bool) :
    (log.candidate path kept).visited = log.visited := rfl

end Log

/-! ## Runs -/

/-- The answers a search may get: whether it is told to cut at a node, and whether it is told to
accept a leaf, given the incumbent. -/
structure Answers (ρ : Type u) (κ : Type v) where
  prune : Option (List κ) → List κ → List ρ → Bool → Prop
  accept : Option (List κ) → List κ → Bool → Prop

/-- Run `step` over the options, left to right. -/
def Sweep (step : κ → Log κ → Log κ → Prop) : List κ → Log κ → Log κ → Prop
  | [], log, log' => log' = log
  | c :: cs, log, log' => ∃ mid, step c log mid ∧ Sweep step cs mid log'

/-- `Explores options A rows path log log'`: a search of the rows below `path` that starts with
the log `log` and gets answers allowed by `A` may end with `log'`. -/
def Explores (options : ρ → List κ) (A : Answers ρ κ) :
    List ρ → List κ → Log κ → Log κ → Prop
  | [], path, log, log' =>
      (A.prune log.incumbent path [] true ∧ log' = (log.visit path).cut path) ∨
      (A.prune log.incumbent path [] false ∧
        ∃ kept, A.accept log.incumbent path kept ∧ log' = (log.visit path).candidate path kept)
  | row :: rest, path, log, log' =>
      (A.prune log.incumbent path (row :: rest) true ∧ log' = (log.visit path).cut path) ∨
      (A.prune log.incumbent path (row :: rest) false ∧
        Sweep (fun c l l' => Explores options A rest (path ++ [c]) l l') (options row)
          (log.visit path) log')

theorem Sweep.append {step : κ → Log κ → Log κ → Prop} {cs : List κ} {c : κ}
    {log mid log' : Log κ} (h : Sweep step cs log mid) (hc : step c mid log') :
    Sweep step (cs ++ [c]) log log' := by
  induction cs generalizing log with
  | nil =>
      cases h
      exact ⟨log', hc, rfl⟩
  | cons d cs ih =>
      rcases h with ⟨next, hd, hrest⟩
      exact ⟨next, hd, ih hrest⟩

/-- `Reaches options A rows path log mid below`: the search below `path` may get to a node at which
the log, with that node just visited, is `mid`, and `below` are the rows below it. -/
def Reaches (options : ρ → List κ) (A : Answers ρ κ) :
    List ρ → List κ → Log κ → Log κ → List ρ → Prop
  | [], path, log, mid, below => mid = log.visit path ∧ below = []
  | row :: rest, path, log, mid, below =>
      (mid = log.visit path ∧ below = row :: rest) ∨
      (A.prune log.incumbent path (row :: rest) false ∧
        ∃ before c after l, options row = before ++ c :: after ∧
          Sweep (fun c l l' => Explores options A rest (path ++ [c]) l l') before
            (log.visit path) l ∧ Reaches options A rest (path ++ [c]) l mid below)

/-- A search whose questions are answered by functions. -/
structure Decisions (ρ : Type u) (κ : Type v) where
  prune : Option (List κ) → List κ → List ρ → Bool
  accept : Option (List κ) → List κ → Bool

def Decisions.answers (d : Decisions ρ κ) : Answers ρ κ :=
  { prune := fun inc path rest b => d.prune inc path rest = b
    accept := fun inc path b => d.accept inc path = b }

def explore (options : ρ → List κ) (d : Decisions ρ κ) :
    List ρ → List κ → Log κ → Log κ
  | [], path, log =>
      if d.prune log.incumbent path [] then
        (log.visit path).cut path
      else
        (log.visit path).candidate path (d.accept log.incumbent path)
  | row :: rest, path, log =>
      if d.prune log.incumbent path (row :: rest) then
        (log.visit path).cut path
      else
        (options row).foldl (fun l c => explore options d rest (path ++ [c]) l) (log.visit path)

theorem sweep_eq_foldl {step : κ → Log κ → Log κ → Prop} {f : Log κ → κ → Log κ}
    (h : ∀ c l l', step c l l' ↔ l' = f l c) (cs : List κ) (log log' : Log κ) :
    Sweep step cs log log' ↔ log' = cs.foldl f log := by
  induction cs generalizing log with
  | nil =>
      simp [Sweep]
  | cons c cs ih =>
      simp [Sweep, h, ih]

/-- With decision functions the run is determined. -/
theorem explores_answers_iff (options : ρ → List κ) (d : Decisions ρ κ) (rows : List ρ) :
    ∀ (path : List κ) (log log' : Log κ),
      Explores options d.answers rows path log log' ↔ log' = explore options d rows path log := by
  induction rows with
  | nil =>
      intro path log log'
      cases hp : d.prune log.incumbent path [] <;>
        simp [Explores, explore, Decisions.answers, hp]
  | cons row rest ih =>
      intro path log log'
      have hsweep := sweep_eq_foldl (f := fun l c => explore options d rest (path ++ [c]) l)
        (fun c l l' => ih (path ++ [c]) l l') (options row) (log.visit path) log'
      cases hp : d.prune log.incumbent path (row :: rest)
      · simp only [Explores, explore, hp]
        simpa [Decisions.answers, hp] using hsweep
      · simp [Explores, explore, Decisions.answers, hp]

/-! ## Leaves and sound cuts -/

/-- The leaves below `path`, in the order of the search. -/
def leaves (options : ρ → List κ) : List ρ → List κ → List (List κ)
  | [], path => [path]
  | row :: rest, path => (options row).flatMap fun c => leaves options rest (path ++ [c])

/-- A leaf extends its path by one option of each row. -/
theorem mem_leaves {options : ρ → List κ} {rows : List ρ} {path leaf : List κ} :
    leaf ∈ leaves options rows path ↔
      ∃ cs, List.Forall₂ (fun row c => c ∈ options row) rows cs ∧ leaf = path ++ cs := by
  induction rows generalizing path with
  | nil =>
      simp [leaves, List.forall₂_nil_left_iff]
  | cons row rest ih =>
      simp only [leaves, List.mem_flatMap, ih]
      constructor
      · rintro ⟨c, hc, cs, hcs, rfl⟩
        exact ⟨c :: cs, List.Forall₂.cons hc hcs, by simp⟩
      · rintro ⟨cs, hcs, rfl⟩
        cases hcs with
        | cons hc hrest =>
            rename_i c cs
            exact ⟨c, hc, cs, hrest, by simp⟩

/-- The accepted leaves after `leaves` have been offered one by one. -/
def sift (accept : Option (List κ) → List κ → Bool) (acc : List (List κ)) (ls : List (List κ)) :
    List (List κ) :=
  ls.foldl (fun acc leaf => if accept acc.getLast? leaf then acc ++ [leaf] else acc) acc

/-- Nothing happens when no leaf is acceptable. -/
theorem sift_of_rejected {accept : Option (List κ) → List κ → Bool} {acc ls : List (List κ)}
    (h : ∀ leaf ∈ ls, accept acc.getLast? leaf = false) : sift accept acc ls = acc := by
  unfold sift
  induction ls with
  | nil => rfl
  | cons leaf ls ih =>
      have hleaf : accept acc.getLast? leaf = false := h leaf (by simp)
      rw [List.foldl_cons, hleaf]
      exact ih fun l hl => h l (by simp [hl])

/-- A cut is sound when no leaf below it would be accepted. -/
def Sound (options : ρ → List κ) (d : Decisions ρ κ) : Prop :=
  ∀ inc path rest, d.prune inc path rest = true →
    ∀ leaf ∈ leaves options rest path, d.accept inc leaf = false

theorem sift_flatMap (accept : Option (List κ) → List κ → Bool) {f : κ → List (List κ)}
    {g : Log κ → κ → Log κ} (hg : ∀ l c, (g l c).accepted = sift accept l.accepted (f c))
    (cs : List κ) (log : Log κ) :
    (cs.foldl g log).accepted = sift accept log.accepted (cs.flatMap f) := by
  induction cs generalizing log with
  | nil => rfl
  | cons c cs ih =>
      rw [List.foldl_cons, ih, hg, List.flatMap_cons]
      simp [sift, List.foldl_append]

/-- Sound cuts do not change the accepted leaves: the search accepts what the enumeration of all
leaves accepts. -/
theorem explore_accepted {options : ρ → List κ} {d : Decisions ρ κ} (hd : Sound options d)
    (rows : List ρ) : ∀ (path : List κ) (log : Log κ),
      (explore options d rows path log).accepted =
        sift d.accept log.accepted (leaves options rows path) := by
  induction rows with
  | nil =>
      intro path log
      cases hp : d.prune log.incumbent path []
      · simp only [explore, hp]
        simp [leaves, sift, Log.candidate, Log.incumbent]
        rfl
      · have hrej := sift_of_rejected (hd log.incumbent path [] hp)
        simp [explore, hp, hrej]
  | cons row rest ih =>
      intro path log
      cases hp : d.prune log.incumbent path (row :: rest)
      · have hloop := sift_flatMap d.accept (fun l c => ih (path ++ [c]) l) (options row)
          (log.visit path)
        simpa [explore, hp, leaves] using hloop
      · have hrej := sift_of_rejected (hd log.incumbent path (row :: rest) hp)
        simp [explore, hp, hrej]

/-! ## Two searches with the same leaves -/

theorem foldl_extends {f : Log κ → κ → Log κ} (h : ∀ l c, l.visited <+: (f l c).visited)
    (cs : List κ) (log : Log κ) : log.visited <+: (cs.foldl f log).visited := by
  induction cs generalizing log with
  | nil => exact List.prefix_rfl
  | cons c cs ih => exact (h log c).trans (ih (f log c))

/-- A search only appends to the visited nodes, and visits its own node first. -/
theorem visited_extends (options : ρ → List κ) (d : Decisions ρ κ) (rows : List ρ) :
    ∀ (path : List κ) (log : Log κ),
      log.visited ++ [path] <+: (explore options d rows path log).visited := by
  induction rows with
  | nil =>
      intro path log
      cases hp : d.prune log.incumbent path [] <;> simp [explore, hp]
  | cons row rest ih =>
      intro path log
      cases hp : d.prune log.incumbent path (row :: rest)
      · have hstep := fun (l : Log κ) (c : κ) =>
          (List.prefix_append _ _).trans (ih (path ++ [c]) l)
        simpa [explore, hp] using foldl_extends hstep (options row) (log.visit path)
      · simp [explore, hp]

/-- `log'` has no fewer candidates than `log`, and no fewer nodes that are not candidates. -/
structure Grows (log log' : Log κ) : Prop where
  candidates : log.candidates.length ≤ log'.candidates.length
  inner : log.visited.length + log'.candidates.length ≤
    log'.visited.length + log.candidates.length

theorem Grows.refl (log : Log κ) : Grows log log :=
  ⟨Nat.le_refl _, Nat.le_refl _⟩

theorem Grows.trans {log mid log' : Log κ} (h : Grows log mid) (h' : Grows mid log') :
    Grows log log' := by
  have hc := h.candidates
  have hc' := h'.candidates
  have hi := h.inner
  have hi' := h'.inner
  exact ⟨by omega, by omega⟩

theorem grows_foldl {f : Log κ → κ → Log κ} (h : ∀ l c, Grows l (f l c)) (cs : List κ)
    (log : Log κ) : Grows log (cs.foldl f log) := by
  induction cs generalizing log with
  | nil => exact Grows.refl log
  | cons c cs ih => exact (h log c).trans (ih (f log c))

theorem grows_visit (log : Log κ) (path : List κ) : Grows log (log.visit path) := by
  refine ⟨Nat.le_refl _, ?_⟩
  simp [Log.visit]

/-- A search grows its log, and an inner node counts as one before its children are searched. -/
theorem grows_explore (options : ρ → List κ) (d : Decisions ρ κ) (rows : List ρ) :
    ∀ (path : List κ) (log : Log κ),
      Grows log (explore options d rows path log) ∧
        (rows ≠ [] → Grows (log.visit path) (explore options d rows path log)) := by
  induction rows with
  | nil =>
      intro path log
      refine ⟨?_, fun h => absurd rfl h⟩
      cases hp : d.prune log.incumbent path []
      · refine ⟨?_, ?_⟩ <;> simp [explore, hp, Log.candidate, Log.visit]
        omega
      · exact ⟨by simp [explore, hp, Log.cut, Log.visit], by simp [explore, hp, Log.cut, Log.visit]⟩
  | cons row rest ih =>
      intro path log
      have hbelow : Grows (log.visit path) (explore options d (row :: rest) path log) := by
        cases hp : d.prune log.incumbent path (row :: rest)
        · have hstep := fun (l : Log κ) (c : κ) => (ih (path ++ [c]) l).1
          simpa [explore, hp] using grows_foldl hstep (options row) (log.visit path)
        · simpa [explore, hp] using (⟨Nat.le_refl _, Nat.le_refl _⟩ : Grows (log.visit path)
            ((log.visit path).cut path))
      exact ⟨(grows_visit log path).trans hbelow, fun _ => hbelow⟩

/-- A reached leaf is one more candidate of the complete run, and a reached inner node one more
node that is no candidate. -/
theorem reaches_grows {options : ρ → List κ} {d : Decisions ρ κ}
    (hleaf : ∀ inc path, d.prune inc path [] = false) (rows : List ρ) :
    ∀ {path : List κ} {log mid : Log κ} {below : List ρ},
      Reaches options d.answers rows path log mid below →
        (below = [] →
          mid.candidates.length + 1 ≤ (explore options d rows path log).candidates.length) ∧
        (below ≠ [] → Grows mid (explore options d rows path log)) := by
  induction rows with
  | nil =>
      intro path log mid below h
      rcases h with ⟨rfl, rfl⟩
      refine ⟨fun _ => ?_, fun hne => absurd rfl hne⟩
      simp [explore, hleaf, Log.candidate, Log.visit]
  | cons row rest ih =>
      intro path log mid below h
      rcases h with ⟨rfl, rfl⟩ | ⟨hopen, before, c, after, l, hsplit, hsweep, hrest⟩
      · exact ⟨fun hnil => absurd hnil (by simp),
          fun _ => (grows_explore options d (row :: rest) path log).2 (by simp)⟩
      · have hl := (sweep_eq_foldl (f := fun l c => explore options d rest (path ++ [c]) l)
          (fun c l l' => explores_answers_iff options d rest (path ++ [c]) l l') before
          (log.visit path) l).1 hsweep
        have hopen' : d.prune log.incumbent path (row :: rest) = false := hopen
        have hfold : explore options d (row :: rest) path log =
            after.foldl (fun l c => explore options d rest (path ++ [c]) l)
              (explore options d rest (path ++ [c]) l) := by
          rw [explore, hopen', hsplit, List.foldl_append, ← hl]
          rfl
        have hafter := grows_foldl (fun l c => (grows_explore options d rest (path ++ [c]) l).1)
          after (explore options d rest (path ++ [c]) l)
        have hhere := ih hrest
        rw [hfold]
        exact ⟨fun hnil => Nat.le_trans (hhere.1 hnil) hafter.candidates,
          fun hne => (hhere.2 hne).trans hafter⟩

/-- If `d` cuts wherever `d'` does and both accept alike, `d` visits a sublist of the nodes. -/
theorem visited_sublist {options : ρ → List κ} {d d' : Decisions ρ κ} (hd : Sound options d)
    (hd' : Sound options d') (haccept : d.accept = d'.accept)
    (hmore : ∀ inc path rest, d'.prune inc path rest = true → d.prune inc path rest = true)
    (rows : List ρ) : ∀ (path : List κ) (log log' : Log κ), log.accepted = log'.accepted →
      log.visited.Sublist log'.visited →
      (explore options d rows path log).visited.Sublist
        (explore options d' rows path log').visited := by
  induction rows with
  | nil =>
      intro path log log' hacc hvis
      cases hp : d.prune log.incumbent path [] <;> cases hp' : d'.prune log'.incumbent path [] <;>
        simpa [explore, hp, hp'] using hvis
  | cons row rest ih =>
      intro path log log' hacc hvis
      have hinc : log.incumbent = log'.incumbent := by
        unfold Log.incumbent
        rw [hacc]
      cases hp : d.prune log.incumbent path (row :: rest)
      · have hp' : d'.prune log'.incumbent path (row :: rest) = false := by
          cases hq : d'.prune log'.incumbent path (row :: rest)
          · rfl
          · rw [← hinc] at hq
            rw [hmore _ _ _ hq] at hp
            exact absurd hp (by simp)
        -- The two loops over the options keep the accepted leaves equal, so `ih` applies to each
        -- option.
        have hloop : ∀ (cs : List κ) (l l' : Log κ), l.accepted = l'.accepted →
            l.visited.Sublist l'.visited →
            (cs.foldl (fun l c => explore options d rest (path ++ [c]) l) l).visited.Sublist
              (cs.foldl (fun l c => explore options d' rest (path ++ [c]) l) l').visited := by
          intro cs
          induction cs with
          | nil => exact fun l l' _ hv => hv
          | cons c cs ihc =>
              intro l l' ha hv
              refine ihc _ _ ?_ (ih (path ++ [c]) l l' ha hv)
              rw [explore_accepted hd, explore_accepted hd', ha, haccept]
        simpa [explore, hp, hp'] using
          hloop (options row) (log.visit path) (log'.visit path) hacc
            (by simpa using hvis)
      · -- `d` stops here; `d'` visits this node too, whatever it does below it.
        have hpre := (visited_extends options d' (row :: rest) path log').sublist
        have hhere : (log.visited ++ [path]).Sublist (log'.visited ++ [path]) := by
          simpa using hvis
        simpa [explore, hp] using hhere.trans hpre

/-- Equal decisions give equal runs. -/
theorem explore_congr {options : ρ → List κ} {d d' : Decisions ρ κ}
    (hprune : ∀ inc path rest, d.prune inc path rest = d'.prune inc path rest)
    (haccept : ∀ inc path, d.accept inc path = d'.accept inc path) (rows : List ρ)
    (path : List κ) (log : Log κ) :
    explore options d rows path log = explore options d' rows path log := by
  have hd : d = d' := by
    cases d
    cases d'
    simp only [Decisions.mk.injEq]
    exact ⟨funext fun i => funext fun p => funext fun r => hprune i p r,
      funext fun i => funext fun p => haccept i p⟩
  rw [hd]

/-! ## The incumbent is the first least leaf -/

def keep (accept : Option (List κ) → List κ → Bool) (inc : Option (List κ)) (leaf : List κ) :
    Option (List κ) :=
  if accept inc leaf then some leaf else inc

theorem getLast?_sift (accept : Option (List κ) → List κ → Bool) (acc ls : List (List κ)) :
    (sift accept acc ls).getLast? = ls.foldl (keep accept) acc.getLast? := by
  induction ls generalizing acc with
  | nil => rfl
  | cons leaf ls ih =>
      cases h : accept acc.getLast? leaf
      · have hih := ih acc
        simpa [sift, keep, h] using hih
      · have hih := ih (acc ++ [leaf])
        simpa [sift, keep, h] using hih

section FirstLeast

variable {α : Type u} [LinearOrder α]

/-- `leaf` is feasible, has the least key among the feasible members of `ls`, and every feasible
member before it has a larger key. -/
structure FirstLeast (feasible : List κ → Prop) (key : List κ → α) (ls : List (List κ))
    (leaf : List κ) : Prop where
  holds : feasible leaf
  least : ∀ l ∈ ls, feasible l → key leaf ≤ key l
  first : ∃ before after, ls = before ++ leaf :: after ∧
    ∀ l ∈ before, feasible l → key leaf < key l

theorem FirstLeast.mem {feasible : List κ → Prop} {key : List κ → α} {ls : List (List κ)}
    {leaf : List κ} (h : FirstLeast feasible key ls leaf) : leaf ∈ ls := by
  rcases h.first with ⟨before, after, rfl, _⟩
  simp

/-- The acceptance rule `feasible, and better than the incumbent`. -/
structure Improves (feasible : List κ → Prop) (key : List κ → α)
    (accept : Option (List κ) → List κ → Bool) : Prop where
  infeasible : ∀ inc leaf, ¬ feasible leaf → accept inc leaf = false
  none : ∀ leaf, feasible leaf → accept none leaf = true
  some : ∀ inc leaf, feasible inc → feasible leaf →
    (accept (some inc) leaf = true ↔ key leaf < key inc)

variable {feasible : List κ → Prop} {key : List κ → α} {accept : Option (List κ) → List κ → Bool}

/-- What the incumbent is after a list of leaves. -/
def Describes (feasible : List κ → Prop) (key : List κ → α) (ls : List (List κ)) :
    Option (List κ) → Prop
  | none => ∀ l ∈ ls, ¬ feasible l
  | some leaf => FirstLeast feasible key ls leaf

theorem describes_keep (h : Improves feasible key accept) {ls : List (List κ)}
    {inc : Option (List κ)} (hinc : Describes feasible key ls inc) (leaf : List κ) :
    Describes feasible key (ls ++ [leaf]) (keep accept inc leaf) := by
  by_cases hf : feasible leaf
  · cases inc with
    | none =>
        rw [keep, h.none leaf hf, if_pos rfl]
        refine ⟨hf, ?_, ls, [], rfl, ?_⟩
        · intro l hl hlf
          rcases List.mem_append.1 hl with hl | hl
          · exact absurd hlf (hinc l hl)
          · rw [List.mem_singleton.1 hl]
        · intro l hl hlf
          exact absurd hlf (hinc l hl)
    | some b =>
        by_cases hlt : key leaf < key b
        · rw [keep, (h.some b leaf hinc.holds hf).2 hlt, if_pos rfl]
          refine ⟨hf, ?_, ls, [], rfl, ?_⟩
          · intro l hl hlf
            rcases List.mem_append.1 hl with hl | hl
            · exact hlt.le.trans (hinc.least l hl hlf)
            · rw [List.mem_singleton.1 hl]
          · intro l hl hlf
            exact hlt.trans_le (hinc.least l hl hlf)
        -- A leaf that is not better leaves the incumbent, and the first of the least, where they
        -- are.
        · have hno : accept (some b) leaf = false := by
            cases hq : accept (some b) leaf
            · rfl
            · exact absurd ((h.some b leaf hinc.holds hf).1 hq) hlt
          rw [keep, hno, if_neg (by simp)]
          rcases hinc.first with ⟨before, after, rfl, hbefore⟩
          refine ⟨hinc.holds, ?_, before, after ++ [leaf], by simp, hbefore⟩
          intro l hl hlf
          rcases List.mem_append.1 hl with hl | hl
          · exact hinc.least l hl hlf
          · rw [List.mem_singleton.1 hl]
            exact not_lt.1 hlt
  · rw [keep, h.infeasible inc leaf hf, if_neg (by simp)]
    cases inc with
    | none =>
        intro l hl
        rcases List.mem_append.1 hl with hl | hl
        · exact hinc l hl
        · rw [List.mem_singleton.1 hl]
          exact hf
    | some b =>
        rcases hinc.first with ⟨before, after, rfl, hbefore⟩
        refine ⟨hinc.holds, ?_, before, after ++ [leaf], by simp, hbefore⟩
        intro l hl hlf
        rcases List.mem_append.1 hl with hl | hl
        · exact hinc.least l hl hlf
        · rw [List.mem_singleton.1 hl] at hlf
          exact absurd hlf hf

/-- Offering all leaves to the rule leaves the first least feasible one, or none if none is
feasible. -/
theorem describes_foldl (h : Improves feasible key accept) (ls : List (List κ)) :
    Describes feasible key ls (ls.foldl (keep accept) none) := by
  induction ls using List.reverseRecOn with
  | nil =>
      intro l hl
      cases hl
  | append_singleton ls leaf ih =>
      rw [List.foldl_append]
      exact describes_keep h ih leaf

end FirstLeast

/-- The incumbent of a sound search that accepts strict improvements. -/
theorem describes_explore {α : Type u} [LinearOrder α] {options : ρ → List κ}
    {d : Decisions ρ κ} {feasible : List κ → Prop} {key : List κ → α} (hd : Sound options d)
    (h : Improves feasible key d.accept) (rows : List ρ) :
    Describes feasible key (leaves options rows []) (explore options d rows [] {}).incumbent := by
  have hacc := explore_accepted hd rows [] {}
  unfold Log.incumbent
  rw [hacc, getLast?_sift]
  exact describes_foldl h _

end BranchBound
end SociSgx

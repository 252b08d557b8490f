import PoolScaling.Proofs.Policy.Signal

/-! Nested chains.

A chain can hold chains, and each policy in it sees what the one before has answered. How
deep the nesting is makes no difference: a policy does what its leaves do one after another
(`applyAll_leaves`), with the same trackers (`allGraces_leaves`). No policy answers anything
but the candidate or the desired size, so none that is built from them does
(`apply_invents_nothing`). -/
namespace PoolScaling.Policy

variable {pool : Option PoolSize} {now : Instant}

/-! ### Leaves -/

mutual

/-- The policies in a policy that are no chains, from left to right. -/
def leaves : Policy → List Policy
  | tolerance limit => [tolerance limit]
  | grace period t => [grace period t]
  | chain policies => allLeaves policies

def allLeaves : List Policy → List Policy
  | [] => []
  | p :: rest => leaves p ++ allLeaves rest

end

def isChain : Policy → Bool
  | chain _ => true
  | tolerance _ | grace _ _ => false

mutual

theorem isChain_of_mem_leaves (p : Policy) : ∀ q ∈ p.leaves, q.isChain = false := by
  cases p with
  | tolerance | grace => exact List.forall_mem_singleton.mpr rfl
  | chain policies => exact isChain_of_mem_allLeaves policies

theorem isChain_of_mem_allLeaves (ps : List Policy) : ∀ q ∈ allLeaves ps, q.isChain = false := by
  cases ps with
  | nil => exact List.forall_mem_nil _
  | cons p rest =>
    exact List.forall_mem_append.mpr ⟨isChain_of_mem_leaves p, isChain_of_mem_allLeaves rest⟩

end

/-! ### A policy and its leaves -/

/-- Each policy sees what the one before it answers. -/
theorem applyAll_cons (p : Policy) (rest : List Policy) (candidate : Option Float) :
    applyAll pool now (p :: rest) candidate =
      ((applyAll pool now rest (apply pool now p candidate).1).1,
        (apply pool now p candidate).2 :: (applyAll pool now rest (apply pool now p candidate).1).2) := rfl

/-- Policies that follow others go on from what these answer. -/
theorem applyAll_append (ps qs : List Policy) (candidate : Option Float) :
    applyAll pool now (ps ++ qs) candidate =
      ((applyAll pool now qs (applyAll pool now ps candidate).1).1,
        (applyAll pool now ps candidate).2 ++ (applyAll pool now qs (applyAll pool now ps candidate).1).2) := by
  induction ps generalizing candidate with
  | nil => rfl
  | cons p rest ih => rw [List.cons_append, applyAll_cons, ih, applyAll_cons, List.cons_append]

mutual

/-- **A policy does what its leaves do**, and its leaves are then theirs. -/
theorem applyAll_leaves (p : Policy) (candidate : Option Float) :
    applyAll pool now p.leaves candidate =
      ((apply pool now p candidate).1, (apply pool now p candidate).2.leaves) := by
  cases p with
  | tolerance | grace => rfl
  | chain policies => exact applyAll_allLeaves policies candidate

theorem applyAll_allLeaves (ps : List Policy) (candidate : Option Float) :
    applyAll pool now (allLeaves ps) candidate =
      ((applyAll pool now ps candidate).1, allLeaves (applyAll pool now ps candidate).2) := by
  cases ps with
  | nil => rfl
  | cons p rest =>
    rw [allLeaves, applyAll_append, applyAll_leaves p, applyAll_allLeaves rest]
    rfl

end

theorem allGraces_append (ps qs : List Policy) : allGraces (ps ++ qs) = allGraces ps ++ allGraces qs := by
  induction ps with
  | nil => rfl
  | cons p rest ih => rw [List.cons_append, allGraces, allGraces, ih, List.append_assoc]

mutual

theorem allGraces_leaves (p : Policy) : allGraces p.leaves = p.graces := by
  cases p with
  | tolerance | grace => rfl
  | chain policies => exact allGraces_allLeaves policies

theorem allGraces_allLeaves (ps : List Policy) : allGraces (allLeaves ps) = allGraces ps := by
  cases ps with
  | nil => rfl
  | cons p rest => rw [allLeaves, allGraces_append, allGraces_leaves p, allGraces_allLeaves rest, allGraces]

end

/-! ### Candidates -/

mutual

/-- Without a candidate every tracker ends. -/
theorem apply_absent (p : Policy) :
    (apply pool now p none).1 = none ∧
      (apply pool now p none).2.graces = p.graces.map fun g => (g.1, .idle) := by
  cases p with
  | tolerance | grace => exact ⟨rfl, rfl⟩
  | chain policies => exact applyAll_absent policies

theorem applyAll_absent (ps : List Policy) :
    (applyAll pool now ps none).1 = none ∧
      allGraces (applyAll pool now ps none).2 = (allGraces ps).map fun g => (g.1, .idle) := by
  cases ps with
  | nil => exact ⟨rfl, rfl⟩
  | cons p rest =>
    obtain ⟨hfirst, hgraces⟩ := apply_absent p
    obtain ⟨hanswer, hrest⟩ := applyAll_absent rest
    rw [applyAll_cons, hfirst, allGraces, allGraces, hgraces, hrest, List.map_append]
    exact ⟨hanswer, rfl⟩

end

mutual

/-- Without a pool a candidate passes and nothing changes. -/
theorem apply_unknown (p : Policy) (c : Float) : apply none now p (some c) = (some c, p) := by
  cases p with
  | tolerance | grace => rfl
  | chain policies => rw [apply, applyAll_unknown policies c]

theorem applyAll_unknown (ps : List Policy) (c : Float) : applyAll none now ps (some c) = (some c, ps) := by
  cases ps with
  | nil => rfl
  | cons p rest => rw [applyAll_cons, apply_unknown p c, applyAll_unknown rest c]

end

theorem tolerate_some_or (limit : Float) (p : PoolSize) (c : Float) :
    tolerate limit (some p) (some c) = some c ∨ tolerate limit (some p) (some c) = some p.target := by
  unfold tolerate
  dsimp only
  split
  · exact .inr rfl
  · exact .inl rfl

theorem hold_some_or (period : Duration) (t : Tracker) (p : PoolSize) (c : Float) :
    (hold period t (some p) now (some c)).1 = some c ∨ (hold period t (some p) now (some c)).1 = some p.target := by
  unfold hold
  dsimp only
  split
  · exact .inl rfl
  · exact .inr rfl

mutual

/-- With both, the answer is one of the two. -/
theorem apply_known (size : PoolSize) (p : Policy) (c : Float) :
    (apply (some size) now p (some c)).1 = some c ∨ (apply (some size) now p (some c)).1 = some size.target := by
  cases p with
  | tolerance limit => exact tolerate_some_or limit size c
  | grace period t => exact hold_some_or period t size c
  | chain policies => exact applyAll_known size policies c

theorem applyAll_known (size : PoolSize) (ps : List Policy) (c : Float) :
    (applyAll (some size) now ps (some c)).1 = some c ∨
      (applyAll (some size) now ps (some c)).1 = some size.target := by
  cases ps with
  | nil => exact .inl rfl
  | cons p rest =>
    rw [applyAll_cons]
    rcases apply_known size p c with h | h
    · rw [h]
      exact applyAll_known size rest c
    · -- The policies that follow see the desired size as their candidate.
      rw [h]
      exact .inr ((applyAll_known size rest size.target).elim id id)

end

/-! ### Runs -/

/-- What a policy answers to readings in turn, each time with its trackers afterwards. -/
def run (p : Policy) : List Reading → List (Option Float × List (Duration × Tracker))
  | [] => []
  | r :: rest =>
    let (answer, p') := apply r.pool r.now p r.candidate
    (answer, p'.graces) :: run p' rest

/-- Answer by answer, a policy and the flat chain of its leaves are the same. -/
theorem run_flat (p : Policy) (readings : List Reading) : (chain p.leaves).run readings = p.run readings := by
  induction readings generalizing p with
  | nil => rfl
  | cons r rest ih =>
    have happly : apply r.pool r.now (chain p.leaves) r.candidate =
        ((apply r.pool r.now p r.candidate).1, chain (apply r.pool r.now p r.candidate).2.leaves) := by
      rw [apply, applyAll_leaves]
    rw [run, run, happly]
    dsimp only
    rw [ih, graces, allGraces_leaves]

/-- **Nothing is invented.** Whatever its trackers, a policy that is built from tolerances,
grace periods and chains answers nothing when there is no candidate, and ends every tracker;
without a pool it answers the candidate and stays as it is; and with both it answers the
candidate or the desired size. In every run it answers like the flat chain of its leaves and
has the same trackers after each answer. -/
theorem apply_invents_nothing (p : Policy) :
    (∀ pool now, (apply pool now p none).1 = none ∧
      (apply pool now p none).2.graces = p.graces.map fun g => (g.1, .idle)) ∧
    (∀ now c, apply none now p (some c) = (some c, p)) ∧
    (∀ (size : PoolSize) now c, (apply (some size) now p (some c)).1 = some c ∨
      (apply (some size) now p (some c)).1 = some size.target) ∧
    (∀ q ∈ p.leaves, q.isChain = false) ∧
    ∀ readings, p.run readings = (chain p.leaves).run readings := by
  refine ⟨?absent, ?unknown, ?known, isChain_of_mem_leaves p, ?flat⟩
  case absent => exact fun pool now => apply_absent p
  case unknown => exact fun now c => apply_unknown p c
  case known => exact fun size now c => apply_known size p c
  case flat => exact fun readings => (run_flat p readings).symm

/-- A grace period in a chain that follows a tolerance, while the pool is not known. -/
theorem apply_invents_nothing_nested :
    let held : Policy := grace (.ofSeconds 60) .idle
    let p : Policy := chain [tolerance 0.5, chain [held]]
    let now : Instant := .ofSeconds 0 0
    held ∈ p.leaves ∧ held.isChain = false ∧ apply none now p (some 2.0) = (some 2.0, p) ∧
      p.run [⟨none, some 2.0, now⟩] = (chain [tolerance 0.5, held]).run [⟨none, some 2.0, now⟩] := by
  intro held p now
  have hheld : held ∈ p.leaves := List.mem_cons_of_mem _ (List.mem_singleton_self held)
  obtain ⟨-, hunknown, -, hleaves, hflat⟩ := apply_invents_nothing p
  exact ⟨hheld, hleaves held hheld, hunknown now 2.0, hflat _⟩

end PoolScaling.Policy

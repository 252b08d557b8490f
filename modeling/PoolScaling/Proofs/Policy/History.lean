import Mathlib.Data.List.DropRight
import PoolScaling.Proofs.Policy.Running
import PoolScaling.Proofs.Policy.Tracker

/-! Dampers over their history.

What a damper has been asked decides what it answers: the tracker runs since the
first excess after the last reset (`trackerAfter_concat`), and an excess passes
once that one is a grace period old. `run_eq_answers` says so of every sequence of
calls. -/
namespace PoolScaling

/-! ### The onset of an excess -/

namespace Damping

variable {d : Damping}

/-- The first excess after the last reset, or from the start when there is no reset. -/
def onset? (d : Damping) (readings : List Reading) : Option Reading :=
  (readings.rtakeWhile fun r => r.signal d != .reset).find? fun r => r.signal d == .down

/-- The tracker after readings. -/
def trackerAfter (d : Damping) (readings : List Reading) : Tracker :=
  match d.onset? readings with
  | some r => .since r.now
  | .none => .idle

/-- Whether the excess that a reading at `now` belongs to began a grace period ago. -/
def hasLasted (d : Damping) (past : List Reading) (now : Instant) : Bool :=
  (d.onset? past).any fun r => (d.grace.nanos : Int) ≤ now.nanosSince r.now

/-- The answers to readings that follow others. -/
def answers (d : Damping) (past : List Reading) : List Reading → List (Option Float)
  | [] => []
  | r :: rest => r.answer d (d.hasLasted past r.now) :: d.answers (past ++ [r]) rest

theorem onset?_concat (past : List Reading) (r : Reading) :
    d.onset? (past ++ [r]) =
      match r.signal d with
      | .down => (d.onset? past).or (some r)
      | .neutral => d.onset? past
      | .reset => .none := by
  unfold onset?
  rw [List.rtakeWhile_concat]
  cases hs : r.signal d with
  | down => simp [hs, List.find?_append]
  | neutral => simp [hs, List.find?_append]
  | reset => simp

/-- One more reading moves the tracker by its signal. -/
theorem trackerAfter_concat (past : List Reading) (r : Reading) :
    d.trackerAfter (past ++ [r]) = (d.trackerAfter past).next (r.signal d) r.now := by
  unfold trackerAfter
  rw [onset?_concat]
  cases r.signal d <;> cases d.onset? past <;> rfl

/-- From an onset on there is no reset. -/
theorem onset?_eq_some {readings : List Reading} {r : Reading} (h : d.onset? readings = some r) :
    ∃ before between, readings = before ++ r :: between ∧ r.signal d = .down ∧
      ∀ b ∈ between, b.signal d ≠ .reset := by
  obtain ⟨hdown, before, between, hsplit, -⟩ := List.find?_eq_some_iff_append.mp h
  refine ⟨readings.rdropWhile (fun r => r.signal d != .reset) ++ before, between, ?_, ?_, ?_⟩
  · rw [List.append_assoc, ← hsplit, List.rdropWhile_append_rtakeWhile]
  · exact eq_of_beq hdown
  · intro b hb
    have hmem : b ∈ readings.rtakeWhile fun r => r.signal d != .reset := by
      rw [hsplit]
      exact List.mem_append_right _ (List.mem_cons_of_mem _ hb)
    have hkept := List.mem_rtakeWhile_imp hmem
    exact bne_iff_ne.mp hkept

/-- The tracker lets nothing through before a grace period after the onset. -/
theorem onset_of_passes {past : List Reading} {now : Instant}
    (h : (d.trackerAfter past).passes d.grace now = true) :
    ∃ r, d.onset? past = some r ∧ (d.grace.nanos : Int) ≤ now.nanosSince r.now := by
  unfold trackerAfter at h
  split at h
  · rename_i r honset
    have h : Tracker.elapsed d.grace r.now now = true := h
    exact ⟨r, honset, (Tracker.elapsed_eq_true_iff.mp h).2⟩
  · cases h

/-- Between times that there are, the tracker lets through what has lasted. -/
theorem passes_trackerAfter {past : List Reading} {now : Instant} (hn : now.isInRange = true)
    (hpast : ∀ r ∈ past, r.now.isInRange = true) :
    (d.trackerAfter past).passes d.grace now = d.hasLasted past now := by
  unfold trackerAfter hasLasted
  cases h : d.onset? past with
  | none => rfl
  | some r =>
    obtain ⟨before, between, rfl, -, -⟩ := onset?_eq_some h
    rw [Bool.eq_iff_iff, Option.any_some, decide_eq_true_iff]
    exact Tracker.elapsed_iff (hpast r (by simp)) hn

end Damping

/-! ### Runs -/

namespace Damper

variable {d : Damping}

/-- The answers to readings in turn. -/
def run : List Reading → Change Damper PolicyError (List (Option Float))
  | [] => pure []
  | r :: rest => do
    let answer ← apply r.pool r.candidate r.now
    let answers ← run rest
    return answer :: answers

theorem run_trackerAfter (h : d.validate = .ok ()) (hg : d.grace ≠ .zero) (past readings : List Reading)
    (hr : ∀ r ∈ past ++ readings, r.now.isInRange = true) :
    run readings (running d (d.trackerAfter past)) =
      .ok (d.answers past readings) (running d (d.trackerAfter (past ++ readings))) := by
  induction readings generalizing past with
  | nil =>
    rw [List.append_nil]
    rfl
  | cons r rest ih =>
    have hpasses : (d.trackerAfter past).passes d.grace r.now = d.hasLasted past r.now :=
      Damping.passes_trackerAfter (hr r (by simp)) fun b hb => hr b (List.mem_append_left _ hb)
    have hcall := apply_running h (d.trackerAfter past) r
    rw [Damping.passes_of_grace hg, hpasses, ← Damping.trackerAfter_concat] at hcall
    have hrest := ih (past ++ [r]) (by simpa using hr)
    rw [List.append_assoc, List.singleton_append] at hrest
    rw [run, bind_ok hcall, bind_ok hrest]
    rfl

/-- The grace periods of a damper with their trackers. -/
def graces (damper : Damper) : List (Duration × Tracker) :=
  match damper.active with
  | none => []
  | some a => Policy.allGraces a.policies

theorem graces_running (d : Damping) (t : Tracker) :
    (running d t).graces = if d.grace = .zero then [] else [(d.grace, t)] := by
  show Policy.allGraces (d.policiesFrom t) = _
  unfold Damping.policiesFrom
  by_cases hg : d.grace = .zero
  · rw [if_pos hg, if_pos hg]
    split <;> rfl
  · rw [if_neg hg, if_neg hg]
    split <;> rfl

theorem graces_running_of_grace (hg : d.grace ≠ .zero) (t : Tracker) : (running d t).graces = [(d.grace, t)] := by
  rw [graces_running, if_neg hg]

/-- **A damper answers by its history.** With a grace period, and a tolerance or none,
whatever was configured before: every sequence of calls is answered, by nothing but
the readings so far, and leaves the tracker at the first excess after the last
reset; a candidate within the tolerance is a reset. -/
theorem run_eq_answers (hfinite : d.tolerance.isFinite = true) (hge : 0.0 ≤ d.tolerance)
    (hg : d.grace ≠ .zero) (before : Damper) (readings : List Reading)
    (hr : ∀ r ∈ readings, r.now.isInRange = true) :
    ∃ fresh last, configure d before = .ok () fresh ∧
      run readings fresh = .ok (d.answers [] readings) last ∧
      last.graces = [(d.grace, d.trackerAfter readings)] ∧
      ∀ past r p c, readings = past ++ [r] → r.pool = some p → r.candidate = some c →
        d.tolerates p c = true → d.trackerAfter readings = .idle := by
  obtain ⟨q, hq⟩ := Number.isFinite_iff.mp hfinite
  have hnonneg : ¬ d.tolerance < 0.0 := by
    rw [Number.lt_iff hq Number.place_zero, not_lt]
    exact (Number.le_iff Number.place_zero hq).mp hge
  have hvalid : d.validate = .ok () := Damping.validate_ok_iff.mpr ⟨hfinite, hnonneg⟩
  refine ⟨_, _, configure_of_validate hvalid before, run_trackerAfter hvalid hg [] readings hr,
    graces_running_of_grace hg _, ?_⟩
  rintro past r p c rfl hp hc hin
  have hreset : r.signal d = .reset := by
    simp only [Reading.signal, hp, hc, Damping.isExcess_eq hvalid, hin, Bool.not_true, Bool.and_false]
    rfl
  rw [Damping.trackerAfter_concat, hreset]
  rfl

/-- An excess is held for a minute, then it passes. -/
theorem run_held_then_passed :
    ∃ fresh last, configure ⟨0.5, .ofSeconds 60⟩ new = .ok () fresh ∧
      run [⟨some ⟨10, 10⟩, some 4.0, .ofSeconds 0 0⟩, ⟨none, some 4.0, .ofSeconds 9 0⟩,
        ⟨some ⟨10, 10⟩, some 4.0, .ofSeconds 60 0⟩] fresh = .ok [some 10.0, some 4.0, some 4.0] last ∧
      last.graces = [(.ofSeconds 60, .since (.ofSeconds 0 0))] := by
  obtain ⟨fresh, last, hfresh, hrun, hlast, -⟩ :=
    run_eq_answers (d := ⟨0.5, .ofSeconds 60⟩) (by decide) (by decide) (by decide) new
      [⟨some ⟨10, 10⟩, some 4.0, .ofSeconds 0 0⟩, ⟨none, some 4.0, .ofSeconds 9 0⟩,
        ⟨some ⟨10, 10⟩, some 4.0, .ofSeconds 60 0⟩] (by decide)
  exact ⟨fresh, last, hfresh, hrun, hlast⟩

end Damper

end PoolScaling

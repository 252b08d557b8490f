import PoolScaling.Policy.Damper
import PoolScaling.Proofs.Number.Ceiling

/-! What one call does to a damper.

The candidate of a call is a signal to the grace tracker: an excess that is worth
a smaller pool, nothing that could be judged, or an end to all excess. The tracker
and the answer follow from the signal (`apply_running`), whether or not there is a
tolerance in front of the grace period. Without a grace period there is no tracker, and
every excess passes. -/
namespace PoolScaling
open Number

/-- One call to a damper. -/
structure Reading where
  pool : Option PoolSize
  candidate : Option Float
  now : Instant

inductive Signal where
  /-- A scale-down outside the tolerance. -/
  | down
  /-- A candidate that no pool was known for. -/
  | neutral
  | reset
  deriving Repr, DecidableEq

namespace Damping

/-- Whether a candidate is a scale-down outside the tolerance. -/
def isExcess (d : Damping) (p : PoolSize) (c : Float) : Bool :=
  Policy.isScaleDown p c && (d.tolerance == 0.0 || d.tolerance < (p.target - c).abs)

/-- Whether the tolerance turns a candidate into the desired size. -/
def tolerates (d : Damping) (p : PoolSize) (c : Float) : Bool :=
  0.0 < d.tolerance && (p.target - c).abs ≤ d.tolerance

end Damping

namespace Reading

def signal (d : Damping) (r : Reading) : Signal :=
  match r.candidate, r.pool with
  | none, _ => .reset
  | some _, none => .neutral
  | some c, some p => if d.isExcess p c then .down else .reset

/-- The answer to a reading; `passes` says whether an excess gets through. -/
def answer (d : Damping) (passes : Bool) (r : Reading) : Option Float :=
  match r.candidate, r.pool with
  | none, _ => none
  | some c, none => some c
  | some c, some p =>
    if d.tolerates p c then some p.target
    else if !Policy.isScaleDown p c then some c
    else if passes then some c
    else some p.target

end Reading

namespace Tracker

/-- The tracker after a signal. -/
def next (t : Tracker) (s : Signal) (now : Instant) : Tracker :=
  match s, t with
  | .down, idle => since now
  | .down, since start => since start
  | .neutral, t => t
  | .reset, _ => idle

/-- Whether the tracker lets an excess through. -/
def passes (t : Tracker) (grace : Duration) (now : Instant) : Bool :=
  match t with
  | idle => false
  | since start => elapsed grace start now

end Tracker

/-! ### Candidates -/

namespace Policy

variable {p : PoolSize} {c : Float}

theorem not_isScaleDown_target (p : PoolSize) : isScaleDown p p.target = false := by
  have hceil := place_ceil (place_target p)
  rw [Int.ceil_natCast] at hceil
  rw [isScaleDown, decide_eq_false_iff_not, lt_iff hceil (place_target p)]
  exact lt_irrefl _

theorem ceil_of_place_eq_none (h : place c = none) : ceil c = c := by
  unfold ceil roundWith
  unfold place at h
  split at h
  · rename_i hparts
    rw [hparts]
  all_goals cases h

/-- A scale-down is a number, and not the desired size. -/
theorem place_of_isScaleDown (h : isScaleDown p c = true) :
    ∃ a, place c = some a ∧ a ≠ (p.desired.toNat : ℚ) := by
  have hlt : ceil c < p.target := of_decide_eq_true h
  cases hc : place c with
  | none =>
    obtain ⟨a, b, ha, -, -⟩ := places_of_lt hlt
    rw [ceil_of_place_eq_none hc, hc] at ha
    cases ha
  | some a =>
    refine ⟨a, rfl, ?_⟩
    rintro rfl
    have hceil := place_ceil hc
    rw [Int.ceil_natCast] at hceil
    exact lt_irrefl _ ((lt_iff hceil (place_target p)).mp hlt)

/-- A scale-down and the desired size are a nonzero distance apart. -/
theorem place_distance (h : isScaleDown p c = true) :
    ∃ b, place (p.target - c).abs = some b ∧ ((0 : ℚ) : Line) < b := by
  obtain ⟨a, ha, hne⟩ := place_of_isScaleDown h
  exact place_sub_abs (place_target p) ha hne

/-- Holding back a candidate for a known pool. -/
theorem hold_some (grace : Duration) (t : Tracker) (now : Instant) :
    hold grace t (some p) now (some c) =
      (some (if !isScaleDown p c then c else if t.passes grace now then c else p.target),
        t.next (if isScaleDown p c then .down else .reset) now) := by
  show (some (if (t.step (isScaleDown p c) now grace).2 then c else p.target),
    (t.step (isScaleDown p c) now grace).1) = _
  cases isScaleDown p c with
  | false => rfl
  | true => cases t <;> rfl

end Policy

namespace Damping

variable {d : Damping} {p : PoolSize} {c : Float}

theorem validate_ok_iff : d.validate = .ok () ↔ d.tolerance.isFinite = true ∧ ¬ d.tolerance < 0.0 := by
  unfold validate
  cases h : d.tolerance.isFinite <;> by_cases h0 : d.tolerance < 0.0 <;> simp [h0]

/-- A tolerance that is accepted is a number from zero on. -/
theorem place_tolerance (h : d.validate = .ok ()) :
    ∃ q : ℚ, place d.tolerance = some (q : Line) ∧ ((0 : ℚ) : Line) ≤ q := by
  obtain ⟨hfinite, hge⟩ := validate_ok_iff.mp h
  obtain ⟨q, hq⟩ := isFinite_iff.mp hfinite
  exact ⟨q, hq, le_of_not_gt fun hlt => hge ((lt_iff hq place_zero).mpr hlt)⟩

/-- A scale-down is an excess unless the tolerance takes it. -/
theorem isExcess_eq (h : d.validate = .ok ()) :
    d.isExcess p c = (Policy.isScaleDown p c && !d.tolerates p c) := by
  unfold isExcess tolerates
  by_cases hdown : Policy.isScaleDown p c = true
  · obtain ⟨t, ht, h0⟩ := place_tolerance h
    obtain ⟨b, hb, -⟩ := Policy.place_distance hdown
    have hzero : (d.tolerance == 0.0) = !decide (0.0 < d.tolerance) := by
      rw [Bool.eq_iff_iff, beq_iff ht place_zero, Bool.not_eq_true', decide_eq_false_iff_not,
        lt_iff place_zero ht, not_lt]
      exact ⟨fun h => h.le, fun h => le_antisymm h h0⟩
    have hfar : decide (d.tolerance < (p.target - c).abs) = !decide ((p.target - c).abs ≤ d.tolerance) := by
      rw [Bool.eq_iff_iff, decide_eq_true_iff, Bool.not_eq_true', decide_eq_false_iff_not,
        not_le_iff_lt hb ht]
    rw [hzero, hfar, Bool.not_and]
  · rw [Bool.not_eq_true] at hdown
    rw [hdown, Bool.false_and, Bool.false_and]

/-- An excess is farther from the desired size than the tolerance. -/
theorem tolerance_lt_of_isExcess (h : d.validate = .ok ()) (hexcess : d.isExcess p c = true) :
    d.tolerance < (p.target - c).abs := by
  rw [isExcess, Bool.and_eq_true, Bool.or_eq_true, decide_eq_true_iff] at hexcess
  obtain ⟨hdown, hzero | hfar⟩ := hexcess
  · obtain ⟨t, ht, -⟩ := place_tolerance h
    obtain ⟨b, hb, hpos⟩ := Policy.place_distance hdown
    rw [lt_iff ht hb, (beq_iff ht place_zero).mp hzero]
    exact hpos
  · exact hfar

theorem tolerate_some (d : Damping) :
    (if 0.0 < d.tolerance then Policy.tolerate d.tolerance (some p) (some c) else some c) =
      some (if d.tolerates p c then p.target else c) := by
  unfold Policy.tolerate tolerates
  by_cases h0 : 0.0 < d.tolerance
  · by_cases hle : (p.target - c).abs ≤ d.tolerance
    · simp only [h0, hle, decide_true, Bool.and_self, if_true]
    · simp only [h0, hle, decide_true, decide_false, Bool.and_false, if_true, if_false, Bool.false_eq_true]
  · simp only [h0, decide_false, Bool.false_and, if_false, Bool.false_eq_true]

end Damping

namespace Reading

variable {d : Damping} {r : Reading}

theorem signal_eq_down (h : r.signal d = .down) :
    ∃ p c, r.pool = some p ∧ r.candidate = some c ∧ d.isExcess p c = true := by
  unfold signal at h
  split at h
  · cases h
  · cases h
  · rename_i c p hc hp
    split at h
    · exact ⟨p, c, hp, hc, ‹_›⟩
    · cases h

theorem signal_ne_reset (h : r.signal d ≠ .reset) :
    ∃ c, r.candidate = some c ∧ (r.pool = none ∨ ∃ p, r.pool = some p ∧ d.isExcess p c = true) := by
  unfold signal at h
  split at h
  · exact (h rfl).elim
  · rename_i c hc hp
    exact ⟨c, hc, .inl hp⟩
  · rename_i c p hc hp
    split at h
    · exact ⟨c, hc, .inr ⟨p, hp, ‹_›⟩⟩
    · exact (h rfl).elim

end Reading

/-- A candidate for a known pool comes under the tolerance before it is held back. -/
theorem Policy.hold_tolerated {d : Damping} (h : d.validate = .ok ()) (t : Tracker) (p : PoolSize) (c : Float)
    (now : Instant) :
    hold d.grace t (some p) now (some (if d.tolerates p c then p.target else c)) =
      ((Reading.mk (some p) (some c) now).answer d (t.passes d.grace now),
        t.next ((Reading.mk (some p) (some c) now).signal d) now) := by
  have hexcess := Damping.isExcess_eq (p := p) (c := c) h
  simp only [hold_some, Reading.answer, Reading.signal]
  cases hin : d.tolerates p c with
  | true =>
    rw [hin, Bool.not_true, Bool.and_false] at hexcess
    rw [hexcess, if_pos rfl, if_pos rfl, not_isScaleDown_target]
    rfl
  | false =>
    rw [hin, Bool.not_false, Bool.and_true] at hexcess
    rw [hexcess, if_neg Bool.false_ne_true, if_neg Bool.false_ne_true]
    split
    · rfl
    · split <;> rfl

/-! ### Calls -/

namespace Damping

/-- The policies of a damping; `t` is the tracker of the grace period, if there is one. -/
def policiesFrom (d : Damping) (t : Tracker) : List Policy :=
  (if 0.0 < d.tolerance then [.tolerance d.tolerance] else []) ++
    (if d.grace = .zero then [] else [.grace d.grace t])

/-- Whether an excess gets through. -/
def passes (d : Damping) (t : Tracker) (now : Instant) : Bool :=
  d.grace = .zero || t.passes d.grace now

theorem passes_of_grace {d : Damping} (hg : d.grace ≠ .zero) (t : Tracker) (now : Instant) :
    d.passes t now = t.passes d.grace now := by
  rw [passes, decide_eq_false hg, Bool.false_or]

end Damping

namespace Damper

/-- A damper that is configured; `t` is the tracker of its grace period, if there is one. -/
def running (d : Damping) (t : Tracker) : Damper := ⟨some ⟨d, d.policiesFrom t⟩⟩

variable {d : Damping}

/-- Without a grace period the policies have no state. -/
theorem running_of_zero (hg : d.grace = .zero) (t t' : Tracker) : running d t = running d t' := by
  unfold running Damping.policiesFrom
  rw [if_pos hg, if_pos hg]

theorem applyAll_of_zero (hg : d.grace = .zero) (t : Tracker) (pool : Option PoolSize) (now : Instant)
    (candidate : Option Float) :
    Policy.applyAll pool now (d.policiesFrom t) candidate =
      (if 0.0 < d.tolerance then Policy.tolerate d.tolerance pool candidate else candidate,
        d.policiesFrom t) := by
  unfold Damping.policiesFrom
  rw [if_pos hg]
  split <;> rfl

theorem applyAll_of_grace (hg : d.grace ≠ .zero) (t : Tracker) (pool : Option PoolSize) (now : Instant)
    (candidate : Option Float) :
    Policy.applyAll pool now (d.policiesFrom t) candidate =
      (let tolerated := if 0.0 < d.tolerance then Policy.tolerate d.tolerance pool candidate else candidate
       let held := Policy.hold d.grace t pool now tolerated
       (held.1, d.policiesFrom held.2)) := by
  unfold Damping.policiesFrom
  simp only [if_neg hg]
  split <;> rfl

/-- **Call.** With a grace period or without, a damper answers by the signal and the
tracker, and only the tracker changes. -/
theorem apply_running (h : d.validate = .ok ()) (t : Tracker) (r : Reading) :
    apply r.pool r.candidate r.now (running d t) =
      .ok (r.answer d (d.passes t r.now)) (running d (t.next (r.signal d) r.now)) := by
  have happly : apply r.pool r.candidate r.now (running d t) =
      .ok (Policy.applyAll r.pool r.now (d.policiesFrom t) r.candidate).1
        ⟨some ⟨d, (Policy.applyAll r.pool r.now (d.policiesFrom t) r.candidate).2⟩⟩ := rfl
  rw [happly]
  obtain ⟨pool, candidate, now⟩ := r
  by_cases hg : d.grace = .zero
  · rw [applyAll_of_zero hg, running_of_zero hg _ t, Damping.passes, decide_eq_true hg, Bool.true_or]
    cases candidate with
    | none => split <;> rfl
    | some c =>
      cases pool with
      | none => split <;> rfl
      | some p =>
        simp only [Damping.tolerate_some, Reading.answer, if_true, ite_self]
        split <;> rfl
  · rw [applyAll_of_grace hg, Damping.passes_of_grace hg]
    cases candidate with
    | none => split <;> rfl
    | some c =>
      cases pool with
      | none => split <;> rfl
      | some p =>
        simp only [Damping.tolerate_some, Policy.hold_tolerated h]
        rfl

end Damper

end PoolScaling

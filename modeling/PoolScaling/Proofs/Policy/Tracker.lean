import Mathlib.Algebra.Order.Ring.Int
import PoolScaling.Policy.Tracker

/-! Elapsed time.

A span stands for a number of nanoseconds, and comparing spans is comparing these numbers
(`Span.atMost_iff`). The span between two instants stands for the nanoseconds from one to
the other, a leap second included (`Instant.nanos_since`). Every instant is less than a
span away from every other one, so a grace period that is no span is longer than anything
that can elapse. The tracker therefore lets a scale-down through exactly when the grace
period is over, to the nanosecond (`Tracker.step_since`). -/
namespace PoolScaling

/-! ### Spans -/

namespace Span

variable {s t : Span}

theorem nanos_longest : longest.nanos = (2 ^ 63 - 1) * 1000000 := rfl

theorem nanos_shortest : shortest.nanos = -longest.nanos := rfl

/-- The nanoseconds past a second decide only where the seconds agree. -/
theorem atMost_iff (hs : s.subsecond < 1000000000) (ht : t.subsecond < 1000000000) :
    s.atMost t = true ↔ s.nanos ≤ t.nanos := by
  simp only [atMost, nanos, Bool.or_eq_true, Bool.and_eq_true, decide_eq_true_eq]
  omega

end Span

theorem Duration.subsecond_lt (d : Duration) : d.subsecond < 1000000000 := Nat.mod_lt _ (by decide)

/-- The seconds and the nanoseconds past them are the duration. -/
theorem Span.nanos_duration (d : Duration) : (Span.mk d.seconds d.subsecond).nanos = d.nanos := by
  have hsplit := Nat.div_add_mod' d.nanos 1000000000
  simp only [nanos, Duration.seconds, Duration.subsecond]
  omega

/-- A duration is a span if it is at most the longest one. -/
theorem Span.ofDuration?_eq (d : Duration) :
    ofDuration? d = if (d.nanos : Int) ≤ longest.nanos then some ⟨d.seconds, d.subsecond⟩ else none := by
  have hle := atMost_iff (s := ⟨d.seconds, d.subsecond⟩) (t := longest) d.subsecond_lt (by decide)
  rw [nanos_duration] at hle
  unfold ofDuration?
  split
  · rename_i hseconds
    rw [if_neg]
    have hsplit := nanos_duration d
    simp only [nanos, longest] at hsplit hseconds ⊢
    omega
  · simp only [hle]

namespace Instant

variable {t earlier : Instant}

theorem nanos_eq (t : Instant) : t.nanos = t.seconds * 1000000000 + t.nanos.fmod 1000000000 := by
  have hsplit := Int.mul_fdiv_add_fmod t.nanos 1000000000
  rw [seconds]
  omega

theorem fmod_bounds (t : Instant) :
    0 ≤ t.nanos.fmod 1000000000 ∧ t.nanos.fmod 1000000000 < 1000000000 :=
  ⟨Int.fmod_nonneg_of_pos _ (by decide), Int.fmod_lt_of_pos _ (by decide)⟩

/-- The nanoseconds past a second are less than two seconds, in a leap second too. -/
theorem subsecond_lt (t : Instant) : t.subsecond < 2000000000 := by
  have := t.fmod_bounds
  unfold subsecond
  split <;> omega

theorem subsecond_of_not_leap (h : t.leap = false) : (t.subsecond : Int) = t.nanos.fmod 1000000000 := by
  have := t.fmod_bounds
  rw [subsecond, h, if_neg Bool.false_ne_true, Nat.add_zero, Int.toNat_of_nonneg this.1]

/-- A leap second adds a second at most, either way. -/
theorem leapBetween_bounds (t earlier : Instant) :
    -1 ≤ t.leapBetween earlier ∧ t.leapBetween earlier ≤ 1 := by
  unfold leapBetween
  split
  · decide
  · split <;> decide

/-- Outside leap seconds, instants are as far apart as their numbers. -/
theorem nanosSince_of_not_leap (ht : t.leap = false) (hearlier : earlier.leap = false) :
    t.nanosSince earlier = t.nanos - earlier.nanos := by
  have hleap : t.leapBetween earlier = 0 := by simp [leapBetween, ht, hearlier]
  have := t.nanos_eq
  have := earlier.nanos_eq
  rw [nanosSince, hleap, subsecond_of_not_leap ht, subsecond_of_not_leap hearlier]
  omega

/-- What the nanoseconds past the seconds come to is carried over. -/
theorem nanos_since (t earlier : Instant) : (t.since earlier).nanos = t.nanosSince earlier := by
  have hcarry := Int.mul_fdiv_add_fmod ((t.subsecond : Int) - earlier.subsecond) 1000000000
  have hrest := Int.fmod_nonneg_of_pos ((t.subsecond : Int) - earlier.subsecond)
    (by decide : (0 : Int) < 1000000000)
  simp only [since, nanosSince, Span.nanos, Int.toNat_of_nonneg hrest]
  omega

theorem subsecond_since_lt (t earlier : Instant) : (t.since earlier).subsecond < 1000000000 := by
  have hrest := Int.fmod_lt_of_pos ((t.subsecond : Int) - earlier.subsecond)
    (by decide : (0 : Int) < 1000000000)
  simp only [since]
  omega

/-- Instants are less than a span apart. -/
theorem nanosSince_bounds (ht : t.isInRange) (hearlier : earlier.isInRange) :
    Span.shortest.nanos < t.nanosSince earlier ∧ t.nanosSince earlier < Span.longest.nanos := by
  simp only [isInRange, Bool.and_eq_true, decide_eq_true_eq] at ht hearlier
  simp only [range] at ht hearlier
  have := t.subsecond_lt
  have := earlier.subsecond_lt
  have := t.leapBetween_bounds earlier
  rw [Span.nanos_shortest, Span.nanos_longest, nanosSince]
  omega

end Instant

/-! ### Grace periods -/

namespace Tracker

variable {grace : Duration} {start now : Instant}

/-- A grace period elapses if it is a span, and no longer than the time between. -/
theorem elapsed_eq_true_iff :
    elapsed grace start now = true ↔
      (grace.nanos : Int) ≤ Span.longest.nanos ∧ (grace.nanos : Int) ≤ now.nanosSince start := by
  have hle := Span.atMost_iff (s := ⟨grace.seconds, grace.subsecond⟩) grace.subsecond_lt
    (now.subsecond_since_lt start)
  rw [Span.nanos_duration, Instant.nanos_since] at hle
  rw [elapsed, Span.ofDuration?_eq]
  split
  · rename_i hspan
    rw [Option.any_some, hle, and_iff_right hspan]
  · rename_i hspan
    simp [hspan]

/-- Between times that there are, every grace period that is too long is longer. -/
theorem elapsed_iff (hs : start.isInRange) (hn : now.isInRange) :
    elapsed grace start now = true ↔ (grace.nanos : Int) ≤ now.nanosSince start := by
  obtain ⟨-, hlt⟩ := Instant.nanosSince_bounds hn hs
  rw [elapsed_eq_true_iff]
  exact and_iff_right_of_imp fun h => h.trans hlt.le

/-- **Elapsed time is compared exactly.** A running tracker goes on as it is, and lets a
scale-down through when the nanoseconds since its start are at least those of the grace
period, whatever their signs. The span between the two instants has exactly these
nanoseconds, outside leap seconds the difference of their numbers, and is in range. A grace
period is turned into a span with its nanoseconds, or into none; none has elapsed then, and
the time between is shorter. -/
theorem step_since (hs : start.isInRange) (hn : now.isInRange) (grace : Duration) :
    step (since start) true now grace =
      (since start, decide ((grace.nanos : Int) ≤ now.nanosSince start)) ∧
    (now.since start).nanos = now.nanosSince start ∧
    (now.leap = false → start.leap = false → now.nanosSince start = now.nanos - start.nanos) ∧
    Span.shortest.nanos < (now.since start).nanos ∧ (now.since start).nanos < Span.longest.nanos ∧
    (∀ span, Span.ofDuration? grace = some span → span.nanos = grace.nanos) ∧
    (Span.ofDuration? grace = none ↔ Span.longest.nanos < grace.nanos) := by
  have hbounds := Instant.nanosSince_bounds hn hs
  rw [← Instant.nanos_since] at hbounds
  refine ⟨?_, now.nanos_since start, Instant.nanosSince_of_not_leap, hbounds.1, hbounds.2,
    fun span h => ?_, ?_⟩
  · have helapsed : elapsed grace start now = decide ((grace.nanos : Int) ≤ now.nanosSince start) := by
      rw [Bool.eq_iff_iff, elapsed_iff hs hn, decide_eq_true_iff]
    rw [step, if_pos rfl, helapsed]
  · rw [Span.ofDuration?_eq] at h
    split at h
    · cases h
      exact Span.nanos_duration grace
    · cases h
  · rw [Span.ofDuration?_eq]
    split <;> simp_all

/-- A nanosecond decides about a minute of grace, also across the start of 1970, and about
the second and a half until the middle of a leap second. The longest duration of all is no
span, and does not elapse from the first instant to the last one. -/
theorem step_since_to_the_nanosecond :
    step (since (.ofSeconds (-60) 1)) true (.ofSeconds 0 1) (.ofSeconds 60) =
      (since (.ofSeconds (-60) 1), true) ∧
    step (since (.ofSeconds (-60) 2)) true (.ofSeconds 0 1) (.ofSeconds 60) =
      (since (.ofSeconds (-60) 2), false) ∧
    step (since (.ofSeconds 1483228799 0)) true ⟨1483228799500000000, true⟩ (.ofMillis 1500) =
      (since (.ofSeconds 1483228799 0), true) ∧
    step (since (.ofSeconds 1483228799 1)) true ⟨1483228799500000000, true⟩ (.ofMillis 1500) =
      (since (.ofSeconds 1483228799 1), false) ∧
    Span.ofDuration? ⟨18446744073709551615999999999⟩ = none ∧
    step (since (.ofSeconds (-8334601228800) 0)) true (.ofSeconds 8210266876799 999999999)
      ⟨18446744073709551615999999999⟩ = (since (.ofSeconds (-8334601228800) 0), false) := by
  have hfirst : (Instant.ofSeconds (-8334601228800) 0).isInRange := by decide
  have hlast : (Instant.ofSeconds 8210266876799 999999999).isInRange := by decide
  obtain ⟨hstep, -, -, -, -, -, hnone⟩ := step_since hfirst hlast ⟨18446744073709551615999999999⟩
  exact ⟨(step_since (by decide) (by decide) _).1, (step_since (by decide) (by decide) _).1,
    (step_since (by decide) (by decide) _).1, (step_since (by decide) (by decide) _).1,
    hnone.mpr (by decide), hstep⟩

end Tracker

end PoolScaling

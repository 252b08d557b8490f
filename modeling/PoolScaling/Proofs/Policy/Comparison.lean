import PoolScaling.Proofs.Policy.History

/-! Dampers side by side.

Where the tracker of a damper stands, and what the damper answers, follows from the
tracker before and from the readings since (`run_running`). So runs can be compared
through their trackers. The tracker moves by the signals, which know nothing of the
grace period: dampers with different periods have the same tracker at all times, and the
longer period only holds back more (`run_of_longer_grace`). The answers know of times only
how far apart they are. Moving all times moves the tracker along, and changes no answer
unless a leap second brings them closer or drives them apart (`run_moved`). -/
namespace PoolScaling

namespace Damping

variable {d : Damping} {t : Tracker}

/-- The tracker after readings that find it at `t`. -/
def track (d : Damping) (t : Tracker) (readings : List Reading) : Tracker :=
  readings.foldl (fun t r => t.next (r.signal d) r.now) t

/-- The answers to readings that find the tracker at `t`. -/
def answersFrom (d : Damping) (t : Tracker) : List Reading → List (Option Float)
  | [] => []
  | r :: rest => r.answer d (d.passes t r.now) :: d.answersFrom (t.next (r.signal d) r.now) rest

end Damping

namespace Damper

variable {d : Damping}

/-- **Run.** A running damper answers all readings by its tracker. -/
theorem run_running (h : d.validate = .ok ()) (t : Tracker) (readings : List Reading) :
    run readings (running d t) = .ok (d.answersFrom t readings) (running d (d.track t readings)) := by
  induction readings generalizing t with
  | nil => rfl
  | cons r rest ih =>
    rw [run, bind_ok (apply_running h t r), bind_ok (ih _)]
    rfl

end Damper

/-! ### Longer grace periods -/

/-- What a longer grace period lets through, a shorter one does too. -/
theorem Tracker.passes_of_longer {grace longer : Duration} (h : grace.nanos ≤ longer.nanos) {t : Tracker}
    {now : Instant} (hpasses : t.passes longer now = true) : t.passes grace now = true := by
  cases t with
  | idle => cases hpasses
  | since start =>
    have hpasses : elapsed longer start now = true := hpasses
    show elapsed grace start now = true
    rw [elapsed_eq_true_iff] at hpasses ⊢
    omega

theorem Damping.passes_of_longer {tolerance : Float} {grace longer : Duration} (h : grace.nanos ≤ longer.nanos)
    {t : Tracker} {now : Instant} (hpasses : passes ⟨tolerance, longer⟩ t now = true) :
    passes ⟨tolerance, grace⟩ t now = true := by
  unfold passes at hpasses ⊢
  rw [Bool.or_eq_true, decide_eq_true_eq] at hpasses ⊢
  refine hpasses.imp (fun hzero => ?_) (Tracker.passes_of_longer h)
  have hzero : longer = .zero := hzero
  subst hzero
  exact congrArg Duration.mk (Nat.le_zero.mp h)

/-- Whether an excess passes makes a difference for a scale-down at most. -/
theorem Reading.answer_passing (d : Damping) (r : Reading) :
    r.answer d true = r.answer d false ∨ ∃ p c, r.pool = some p ∧ r.candidate = some c ∧
      Policy.isScaleDown p c = true ∧ r.answer d true = some c ∧ r.answer d false = some p.target := by
  obtain ⟨pool, candidate, now⟩ := r
  cases candidate with
  | none => exact .inl rfl
  | some c =>
    cases pool with
    | none => exact .inl rfl
    | some p =>
      simp only [answer]
      cases d.tolerates p c with
      | true => exact .inl rfl
      | false =>
        cases hdown : Policy.isScaleDown p c with
        | false => exact .inl rfl
        | true => exact .inr ⟨p, c, rfl, rfl, hdown, rfl, rfl⟩

/-- With the tracker at the same place, a longer grace period changes the answer to a
scale-down at most. -/
theorem Reading.answer_of_longer (tolerance : Float) {grace longer : Duration}
    (h : grace.nanos ≤ longer.nanos) (t : Tracker) (r : Reading) :
    r.answer ⟨tolerance, grace⟩ (Damping.passes ⟨tolerance, grace⟩ t r.now) =
        r.answer ⟨tolerance, longer⟩ (Damping.passes ⟨tolerance, longer⟩ t r.now) ∨
      ∃ p c, r.pool = some p ∧ r.candidate = some c ∧ Policy.isScaleDown p c = true ∧
        r.answer ⟨tolerance, grace⟩ (Damping.passes ⟨tolerance, grace⟩ t r.now) = some c ∧
        r.answer ⟨tolerance, longer⟩ (Damping.passes ⟨tolerance, longer⟩ t r.now) = some p.target := by
  cases hlong : Damping.passes ⟨tolerance, longer⟩ t r.now with
  | true =>
    rw [Damping.passes_of_longer h hlong]
    exact .inl rfl
  | false =>
    cases Damping.passes ⟨tolerance, grace⟩ t r.now with
    | false => exact .inl rfl
    | true => exact answer_passing _ r

theorem Duration.ne_zero_of_pos {d : Duration} (h : 0 < d.nanos) : d ≠ .zero := by
  intro hzero
  rw [hzero] at h
  exact Nat.lt_irrefl _ h

namespace Damper

/-- **A longer grace period only holds back more.** Two dampers are configured with the
same tolerance, and grace periods of which one is not shorter. After the same readings
their trackers are the same, and so are their answers to one more reading, unless that
is a scale-down that the shorter period lets through and the longer one answers with the
desired size. -/
theorem run_of_longer_grace {tolerance : Float} {grace longer : Duration} (hgrace : 0 < grace.nanos)
    (hlonger : grace.nanos ≤ longer.nanos) {before fresh : Damper}
    (hfresh : configure ⟨tolerance, grace⟩ before = .ok () fresh) (before' : Damper) :
    ∃ fresh', configure ⟨tolerance, longer⟩ before' = .ok () fresh' ∧
      ∀ (past : List Reading) (r : Reading), ∃ answers answers' damper damper' t,
        run past fresh = .ok answers damper ∧ run past fresh' = .ok answers' damper' ∧
        damper.graces = [(grace, t)] ∧ damper'.graces = [(longer, t)] ∧
        ∃ a a' next next' t',
          apply r.pool r.candidate r.now damper = .ok a next ∧
          apply r.pool r.candidate r.now damper' = .ok a' next' ∧
          next.graces = [(grace, t')] ∧ next'.graces = [(longer, t')] ∧
          (a = a' ∨ ∃ p c, r.pool = some p ∧ r.candidate = some c ∧ Policy.isScaleDown p c = true ∧
            a = some c ∧ a' = some p.target) := by
  obtain ⟨hd, rfl⟩ := running_of_configure hfresh
  have hd' : (Damping.mk tolerance longer).validate = .ok () := hd
  have hgraces := graces_running_of_grace (d := ⟨tolerance, grace⟩) (Duration.ne_zero_of_pos hgrace)
  have hgraces' := graces_running_of_grace (d := ⟨tolerance, longer⟩)
    (Duration.ne_zero_of_pos (hgrace.trans_le hlonger))
  refine ⟨_, configure_of_validate hd' before', fun past r => ?_⟩
  refine ⟨_, _, _, _, _, run_running hd _ past, run_running hd' _ past, hgraces _, hgraces' _, ?_⟩
  refine ⟨_, _, _, _, _, apply_running hd _ r, apply_running hd' _ r, hgraces _, hgraces' _, ?_⟩
  exact Reading.answer_of_longer tolerance hlonger _ r

/-- A candidate of four for a pool of ten. -/
def fourOfTen (seconds : Int) (nanos : Nat) : Reading := ⟨some ⟨10, 10⟩, some 4.0, .ofSeconds seconds nanos⟩

/-- After a minute of scale-downs the next one passes under a minute of grace, and is held
back under a minute and a half. -/
theorem run_of_longer_grace_after_a_minute :
    ∃ fresh fresh' answers answers' damper damper' next next' t,
      configure ⟨0.5, .ofSeconds 60⟩ new = .ok () fresh ∧ configure ⟨0.5, .ofSeconds 90⟩ new = .ok () fresh' ∧
      run [fourOfTen 0 0] fresh = .ok answers damper ∧ run [fourOfTen 0 0] fresh' = .ok answers' damper' ∧
      apply (some ⟨10, 10⟩) (some 4.0) (.ofSeconds 60 0) damper = .ok (some 4.0) next ∧
      apply (some ⟨10, 10⟩) (some 4.0) (.ofSeconds 60 0) damper' = .ok (some 10.0) next' ∧
      next.graces = [(.ofSeconds 60, t)] ∧ next'.graces = [(.ofSeconds 90, t)] := by
  have hfresh : configure ⟨0.5, .ofSeconds 60⟩ new = .ok () _ := Change.eq_ok_of_answer? (by decide +kernel)
  obtain ⟨fresh', hfresh', hsteps⟩ :=
    run_of_longer_grace (by decide) (show _ ≤ (Duration.ofSeconds 90).nanos by decide) hfresh new
  obtain ⟨answers, answers', damper, damper', t, hrun, hrun', -, -, a, a', next, next', t', hcall, hcall',
    hgraces, hgraces', -⟩ := hsteps [fourOfTen 0 0] (fourOfTen 60 0)
  have hpasses : apply (some ⟨10, 10⟩) (some 4.0) (.ofSeconds 60 0)
      (Change.stateOf (run [fourOfTen 0 0] (Change.stateOf (configure ⟨0.5, .ofSeconds 60⟩ new)))) =
        .ok (some 4.0) _ := Change.eq_ok_of_answer? (by decide +kernel)
  have hheld : apply (some ⟨10, 10⟩) (some 4.0) (.ofSeconds 60 0)
      (Change.stateOf (run [fourOfTen 0 0] (Change.stateOf (configure ⟨0.5, .ofSeconds 90⟩ new)))) =
        .ok (some 10.0) _ := Change.eq_ok_of_answer? (by decide +kernel)
  rw [hrun] at hpasses
  rw [hfresh', Change.stateOf, hrun'] at hheld
  cases hcall.symm.trans hpasses
  cases hcall'.symm.trans hheld
  exact ⟨_, _, _, _, _, _, _, _, _, hfresh, hfresh', hrun, hrun', hcall, hcall', hgraces, hgraces'⟩

end Damper

/-! ### Other times -/

theorem Instant.shift?_eq_some {t t' : Instant} {offset : Int} (h : t.shift? offset = some t') :
    t' = t.moved offset := by
  unfold shift? at h
  dsimp only at h
  split at h
  · exact (Option.some.inj h).symm
  · cases h

theorem Instant.moved_of_not_leap {t : Instant} (h : t.leap = false) (offset : Int) :
    t.moved offset = ⟨t.nanos + offset, false⟩ := by
  rw [moved, h]
  rfl

/-- The reading at a time that is moved, if there is that time. -/
def Reading.shift? (offset : Int) (r : Reading) : Option Reading :=
  (r.now.shift? offset).map fun now => { r with now }

/-- Whether readings are as far apart as before when all their times are moved. -/
def KeepsDistances (offset : Int) (readings : List Reading) : Prop :=
  ∀ r ∈ readings, ∀ s ∈ readings,
    (r.now.moved offset).nanosSince (s.now.moved offset) = r.now.nanosSince s.now

/-- Outside leap seconds they are. -/
theorem keepsDistances_of_not_leap {offset : Int} {readings : List Reading}
    (h : ∀ r ∈ readings, r.now.leap = false) : KeepsDistances offset readings := by
  intro r hr s hs
  rw [Instant.moved_of_not_leap (h r hr), Instant.moved_of_not_leap (h s hs),
    Instant.nanosSince_of_not_leap rfl rfl, Instant.nanosSince_of_not_leap (h r hr) (h s hs)]
  exact add_sub_add_right_eq_sub _ _ offset

namespace Tracker

/-- The tracker with its start moved. -/
def moved (offset : Int) : Tracker → Tracker
  | idle => idle
  | since start => since (start.moved offset)

/-- Whether a tracker that is running has started with one of the readings. -/
def StartsAmong (readings : List Reading) : Tracker → Prop
  | idle => True
  | since start => ∃ r ∈ readings, r.now = start

variable {t : Tracker} {now : Instant} {offset : Int} {readings : List Reading} {r : Reading}

theorem next_moved (s : Signal) : (t.moved offset).next s (now.moved offset) = (t.next s now).moved offset := by
  cases s <;> cases t <;> rfl

theorem StartsAmong.next (h : t.StartsAmong readings) (hr : r ∈ readings) (s : Signal) :
    (t.next s r.now).StartsAmong readings := by
  cases s with
  | down =>
    cases t with
    | idle => exact ⟨r, hr, rfl⟩
    | since start => exact h
  | neutral => exact h
  | reset => exact trivial

theorem passes_moved (hkeeps : KeepsDistances offset readings) (h : t.StartsAmong readings)
    (hr : r ∈ readings) (grace : Duration) :
    (t.moved offset).passes grace (r.now.moved offset) = t.passes grace r.now := by
  cases t with
  | idle => rfl
  | since start =>
    obtain ⟨s, hs, rfl⟩ := h
    simp only [moved, passes]
    rw [Bool.eq_iff_iff, elapsed_eq_true_iff, elapsed_eq_true_iff, hkeeps r hr s hs]

end Tracker

namespace Damping

variable {d : Damping} {offset : Int} {readings later : List Reading}

theorem eq_map_moved (h : readings.mapM (Reading.shift? offset) = some later) :
    later = readings.map fun r => { r with now := r.now.moved offset } := by
  induction readings generalizing later with
  | nil =>
    cases h
    rfl
  | cons r rest ih =>
    rw [List.mapM_cons] at h
    obtain ⟨r', hr, h⟩ := Option.bind_eq_some_iff.mp h
    obtain ⟨rest', hrest, h⟩ := Option.bind_eq_some_iff.mp h
    cases h
    obtain ⟨now', hnow, rfl⟩ := Option.map_eq_some_iff.mp hr
    rw [List.map_cons, ih hrest, Instant.shift?_eq_some hnow]

/-- The tracker goes by the signals, and no signal by the time. -/
theorem track_moved (h : readings.mapM (Reading.shift? offset) = some later) (t : Tracker) :
    d.track (t.moved offset) later = (d.track t readings).moved offset := by
  rw [eq_map_moved h]
  clear h
  induction readings generalizing t with
  | nil => rfl
  | cons r rest ih =>
    have hrest := ih (t.next (r.signal d) r.now)
    rw [← Tracker.next_moved] at hrest
    exact hrest

/-- The answers go by the time since the tracker has started, and that was with a reading. -/
theorem answersFrom_moved (hkeeps : KeepsDistances offset readings)
    (h : readings.mapM (Reading.shift? offset) = some later) :
    d.answersFrom .idle later = d.answersFrom .idle readings := by
  rw [eq_map_moved h]
  clear h
  suffices h : ∀ (t : Tracker) (rest : List Reading), t.StartsAmong readings → rest ⊆ readings →
      d.answersFrom (t.moved offset) (rest.map fun r => { r with now := r.now.moved offset }) =
        d.answersFrom t rest from
    h .idle readings trivial (List.Subset.refl _)
  intro t rest ht hrest
  induction rest generalizing t with
  | nil => rfl
  | cons r rest ih =>
    obtain ⟨hr, hrest⟩ := List.cons_subset.mp hrest
    have hpasses : d.passes (t.moved offset) (r.now.moved offset) = d.passes t r.now := by
      rw [passes, passes, Tracker.passes_moved hkeeps ht hr]
    have hanswers := ih (t.next (r.signal d) r.now) (ht.next hr _) hrest
    rw [← Tracker.next_moved] at hanswers
    show r.answer d (d.passes (t.moved offset) (r.now.moved offset)) ::
      d.answersFrom ((t.moved offset).next (r.signal d) (r.now.moved offset)) _ = _
    rw [hpasses, hanswers]
    rfl

end Damping

namespace Damper

/-- **Only differences of times matter.** Whatever is configured, and whatever was before:
when readings all come earlier or later by the same span, a tracker that is running has
started earlier or later by that span. They are answered the same as long as any two of them
are as far apart as before, and so outside leap seconds always. Every beginning of a sequence
of readings is one too, so this holds after each of them. -/
theorem run_moved {d : Damping} {before fresh : Damper} (hfresh : configure d before = .ok () fresh)
    {offset : Int} {readings later : List Reading}
    (hlater : readings.mapM (Reading.shift? offset) = some later) :
    ∃ answers answers' last last',
      run readings fresh = .ok answers last ∧ run later fresh = .ok answers' last' ∧
      (last'.graces = last.graces.map fun (period, t) => (period, t.moved offset)) ∧
      (KeepsDistances offset readings → answers' = answers) ∧
      ((∀ r ∈ readings, r.now.leap = false) → answers' = answers) := by
  obtain ⟨hd, rfl⟩ := running_of_configure hfresh
  have htrack : d.track .idle later = (d.track .idle readings).moved offset :=
    Damping.track_moved hlater .idle
  have hanswers : KeepsDistances offset readings → d.answersFrom .idle later = d.answersFrom .idle readings :=
    fun hkeeps => Damping.answersFrom_moved hkeeps hlater
  refine ⟨_, _, _, _, run_running hd .idle readings, run_running hd .idle later, ?_, hanswers,
    fun hleap => hanswers (keepsDistances_of_not_leap hleap)⟩
  rw [htrack, graces_running, graces_running]
  split <;> rfl

/-- Scale-downs on the last evening of 1969, by a clock that goes back in between. -/
def evening : List Reading := [fourOfTen (-70) 1, fourOfTen (-90) 0, fourOfTen (-10) 1]

/-- Two days and a nanosecond later they are held back and let through alike. -/
theorem run_moved_two_days :
    ∃ fresh later last last', configure ⟨0.5, .ofSeconds 60⟩ new = .ok () fresh ∧
      evening.mapM (Reading.shift? 172800000000001) = some later ∧
      run evening fresh = .ok [some 10.0, some 10.0, some 4.0] last ∧
      run later fresh = .ok [some 10.0, some 10.0, some 4.0] last' ∧
      last'.graces = last.graces.map fun (period, t) => (period, t.moved 172800000000001) := by
  have hfresh : configure ⟨0.5, .ofSeconds 60⟩ new = .ok () _ := Change.eq_ok_of_answer? (by decide +kernel)
  have hlater : evening.mapM (Reading.shift? 172800000000001) =
      some [fourOfTen 172730 2, fourOfTen 172710 1, fourOfTen 172790 2] := rfl
  obtain ⟨answers, answers', last, last', hrun, hrun', hgraces, -, hsame⟩ := run_moved hfresh hlater
  cases hsame (by decide)
  have hanswers : run evening (Change.stateOf (configure ⟨0.5, .ofSeconds 60⟩ new)) =
      .ok [some 10.0, some 10.0, some 4.0] _ := Change.eq_ok_of_answer? (by decide +kernel)
  cases hrun.symm.trans hanswers
  exact ⟨_, _, _, _, hfresh, hlater, hrun, hrun', hgraces⟩

/-- Scale-downs in the middle of the leap second at the end of 2016 and ten seconds into the
new year. -/
def newYear : List Reading :=
  [⟨some ⟨10, 10⟩, some 4.0, ⟨1483228799500000000, true⟩⟩, fourOfTen 1483228810 0]

/-- They are nine and a half seconds apart. An hour later they are ten and a half, so that ten
seconds of grace are over. -/
theorem run_moved_out_of_leap_second :
    ∃ fresh later last last', configure ⟨0.0, .ofSeconds 10⟩ new = .ok () fresh ∧
      newYear.mapM (Reading.shift? 3600000000000) = some later ∧
      later = [fourOfTen 1483232399 500000000, fourOfTen 1483232410 0] ∧
      run newYear fresh = .ok [some 10.0, some 10.0] last ∧
      run later fresh = .ok [some 10.0, some 4.0] last' := by
  have hfresh : configure ⟨0.0, .ofSeconds 10⟩ new = .ok () _ := Change.eq_ok_of_answer? (by decide +kernel)
  have hheld : run newYear (Change.stateOf (configure ⟨0.0, .ofSeconds 10⟩ new)) =
      .ok [some 10.0, some 10.0] _ := Change.eq_ok_of_answer? (by decide +kernel)
  have hpasses : run [fourOfTen 1483232399 500000000, fourOfTen 1483232410 0]
      (Change.stateOf (configure ⟨0.0, .ofSeconds 10⟩ new)) = .ok [some 10.0, some 4.0] _ :=
    Change.eq_ok_of_answer? (by decide +kernel)
  exact ⟨_, _, _, _, hfresh, rfl, rfl, hheld, hpasses⟩

end Damper

end PoolScaling

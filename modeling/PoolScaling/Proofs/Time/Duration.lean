import PoolScaling.Config
import PoolScaling.Proofs.Text.Digits

/-! Durations in text, read back.

A duration is written as a number and the unit that it counts. The number and the unit
read back as whole milliseconds, provided that these fit in 64 bits (`ofText?_toText`);
the writer has no such bound. So a text that is written is refused or stands for the
milliseconds that it was written for, and no other (`parse_toText`). -/
namespace PoolScaling.Duration
open Text

/-- The units with their milliseconds. -/
inductive IsUnit : List Char → Nat → Prop where
  | millis : IsUnit ['m', 's'] 1
  | seconds : IsUnit ['s'] 1000
  | minutes : IsUnit ['m'] 60000
  | hours : IsUnit ['h'] 3600000

/-- A duration is written as a number of some unit. -/
theorem toText_eq (d : Duration) :
    ∃ amount ending scale, IsUnit ending scale ∧ amount * scale = d.millis ∧
      d.toText.toList = Nat.toDigits 10 amount ++ ending := by
  have hdivides : ∀ scale, d.millis % scale = 0 → d.millis / scale * scale = d.millis :=
    fun scale h => Nat.div_mul_cancel (Nat.dvd_of_mod_eq_zero h)
  unfold toText
  dsimp only
  split
  · rename_i hzero
    exact ⟨0, _, _, .seconds, by rw [hzero, Nat.zero_mul], rfl⟩
  split
  · exact ⟨_, _, _, .hours, hdivides _ ‹_›, by simp⟩
  split
  · exact ⟨_, _, _, .minutes, hdivides _ ‹_›, by simp⟩
  split
  · exact ⟨_, _, _, .seconds, hdivides _ ‹_›, by simp⟩
  · exact ⟨_, _, _, .millis, Nat.mul_one _, by simp⟩

/-- No other unit is split off: what stands before the unit is a digit. -/
theorem splitUnit_append {number ending : List Char} {scale : Nat} (hunit : IsUnit ending scale)
    (hdigits : ∀ c ∈ number, c.isDigit = true) : splitUnit (number ++ ending) = (number, scale) := by
  have hdrop : dropEnding? ending (number ++ ending) = some number := dropEnding?_eq_some_iff.mpr rfl
  have hother : ∀ {other}, other ≠ [] → (number ++ ending).getLast? ≠ other.getLast? →
      dropEnding? other (number ++ ending) = none := dropEnding?_of_getLast?_ne
  unfold splitUnit
  cases hunit with
  | millis => rw [hdrop]
  | seconds =>
    have hmillis : dropEnding? ['m', 's'] (number ++ ['s']) = none := by
      refine Option.eq_none_iff_forall_ne_some.mpr fun kept h => ?_
      have heq : (kept ++ ['m']) ++ ['s'] = number ++ ['s'] := by
        simpa using dropEnding?_eq_some_iff.mp h
      have hm : 'm' ∈ number := by
        rw [← List.append_cancel_right heq]
        simp
      exact absurd (hdigits 'm' hm) (by decide)
    rw [hmillis, hdrop]
  | minutes => rw [hother (by simp) (by simp), hother (by simp) (by simp), hdrop]
  | hours => rw [hother (by simp) (by simp), hother (by simp) (by simp), hother (by simp) (by simp), hdrop]

/-- The number and the unit of a written duration are told apart. -/
theorem splitUnit_toText (d : Duration) :
    ∃ amount scale, splitUnit d.toText.toList = (Nat.toDigits 10 amount, scale) ∧ 0 < scale ∧
      amount * scale = d.millis := by
  obtain ⟨amount, ending, scale, hunit, hmillis, htext⟩ := toText_eq d
  have hdigits : ∀ c ∈ Nat.toDigits 10 amount, c.isDigit = true := fun c => isDigit_of_mem_toDigits
  have hpositive : 0 < scale := by cases hunit <;> decide
  exact ⟨amount, scale, by rw [htext, splitUnit_append hunit hdigits], hpositive, hmillis⟩

/-- A written duration has no blanks around it. -/
theorem trim_toText (d : Duration) : trimEnd (trimStart d.toText.toList) = d.toText.toList := by
  obtain ⟨amount, ending, scale, hunit, -, htext⟩ := toText_eq d
  have hending : ∀ c ∈ ending, isBlank c = false := by
    have hall : ending.all (!isBlank ·) = true := by cases hunit <;> rfl
    simpa using hall
  rw [htext]
  refine trim_of_not_blank fun c hc => ?_
  rcases List.mem_append.mp hc with hc | hc
  · exact isBlank_of_isDigit (isDigit_of_mem_toDigits hc)
  · exact hending c hc

/-- **A written duration reads back** as its whole milliseconds if they fit in 64 bits,
and not at all otherwise. -/
theorem ofText?_toText (d : Duration) :
    ofText? d.toText = if d.millis < 2 ^ 64 then some (ofMillis d.millis) else none := by
  obtain ⟨amount, scale, hsplit, hpositive, hmillis⟩ := splitUnit_toText d
  have hnumber : ∀ c ∈ Nat.toDigits 10 amount, isBlank c = false := fun c hc =>
    isBlank_of_isDigit (isDigit_of_mem_toDigits hc)
  unfold ofText?
  rw [trim_toText, hsplit]
  dsimp only
  rw [trim_of_not_blank hnumber, natBelow?_toDigits]
  by_cases hfits : d.millis < 2 ^ 64
  · have hamount : amount < Nat.pow 2 64 :=
      lt_of_le_of_lt (Nat.le_mul_of_pos_right amount hpositive) (hmillis ▸ hfits)
    rw [if_pos hamount, Option.bind_some, hmillis]
    rfl
  · rw [if_neg hfits]
    split
    · rw [Option.bind_some, hmillis]
      exact if_neg hfits
    · rfl

/-! ### Whole milliseconds -/

/-- A duration without a fraction of a millisecond. -/
def IsWhole (d : Duration) : Prop := ofMillis d.millis = d

theorem isWhole_ofMillis (ms : Nat) : (ofMillis ms).IsWhole := by
  simp [IsWhole, ofMillis, millis]

theorem isWhole_ofSeconds (s : Nat) : (ofSeconds s).IsWhole := by
  have heq : ofSeconds s = ofMillis (s * 1000) := by
    rw [ofSeconds, ofMillis, Nat.mul_assoc]
  rw [heq]
  exact isWhole_ofMillis _

/-- What is read has whole milliseconds, which fit in 64 bits. -/
theorem exists_of_ofText? {s : String} {d : Duration} (h : ofText? s = some d) :
    ∃ ms < 2 ^ 64, d = ofMillis ms := by
  unfold ofText? at h
  dsimp only at h
  rw [Option.bind_eq_some_iff] at h
  obtain ⟨amount, -, hd⟩ := h
  split at hd
  · cases hd
    exact ⟨_, ‹_›, rfl⟩
  · cases hd

theorem isWhole_of_ofText? {s : String} {d : Duration} (h : ofText? s = some d) : d.IsWhole := by
  obtain ⟨ms, -, rfl⟩ := exists_of_ofText? h
  exact isWhole_ofMillis ms

@[simp] theorem millis_ofMillis (ms : Nat) : (ofMillis ms).millis = ms := by
  simp [ofMillis, millis]

/-! ### Texts of a configuration -/

/-- The same text is the same number of milliseconds. -/
theorem millis_eq_of_toText {d e : Duration} (h : d.toText = e.toText) : d.millis = e.millis := by
  obtain ⟨amount, scale, hd, -, hmillis⟩ := splitUnit_toText d
  obtain ⟨amount', scale', he, -, hmillis'⟩ := splitUnit_toText e
  rw [h, he] at hd
  obtain ⟨hdigits, rfl⟩ := Prod.mk.inj hd
  have hamount := congrArg ofDigits hdigits
  rw [ofDigits_toDigits, ofDigits_toDigits] at hamount
  rw [← hmillis, ← hmillis', hamount]

theorem parse_of_fits {d : Duration} (h : d.millis < 2 ^ 64) : parse d.toText = .ok (ofMillis d.millis) := by
  rw [parse, ofText?_toText, if_pos h]

/-- A duration that is too long is refused under the text that it is written as. -/
theorem parse_of_not_fits {d : Duration} (h : 2 ^ 64 ≤ d.millis) :
    parse d.toText = .error (.invalidDuration d.toText) := by
  have htrim : trim d.toText = d.toText := by rw [trim, trim_toText, String.ofList_toList]
  rw [parse, ofText?_toText, if_neg (Nat.not_lt.mpr h), htrim]

theorem parse_ok_iff {s : String} {d : Duration} : parse s = .ok d ↔ ofText? s = some d := by
  unfold parse
  cases ofText? s <;> simp

/-- **Durations read back to the millisecond.** A duration whose whole milliseconds fit in
64 bits is written as a text that reads back as these; otherwise the text is refused.
Durations that are written alike have the same whole milliseconds, and what has been read
from a text is written as one that reads back as the same duration. -/
theorem parse_toText (d : Duration) :
    (d.millis < 2 ^ 64 → parse d.toText = .ok (ofMillis d.millis)) ∧
    (2 ^ 64 ≤ d.millis → parse d.toText = .error (.invalidDuration d.toText)) ∧
    (∀ e : Duration, d.toText = e.toText → d.millis = e.millis) ∧
    ∀ s, parse s = .ok d → parse d.toText = .ok d := by
  refine ⟨parse_of_fits, parse_of_not_fits, fun e => millis_eq_of_toText, fun s h => ?_⟩
  obtain ⟨ms, hfits, rfl⟩ := exists_of_ofText? (parse_ok_iff.mp h)
  rw [parse_of_fits (by rwa [millis_ofMillis]), millis_ofMillis]

/-- A nanosecond is lost on the way. A number of seconds of which the milliseconds do not
fit is written and refused. Blanks and a bare number are read, and written as hours. -/
theorem parse_toText_past_the_millisecond :
    parse (Duration.mk 1500000001).toText = .ok (ofMillis 1500) ∧
    parse (ofSeconds 18446744073709552).toText = .error (.invalidDuration "18446744073709552s") ∧
    parse " 7200 " = .ok (ofSeconds 7200) ∧ (ofSeconds 7200).toText = "2h" ∧
    parse (ofSeconds 7200).toText = .ok (ofSeconds 7200) := by
  have hbare : parse " 7200 " = .ok (ofSeconds 7200) := parse_ok_iff.mpr (by decide +kernel)
  have hlong : (ofSeconds 18446744073709552).toText = "18446744073709552s" := by decide +kernel
  refine ⟨(parse_toText _).1 (by decide), ?_, hbare, by decide +kernel, (parse_toText _).2.2.2 _ hbare⟩
  rw [← hlong]
  exact (parse_toText _).2.1 (by decide)

end PoolScaling.Duration

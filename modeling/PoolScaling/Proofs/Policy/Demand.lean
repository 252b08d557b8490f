import PoolScaling.Proofs.Policy.Running

/-! More demand never yields a smaller pool.

The answers of a damper are not ordered as its candidates are: while an excess is
held back, 8 becomes a desired size of 10 and 9.2 stays what it is. The sizes that
they are rounded to are ordered (`size_mono`). A candidate that is kept at the
desired size lies below it or close to it, and what lies between is rounded to
the desired size too or is close to it as well. -/
namespace PoolScaling
open Number

/-! ### Sizes -/

namespace Decision

/-- The size of the pool under a decision; none when no size is known and none asked for. -/
def size? (pool : Option PoolSize) : Decision → Option UInt32
  | noChange => pool.map PoolSize.desired
  | scaleTo n => some n

theorem size?_ofDemand (d : Float) (pool : Option PoolSize) :
    (ofDemand (some d) pool).size? pool = some (roundUp d) := by
  unfold ofDemand
  dsimp only
  split
  · rename_i h
    obtain ⟨p, rfl, hp⟩ := (Option.any_eq_true _ _).mp h
    exact congrArg some (eq_of_beq hp)
  · rfl

theorem roundUp_mono {c c' : Float} {q q' : ℚ} (hc : place c = some (q : Line))
    (hc' : place c' = some (q' : Line)) (h : q ≤ q') : roundUp c ≤ roundUp c' := by
  have hceil : ⌈q⌉.toNat ≤ ⌈q'⌉.toNat := Int.toNat_le_toNat (Int.ceil_le_ceil h)
  show (roundUp c).toNat ≤ (roundUp c').toNat
  rw [toNat_roundUp hc, toNat_roundUp hc']
  exact min_le_min_left _ hceil

/-- A demand that is rounded to more than the desired size lies above it. -/
theorem lt_of_lt_roundUp {p : PoolSize} {c : Float} {q : ℚ} (hc : place c = some (q : Line))
    (h : p.desired < roundUp c) : (p.desired.toNat : ℚ) < q := by
  have h : p.desired.toNat < (roundUp c).toNat := h
  rw [toNat_roundUp hc] at h
  have hceil : (p.desired.toNat : Int) < ⌈q⌉ := by omega
  exact_mod_cast Int.lt_ceil.mp hceil

end Decision

/-! ### Candidates -/

theorem Policy.isScaleDown_iff {p : PoolSize} {c : Float} {q : ℚ} (hc : place c = some (q : Line)) :
    isScaleDown p c = true ↔ ⌈q⌉ < p.desired.toNat := by
  rw [isScaleDown, decide_eq_true_iff, lt_iff (place_ceil hc) (place_target p), WithBotTop.coe_lt_coe]
  exact_mod_cast Iff.rfl

namespace Damping

variable {d : Damping} {p : PoolSize} {c c' : Float} {q q' : ℚ} {passes : Bool}

/-- What is nearer to the desired size is within the tolerance too. -/
theorem tolerates_of_nearer (hd : d.validate = .ok ()) (hc : place c = some (q : Line))
    (hc' : place c' = some (q' : Line)) (h : |(p.desired.toNat : ℚ) - q'| ≤ |(p.desired.toNat : ℚ) - q|)
    (hin : d.tolerates p c = true) : d.tolerates p c' = true := by
  obtain ⟨t, ht, -⟩ := place_tolerance hd
  rw [tolerates, Bool.and_eq_true, decide_eq_true_iff, decide_eq_true_iff] at hin ⊢
  exact ⟨hin.1, abs_sub_le (place_target p) hc' hc ht h hin.2⟩

/-- Above a candidate that is kept, all others are kept or not less than the desired size. -/
theorem desired_le_roundUp (hd : d.validate = .ok ()) (hc : place c = some (q : Line))
    (hc' : place c' = some (q' : Line)) (h : q ≤ q') (hkept : d.keeps passes p c = true)
    (hfree : d.keeps passes p c' = false) : p.desired ≤ Decision.roundUp c' := by
  rw [keeps, Bool.or_eq_false_iff] at hfree
  obtain ⟨hfar', hnot⟩ := hfree
  refine UInt32.not_lt.mp fun hlt => ?_
  -- A smaller size is a scale-down that passes, so it is the tolerance that keeps `c`.
  have hdown' : Policy.isScaleDown p c' = true := decide_eq_true (Decision.ceil_lt_of_roundUp_lt hc' hlt)
  rw [hdown', Bool.true_and, Bool.not_eq_false'] at hnot
  rw [keeps, hnot, Bool.not_true, Bool.and_false, Bool.or_false] at hkept
  have hceil' : (⌈q'⌉ : ℚ) < p.desired.toNat := by exact_mod_cast (Policy.isScaleDown_iff hc').mp hdown'
  have hbelow : q' < p.desired.toNat := (Int.le_ceil q').trans_lt hceil'
  have hnear : |(p.desired.toNat : ℚ) - q'| ≤ |(p.desired.toNat : ℚ) - q| := by
    rw [abs_of_pos (by linarith), abs_of_pos (by linarith)]
    linarith
  have hin' := tolerates_of_nearer hd hc hc' hnear hkept
  rw [hfar'] at hin'
  cases hin'

/-- Below a candidate that is kept, all others are kept or not more than the desired size. -/
theorem roundUp_le_desired (hd : d.validate = .ok ()) (hc : place c = some (q : Line))
    (hc' : place c' = some (q' : Line)) (h : q ≤ q') (hfree : d.keeps passes p c = false)
    (hkept : d.keeps passes p c' = true) : Decision.roundUp c ≤ p.desired := by
  rw [keeps, Bool.or_eq_false_iff] at hfree
  refine UInt32.not_lt.mp fun hlt => ?_
  -- A greater size is no scale-down, and neither is `c'`, so it is the tolerance that keeps it.
  have habove : (p.desired.toNat : ℚ) < q := Decision.lt_of_lt_roundUp hc hlt
  have hup' : Policy.isScaleDown p c' = false := by
    rw [← Bool.not_eq_true, Policy.isScaleDown_iff hc', not_lt]
    have : (p.desired.toNat : ℚ) ≤ ⌈q'⌉ := (habove.trans_le (h.trans (Int.le_ceil q'))).le
    exact_mod_cast this
  rw [keeps, hup', Bool.false_and, Bool.or_false] at hkept
  have hnear : |(p.desired.toNat : ℚ) - q| ≤ |(p.desired.toNat : ℚ) - q'| := by
    rw [abs_of_neg (by linarith), abs_of_neg (by linarith)]
    linarith
  have hin := tolerates_of_nearer hd hc' hc hnear hkept
  rw [hfree.1] at hin
  cases hin

/-- More demand is damped to a size that is not smaller. -/
theorem roundUp_damped_mono (hd : d.validate = .ok ()) (hc : place c = some (q : Line))
    (hc' : place c' = some (q' : Line)) (h : q ≤ q') :
    Decision.roundUp (d.damped passes p c) ≤ Decision.roundUp (d.damped passes p c') := by
  unfold damped
  cases hkept : d.keeps passes p c <;> cases hkept' : d.keeps passes p c' <;>
    simp only [if_true, Bool.false_eq_true, if_false, Decision.roundUp_target]
  · exact Decision.roundUp_mono hc hc' h
  · exact roundUp_le_desired hd hc hc' h hkept hkept'
  · exact desired_le_roundUp hd hc hc' h hkept hkept'
  · exact UInt32.le_refl _

end Damping

/-! ### Dampers -/

namespace Damper

/-- A running damper answers finite candidates for a pool of any size or none, and
more demand with a size that is not smaller. -/
theorem sizes_of_running {d : Damping} (hd : d.validate = .ok ()) (t : Tracker) (pool : Option PoolSize)
    (now : Instant) {c c' : Float} {q q' : ℚ} (hc : place c = some (q : Line))
    (hc' : place c' = some (q' : Line)) (h : q ≤ q') :
    ∃ a a' next next' n n', apply pool (some c) now (running d t) = .ok (some a) next ∧
      apply pool (some c') now (running d t) = .ok (some a') next' ∧
      (Decision.ofDemand (some a) pool).size? pool = some n ∧
      (Decision.ofDemand (some a') pool).size? pool = some n' ∧ n ≤ n' := by
  have hcall := apply_running hd t ⟨pool, some c, now⟩
  have hcall' := apply_running hd t ⟨pool, some c', now⟩
  cases pool with
  | none =>
    exact ⟨_, _, _, _, _, _, hcall, hcall', Decision.size?_ofDemand _ _, Decision.size?_ofDemand _ _,
      Decision.roundUp_mono hc hc' h⟩
  | some p =>
    rw [Reading.answer_some] at hcall hcall'
    exact ⟨_, _, _, _, _, _, hcall, hcall', Decision.size?_ofDemand _ _, Decision.size?_ofDemand _ _,
      Damping.roundUp_damped_mono hd hc hc' h⟩

/-- A minute of grace, and a scale-down from ten to eight that starts the tracker. -/
def heldBack : List Call :=
  [.configure ⟨0.0, .ofSeconds 60⟩, .apply ⟨some ⟨10, 10⟩, some 8.0, .ofSeconds 0 0⟩]

/-- **More demand, no smaller pool.** After any history, for a pool of any size or none
and at any time: unless the damper was never configured, both of two finite
candidates are answered, and the greater one is rounded to a size that is not
smaller. No change means the size that the pool has been asked to reach. -/
theorem size_mono (history : List Call) (pool : Option PoolSize) (now : Instant) {c c' : Float}
    (hc : c.isFinite = true) (hc' : c'.isFinite = true) (h : c ≤ c') :
    ((new.after history).active = none ∧
      ∀ candidate, apply pool candidate now (new.after history) =
        .error .notConfigured (new.after history)) ∨
    ∃ a a' next next' n n',
      apply pool (some c) now (new.after history) = .ok (some a) next ∧
      apply pool (some c') now (new.after history) = .ok (some a') next' ∧
      (Decision.ofDemand (some a) pool).size? pool = some n ∧
      (Decision.ofDemand (some a') pool).size? pool = some n' ∧ n ≤ n' := by
  obtain ⟨q, hq⟩ := isFinite_iff.mp hc
  obtain ⟨q', hq'⟩ := isFinite_iff.mp hc'
  have hle : q ≤ q' := WithBotTop.coe_le_coe.mp ((le_iff hq hq').mp h)
  have hused := Used.new.after history
  generalize new.after history = damper at hused
  cases hused with
  | new => exact .inl ⟨rfl, fun _ => rfl⟩
  | running d t hd => exact .inr (sizes_of_running hd t pool now hq hq' hle)

/-- While a scale-down is held back, 8 is answered with 10 and 9.2 with itself, and the
sizes are in order all the same. -/
theorem size_mono_held_back :
    ∃ next next' n n',
      apply (some ⟨10, 10⟩) (some 8.0) (.ofSeconds 5 0) (new.after heldBack) = .ok (some 10.0) next ∧
      apply (some ⟨10, 10⟩) (some 9.2) (.ofSeconds 5 0) (new.after heldBack) = .ok (some 9.2) next' ∧
      (Decision.ofDemand (some 10.0) (some ⟨10, 10⟩)).size? (some ⟨10, 10⟩) = some n ∧
      (Decision.ofDemand (some 9.2) (some ⟨10, 10⟩)).size? (some ⟨10, 10⟩) = some n' ∧ n ≤ n' := by
  have hheld : apply (some ⟨10, 10⟩) (some 8.0) (.ofSeconds 5 0) (new.after heldBack) = .ok (some 10.0) _ :=
    Change.eq_ok_of_answer? (by decide +kernel)
  have hfree : apply (some ⟨10, 10⟩) (some 9.2) (.ofSeconds 5 0) (new.after heldBack) = .ok (some 9.2) _ :=
    Change.eq_ok_of_answer? (by decide +kernel)
  obtain ⟨hnone, -⟩ | ⟨a, a', next, next', n, n', hcall, hcall', hn, hn', hle⟩ :=
    size_mono heldBack (some ⟨10, 10⟩) (.ofSeconds 5 0) (by decide) (by decide)
      (show (8.0 : Float) ≤ 9.2 by decide)
  · cases hnone
  · rw [hheld] at hcall
    rw [hfree] at hcall'
    injection hcall with ha
    injection hcall' with ha'
    rw [← ha] at hn
    rw [← ha'] at hn'
    exact ⟨_, _, n, n', hheld, hfree, hn, hn', hle⟩

end Damper

end PoolScaling

import Mathlib.Algebra.Order.Field.Power
import Mathlib.Data.Int.Log
import Mathlib.Data.Rat.Floor
import Mathlib.Tactic.Linarith

/-! Rounding to the nearest.

A double near a number has its last bit at a place that depends on the size of the
number alone (`lastPlace`). Rounding takes the nearest multiple of that place, an
even one on a tie (`Rounds`), and keeps the order of what it rounds (`Rounds.mono`):
numbers with the same last place by the order of their nearest multiples, and others
because a power of two lies between them. -/
namespace PoolScaling.Number
open Float.Model.UnpackedFloat

/-- A whole number is nearest to `x`, and even if another one is as near. -/
def IsNearest (m : Nat) (x : ℚ) : Prop := |x - m| ≤ 1 / 2 ∧ (|x - m| = 1 / 2 → Even m)

theorem isNearest_self (m : Nat) : IsNearest m m := by
  constructor <;> norm_num

theorem IsNearest.mono {m n : Nat} {x y : ℚ} (hm : IsNearest m x) (hn : IsNearest n y) (h : x ≤ y) :
    m ≤ n := by
  obtain ⟨hm, hmtie⟩ := hm
  obtain ⟨hn, hntie⟩ := hn
  by_contra hlt
  have hlt : n + 1 ≤ m := by omega
  have hcast : (n : ℚ) + 1 ≤ m := by exact_mod_cast hlt
  have hlow := (abs_le.mp hm).1
  have hhigh := (abs_le.mp hn).2
  -- Only a tie on either side leaves room, between neighbours that cannot both be even.
  have hmhalf : |x - m| = 1 / 2 := by
    rw [abs_of_nonpos (by linarith)]
    linarith
  have hnhalf : |y - n| = 1 / 2 := by
    rw [abs_of_nonneg (by linarith)]
    linarith
  have hnext : (m : ℚ) = n + 1 := by linarith
  have hnext : m = n + 1 := by exact_mod_cast hnext
  have hmeven := hmtie hmhalf
  rw [hnext] at hmeven
  exact (Nat.even_add_one.mp hmeven) (hntie hnhalf)

/-! ### Shifted mantissas -/

/-- The numbers that a mantissa with its two residual bits stands for. -/
def StandsFor (em : ExtendedMantissa) (x : ℚ) : Prop :=
  match em.roundBit, em.stickyBit with
  | false, false => x = em.mantissa
  | false, true => em.mantissa < x ∧ x < em.mantissa + 1 / 2
  | true, false => x = em.mantissa + 1 / 2
  | true, true => em.mantissa + 1 / 2 < x ∧ x < em.mantissa + 1

theorem StandsFor.shiftRightOne {em : ExtendedMantissa} {x : ℚ} (h : StandsFor em x) :
    StandsFor em.shiftRightOne (x / 2) := by
  obtain ⟨m, r, s⟩ := em
  have hdiv : ((m % 2 : Nat) : ℚ) + 2 * (m / 2 : Nat) = m := by exact_mod_cast Nat.mod_add_div m 2
  rcases Nat.mod_two_eq_zero_or_one m with hm | hm <;> rw [hm] at hdiv <;> push_cast at hdiv <;>
    cases r <;> cases s <;>
    simp only [StandsFor, ExtendedMantissa.shiftRightOne, hm, bne_self_eq_false, Bool.or_false, Bool.or_true,
      Bool.or_self, show (1 != 0) = true from rfl] at h ⊢ <;>
    first
      | linarith
      | exact ⟨by linarith, by linarith⟩

theorem StandsFor.shiftRight {em : ExtendedMantissa} {x : ℚ} (h : StandsFor em x) (k : Nat) :
    StandsFor (em >>> k) (x / 2 ^ k) := by
  induction k with
  | zero =>
    rw [pow_zero, div_one]
    exact h
  | succ k ih =>
    rw [pow_succ, ← div_div]
    exact ih.shiftRightOne

theorem StandsFor.isNearest {em : ExtendedMantissa} {x : ℚ} (h : StandsFor em x) :
    IsNearest em.roundedMantissa x := by
  obtain ⟨m, r, s⟩ := em
  cases r <;> cases s <;>
    simp only [StandsFor, ExtendedMantissa.roundedMantissa, ExtendedMantissa.accuracy,
      Accuracy.roundToNearestEven] at h ⊢
  · rw [h]
    exact isNearest_self m
  · have habs : |x - m| < 1 / 2 := abs_lt.mpr ⟨by linarith, by linarith⟩
    exact ⟨habs.le, fun htie => (habs.ne htie).elim⟩
  · rcases Nat.mod_two_eq_zero_or_one m with hm | hm <;> rw [hm, h]
    · exact ⟨by norm_num, fun _ => Nat.even_iff.mpr hm⟩
    · refine ⟨by push_cast; norm_num [add_sub_add_left_eq_sub], fun _ => Nat.even_iff.mpr (by omega)⟩
  · have habs : |x - (m + 1 : Nat)| < 1 / 2 := by
      push_cast
      exact abs_lt.mpr ⟨by linarith, by linarith⟩
    exact ⟨habs.le, fun htie => (habs.ne htie).elim⟩

theorem StandsFor.bounds {em : ExtendedMantissa} {x : ℚ} (h : StandsFor em x) :
    em.mantissa ≤ x ∧ x < em.mantissa + 1 := by
  obtain ⟨m, r, s⟩ := em
  cases r <;> cases s <;> simp only [StandsFor] at h ⊢ <;> constructor <;> linarith

/-! ### The last place -/

/-- The exponent of the last bit of the doubles near a number. -/
def lastPlace (q : ℚ) : Int := max (Int.log 2 q - 52) (-1074)

theorem lastPlace_mono {p q : ℚ} (hp : 0 < p) (h : p ≤ q) : lastPlace p ≤ lastPlace q :=
  max_le_max_right _ (Int.sub_le_sub_right (Int.log_mono_right hp h) 52)

theorem lastPlace_of_bounds {q : ℚ} {e : Int} (he : -1074 ≤ e) (hlow : 2 ^ (52 + e) ≤ q)
    (hhigh : q < 2 ^ (53 + e)) : lastPlace q = e := by
  have hq : 0 < q := lt_of_lt_of_le (by positivity) hlow
  have hle := (Int.zpow_le_iff_le_log (b := 2) (by norm_num) hq).mp (by exact_mod_cast hlow)
  have hlt := (Int.lt_zpow_iff_log_lt (b := 2) (by norm_num) hq).mp (by exact_mod_cast hhigh)
  unfold lastPlace
  omega

theorem lastPlace_of_lt {q : ℚ} (hq : 0 < q) (h : q < 2 ^ (-1021 : Int)) : lastPlace q = -1074 := by
  have hlt := (Int.lt_zpow_iff_log_lt (b := 2) (by norm_num) hq).mp (by exact_mod_cast h)
  unfold lastPlace
  omega

/-- `v` is the nearest multiple of the last place of `q`. -/
def Rounds (q v : ℚ) : Prop :=
  ∃ m : Nat, v = m * 2 ^ lastPlace q ∧ IsNearest m (q / 2 ^ lastPlace q)

theorem Rounds.of_multiple {q : ℚ} {m : Nat} (h : q = m * 2 ^ lastPlace q) : Rounds q q := by
  refine ⟨m, h, ?_⟩
  rw [div_eq_of_eq_mul (by positivity) h]
  exact isNearest_self m

theorem rounds_zero : Rounds 0 0 := Rounds.of_multiple (m := 0) (by simp)

/-- At most 53 bits are left above the last place. -/
theorem Rounds.le_two_pow {q v : ℚ} (h : Rounds q v) : v ≤ 2 ^ (53 + lastPlace q) := by
  obtain ⟨m, rfl, hm⟩ := h
  have hlt : q < 2 ^ (53 + lastPlace q) :=
    calc q < 2 ^ (Int.log 2 q + 1) := by exact_mod_cast Int.lt_zpow_succ_log_self (by norm_num) q
      _ ≤ 2 ^ (53 + lastPlace q) :=
        zpow_le_zpow_right₀ (by norm_num) (by unfold lastPlace; omega)
  have hmant : m ≤ 2 ^ 53 := by
    refine hm.mono (isNearest_self _) ?_
    rw [div_le_iff₀ (by positivity)]
    refine hlt.le.trans_eq ?_
    rw [zpow_add₀ (by norm_num)]
    norm_cast
  have hmant : (m : ℚ) ≤ 2 ^ (53 : Int) := by exact_mod_cast hmant
  rw [zpow_add₀ (by norm_num)]
  gcongr

/-- Above the least place, no fewer than 53 bits are. -/
theorem Rounds.two_pow_le {q v : ℚ} (h : Rounds q v) (hq : 0 < q) (hplace : -1074 < lastPlace q) :
    2 ^ (52 + lastPlace q) ≤ v := by
  obtain ⟨m, rfl, hm⟩ := h
  have hlog : 52 + lastPlace q = Int.log 2 q := by
    unfold lastPlace at hplace ⊢
    omega
  have hle : (2 : ℚ) ^ (52 + lastPlace q) ≤ q := by
    rw [hlog]
    exact_mod_cast Int.zpow_log_le_self (by norm_num) hq
  have hmant : 2 ^ 52 ≤ m := by
    refine (isNearest_self (2 ^ 52)).mono hm ?_
    rw [le_div_iff₀ (by positivity)]
    refine le_of_eq_of_le ?_ hle
    rw [zpow_add₀ (by norm_num)]
    norm_cast
  have hmant : (2 : ℚ) ^ (52 : Int) ≤ m := by exact_mod_cast hmant
  rw [zpow_add₀ (by norm_num)]
  gcongr

theorem Rounds.nonneg {q v : ℚ} (h : Rounds q v) : 0 ≤ v := by
  obtain ⟨m, rfl, -⟩ := h
  positivity

/-- **Rounding keeps the order.** -/
theorem Rounds.mono {p q v w : ℚ} (hv : Rounds p v) (hw : Rounds q w) (hp : 0 ≤ p) (h : p ≤ q) : v ≤ w := by
  rcases hp.eq_or_lt with rfl | hp
  · obtain ⟨m, rfl, hm⟩ := hv
    have hm : m ≤ 0 := hm.mono (isNearest_self 0) (by simp)
    rw [Nat.le_zero.mp hm, Nat.cast_zero, zero_mul]
    exact hw.nonneg
  have hq : 0 < q := hp.trans_le h
  rcases (lastPlace_mono hp h).eq_or_lt with heq | hlt
  · obtain ⟨m, rfl, hm⟩ := hv
    obtain ⟨n, rfl, hn⟩ := hw
    rw [heq] at hm ⊢
    have hmn : m ≤ n := hm.mono hn (by gcongr)
    gcongr
  · have hleast : -1074 ≤ lastPlace p := le_max_right _ _
    calc v ≤ 2 ^ (53 + lastPlace p) := hv.le_two_pow
      _ ≤ 2 ^ (52 + lastPlace q) := zpow_le_zpow_right₀ (by norm_num) (by omega)
      _ ≤ w := hw.two_pow_le hq (by omega)

end PoolScaling.Number

import PoolScaling.Number.Decimal
import PoolScaling.Proofs.Number.Product
import PoolScaling.Proofs.Text.Digits

/-! Decimals as doubles.

Reading a decimal is correctly rounded (`place_ofDecimal`): short ones by a single
product or quotient with a power of ten that is a double itself, the others by one
rounding of the exact product or quotient. -/
namespace PoolScaling.Number
open Float.Model Float.Model.UnpackedFloat

/-! ### Powers -/

/-- A power as a quotient of natural powers, of which one is one. -/
theorem zpow_eq_div {b : ℚ} (hb : b ≠ 0) (k : Int) : b ^ k = b ^ k.toNat / b ^ (-k).toNat := by
  rw [← zpow_natCast, ← zpow_natCast, ← zpow_sub₀ hb]
  congr 1
  omega

/-- The table of powers of ten is exact. -/
theorem parts_powerOfTen : ∀ k (h : k < Float.exactlyRepresentablePowersOfTen.size),
    (match Parts.of Float.exactlyRepresentablePowersOfTen[k] with
    | .finite false m e => m * 2 ^ e.toNat == 10 ^ k * 2 ^ (-e).toNat
    | _ => false) = true := by
  decide +kernel

theorem place_powerOfTen {k : Nat} (h : k < Float.exactlyRepresentablePowersOfTen.size) :
    place Float.exactlyRepresentablePowersOfTen[k] = some ((10 ^ k : ℚ) : Line) := by
  have hparts := parts_powerOfTen k h
  unfold place
  split at hparts
  · rename_i m e hof
    rw [hof]
    have hnat : m * 2 ^ e.toNat = 10 ^ k * 2 ^ (-e).toNat := by simpa using hparts
    have hcast : (m : ℚ) * 2 ^ e.toNat = 10 ^ k * 2 ^ (-e).toNat := by exact_mod_cast hnat
    show some (dyadic false m e : Line) = _
    rw [dyadic, if_neg (by decide), zpow_eq_div (by norm_num), ← mul_div_assoc, hcast,
      mul_div_cancel_right₀ _ (by positivity)]
  · cases hparts

/-! ### Scaling by a power of ten -/

variable {n k : Nat} {e : Int}

theorem place_model_ofScientific (hn : 0 < n) (hlow : -(2 ^ 11 + (n.log2 : Int)) ≤ e) (hhigh : e ≤ 2 ^ 11) :
    ∃ v, Rounds (n * 10 ^ e) v ∧
      placeUnpacked (Float.Model.ofScientific n e).unpack = some (rangePlace false v) := by
  have hpower : ∀ j : Nat, 0 < 10 ^ j := fun j => by positivity
  rcases le_or_gt 0 e with hpos | hneg
  · have hshift : 0 < n <<< 53 := by
      rw [Nat.shiftLeft_eq]
      positivity
    have hlong : (-53 : Int) + (0 : Int) ≤
        max ((((n <<< 53) * 10 ^ e.toNat).log2 : Int) + (-53 + (0 : Int)) - 52) (-1074) := by
      have hbits : 2 ^ 53 ≤ (n <<< 53) * 10 ^ e.toNat := by
        rw [Nat.shiftLeft_eq]
        calc 2 ^ 53 ≤ n * 2 ^ 53 := Nat.le_mul_of_pos_left _ hn
          _ ≤ n * 2 ^ 53 * 10 ^ e.toNat := Nat.le_mul_of_pos_right _ (hpower _)
      have hlog : 53 ≤ ((n <<< 53) * 10 ^ e.toNat).log2 := (Nat.le_log2 (by omega)).mpr hbits
      omega
    obtain ⟨v, hrounds, hplace⟩ := place_mul_finite .positive .positive hshift (hpower e.toNat) hlong
    have hexact : ((n <<< 53 : Nat) : ℚ) * 2 ^ (-53 : Int) * ((10 ^ e.toNat : Nat) * 2 ^ (0 : Int)) =
        n * 10 ^ e := by
      rw [Nat.shiftLeft_eq, zpow_eq_div (b := 10) (by norm_num), show (-e).toNat = 0 by omega]
      push_cast
      norm_num
      ring
    rw [hexact] at hrounds
    refine ⟨v, hrounds, ?_⟩
    unfold Float.Model.ofScientific UnpackedFloat.ofScientific
    rw [dif_neg hn.ne', if_neg (by simpa using hhigh), if_neg (by simpa using hlow), if_pos hpos]
    exact hplace
  · obtain ⟨v, hrounds, hplace⟩ :=
      place_div_finite .positive .positive hn (hpower (-e).toNat) (d := 0) (e := 0)
    have hexact : (n : ℚ) * 2 ^ (0 : Int) / ((10 ^ (-e).toNat : Nat) * 2 ^ (0 : Int)) = n * 10 ^ e := by
      rw [zpow_eq_div (b := 10) (by norm_num), show e.toNat = 0 by omega]
      push_cast
      norm_num
      rfl
    rw [hexact] at hrounds
    refine ⟨v, hrounds, ?_⟩
    unfold Float.Model.ofScientific UnpackedFloat.ofScientific
    rw [dif_neg hn.ne', if_neg (by simpa using hhigh), if_neg (by simpa using hlow), if_neg (by omega)]
    exact hplace

/-- Scaling up or down, by `k` places. -/
theorem place_ofScientific (hn : 0 < n) (down : Bool) (he : e = if down then -(k : Int) else k)
    (hlow : -(2 ^ 11 + (n.log2 : Int)) ≤ e) (hhigh : e ≤ 2 ^ 11) :
    ∃ v, Rounds (n * 10 ^ e) v ∧ place (Float.ofScientific n down k) = some (rangePlace false v) := by
  unfold Float.ofScientific
  split
  · rename_i hshort
    have hk : k < Float.exactlyRepresentablePowersOfTen.size := Nat.lt_succ_of_le hshort.2
    have hten := place_powerOfTen hk
    have hwhole := place_toFloat hshort.1
    cases down with
    | true =>
      have hexact : (n : ℚ) * 10 ^ e = n / 10 ^ k := by
        rw [he, if_pos rfl, zpow_neg, zpow_natCast, div_eq_mul_inv]
      rw [hexact]
      exact place_div hwhole hten (by exact_mod_cast hn) (by positivity)
    | false =>
      have hexact : (n : ℚ) * 10 ^ e = n * 10 ^ k := by
        rw [he, if_neg (by decide), zpow_natCast]
      rw [hexact]
      exact place_mul hwhole hten (by exact_mod_cast hn) (by positivity)
  · obtain ⟨v, hrounds, hplace⟩ := place_model_ofScientific hn hlow hhigh
    refine ⟨v, hrounds, ?_⟩
    have hexponent : (if down = true then Int.negOfNat k else Int.ofNat k) = e := by
      cases down with
      | true => rw [he, if_pos rfl, if_pos rfl, Int.negOfNat_eq, Int.ofNat_eq_natCast]
      | false => rw [he, if_neg (by decide), if_neg (by decide), Int.ofNat_eq_natCast]
    rw [place_eq]
    show placeUnpacked
      (Float.Model.ofScientific n (if down = true then Int.negOfNat k else Int.ofNat k)).unpack = _
    rw [hexponent]
    exact hplace

/-! ### Decimals -/

theorem lt_ten_pow_digitCount (n : Nat) : n < 10 ^ digitCount n := by
  unfold digitCount
  split
  · rename_i hzero
    rw [hzero]
    decide
  · exact (Nat.length_toDigits_le_iff (by norm_num) Nat.length_toDigits_pos).mp le_rfl

theorem ten_pow_digitCount_le (hn : 0 < n) : 10 ^ (digitCount n - 1) ≤ n := by
  unfold digitCount
  rw [if_neg hn.ne']
  rcases Nat.eq_zero_or_pos ((Nat.toDigits 10 n).length - 1) with h0 | hpos
  · rw [h0]
    exact hn
  · by_contra hlt
    have hle := (Nat.length_toDigits_le_iff (by norm_num) hpos).mpr (not_le.mp hlt)
    omega

theorem digitCount_pos (hn : 0 < n) : 0 < digitCount n := by
  unfold digitCount
  rw [if_neg hn.ne']
  exact Nat.length_toDigits_pos

/-- The bounds outside of which the exponent decides. -/
theorem digitCount_add_bounds (hn : 0 < n) (hlow : (10 : ℚ) ^ (-400 : Int) ≤ n * 10 ^ e)
    (hhigh : (n : ℚ) * 10 ^ e ≤ 10 ^ (399 : Int)) :
    -400 ≤ (digitCount n : Int) + e ∧ (digitCount n : Int) + e ≤ 400 := by
  have hten : (0 : ℚ) < 10 ^ e := by positivity
  have hpos := digitCount_pos hn
  constructor
  · have hlt : (n : ℚ) * 10 ^ e < 10 ^ ((digitCount n : Int) + e) := by
      rw [zpow_add₀ (by norm_num), zpow_natCast]
      exact mul_lt_mul_of_pos_right (by exact_mod_cast lt_ten_pow_digitCount n) hten
    have := (zpow_lt_zpow_iff_right₀ (by norm_num)).mp (hlow.trans_lt hlt)
    omega
  · have hle : (10 : ℚ) ^ (((digitCount n - 1 : Nat) : Int) + e) ≤ n * 10 ^ e := by
      rw [zpow_add₀ (by norm_num), zpow_natCast]
      exact mul_le_mul_of_nonneg_right (by exact_mod_cast ten_pow_digitCount_le hn) hten.le
    have := (zpow_le_zpow_iff_right₀ (by norm_num)).mp (hle.trans hhigh)
    omega

/-- **A decimal is read correctly rounded**, as far as its size is in sight of the
doubles. -/
theorem place_ofDecimal (hn : 0 < n) (hlow : (10 : ℚ) ^ (-400 : Int) ≤ n * 10 ^ e)
    (hhigh : (n : ℚ) * 10 ^ e ≤ 10 ^ (399 : Int)) :
    ∃ v, Rounds (n * 10 ^ e) v ∧ place (ofDecimal n e) = some (rangePlace false v) := by
  obtain ⟨hsmall, hlarge⟩ := digitCount_add_bounds hn hlow hhigh
  have hlog : digitCount n - 1 ≤ n.log2 := by
    refine (Nat.le_log2 hn.ne').mpr (le_trans ?_ (ten_pow_digitCount_le hn))
    exact Nat.pow_le_pow_left (by norm_num) _
  have hpos := digitCount_pos hn
  unfold ofDecimal
  dsimp only
  rw [if_neg (by omega), if_neg (by omega)]
  cases e with
  | ofNat k => exact place_ofScientific hn false rfl (by omega) (by omega)
  | negSucc k => exact place_ofScientific hn true rfl (by omega) (by omega)

end PoolScaling.Number

import PoolScaling.Proofs.Number.Nearest
import PoolScaling.Proofs.Number.Place

/-! Rounded results.

The result of arithmetic is the exact one, rounded to the nearest (`round_rounds`).
What has at most 53 bits above the least exponent is rounded to itself, so whole
numbers below 2^53 are exact (`place_signed`). The distance of two doubles is zero
only if their places agree (`place_sub_abs`), and the nearer of two doubles never
seems farther away (`abs_sub_le`). -/
namespace PoolScaling.Number
open Float.Model Float.Model.UnpackedFloat

/-! ### Shifts -/

theorem target_eq (m : Nat) (e : Int) :
    Format.binary64.targetExponent (totalExponent m e) = max (m.log2 + e - 52) (-1074) := by
  show max ((m.log2 : Int) + 1 + e - (53 : Nat)) (-1074) = _
  omega

/-- What is short enough is not shifted. -/
theorem shiftToTargetExponent_of_le {m : Nat} {e : Int} (hm : m.log2 ≤ 52) (he : -1074 ≤ e) :
    shiftToTargetExponent Format.binary64 m e .exact = (⟨m, false, false⟩, e) := by
  have h0 : (max ((m.log2 : Int) + e - 52) (-1074) - e).toNat = 0 := by omega
  simp only [shiftToTargetExponent, shiftToExponent, target_eq, h0]
  simp [ExtendedMantissa.ofMantissaAndAccuracy, HShiftRight.hShiftRight, Nat.repeat]

/-- A mantissa of 54 bits is shifted by one. -/
theorem shiftToTargetExponent_carry {e : Int} (he : -1074 ≤ e) :
    shiftToTargetExponent Format.binary64 (2 ^ 53) e .exact = (⟨2 ^ 52, false, false⟩, e + 1) := by
  have h1 : (max (((2 ^ 53 : Nat).log2 : Int) + e - 52) (-1074) - e).toNat = 1 := by
    rw [Nat.log2_two_pow]
    omega
  simp only [shiftToTargetExponent, shiftToExponent, target_eq, h1]
  rfl

theorem log2_le_iff {m : Nat} (h : 0 < m) : m.log2 ≤ 52 ↔ m < 2 ^ 53 := by
  rw [← Nat.log2_lt h.ne']
  omega

theorem log2_mul_two_pow {m : Nat} (h : 0 < m) (k : Nat) : (m * 2 ^ k).log2 = m.log2 + k := by
  rw [Nat.log2_eq_iff (by positivity), pow_add, Nat.add_right_comm, pow_add]
  exact ⟨Nat.mul_le_mul_right _ (Nat.log2_self_le h.ne'),
    Nat.mul_lt_mul_of_pos_right Nat.lt_log2_self (by positivity)⟩

/-- The two shifts of rounding: to 53 bits, and by the carry of the rounded mantissa. -/
theorem roundWithAccuracy_of_shifts (s : Sign) {m : Nat} {e e₁ e₂ : Int} {acc : Accuracy}
    {em₁ em₂ : ExtendedMantissa} (h₁ : shiftToTargetExponent Format.binary64 m e acc = (em₁, e₁))
    (h₂ : shiftToTargetExponent Format.binary64 em₁.roundedMantissa e₁ .exact = (em₂, e₂)) :
    roundWithAccuracy Format.binary64 s m e acc =
      if h : em₂.mantissa = 0 then .zero s else .finite s em₂.mantissa e₂ (Nat.pos_of_ne_zero h) := by
  unfold roundWithAccuracy
  rw [h₁]
  dsimp only
  rw [h₂]

/-- An exponent above that of the last place is lowered to it before. -/
theorem round_eq (s : Sign) {m : Nat} {e t : Int} (ht : t = max (m.log2 + e - 52) (-1074)) :
    UnpackedFloat.round Format.binary64 s m e =
      roundWithAccuracy Format.binary64 s (m * 2 ^ (e - t).toNat) (e - (e - t).toNat) .exact := by
  rw [ht, ← target_eq, ← Nat.shiftLeft_eq]
  rfl

/-! ### Rounding -/

/-- A mantissa and an exponent after rounding, before a check of the range. -/
structure Trimmed (m : Nat) (e : Int) : Prop where
  lt : m < 2 ^ 53
  least : -1074 ≤ e
  full : 2 ^ 52 ≤ m ∨ e = -1074

theorem two_zpow_add (k : Nat) (e : Int) : (2 : ℚ) ^ (k + e) = (2 ^ k : Nat) * 2 ^ e := by
  rw [zpow_add₀ (by norm_num), zpow_natCast, Nat.cast_pow, Nat.cast_ofNat]

/-- The last place of what a mantissa with an accuracy stands for. -/
theorem lastPlace_of_standsFor {em : ExtendedMantissa} {e : Int} {q : ℚ} (hq : 0 < q)
    (h : StandsFor em (q / 2 ^ e)) (he : e ≤ max (em.mantissa.log2 + e - 52) (-1074)) :
    lastPlace q = max (em.mantissa.log2 + e - 52) (-1074) := by
  obtain ⟨hlow, hhigh⟩ := h.bounds
  have hpow : (0 : ℚ) < 2 ^ e := by positivity
  rw [le_div_iff₀ hpow] at hlow
  rw [div_lt_iff₀ hpow] at hhigh
  have hlt : q < 2 ^ (((em.mantissa.log2 + 1 : Nat) : Int) + e) := by
    have hcast : (em.mantissa : ℚ) + 1 ≤ (2 ^ (em.mantissa.log2 + 1) : Nat) := by
      exact_mod_cast Nat.lt_log2_self
    rw [two_zpow_add]
    exact hhigh.trans_le (mul_le_mul_of_nonneg_right hcast hpow.le)
  rcases le_or_gt ((em.mantissa.log2 : Int) + e - 52) (-1074) with hshort | hlong
  · rw [max_eq_right hshort]
    exact lastPlace_of_lt hq (hlt.trans_le (zpow_le_zpow_right₀ (by norm_num) (by push_cast; omega)))
  · rw [max_eq_left hlong.le] at he ⊢
    have hm : em.mantissa ≠ 0 := by
      intro hm
      rw [hm, Nat.log2_zero] at he
      omega
    have hge : (2 : ℚ) ^ ((em.mantissa.log2 : Int) + e) ≤ q := by
      have hcast : ((2 ^ em.mantissa.log2 : Nat) : ℚ) ≤ em.mantissa := by
        exact_mod_cast Nat.log2_self_le hm
      rw [two_zpow_add]
      exact (mul_le_mul_of_nonneg_right hcast hpow.le).trans hlow
    refine lastPlace_of_bounds (by omega) ?_ ?_
    · rwa [show 52 + ((em.mantissa.log2 : Int) + e - 52) = em.mantissa.log2 + e by ring]
    · rwa [show 53 + ((em.mantissa.log2 : Int) + e - 52) = ((em.mantissa.log2 + 1 : Nat) : Int) + e by
        push_cast; ring]

theorem ofMantissaAndAccuracy_mantissa (m : Nat) (acc : Accuracy) :
    (ExtendedMantissa.ofMantissaAndAccuracy m acc).mantissa = m := by
  cases acc with
  | exact => rfl
  | inexact o => cases o <;> rfl

theorem roundWithAccuracy_rounds (s : Sign) {m : Nat} {e : Int} {acc : Accuracy} {q : ℚ} (hq : 0 < q)
    (h : StandsFor (.ofMantissaAndAccuracy m acc) (q / 2 ^ e))
    (he : e ≤ max (m.log2 + e - 52) (-1074)) :
    ∃ m' e', Trimmed m' e' ∧ Rounds q (m' * 2 ^ e') ∧
      roundWithAccuracy Format.binary64 s m e acc =
        if hm : m' = 0 then .zero s else .finite s m' e' (Nat.pos_of_ne_zero hm) := by
  generalize ht : max ((m.log2 : Int) + e - 52) (-1074) = t at he
  generalize hem : (ExtendedMantissa.ofMantissaAndAccuracy m acc >>> (t - e).toNat) = em
  have hshift : shiftToTargetExponent Format.binary64 m e acc = (em, t) := by
    simp only [shiftToTargetExponent, shiftToExponent, target_eq, ht]
    rw [show e + ((t - e).toNat : Int) = t by omega, ← hem]
  have hplace : lastPlace q = t := by
    have hmant := ofMantissaAndAccuracy_mantissa m acc
    have := lastPlace_of_standsFor hq h (by rw [hmant, ht]; exact he)
    rwa [hmant, ht] at this
  have hscaled : q / 2 ^ e / 2 ^ (t - e).toNat = q / 2 ^ t := by
    rw [div_div, ← zpow_natCast, ← zpow_add₀ (by norm_num), show e + ((t - e).toNat : Int) = t by omega]
  have hnearest : IsNearest em.roundedMantissa (q / 2 ^ t) := by
    rw [← hem, ← hscaled]
    exact (h.shiftRight _).isNearest
  have hrounds : Rounds q (em.roundedMantissa * 2 ^ t) := by
    refine ⟨em.roundedMantissa, ?_, ?_⟩
    · rw [hplace]
    · rw [hplace]
      exact hnearest
  have hleast : -1074 ≤ t := by omega
  have hle : em.roundedMantissa ≤ 2 ^ 53 := by
    have hv := hrounds.le_two_pow
    rw [hplace, zpow_add₀ (by norm_num)] at hv
    have := le_of_mul_le_mul_right hv (by positivity)
    exact_mod_cast this
  have hfull : 2 ^ 52 ≤ em.roundedMantissa ∨ t = -1074 := by
    rcases hleast.eq_or_lt with hleast | hgt
    · exact .inr hleast.symm
    · left
      have hv := hrounds.two_pow_le hq (by rw [hplace]; exact hgt)
      rw [hplace, zpow_add₀ (by norm_num)] at hv
      have := le_of_mul_le_mul_right hv (by positivity)
      exact_mod_cast this
  rcases hle.lt_or_eq with hlt | hcarry
  · refine ⟨_, t, ⟨hlt, hleast, hfull⟩, hrounds, ?_⟩
    have hlog : em.roundedMantissa.log2 ≤ 52 := by
      rcases Nat.eq_zero_or_pos em.roundedMantissa with h0 | hpos
      · rw [h0]
        decide
      · exact (log2_le_iff hpos).mpr hlt
    exact roundWithAccuracy_of_shifts s hshift (shiftToTargetExponent_of_le hlog hleast)
  · refine ⟨2 ^ 52, t + 1, ⟨by decide, by omega, .inl le_rfl⟩, ?_, ?_⟩
    · rw [hcarry] at hrounds
      convert hrounds using 1
      rw [zpow_add₀ (by norm_num)]
      push_cast
      ring
    · have hcarried := shiftToTargetExponent_carry hleast
      rw [← hcarry] at hcarried
      exact roundWithAccuracy_of_shifts s hshift hcarried

/-- What has at most 53 bits above the least exponent is rounded to itself. -/
theorem round_of_le (s : Sign) {m : Nat} {e t : Int} (hm : 0 < m)
    (ht : t = max (m.log2 + e - 52) (-1074)) (hle : t ≤ e) :
    ∃ h, UnpackedFloat.round Format.binary64 s m e = .finite s (m * 2 ^ (e - t).toNat) t h := by
  have hpos : 0 < m * 2 ^ (e - t).toNat := by positivity
  have hlog := log2_mul_two_pow hm (e - t).toNat
  have he : e - (e - t).toNat = t := by omega
  refine ⟨hpos, ?_⟩
  have hshift := shiftToTargetExponent_of_le (m := m * 2 ^ (e - t).toNat) (e := t) (by omega) (by omega)
  rw [round_eq s ht, he, roundWithAccuracy_of_shifts s hshift hshift, dif_neg hpos.ne']

theorem log_scaled {m : Nat} (h : 0 < m) (e : Int) : Int.log 2 ((m : ℚ) * 2 ^ e) = m.log2 + e := by
  have hlow : ((2 ^ m.log2 : Nat) : ℚ) ≤ m := by exact_mod_cast Nat.log2_self_le h.ne'
  have hhigh : (m : ℚ) < (2 ^ (m.log2 + 1) : Nat) := by exact_mod_cast Nat.lt_log2_self
  have hpos : (0 : ℚ) < m * 2 ^ e := by positivity
  push_cast at hlow hhigh
  refine le_antisymm (Int.lt_add_one_iff.mp ?_) ?_
  · refine (Int.lt_zpow_iff_log_lt (b := 2) (by norm_num) hpos).mp ?_
    rw [show (m.log2 : Int) + e + 1 = (m.log2 + 1 : Nat) + e by push_cast; ring, zpow_add₀ (by norm_num),
      zpow_natCast]
    push_cast
    gcongr
  · refine (Int.zpow_le_iff_le_log (b := 2) (by norm_num) hpos).mp ?_
    rw [zpow_add₀ (by norm_num), zpow_natCast]
    push_cast
    gcongr

theorem lastPlace_scaled {m : Nat} (h : 0 < m) (e : Int) :
    lastPlace ((m : ℚ) * 2 ^ e) = max (m.log2 + e - 52) (-1074) := by
  rw [lastPlace, log_scaled h]

theorem scaled_shift (m : Nat) {e t : Int} (h : t ≤ e) :
    (m : ℚ) * 2 ^ e = (m * 2 ^ (e - t).toNat : Nat) * 2 ^ t := by
  rw [show e = (e - t).toNat + t by omega, zpow_add₀ (by norm_num), zpow_natCast]
  push_cast
  rw [show (e - t).toNat + t - t = (e - t).toNat by omega, Int.toNat_natCast]
  ring

/-- What has no bit below its last place is exact. -/
theorem rounds_scaled {m : Nat} {e : Int} (hm : 0 < m) (h : max (m.log2 + e - 52) (-1074) ≤ e) :
    Rounds (m * 2 ^ e) (m * 2 ^ e) := by
  rw [← lastPlace_scaled hm] at h
  exact .of_multiple (scaled_shift m h)

theorem rounds_of_fits {m : Nat} {e : Int} (hm : 0 < m) (h : Fits m e) :
    Rounds (m * 2 ^ e) (m * 2 ^ e) := by
  have hlog := (log2_le_iff hm).mpr h.lt
  exact rounds_scaled hm (max_le (by omega) h.least)

theorem rounds_least : Rounds (2 ^ (-1074 : Int)) (2 ^ (-1074 : Int)) := by
  have h := rounds_scaled (m := 1) (e := -1074) (by decide) (by decide)
  rwa [Nat.cast_one, one_mul] at h

theorem round_rounds (s : Sign) {m : Nat} {e : Int} (hm : 0 < m) (hl : -1074 ≤ e) :
    ∃ m' e' h, UnpackedFloat.round Format.binary64 s m e = .finite s m' e' h ∧ Trimmed m' e' ∧
      Rounds (m * 2 ^ e) (m' * 2 ^ e') := by
  generalize ht : max ((m.log2 : Int) + e - 52) (-1074) = t
  rcases le_or_gt t e with hle | hgt
  · obtain ⟨h, hround⟩ := round_of_le s hm ht.symm hle
    have hlog := log2_mul_two_pow hm (e - t).toNat
    have hlt := (log2_le_iff h).mp (by omega)
    refine ⟨_, _, h, hround, ⟨hlt, by omega, ?_⟩, ?_⟩
    · by_cases hleast : t = -1074
      · exact .inr hleast
      · refine .inl ?_
        rw [show 52 = (m * 2 ^ (e - t).toNat).log2 by omega]
        exact Nat.log2_self_le h.ne'
    · rw [← scaled_shift m hle]
      exact rounds_scaled hm (ht ▸ hle)
  · have hmant : StandsFor (.ofMantissaAndAccuracy m .exact) ((m : ℚ) * 2 ^ e / 2 ^ e) :=
      mul_div_cancel_right₀ _ (by positivity)
    obtain ⟨m', e', htrimmed, hrounds, hround⟩ := roundWithAccuracy_rounds s (by positivity) hmant (by omega)
    have hpos : 0 < m' := by
      have hplace := lastPlace_scaled hm e
      have hv := hrounds.two_pow_le (by positivity) (by omega)
      by_contra h0
      rw [Nat.eq_zero_of_not_pos h0, Nat.cast_zero, zero_mul] at hv
      exact absurd hv (not_le.mpr (by positivity))
    refine ⟨m', e', hpos, ?_, htrimmed, hrounds⟩
    have h0 : (e - t).toNat = 0 := by omega
    rw [round_eq s ht.symm, h0, pow_zero, mul_one, Nat.cast_zero, sub_zero, hround, dif_neg hpos.ne']

/-- The place of a result of size `v` after rounding: an end of the line beyond the
largest double. -/
def rangePlace (negative : Bool) (v : ℚ) : Line :=
  if v < 2 ^ (1024 : Int) then ((if negative then -v else v : ℚ) : Line)
  else if negative then ⊥ else ⊤

theorem rangePlace_zero (negative : Bool) : rangePlace negative 0 = (0 : ℚ) := by
  rw [rangePlace, if_pos (by positivity), neg_zero, ite_self]

theorem Trimmed.lt_iff {m : Nat} {e : Int} (h : Trimmed m e) :
    (m : ℚ) * 2 ^ e < 2 ^ (1024 : Int) ↔ e ≤ 971 := by
  constructor
  · intro hlt
    by_contra hgt
    have hfull : ((2 ^ 52 : Nat) : ℚ) ≤ m := by exact_mod_cast h.full.resolve_right (by omega)
    have hexp : (2 : ℚ) ^ (972 : Int) ≤ 2 ^ e := zpow_le_zpow_right₀ (by norm_num) (by omega)
    refine absurd hlt (not_lt.mpr ?_)
    calc (2 : ℚ) ^ (1024 : Int) = (2 ^ 52 : Nat) * 2 ^ (972 : Int) := by
          rw [show (1024 : Int) = (52 : Nat) + 972 from rfl, two_zpow_add]
      _ ≤ m * 2 ^ e := mul_le_mul hfull hexp (zpow_nonneg (by norm_num) _) m.cast_nonneg
  · intro hle
    have hlt : (m : ℚ) < (2 ^ 53 : Nat) := by exact_mod_cast h.lt
    have hexp : (2 : ℚ) ^ e ≤ 2 ^ (971 : Int) := zpow_le_zpow_right₀ (by norm_num) hle
    calc (m : ℚ) * 2 ^ e < (2 ^ 53 : Nat) * 2 ^ e := by gcongr
      _ ≤ (2 ^ 53 : Nat) * 2 ^ (971 : Int) := mul_le_mul_of_nonneg_left hexp (by positivity)
      _ = 2 ^ (1024 : Int) := by
          rw [show (1024 : Int) = (53 : Nat) + 971 from rfl, two_zpow_add]

/-- A double in range has the place of its exact size. -/
theorem rangePlace_of_fits (s : Sign) {m : Nat} {e : Int} (h : Fits m e) :
    rangePlace (Parts.isNegative s) (m * 2 ^ e) = (dyadic (Parts.isNegative s) m e : ℚ) := by
  have hlt := (Trimmed.lt_iff ⟨h.lt, h.least, h.full⟩).mpr h.greatest
  rw [rangePlace, if_pos hlt]
  rfl

/-- The place of a rounded mantissa and exponent. -/
theorem place_pack_trimmed (s : Sign) {m : Nat} {e : Int} {hm : 0 < m} (h : Trimmed m e) :
    placeUnpacked (Float.Model.pack (.finite s m e hm)).unpack =
      some (rangePlace (Parts.isNegative s) (m * 2 ^ e)) := by
  rcases le_or_gt e 971 with hle | hgt
  · have hfits : Fits m e := ⟨h.lt, h.least, hle, h.full⟩
    rw [unpack_pack_of_fits hfits, rangePlace_of_fits s hfits]
    rfl
  · rw [unpack_pack_finite h.lt h.least, if_pos hgt, rangePlace,
      if_neg fun hlt => absurd (h.lt_iff.mp hlt) (by omega)]
    cases s <;> rfl

/-- The place of a rounded result. -/
theorem place_round (s : Sign) {m : Nat} {e : Int} (hm : 0 < m) (hl : -1074 ≤ e) :
    ∃ v, Rounds (m * 2 ^ e) v ∧
      placeUnpacked (Float.Model.pack (UnpackedFloat.round Format.binary64 s m e)).unpack =
        some (rangePlace (Parts.isNegative s) v) := by
  obtain ⟨m', e', h', hround, htrimmed, hrounds⟩ := round_rounds s hm hl
  refine ⟨_, hrounds, ?_⟩
  rw [hround, place_pack_trimmed s htrimmed]

theorem place_roundWithAccuracy (s : Sign) {m : Nat} {e : Int} {acc : Accuracy} {q : ℚ} (hq : 0 < q)
    (h : StandsFor (.ofMantissaAndAccuracy m acc) (q / 2 ^ e))
    (he : e ≤ max (m.log2 + e - 52) (-1074)) :
    ∃ v, Rounds q v ∧
      placeUnpacked (Float.Model.pack (roundWithAccuracy Format.binary64 s m e acc)).unpack =
        some (rangePlace (Parts.isNegative s) v) := by
  obtain ⟨m', e', htrimmed, hrounds, hround⟩ := roundWithAccuracy_rounds s hq h he
  refine ⟨_, hrounds, ?_⟩
  by_cases hm : m' = 0
  · rw [hround, dif_pos hm, unpack_pack_zero, hm, Nat.cast_zero, zero_mul, rangePlace_zero]
    rfl
  · rw [hround, dif_neg hm]
    exact place_pack_trimmed s htrimmed

/-! ### Whole numbers -/

/-- A whole number below 2^53 is a double. -/
theorem place_toFloat {n : Nat} (h : n < 2 ^ 53) : place n.toUInt64.toFloat = some ((n : ℚ) : Line) := by
  have hn : n.toUInt64.toNat = n := by
    simp only [Nat.toUInt64_eq, UInt64.toNat_ofNat']
    omega
  rw [place_eq]
  show placeUnpacked (Float.Model.pack
    (UnpackedFloat.normalize Format.binary64 (n.toUInt64.toNat : Int) 0 .positive)).unpack = _
  rw [hn]
  rcases Nat.eq_zero_or_pos n with rfl | hpos
  · rfl
  · have hgt : compare (n : Int) 0 = .gt := compare_gt_iff_gt.mpr (by omega)
    have hlog := (log2_le_iff hpos).mpr h
    obtain ⟨k, hk⟩ : ∃ k : Nat, n.log2 + k = 52 := ⟨52 - n.log2, by omega⟩
    have hexact := round_of_le (t := -k) (e := 0) .positive hpos (by omega) (by omega)
    rw [show (0 - -(k : Int)).toNat = k by omega] at hexact
    obtain ⟨h', hround⟩ := hexact
    have hlog' := log2_mul_two_pow hpos k
    have hfull : 2 ^ 52 ≤ n * 2 ^ k := by
      rw [← hk, ← hlog']
      exact Nat.log2_self_le (by positivity)
    have hnormalize : UnpackedFloat.normalize Format.binary64 n 0 .positive =
        UnpackedFloat.round Format.binary64 .positive n 0 := by
      rw [UnpackedFloat.normalize, hgt]
      rfl
    have hfits : Fits (n * 2 ^ k) (-k) :=
      ⟨(log2_le_iff (by positivity)).mp (by omega), by omega, by omega, .inl hfull⟩
    rw [hnormalize, hround, unpack_pack_of_fits hfits]
    show some (dyadic false (n * 2 ^ k) (-k) : Line) = _
    congr 3
    simp only [dyadic]
    push_cast
    rw [zpow_neg, zpow_natCast]
    field_simp

/-! ### Signs -/

variable {x y : Float} {a b : Line}

theorem abs_dyadic (negative : Bool) (m : Nat) (e : Int) : |dyadic negative m e| = m * 2 ^ e := by
  have hpos : (0 : ℚ) ≤ m * 2 ^ e := by positivity
  cases negative <;> simp [dyadic, abs_of_nonneg hpos]

theorem dyadic_neg (s : Sign) (m : Nat) (e : Int) :
    dyadic (Parts.isNegative (-s)) m e = -dyadic (Parts.isNegative s) m e := by
  cases s with
  | positive => rfl
  | negative => exact (neg_neg _).symm

theorem place_neg {q : ℚ} (h : place x = some (q : Line)) : place (-x) = some ((-q : ℚ) : Line) := by
  rw [place_eq]
  show placeUnpacked (Float.Model.pack x.toModel.unpack.neg).unpack = _
  rcases unpack_of_place h with ⟨s, hu, rfl⟩ | ⟨s, m, e, hm, hu, hfits, rfl⟩
  · rw [hu, neg_zero]
    exact congrArg placeUnpacked (unpack_pack_zero (-s))
  · rw [hu, ← dyadic_neg]
    exact congrArg placeUnpacked (unpack_pack_of_fits hfits)

/-- A whole number below 2^53 is a double under either sign. -/
theorem place_signed (negative : Bool) {n : Nat} (h : n < 2 ^ 53) :
    place (signed negative n) = some ((if negative then -n else n : ℚ) : Line) := by
  cases negative with
  | false => exact place_toFloat h
  | true => exact place_neg (place_toFloat h)

theorem place_abs {q : ℚ} (h : place x = some (q : Line)) : place x.abs = some ((|q| : ℚ) : Line) := by
  rw [place_eq]
  show placeUnpacked (Float.Model.pack x.toModel.unpack.abs).unpack = _
  rcases unpack_of_place h with ⟨s, hu, rfl⟩ | ⟨s, m, e, hm, hu, hfits, rfl⟩
  · rw [hu, abs_zero]
    exact congrArg placeUnpacked (unpack_pack_zero .positive)
  · rw [hu, abs_dyadic]
    exact congrArg placeUnpacked (unpack_pack_of_fits hfits)

theorem unpack_of_ending {s : Sign} (h : place x = some (ending s)) : x.toModel.unpack = .infinity s := by
  rw [place_eq] at h
  cases hu : x.toModel.unpack with
  | infinity t =>
    rw [hu] at h
    cases s <;> cases t <;> first | rfl | cases h
  | notANumber => rw [hu] at h; cases h
  | zero | finite =>
    rw [hu] at h
    cases s <;> cases h

theorem place_abs_ending {s : Sign} (h : place x = some (ending s)) : place x.abs = some ⊤ := by
  rw [place_eq]
  show placeUnpacked (Float.Model.pack x.toModel.unpack.abs).unpack = _
  rw [unpack_of_ending h]
  exact congrArg placeUnpacked (unpack_pack_infinity .positive)

theorem place_abs_rangePlace {negative : Bool} {v : ℚ} (h : place x = some (rangePlace negative v))
    (hv : 0 ≤ v) : place x.abs = some (rangePlace false v) := by
  unfold rangePlace at h ⊢
  split
  · rename_i hlt
    rw [if_pos hlt] at h
    rw [place_abs h]
    cases negative <;> simp [abs_of_nonneg hv]
  · rename_i hge
    rw [if_neg hge] at h
    cases negative with
    | false => exact place_abs_ending (s := .positive) h
    | true => exact place_abs_ending (s := .negative) h

/-! ### Differences -/

theorem dyadic_decrease (s : Sign) (m : Nat) {e t : Int} (h : t ≤ e) :
    dyadic (Parts.isNegative s) m e = s.apply (decreaseExponent m e t).1 * 2 ^ t := by
  simp only [decreaseExponent, Nat.shiftLeft_eq]
  cases s with
  | positive => exact scaled_shift m h
  | negative =>
    show (-(m * 2 ^ e) : ℚ) = (-((m * 2 ^ (e - t).toNat : Nat) : Int) : Int) * 2 ^ t
    rw [scaled_shift m h]
    push_cast
    ring

theorem place_normalize (m : Int) {e : Int} (hl : -1074 ≤ e) :
    ∃ negative v, Rounds |m * 2 ^ e| v ∧ placeUnpacked (Float.Model.pack
      (UnpackedFloat.normalize Format.binary64 m e .positive)).unpack = some (rangePlace negative v) := by
  have hsize : |(m : ℚ) * 2 ^ e| = m.natAbs * 2 ^ e := by
    rw [abs_mul, abs_of_pos (show (0 : ℚ) < 2 ^ e by positivity), Nat.cast_natAbs, Int.cast_abs]
  rw [hsize]
  rcases lt_trichotomy m 0 with h | rfl | h
  · obtain ⟨v, hv, hplace⟩ := place_round .negative (m := m.natAbs) (by omega) hl
    rw [UnpackedFloat.normalize, compare_lt_iff_lt.mpr h, show (-m).toNat = m.natAbs by omega]
    exact ⟨true, v, hv, hplace⟩
  · refine ⟨false, 0, by simpa using rounds_zero, ?_⟩
    rw [rangePlace_zero]
    exact congrArg placeUnpacked (unpack_pack_zero .positive)
  · obtain ⟨v, hv, hplace⟩ := place_round .positive (m := m.natAbs) (by omega) hl
    rw [UnpackedFloat.normalize, compare_gt_iff_gt.mpr h, show m.toNat = m.natAbs by omega]
    exact ⟨false, v, hv, hplace⟩

/-- The difference of finite doubles is the exact one, rounded to the nearest. -/
theorem place_sub {q r : ℚ} (hx : place x = some (q : Line)) (hy : place y = some (r : Line)) :
    ∃ negative v, Rounds |q - r| v ∧ place (x - y) = some (rangePlace negative v) := by
  rw [place_eq]
  show ∃ negative v, _ ∧ placeUnpacked (Float.Model.pack
    (UnpackedFloat.sub Format.binary64 x.toModel.unpack y.toModel.unpack)).unpack = some (rangePlace negative v)
  rcases unpack_of_place hx with ⟨s, hu, rfl⟩ | ⟨s, m, e, hm, hu, hfits, rfl⟩ <;>
    rcases unpack_of_place hy with ⟨t, hv, rfl⟩ | ⟨t, m', e', hm', hv, hfits', rfl⟩ <;> rw [hu, hv]
  · refine ⟨false, 0, by simpa using rounds_zero, ?_⟩
    obtain ⟨u, hzero⟩ : ∃ u, UnpackedFloat.sub Format.binary64 (.zero s) (.zero t) = .zero u := by
      cases s <;> cases t <;> exact ⟨_, rfl⟩
    rw [hzero, unpack_pack_zero, rangePlace_zero]
    rfl
  · refine ⟨Parts.isNegative (-t), m' * 2 ^ e', ?_, ?_⟩
    · rw [zero_sub, abs_neg, abs_dyadic]
      exact rounds_of_fits hm' hfits'
    · rw [rangePlace_of_fits _ hfits']
      exact congrArg placeUnpacked (unpack_pack_of_fits hfits')
  · refine ⟨Parts.isNegative s, m * 2 ^ e, ?_, ?_⟩
    · rw [sub_zero, abs_dyadic]
      exact rounds_of_fits hm hfits
    · rw [rangePlace_of_fits _ hfits]
      exact congrArg placeUnpacked (unpack_pack_of_fits hfits)
  · have hl := hfits.least
    have hl' := hfits'.least
    obtain ⟨negative, v, hrounds, hplace⟩ := place_normalize
      (s.apply (decreaseExponent m e (min e e')).1 - t.apply (decreaseExponent m' e' (min e e')).1)
      (by omega : -1074 ≤ min e e')
    refine ⟨negative, v, ?_, hplace⟩
    rw [dyadic_decrease s m (min_le_left e e'), dyadic_decrease t m' (min_le_right e e'), ← sub_mul]
    exact_mod_cast hrounds

theorem place_abs_sub {q r : ℚ} (hx : place x = some (q : Line)) (hy : place y = some (r : Line)) :
    ∃ v, Rounds |q - r| v ∧ place (x - y).abs = some (rangePlace false v) := by
  obtain ⟨negative, v, hv, hplace⟩ := place_sub hx hy
  exact ⟨v, hv, place_abs_rangePlace hplace hv.nonneg⟩

/-- Every finite double is a multiple of the least one. -/
theorem exists_multiple {q : ℚ} (h : place x = some (q : Line)) : ∃ z : Int, q = z * 2 ^ (-1074 : Int) := by
  rcases unpack_of_place h with ⟨s, -, rfl⟩ | ⟨s, m, e, hm, -, hfits, rfl⟩
  · exact ⟨0, by simp⟩
  · exact ⟨_, dyadic_decrease s m hfits.least⟩

theorem rangePlace_mono {v w : ℚ} (h : v ≤ w) : rangePlace false v ≤ rangePlace false w := by
  unfold rangePlace
  by_cases hw : w < 2 ^ (1024 : Int)
  · rw [if_pos hw, if_pos (h.trans_lt hw)]
    exact WithBotTop.coe_le_coe.mpr h
  · rw [if_neg hw]
    exact le_top

theorem place_sub_ending {s : Sign} {q : ℚ} (hx : place x = some (q : Line))
    (hy : place y = some (ending s)) : place (x - y) = some (ending (-s)) := by
  rw [place_eq]
  show placeUnpacked (Float.Model.pack
    (UnpackedFloat.sub Format.binary64 x.toModel.unpack y.toModel.unpack)).unpack = _
  rw [unpack_of_ending hy]
  rcases unpack_of_place hx with ⟨t, hu, -⟩ | ⟨t, m, e, hm, hu, -, -⟩ <;> rw [hu]
  · exact congrArg placeUnpacked (unpack_pack_infinity (-s))
  · exact congrArg placeUnpacked (unpack_pack_infinity (-s))

/-- Finite doubles at different places are the least double apart, or more. -/
theorem least_le_abs_sub {q r : ℚ} (hx : place x = some (q : Line)) (hy : place y = some (r : Line))
    (hne : r ≠ q) : 2 ^ (-1074 : Int) ≤ |q - r| := by
  obtain ⟨z, rfl⟩ := exists_multiple hx
  obtain ⟨z', rfl⟩ := exists_multiple hy
  have hpos : (0 : ℚ) < 2 ^ (-1074 : Int) := zpow_pos (by norm_num) _
  have hone : 1 ≤ |(z : ℚ) - z'| := by
    have : z - z' ≠ 0 := fun h => hne (by rw [sub_eq_zero.mp h])
    exact_mod_cast Int.one_le_abs this
  rw [← sub_mul, abs_mul, abs_of_pos hpos]
  exact le_mul_of_one_le_left hpos.le hone

/-- A finite double is a nonzero distance from every double at another place. -/
theorem place_sub_abs {q : ℚ} (hx : place x = some (q : Line)) (hy : place y = some a) (hne : a ≠ q) :
    ∃ b, place (x - y).abs = some b ∧ ((0 : ℚ) : Line) < b := by
  induction a using WithBotTop.rec with
  | bot => exact ⟨⊤, place_abs_ending (place_sub_ending (s := .negative) hx hy), coe_compares_top 0⟩
  | top => exact ⟨⊤, place_abs_ending (place_sub_ending (s := .positive) hx hy), coe_compares_top 0⟩
  | coe r =>
    obtain ⟨v, hv, hplace⟩ := place_abs_sub hx hy
    have hleast := least_le_abs_sub hx hy fun h => hne (congrArg WithBotTop.coe h)
    have hpos : (0 : ℚ) < v := (zpow_pos (by norm_num) _).trans_le
      (rounds_least.mono hv (by positivity) hleast)
    refine ⟨_, hplace, ?_⟩
    unfold rangePlace
    split
    · exact compares_coe (o := .lt) hpos
    · exact coe_compares_top 0

/-- The nearer of two doubles never seems farther away than the other. -/
theorem abs_sub_le {z t : Float} {q r w : ℚ} {c : Line} (hx : place x = some (q : Line))
    (hy : place y = some (r : Line)) (hz : place z = some (w : Line)) (ht : place t = some c)
    (h : |q - r| ≤ |q - w|) (hle : (x - z).abs ≤ t) : (x - y).abs ≤ t := by
  obtain ⟨v, hv, hplace⟩ := place_abs_sub hx hy
  obtain ⟨v', hv', hplace'⟩ := place_abs_sub hx hz
  rw [le_iff hplace ht]
  refine (rangePlace_mono ?_).trans ((le_iff hplace' ht).mp hle)
  exact hv.mono hv' (abs_nonneg _) h

end PoolScaling.Number

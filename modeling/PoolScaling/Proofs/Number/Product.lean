import PoolScaling.Proofs.Number.Rounding

/-! Products and quotients.

Of positive doubles, the product and the quotient are the exact ones rounded to the
nearest (`place_mul`, `place_div`). A quotient is cut to a whole number of its last
places first; the remainder tells on which side of the middle it lies. What is not
negative is divided by a positive number into something that is not (`place_div_nonneg`). -/
namespace PoolScaling.Number
open Float.Model Float.Model.UnpackedFloat

/-! ### Mantissas and exponents -/

/-- The product of two mantissas, rounded. -/
theorem place_mul_finite (s t : Sign) {m n : Nat} {d e : Int} (hm : 0 < m) (hn : 0 < n)
    (hlong : d + e ≤ max ((m * n).log2 + (d + e) - 52) (-1074)) :
    ∃ v, Rounds (m * 2 ^ d * (n * 2 ^ e)) v ∧
      placeUnpacked (Float.Model.pack
        (UnpackedFloat.mul Format.binary64 (.finite s m d hm) (.finite t n e hn))).unpack =
        some (rangePlace (Parts.isNegative (s * t)) v) := by
  have hproduct : (m : ℚ) * 2 ^ d * (n * 2 ^ e) = (m * n : Nat) * 2 ^ (d + e) := by
    rw [zpow_add₀ (by norm_num)]
    push_cast
    ring
  have hmant : StandsFor (.ofMantissaAndAccuracy (m * n) .exact)
      ((m : ℚ) * 2 ^ d * (n * 2 ^ e) / 2 ^ (d + e)) := by
    rw [hproduct]
    exact mul_div_cancel_right₀ _ (by positivity)
  exact place_roundWithAccuracy (s * t) (by positivity) hmant hlong

/-- A whole quotient with its remainder stands for the exact quotient. -/
theorem standsFor_div (m : Nat) {n : Nat} (hn : 0 < n) :
    StandsFor (.ofMantissaAndAccuracy (m / n) (accuracyOfFraction (m % n) n)) ((m : ℚ) / n) := by
  have hn' : (0 : ℚ) < n := by exact_mod_cast hn
  have hdiv : (m : ℚ) / n = (m / n : Nat) + (m % n : Nat) / n := by
    rw [div_eq_iff hn'.ne', add_mul, div_mul_cancel₀ _ hn'.ne']
    exact_mod_cast (Nat.div_add_mod' m n).symm
  have hlt : ((m % n : Nat) : ℚ) / n < 1 := by
    rw [div_lt_one hn']
    exact_mod_cast Nat.mod_lt m hn
  rw [hdiv]
  unfold accuracyOfFraction
  split
  · rename_i hzero
    simp [StandsFor, ExtendedMantissa.ofMantissaAndAccuracy, hzero]
  · rename_i hpos
    have hpos : (0 : ℚ) < (m % n : Nat) / n := by
      have : (0 : ℚ) < (m % n : Nat) := by exact_mod_cast Nat.pos_of_ne_zero hpos
      positivity
    cases hcompare : compare (2 * (m % n)) n with
    | lt =>
      have hhalf : ((m % n : Nat) : ℚ) / n < 1 / 2 := by
        have h : 2 * (m % n) < n := Nat.compare_eq_lt.mp hcompare
        have h : 2 * ((m % n : Nat) : ℚ) < n := by exact_mod_cast h
        rw [div_lt_div_iff₀ hn' (by norm_num)]
        linarith
      simp only [StandsFor, ExtendedMantissa.ofMantissaAndAccuracy]
      exact ⟨by linarith, by linarith⟩
    | eq =>
      have hhalf : ((m % n : Nat) : ℚ) / n = 1 / 2 := by
        have h : 2 * (m % n) = n := Nat.compare_eq_eq.mp hcompare
        have h : 2 * ((m % n : Nat) : ℚ) = n := by exact_mod_cast h
        rw [div_eq_div_iff hn'.ne' (by norm_num)]
        linarith
      show (m / n : Nat) + ((m % n : Nat) : ℚ) / n = (m / n : Nat) + 1 / 2
      rw [hhalf]
    | gt =>
      have hhalf : 1 / 2 < ((m % n : Nat) : ℚ) / n := by
        have h : n < 2 * (m % n) := Nat.compare_eq_gt.mp hcompare
        have h : (n : ℚ) < 2 * ((m % n : Nat) : ℚ) := by exact_mod_cast h
        rw [div_lt_div_iff₀ (by norm_num) hn']
        linarith
      simp only [StandsFor, ExtendedMantissa.ofMantissaAndAccuracy]
      exact ⟨by linarith, by linarith⟩

/-- The quotient of two mantissas, rounded. -/
theorem place_div_finite (s t : Sign) {m n : Nat} {d e : Int} (hm : 0 < m) (hn : 0 < n) :
    ∃ v, Rounds (m * 2 ^ d / (n * 2 ^ e)) v ∧
      placeUnpacked (Float.Model.pack
        (UnpackedFloat.div Format.binary64 (.finite s m d hm) (.finite t n e hn))).unpack =
        some (rangePlace (Parts.isNegative (s / t)) v) := by
  -- The exponent of the last place that is kept.
  generalize ht : min (d - e) (Format.binary64.targetExponent (totalExponent m d - totalExponent n e)) = p
  have htarget : Format.binary64.targetExponent (totalExponent m d - totalExponent n e) =
      max ((m.log2 : Int) + d - (n.log2 + e) - 53) (-1074) := by
    show max ((m.log2 : Int) + 1 + d - (n.log2 + 1 + e) - (53 : Nat)) (-1074) = _
    omega
  generalize hk : (d - e - p).toNat = k
  have hcore : divCore Format.binary64 m d n e =
      (m * 2 ^ k / n, p, accuracyOfFraction (m * 2 ^ k % n) n) := by
    simp only [divCore, ht, hk, Nat.shiftLeft_eq]
  have hquotient : (m : ℚ) * 2 ^ d / (n * 2 ^ e) / 2 ^ p = (m * 2 ^ k : Nat) / n := by
    have hd : d = k + p + e := by omega
    rw [hd, zpow_add₀ (by norm_num), zpow_add₀ (by norm_num), zpow_natCast]
    push_cast
    field_simp
  have hstands := standsFor_div (m * 2 ^ k) hn
  rw [← hquotient] at hstands
  have hlong : p ≤ max ((m * 2 ^ k / n).log2 + p - 52) (-1074) := by
    by_cases hleast : p ≤ -1074
    · omega
    · have hbits : 2 ^ 52 ≤ m * 2 ^ k / n := by
        rw [Nat.le_div_iff_mul_le hn]
        have hmlow := Nat.log2_self_le hm.ne'
        have hnhigh := (Nat.lt_log2_self (n := n)).le
        calc 2 ^ 52 * n ≤ 2 ^ 52 * 2 ^ (n.log2 + 1) := Nat.mul_le_mul_left _ hnhigh
          _ = 2 ^ (n.log2 + 53) := by rw [← pow_add]; congr 1; omega
          _ ≤ 2 ^ (m.log2 + k) := Nat.pow_le_pow_right (by norm_num) (by omega)
          _ = 2 ^ m.log2 * 2 ^ k := pow_add ..
          _ ≤ m * 2 ^ k := Nat.mul_le_mul_right _ hmlow
      have hlog : 52 ≤ (m * 2 ^ k / n).log2 := (Nat.le_log2 (by omega)).mpr hbits
      omega
  obtain ⟨v, hrounds, hplace⟩ := place_roundWithAccuracy (s / t) (by positivity) hstands hlong
  refine ⟨v, hrounds, ?_⟩
  show placeUnpacked (Float.Model.pack (match divCore Format.binary64 m d n e with
    | (m, e, acc) => roundWithAccuracy Format.binary64 (s / t) m e acc)).unpack = _
  rw [hcore]
  exact hplace

/-! ### Doubles -/

variable {x y : Float} {q r : ℚ}

/-- A double at a positive rational has a mantissa and an exponent. -/
theorem unpack_of_pos (hx : place x = some (q : Line)) (hq : 0 < q) :
    ∃ m e hm, x.toModel.unpack = .finite .positive m e hm ∧ Fits m e ∧ q = m * 2 ^ e := by
  rcases unpack_of_place hx with ⟨s, -, rfl⟩ | ⟨s, m, e, hm, hu, hfits, rfl⟩
  · exact absurd hq (lt_irrefl 0)
  · cases s with
    | positive => exact ⟨m, e, hm, hu, hfits, rfl⟩
    | negative =>
      have hneg : dyadic true m e < 0 := neg_lt_zero.mpr (dyadic_pos hm)
      exact absurd hq hneg.le.not_gt

/-- The product of positive doubles is rounded to the nearest. -/
theorem place_mul (hx : place x = some (q : Line)) (hy : place y = some (r : Line)) (hq : 0 < q)
    (hr : 0 < r) : ∃ v, Rounds (q * r) v ∧ place (x * y) = some (rangePlace false v) := by
  obtain ⟨m, d, hm, hux, hxfits, rfl⟩ := unpack_of_pos hx hq
  obtain ⟨n, e, hn, huy, hyfits, rfl⟩ := unpack_of_pos hy hr
  have hlong : d + e ≤ max ((m * n).log2 + (d + e) - 52) (-1074) := by
    have hbits : 2 ^ 52 ≤ m * n ∨ d + e ≤ -1074 := by
      rcases hxfits.full with hfull | hd
      · exact .inl (hfull.trans (Nat.le_mul_of_pos_right m hn))
      · rcases hyfits.full with hfull | he
        · exact .inl (hfull.trans (Nat.le_mul_of_pos_left n hm))
        · exact .inr (by omega)
    rcases hbits with hbits | hleast
    · have hlog : 52 ≤ (m * n).log2 := (Nat.le_log2 (by omega)).mpr hbits
      omega
    · omega
  obtain ⟨v, hrounds, hplace⟩ := place_mul_finite .positive .positive hm hn hlong
  refine ⟨v, hrounds, ?_⟩
  rw [place_eq]
  show placeUnpacked (Float.Model.pack
    (UnpackedFloat.mul Format.binary64 x.toModel.unpack y.toModel.unpack)).unpack = _
  rw [hux, huy]
  exact hplace

/-- The quotient of positive doubles is rounded to the nearest. -/
theorem place_div (hx : place x = some (q : Line)) (hy : place y = some (r : Line)) (hq : 0 < q)
    (hr : 0 < r) : ∃ v, Rounds (q / r) v ∧ place (x / y) = some (rangePlace false v) := by
  obtain ⟨m, d, hm, hux, -, rfl⟩ := unpack_of_pos hx hq
  obtain ⟨n, e, hn, huy, -, rfl⟩ := unpack_of_pos hy hr
  obtain ⟨v, hrounds, hplace⟩ := place_div_finite .positive .positive hm hn (d := d) (e := e)
  refine ⟨v, hrounds, ?_⟩
  rw [place_eq]
  show placeUnpacked (Float.Model.pack
    (UnpackedFloat.div Format.binary64 x.toModel.unpack y.toModel.unpack)).unpack = _
  rw [hux, huy]
  exact hplace

/-- What is not negative, infinity included, is divided by a positive number into
something that is not negative. -/
theorem place_div_nonneg (hx : 0.0 ≤ x) (hy : place y = some (r : Line)) (hr : 0 < r) :
    ∃ b, place (x / y) = some b ∧ ((0 : ℚ) : Line) ≤ b := by
  obtain ⟨z, a, hz, ha, hle⟩ := places_of_le hx
  rw [place_zero] at hz
  cases hz
  obtain ⟨n, e, hn, huy, -, rfl⟩ := unpack_of_pos hy hr
  have hdiv : place (x / y) = placeUnpacked (Float.Model.pack
      (UnpackedFloat.div Format.binary64 x.toModel.unpack y.toModel.unpack)).unpack := place_eq _
  have hplace := place_eq x
  cases hux : x.toModel.unpack with
  | notANumber =>
    rw [ha, hux] at hplace
    cases hplace
  | infinity s =>
    rw [ha, hux] at hplace
    cases s with
    | negative =>
      cases hplace
      exact absurd hle (not_le.mpr (WithBot.bot_lt_coe _))
    | positive =>
      rw [hdiv, hux, huy]
      exact ⟨⊤, congrArg placeUnpacked (unpack_pack_infinity .positive), le_top⟩
  | zero s =>
    have hzero : UnpackedFloat.div Format.binary64 (.zero s) (.finite .positive n e hn) = .zero (s / .positive) := by
      cases s <;> rfl
    rw [hdiv, hux, huy, hzero, unpack_pack_zero]
    exact ⟨_, rfl, le_refl _⟩
  | finite s m d hm =>
    rw [ha, hux] at hplace
    cases hplace
    cases s with
    | negative =>
      have hneg : dyadic true m d < 0 := neg_lt_zero.mpr (dyadic_pos hm)
      exact absurd hle (not_le.mpr (WithBotTop.coe_lt_coe.mpr hneg))
    | positive =>
      obtain ⟨v, hrounds, hquotient⟩ := place_div ha hy (dyadic_pos hm) hr
      refine ⟨_, hquotient, ?_⟩
      rw [← rangePlace_zero false]
      exact rangePlace_mono hrounds.nonneg

end PoolScaling.Number

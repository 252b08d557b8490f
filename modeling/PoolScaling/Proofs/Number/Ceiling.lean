import PoolScaling.Decision
import PoolScaling.Proofs.Number.Rounding

/-! Whole sizes.

`ceil` finds the least whole number that is not below a finite double, whatever
its size (`place_ceil`). A demand is rounded up to that number, held between zero
and the largest pool (`toNat_roundUp`), and the double of a desired size is that
size (`place_target`). -/
namespace PoolScaling

namespace Number
open Float.Model Float.Model.UnpackedFloat

variable {x : Float} {q : ℚ}

theorem parts_of_place (h : place x = some (q : Line)) :
    ∃ negative m e, Parts.of x = .finite negative m e ∧ dyadic negative m e = q ∧ m < 2 ^ 53 := by
  have hfits : ∀ negative m e, Parts.of x = .finite negative m e → m < 2 ^ 53 := by
    intro negative m e hparts
    unfold Parts.of at hparts
    split at hparts <;> cases hparts
    · decide
    · rename_i hu
      exact (unpack_fits hu).lt
  unfold place at h
  split at h
  · cases h
  · cases h
  · cases h
  · rename_i negative m e hparts
    exact ⟨negative, m, e, hparts, WithBotTop.coe_injective (Option.some.inj h),
      hfits _ _ _ hparts⟩

/-- The whole part of a fraction rounded up. -/
theorem neg_ediv_neg (m : Nat) {u : Nat} (h : 0 < u) :
    -(-(m : Int) / u) = (if m % u != 0 then m / u + 1 else m / u : Nat) := by
  have hsign : (u : Int).sign = 1 := Int.sign_eq_one_of_pos (by omega)
  rw [Int.neg_ediv, hsign]
  by_cases h0 : m % u = 0
  · rw [if_pos (Int.natCast_dvd_natCast.mpr (Nat.dvd_of_mod_eq_zero h0)), h0]
    simp
  · rw [if_neg fun hdvd => h0 (Nat.mod_eq_zero_of_dvd (Int.natCast_dvd_natCast.mp hdvd)),
      if_pos (bne_iff_ne.mpr h0)]
    push_cast
    ring

theorem dyadic_ofNat (negative : Bool) (m k : Nat) :
    dyadic negative m (.ofNat k) = ((if negative then -(m * 2 ^ k) else m * 2 ^ k : Int) : ℚ) := by
  cases negative <;> simp [dyadic]

theorem dyadic_negSucc (negative : Bool) (m k : Nat) :
    dyadic negative m (.negSucc k) =
      ((if negative then -m else m : Int) : ℚ) / ((2 ^ (k + 1) : Nat) : ℚ) := by
  cases negative <;> simp [dyadic, zpow_negSucc, div_eq_mul_inv]

/-- Rounding up a finite double is exact. -/
theorem place_ceil (h : place x = some (q : Line)) : place (ceil x) = some ((⌈q⌉ : ℚ) : Line) := by
  obtain ⟨negative, m, e, hparts, rfl, hlt⟩ := parts_of_place h
  unfold ceil roundWith
  rw [hparts]
  cases e with
  | ofNat k => rw [h, dyadic_ofNat, Int.ceil_intCast]
  | negSucc k =>
    have hsize : m / 2 ^ (k + 1) ≤ m / 2 :=
      Nat.div_le_div_left (Nat.le_self_pow (Nat.succ_ne_zero k) 2) (by decide)
    show place (signed negative (if !negative && m % 2 ^ (k + 1) != 0 then m / 2 ^ (k + 1) + 1
      else m / 2 ^ (k + 1))) = _
    rw [place_signed _ (by split <;> omega), dyadic_negSucc, Rat.ceil_intCast_div_natCast]
    cases negative with
    | false =>
      congr 3
      exact congrArg Int.cast (neg_ediv_neg m (by positivity)).symm
    | true =>
      congr 3
      rw [if_pos rfl, if_pos rfl, neg_neg]
      exact_mod_cast rfl

/-- A whole double is read as the number it denotes. -/
theorem toNat?_of_place {n : Nat} (h : place x = some ((n : ℚ) : Line)) : toNat? x = some n := by
  obtain ⟨negative, m, e, hparts, hn, -⟩ := parts_of_place h
  unfold toNat?
  rw [hparts]
  cases e with
  | ofNat k =>
    rw [dyadic_ofNat] at hn
    have hn : (if negative then -(m * 2 ^ k : Nat) else (m * 2 ^ k : Nat) : Int) = n := by
      exact_mod_cast hn
    cases negative with
    | false =>
      have : m * 2 ^ k = n := Int.ofNat_inj.mp hn
      simp [magnitude, this]
    | true =>
      have h0 : m * 2 ^ k = 0 := by
        rw [if_pos rfl] at hn
        omega
      have hm : m = 0 := (Nat.mul_eq_zero.mp h0).resolve_right (by positivity)
      have : n = 0 := by
        rw [if_pos rfl] at hn
        omega
      simp [magnitude, hm, this]
  | negSucc k =>
    have hpos : 0 < 2 ^ (k + 1) := by positivity
    rw [dyadic_negSucc, div_eq_iff (by positivity)] at hn
    have hn : (if negative then -m else m : Int) = (n * 2 ^ (k + 1) : Nat) := by exact_mod_cast hn
    cases negative with
    | false =>
      have : m = n * 2 ^ (k + 1) := Int.ofNat_inj.mp hn
      simp [magnitude, this, Nat.mul_div_cancel _ hpos]
    | true =>
      have h0 : n * 2 ^ (k + 1) = 0 := by
        rw [if_pos rfl] at hn
        omega
      have : n = 0 := (Nat.mul_eq_zero.mp h0).resolve_right (by positivity)
      have hm : m = 0 := by
        rw [if_pos rfl] at hn
        omega
      simp [magnitude, hm, this]

/-- A double is held between two others as its place is. -/
theorem place_confine {a lo hi : Line} {y z : Float} (hx : place x = some a) (hy : place y = some lo)
    (hz : place z = some hi) (h : lo ≤ hi) : place (confine x y z) = some (min hi (max lo a)) := by
  unfold confine
  split
  · rename_i hlt
    rw [hy, max_eq_left ((lt_iff hx hy).mp hlt).le, min_eq_right h]
  · rename_i hge
    have hge : lo ≤ a := le_of_not_gt fun hlt => hge ((lt_iff hx hy).mpr hlt)
    rw [max_eq_right hge]
    split
    · rename_i hlt
      rw [hz, min_eq_left ((lt_iff hz hx).mp hlt).le]
    · rename_i hle
      rw [hx, min_eq_right (le_of_not_gt fun hlt => hle ((lt_iff hz hx).mpr hlt))]

end Number

open Number

theorem place_target (p : PoolSize) : place p.target = some ((p.desired.toNat : ℚ) : Line) :=
  place_signed false (by have := p.desired.toNat_lt; omega)

namespace Decision

variable {d : Float} {q : ℚ}

/-- What a demand is rounded up to is read as a whole number, within the range of sizes. -/
theorem toNat?_bounded (h : place d = some (q : Line)) :
    toNat? (confine (ceil d) 0.0 (signed false largestPool)) = some (min largestPool ⌈q⌉.toNat) := by
  have hlargest : place (signed false largestPool) = some ((largestPool : ℚ) : Line) :=
    place_signed false (by decide)
  have hmax : ((⌈q⌉.toNat : Int) : ℚ) = max 0 (⌈q⌉ : ℚ) := by
    rw [Int.toNat_eq_max, max_comm]
    push_cast
    rfl
  refine toNat?_of_place ?_
  rw [place_confine (place_ceil h) place_zero hlargest
    (WithBotTop.coe_le_coe.mpr (Nat.cast_nonneg _))]
  rw [Nat.cast_min, ← Int.cast_natCast ⌈q⌉.toNat, hmax]
  rfl

/-- A demand is rounded up and held between zero and the largest pool. -/
theorem toNat_roundUp (h : place d = some (q : Line)) :
    (roundUp d).toNat = min largestPool ⌈q⌉.toNat := by
  have hroundUp : roundUp d = (min largestPool ⌈q⌉.toNat).toUInt32 := by
    unfold roundUp
    simp only [toNat?_bounded h, Option.getD_some]
  rw [hroundUp, Nat.toUInt32_eq, UInt32.toNat_ofNat', Nat.mod_eq_of_lt]
  exact (min_le_left _ _).trans_lt (by decide)

/-- The double of a size is rounded up to the size. -/
theorem roundUp_target (p : PoolSize) : roundUp p.target = p.desired := by
  have hlt := p.desired.toNat_lt
  have : largestPool = 2 ^ 32 - 1 := rfl
  refine UInt32.toNat_inj.mp ?_
  rw [toNat_roundUp (place_target p), Int.ceil_natCast, Int.toNat_natCast]
  omega

/-- A demand that is rounded to less than the desired size lies below it. -/
theorem ceil_lt_of_roundUp_lt {p : PoolSize} (h : place d = some (q : Line)) (hlt : roundUp d < p.desired) :
    ceil d < p.target := by
  have hlt : (roundUp d).toNat < p.desired.toNat := hlt
  have := p.desired.toNat_lt
  have : largestPool = 2 ^ 32 - 1 := rfl
  rw [toNat_roundUp h] at hlt
  refine (lt_iff (place_ceil h) (place_target p)).mpr (compares_coe (o := .lt) ?_)
  show (⌈q⌉ : ℚ) < p.desired.toNat
  have : ⌈q⌉ < p.desired.toNat := by omega
  exact_mod_cast this

theorem roundUp_of_ofDemand {pool : Option PoolSize} {n : UInt32}
    (h : ofDemand (some d) pool = .scaleTo n) : roundUp d = n := by
  simp only [ofDemand] at h
  split at h
  · cases h
  · exact scaleTo.inj h

end Decision

end PoolScaling

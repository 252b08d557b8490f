import PoolScaling.Number.Shortest
import PoolScaling.Proofs.Number.Decimal

/-! Shortest decimals, read back.

The decimal that `shortest` takes for a double lies in the interval of those that round
to it (`contains_shortest`), so it is read back as the double. One of seventeen digits is
always there: on the last grid that is tried, two neighbours of the double cannot both
miss the interval, since the grid is finer than the doubles. -/
namespace PoolScaling.Number

variable {m k c d : Nat} {e : Int} {q : ℚ} {tie : Tie}

/-! ### Intervals -/

namespace Interval

/-- Whether a rational lies in the interval. -/
def Contains (i : Interval) (q : ℚ) : Prop :=
  if i.closed then i.low * 2 ^ i.unit ≤ q ∧ q ≤ i.high * 2 ^ i.unit
  else i.low * 2 ^ i.unit < q ∧ q < i.high * 2 ^ i.unit

theorem Contains.bounds {i : Interval} (h : i.Contains q) :
    i.low * 2 ^ i.unit ≤ q ∧ q ≤ i.high * 2 ^ i.unit := by
  unfold Contains at h
  split at h
  · exact h
  · exact ⟨h.1.le, h.2.le⟩

theorem contains_of_lt {i : Interval} (hlow : i.low * 2 ^ i.unit < q) (hhigh : q < i.high * 2 ^ i.unit) :
    i.Contains q := by
  unfold Contains
  split
  · exact ⟨hlow.le, hhigh.le⟩
  · exact ⟨hlow, hhigh⟩

/-- The two scales multiply the numbers of the interval and those of the grid alike. -/
theorem exists_scale (i : Interval) (k : Int) :
    ∃ s : ℚ, 0 < s ∧ (∀ n : Nat, (n * (i.scales k).1 : Nat) = n * 2 ^ i.unit * s) ∧
      ∀ c : Nat, (c * (i.scales k).2 : Nat) = (c : ℚ) * 10 ^ k * s := by
  have hpow : ∀ b n : Nat, Nat.pow b n = b ^ n := fun _ _ => rfl
  refine ⟨2 ^ (-i.unit).toNat * 10 ^ (-k).toNat, by positivity, fun n => ?_, fun c => ?_⟩
  · rw [zpow_eq_div (b := 2) (by norm_num)]
    simp only [scales, hpow]
    push_cast
    field_simp
  · rw [zpow_eq_div (b := 10) (by norm_num)]
    simp only [scales, hpow]
    push_cast
    field_simp

theorem holds_iff {i : Interval} {k : Int} : i.holds k c = true ↔ i.Contains (c * 10 ^ k) := by
  obtain ⟨s, hs, hnumber, hgrid⟩ := i.exists_scale k
  unfold holds Contains
  dsimp only
  rw [apply_ite (· = true)]
  simp only [Bool.and_eq_true, decide_eq_true_eq]
  rw [← Nat.cast_le (α := ℚ), ← Nat.cast_le (α := ℚ), ← Nat.cast_lt (α := ℚ), ← Nat.cast_lt (α := ℚ),
    hnumber, hnumber, hgrid, mul_le_mul_iff_left₀ hs, mul_le_mul_iff_left₀ hs, mul_lt_mul_iff_left₀ hs,
    mul_lt_mul_iff_left₀ hs]

/-- A double lies between two neighbours on every grid. -/
theorem value_between (i : Interval) (k : Int) :
    let below := i.value * (i.scales k).1 / (i.scales k).2
    (below : ℚ) * 10 ^ k ≤ i.value * 2 ^ i.unit ∧ i.value * 2 ^ i.unit < (below + 1 : Nat) * (10 : ℚ) ^ k := by
  intro below
  obtain ⟨s, hs, hnumber, hgrid⟩ := i.exists_scale k
  have hpos : 0 < (i.scales k).2 := Nat.mul_pos (Nat.pow_pos (by decide)) (Nat.pow_pos (by decide))
  constructor
  · rw [← mul_le_mul_iff_left₀ hs, ← hnumber, ← hgrid, Nat.cast_le]
    exact Nat.div_mul_le_self _ _
  · rw [← mul_lt_mul_iff_left₀ hs, ← hnumber, ← hgrid, Nat.cast_lt]
    rw [mul_comm (_ + 1)]
    exact Nat.lt_mul_div_succ _ hpos

theorem contains_of_nearest? {i : Interval} {k : Int} (h : i.nearest? tie k = some c) :
    i.Contains (c * 10 ^ k) := by
  rw [← holds_iff]
  unfold nearest? at h
  dsimp only at h
  split at h
  · cases h
  · cases h
    assumption
  · cases h
    assumption
  · rename_i hbelow habove
    split at h
    · cases h
      exact hbelow
    split at h
    · cases h
      exact habove
    cases tie with
    | up =>
      cases h
      exact habove
    | even =>
      dsimp only at h
      split at h <;> cases h
      · exact hbelow
      · exact habove

/-- Where no point of a grid is taken, the two neighbours miss the interval. -/
theorem missed_of_nearest? {i : Interval} {k : Int} (h : i.nearest? tie k = none) :
    let below := i.value * (i.scales k).1 / (i.scales k).2
    ¬ i.Contains (below * 10 ^ k) ∧ ¬ i.Contains ((below + 1 : Nat) * 10 ^ k) := by
  intro below
  rw [← holds_iff, ← holds_iff]
  unfold nearest? at h
  dsimp only at h
  split at h
  · rename_i hbelow habove
    exact ⟨by simp [below, hbelow], by simp [below, habove]⟩
  · cases h
  · cases h
  · split at h
    · cases h
    split at h
    · cases h
    cases tie with
    | up => cases h
    | even =>
      dsimp only at h
      split at h <;> cases h

/-! ### The interval of a double -/

/-- Rounding at a known last place. -/
theorem rounds_of_lastPlace {p : Int} (hplace : lastPlace q = p) (hlow : (m - 1 / 2) * 2 ^ p ≤ q)
    (hhigh : q ≤ (m + 1 / 2) * 2 ^ p)
    (htie : q = (m - 1 / 2) * 2 ^ p ∨ q = (m + 1 / 2) * 2 ^ p → Even m) : Rounds q (m * 2 ^ p) := by
  have hpow : (0 : ℚ) < 2 ^ p := by positivity
  refine ⟨m, by rw [hplace], ?_, fun htied => htie ?_⟩
  · rw [hplace, abs_le]
    constructor
    · linarith [(le_div_iff₀ hpow).mpr hlow]
    · linarith [(div_le_iff₀ hpow).mpr hhigh]
  · rw [hplace] at htied
    rcases abs_eq (by norm_num) |>.mp htied with hup | hdown
    · right
      rw [← div_eq_iff hpow.ne']
      linarith
    · left
      rw [← div_eq_iff hpow.ne']
      linarith

theorem unit_of (m : Nat) (e : Int) : (2 : ℚ) ^ (Interval.of m e).unit = 2 ^ e / 4 := by
  show (2 : ℚ) ^ (e - 2) = _
  rw [zpow_sub₀ (by norm_num)]
  norm_num

theorem high_of (m : Nat) (e : Int) : ((Interval.of m e).high : ℚ) = 4 * m + 2 := by
  show ((4 * m + 2 : Nat) : ℚ) = _
  push_cast
  rfl

theorem low_of (hm : 0 < m) (e : Int) :
    ((Interval.of m e).low : ℚ) = 4 * m - if m = 2 ^ 52 ∧ -1074 < e then 1 else 2 := by
  have hcast : ∀ n ≤ 4 * m, ((4 * m - n : Nat) : ℚ) = 4 * m - n := by
    intro n hn
    rw [Nat.cast_sub hn]
    push_cast
    rfl
  by_cases hborder : m = 2 ^ 52 ∧ -1074 < e
  · rw [if_pos hborder, show (Interval.of m e).low = 4 * m - 1 from if_pos hborder, hcast 1 (by omega),
      Nat.cast_one]
  · rw [if_neg hborder, show (Interval.of m e).low = 4 * m - 2 from if_neg hborder, hcast 2 (by omega),
      Nat.cast_ofNat]

/-- The ends of the interval are halfway to the next doubles, and of an even mantissa if
they belong to it. -/
theorem bounds_of_contains (hm : 0 < m) (h : (Interval.of m e).Contains q) :
    (m - 1 / 2) * 2 ^ e ≤ q ∧ q ≤ (m + 1 / 2) * 2 ^ e ∧
      (q = (m - 1 / 2) * 2 ^ e ∨ q = (m + 1 / 2) * 2 ^ e → Even m) ∧
      (m = 2 ^ 52 ∧ -1074 < e → (m - 1 / 4) * 2 ^ e ≤ q) := by
  have hpow : (0 : ℚ) < 2 ^ e := by positivity
  have hbounds := h.bounds
  rw [unit_of, high_of, low_of hm] at hbounds
  by_cases hborder : m = 2 ^ 52 ∧ -1074 < e
  · rw [if_pos hborder] at hbounds
    refine ⟨by linarith, by linarith, fun _ => ?_, fun _ => by linarith⟩
    rw [hborder.1]
    exact ⟨2 ^ 51, by norm_num⟩
  · rw [if_neg hborder] at hbounds
    refine ⟨by linarith, by linarith, fun hend => ?_, fun h => absurd h hborder⟩
    by_contra hodd
    have hopen : (Interval.of m e).closed = false := by
      show (m % 2 == 0) = false
      simpa [Nat.even_iff] using hodd
    unfold Contains at h
    rw [hopen, if_neg (by decide), unit_of, high_of, low_of hm, if_neg hborder] at h
    rcases hend with hend | hend <;> linarith

theorem pos_of_contains (hm : 0 < m) (h : (Interval.of m e).Contains q) : 0 < q := by
  have hmpos : (1 : ℚ) ≤ m := by exact_mod_cast hm
  exact (mul_pos (by linarith) (by positivity)).trans_le (bounds_of_contains hm h).1

/-- What lies in the interval of a double rounds to it. -/
theorem rounds_of_contains (hm : 0 < m) (hfits : Fits m e) (h : (Interval.of m e).Contains q) :
    Rounds q (m * 2 ^ e) := by
  have hpow : (0 : ℚ) < 2 ^ e := by positivity
  have hmpos : (1 : ℚ) ≤ m := by exact_mod_cast hm
  have htop : (m : ℚ) + 1 ≤ 2 ^ 53 := by exact_mod_cast hfits.lt
  obtain ⟨hlow, hhigh, htie, hborder⟩ := bounds_of_contains hm h
  have hq : 0 < q := pos_of_contains hm h
  have hlt : q < 2 ^ (53 + e) := by
    rw [zpow_add₀ (by norm_num)]
    refine hhigh.trans_lt (mul_lt_mul_of_pos_right ?_ hpow)
    norm_num at htop ⊢
    linarith
  by_cases hbelow : m = 2 ^ 52 ∧ -1074 < e ∧ q < m * 2 ^ e
  · -- Below a power of two the last place is half as large.
    obtain ⟨hmax, hleast, hless⟩ := hbelow
    have hhalf : (2 : ℚ) ^ e = 2 ^ (e - 1) * 2 := by
      rw [← zpow_add_one₀ (by norm_num), sub_add_cancel]
    have hlow := hborder ⟨hmax, hleast⟩
    have hplace : lastPlace q = e - 1 := by
      have hmax : (m : ℚ) = 2 ^ 52 := by exact_mod_cast hmax
      refine lastPlace_of_bounds (by omega) ?_ ?_
      · rw [zpow_add₀ (by norm_num)]
        rw [hhalf, hmax] at hlow
        norm_num at hlow ⊢
        linarith
      · rw [zpow_add₀ (by norm_num)]
        rw [hhalf, hmax] at hless
        norm_num at hless ⊢
        linarith
    have hrounds : Rounds q ((2 ^ 53 : Nat) * 2 ^ (e - 1)) := by
      have hmax : (m : ℚ) = 2 ^ 52 := by exact_mod_cast hmax
      refine rounds_of_lastPlace hplace ?_ ?_ fun _ => ⟨2 ^ 52, by norm_num⟩
      · rw [hhalf, hmax] at hlow
        push_cast
        linarith
      · rw [hhalf, hmax] at hless
        have : (0 : ℚ) < 2 ^ (e - 1) := by positivity
        push_cast
        linarith
    convert hrounds using 1
    rw [hmax, hhalf]
    push_cast
    ring
  · have hplace : lastPlace q = e := by
      rcases hfits.least.eq_or_lt with rfl | hleast
      · exact lastPlace_of_lt hq hlt
      · refine lastPlace_of_bounds hfits.least ?_ hlt
        rw [zpow_add₀ (by norm_num)]
        have hfull : 2 ^ 52 ≤ m := hfits.full.resolve_right hleast.ne'
        rcases hfull.eq_or_lt with hmax | hgt
        · have hge : m * 2 ^ e ≤ q := not_lt.mp fun hless => hbelow ⟨hmax.symm, hleast, hless⟩
          refine le_of_eq_of_le ?_ hge
          rw [← hmax]
          norm_num
        · have hgt : (2 : ℚ) ^ (52 : Int) + 1 ≤ m := by exact_mod_cast hgt
          refine le_trans (mul_le_mul_of_nonneg_right ?_ hpow.le) hlow
          linarith
    exact rounds_of_lastPlace hplace hlow hhigh htie

end Interval

/-! ### Grids -/

/-- The leading digit of a number is not above it. -/
theorem ten_pow_leadingExponent_le (hm : 0 < m) : (10 : ℚ) ^ leadingExponent m e ≤ m * 2 ^ e := by
  have hpow : ∀ b n : Nat, Nat.pow b n = b ^ n := fun _ _ => rfl
  generalize hsize : m * 2 ^ e.toNat = size
  generalize hunit : 2 ^ (-e).toNat = unit
  have hsizepos : 0 < size := by rw [← hsize]; positivity
  have hunitpos : 0 < unit := by rw [← hunit]; positivity
  have hvalue : (m : ℚ) * 2 ^ e = size / unit := by
    rw [zpow_eq_div (by norm_num), ← hsize, ← hunit]
    push_cast
    ring
  have hunit' : (0 : ℚ) < unit := by exact_mod_cast hunitpos
  unfold leadingExponent
  simp only [hpow, hsize, hunit]
  rw [hvalue, le_div_iff₀ hunit']
  split
  · rename_i hle
    have hpos : 0 < size / unit := Nat.div_pos hle hunitpos
    have hdigits := digitCount_pos hpos
    have hten := ten_pow_digitCount_le hpos
    rw [show (digitCount (size / unit) : Int) - 1 = (digitCount (size / unit) - 1 : Nat) by omega, zpow_natCast]
    exact_mod_cast (Nat.le_div_iff_mul_le hunitpos).mp hten
  · have hlt : unit - 1 < 10 ^ digitCount ((unit - 1) / size) * size :=
      (Nat.div_lt_iff_lt_mul hsizepos).mp (lt_ten_pow_digitCount _)
    have hle : unit ≤ size * 10 ^ digitCount ((unit - 1) / size) := by
      rw [mul_comm]
      omega
    rw [zpow_neg, zpow_natCast, inv_mul_le_iff₀ (by positivity), mul_comm]
    exact_mod_cast hle

theorem stripZeros_eq (fuel n : Nat) (k : Int) :
    ((stripZeros fuel n k).1 : ℚ) * 10 ^ (stripZeros fuel n k).2 = n * 10 ^ k := by
  induction fuel generalizing n k with
  | zero => rfl
  | succ fuel ih =>
    rw [stripZeros]
    split
    · rename_i hzero
      have hdiv : (n : ℚ) = (n / 10 : Nat) * 10 := by
        exact_mod_cast (Nat.div_mul_cancel (Nat.dvd_of_mod_eq_zero hzero)).symm
      rw [ih, hdiv, zpow_add_one₀ (by norm_num)]
      ring
    · rfl

/-- On the last grid that is tried, a neighbour of the double lies in its interval. -/
theorem nearest?_isSome (hm : 0 < m) (hlt : m < 2 ^ 53) (tie : Tie) :
    ((Interval.of m e).nearest? tie (leadingExponent m e - 16)).isSome := by
  rw [Option.isSome_iff_ne_none]
  intro hnone
  obtain ⟨hbelow, habove⟩ := Interval.missed_of_nearest? hnone
  obtain ⟨hle, hgt⟩ := (Interval.of m e).value_between (leadingExponent m e - 16)
  generalize (Interval.of m e).value * ((Interval.of m e).scales (leadingExponent m e - 16)).1 /
    ((Interval.of m e).scales (leadingExponent m e - 16)).2 = below at hbelow habove hle hgt
  have hpow : (0 : ℚ) < 2 ^ e := by positivity
  have hfine : (10 : ℚ) ^ (leadingExponent m e - 16) * 10 ^ 16 ≤ m * 2 ^ e := by
    rw [← zpow_natCast, ← zpow_add₀ (by norm_num), Nat.cast_ofNat, sub_add_cancel]
    exact ten_pow_leadingExponent_le hm
  generalize (10 : ℚ) ^ (leadingExponent m e - 16) = step at hbelow habove hle hgt hfine
  have hvalue : ((Interval.of m e).value : ℚ) = 4 * m := by
    show ((4 * m : Nat) : ℚ) = _
    push_cast
    rfl
  have hlow := Interval.low_of hm e
  -- Each neighbour is outside of the interval on its own side.
  have houtside : below * step ≤ (Interval.of m e).low * (2 ^ e / 4) := by
    by_contra h
    refine hbelow (Interval.contains_of_lt ?_ ?_)
    · rw [Interval.unit_of]
      exact not_le.mp h
    · rw [Interval.unit_of, Interval.high_of]
      rw [hvalue, Interval.unit_of] at hle
      linarith
  have houtside' : (Interval.of m e).high * (2 ^ e / 4) ≤ (below + 1 : Nat) * step := by
    by_contra h
    refine habove (Interval.contains_of_lt ?_ ?_)
    · rw [Interval.unit_of, hlow]
      rw [hvalue, Interval.unit_of] at hgt
      split <;> linarith
    · rw [Interval.unit_of]
      exact not_le.mp h
  rw [hlow] at houtside
  rw [Interval.high_of] at houtside'
  push_cast at houtside'
  have hwide : (m : ℚ) * 2 ^ e < (2 ^ 53 : Nat) * 2 ^ e :=
    mul_lt_mul_of_pos_right (by exact_mod_cast hlt) hpow
  push_cast at hwide
  split at houtside
  · rename_i hborder
    rw [hborder.1] at hfine
    push_cast at hfine
    linarith
  · linarith

/-- The decimal that is taken for a double lies in its interval. -/
theorem contains_shortest (hm : 0 < m) (hlt : m < 2 ^ 53) (tie : Tie) :
    (Interval.of m e).Contains ((shortest tie m e).1 * 10 ^ (shortest tie m e).2) := by
  generalize hgrids : ((List.range 17).map fun n : Nat => leadingExponent m e - n) = grids
  generalize hattempt : (fun k => ((Interval.of m e).nearest? tie k).map fun c => (c, k)) = attempt
  have hhit : (grids.findSome? attempt).isSome := by
    rw [List.findSome?_isSome_iff]
    refine ⟨leadingExponent m e - 16, ?_, ?_⟩
    · rw [← hgrids]
      exact List.mem_map.mpr ⟨16, by decide, rfl⟩
    · rw [← hattempt, Option.isSome_map]
      exact nearest?_isSome hm hlt tie
  obtain ⟨⟨c, k⟩, hfound⟩ := Option.isSome_iff_exists.mp hhit
  obtain ⟨k', -, hnearest⟩ := List.exists_of_findSome?_eq_some hfound
  rw [← hattempt, Option.map_eq_some_iff] at hnearest
  obtain ⟨c', hnearest, hpair⟩ := hnearest
  cases hpair
  have hshortest : shortest tie m e = stripZeros 17 c k := by
    unfold shortest
    dsimp only
    rw [hgrids, hattempt, hfound]
    rfl
  rw [hshortest, stripZeros_eq]
  exact Interval.contains_of_nearest? hnearest

theorem shortest_pos (hm : 0 < m) (hlt : m < 2 ^ 53) (tie : Tie) : 0 < (shortest tie m e).1 := by
  have hpos := Interval.pos_of_contains hm (contains_shortest hm hlt tie (e := e))
  exact_mod_cast pos_of_mul_pos_left hpos (by positivity)

/-! ### Reading -/

/-- A decimal in the interval of a double is read as the double. -/
theorem place_ofDecimal_of_contains {n : Nat} {k : Int} (hm : 0 < m) (hfits : Fits m e)
    (h : (Interval.of m e).Contains (n * 10 ^ k)) :
    place (ofDecimal n k) = some ((m * 2 ^ e : ℚ) : Line) := by
  have hmpos : (1 : ℚ) ≤ m := by exact_mod_cast hm
  have htop : (m : ℚ) + 1 ≤ 2 ^ 53 := by exact_mod_cast hfits.lt
  obtain ⟨hlow, hhigh, -⟩ := Interval.bounds_of_contains hm h
  have hten : ∀ j : Nat, (2 : ℚ) ^ (3 * j : Int) ≤ 10 ^ (j : Int) := by
    intro j
    rw [zpow_mul, zpow_natCast, zpow_natCast]
    exact pow_le_pow_left₀ (by norm_num) (by norm_num) j
  have hleast : (10 : ℚ) ^ (-400 : Int) ≤ n * 10 ^ k :=
    calc (10 : ℚ) ^ (-400 : Int) ≤ 2 ^ (-1200 : Int) := by
          rw [zpow_neg, zpow_neg]
          exact inv_anti₀ (by positivity) (hten 400)
      _ ≤ 2 ^ (-1 + -1074 : Int) := zpow_le_zpow_right₀ (by norm_num) (by norm_num)
      _ = (1 - 1 / 2) * 2 ^ (-1074 : Int) := by
          rw [zpow_add₀ (by norm_num)]
          norm_num
      _ ≤ (m - 1 / 2) * 2 ^ e :=
          mul_le_mul (by linarith) (zpow_le_zpow_right₀ (by norm_num) hfits.least) (by positivity) (by linarith)
      _ ≤ n * 10 ^ k := hlow
  have hgreatest : (n : ℚ) * 10 ^ k ≤ 10 ^ (399 : Int) :=
    calc (n : ℚ) * 10 ^ k ≤ (m + 1 / 2) * 2 ^ e := hhigh
      _ ≤ 2 ^ (53 : Int) * 2 ^ (971 : Int) :=
          mul_le_mul (by exact_mod_cast (by linarith)) (zpow_le_zpow_right₀ (by norm_num) hfits.greatest)
            (by positivity) (by positivity)
      _ = 2 ^ (53 + 971 : Int) := (zpow_add₀ (by norm_num) _ _).symm
      _ ≤ 2 ^ (3 * 399 : Int) := zpow_le_zpow_right₀ (by norm_num) (by norm_num)
      _ ≤ 10 ^ (399 : Int) := hten 399
  have hn : 0 < n := by
    exact_mod_cast pos_of_mul_pos_left (Interval.pos_of_contains hm h) (by positivity)
  obtain ⟨v, hrounds, hplace⟩ := place_ofDecimal hn hleast hgreatest
  have hdouble := Interval.rounds_of_contains hm hfits h
  have hpos : (0 : ℚ) ≤ n * 10 ^ k := by positivity
  have heq : v = m * 2 ^ e :=
    le_antisymm (hrounds.mono hdouble hpos le_rfl) (hdouble.mono hrounds hpos le_rfl)
  rw [hplace, heq]
  exact congrArg some (rangePlace_of_fits .positive hfits)

end PoolScaling.Number

import Mathlib.Algebra.Order.Field.Power
import Mathlib.Data.Rat.Floor
import Mathlib.Order.WithBotTop
import Mathlib.Tactic.Linarith
import PoolScaling.Number.Parts
import PoolScaling.Proofs.Number.Packing

/-! Places of doubles.

A finite double denotes a rational, and an infinity lies beyond all of them, so
every double but NaN has a place on the rational line with two ends. Doubles
compare as their places do (`lt_iff`, `le_iff`, `beq_iff`), and NaN compares with nothing.
That is all the order of doubles is; what is proved about comparisons elsewhere
is proved about places. -/
namespace PoolScaling.Number
open Float.Model Float.Model.UnpackedFloat

/-- The rationals with both infinities. -/
abbrev Line := WithBotTop ℚ

/-- The number of a sign, a mantissa and a binary exponent. -/
def dyadic (negative : Bool) (m : Nat) (e : Int) : ℚ :=
  if negative then -(m * 2 ^ e) else m * 2 ^ e

/-- The place of a double on the line. NaN has none, and the zeros share theirs. -/
def place (x : Float) : Option Line :=
  match Parts.of x with
  | .nan => none
  | .infinite true => some ⊥
  | .infinite false => some ⊤
  | .finite negative m e => some (dyadic negative m e : ℚ)

/-! ### Order of mantissas and exponents -/

/-- Only the least exponent has short mantissas, so a greater exponent always wins. -/
theorem scaled_lt_of_exponent_lt {m m' : Nat} {e e' : Int} (h : Fits m e) (h' : Fits m' e')
    (he : e < e') : (m : ℚ) * 2 ^ e < m' * 2 ^ e' := by
  have hfull : 2 ^ 52 ≤ m' := h'.full.resolve_right (by have := h.least; omega)
  calc (m : ℚ) * 2 ^ e < 2 ^ 53 * 2 ^ e := by
        have : (m : ℚ) < 2 ^ 53 := by exact_mod_cast h.lt
        gcongr
    _ = 2 ^ 52 * 2 ^ (e + 1) := by
        rw [zpow_add₀ (by norm_num)]
        ring
    _ ≤ 2 ^ 52 * 2 ^ e' := by
        gcongr
        · norm_num
        · omega
    _ ≤ m' * 2 ^ e' := by
        have : (2 : ℚ) ^ 52 ≤ m' := by exact_mod_cast hfull
        gcongr

theorem scaled_compares {m m' : Nat} {e e' : Int} (h : Fits m e) (h' : Fits m' e') :
    ((compare e e').then (compare m m')).Compares ((m : ℚ) * 2 ^ e) (m' * 2 ^ e') := by
  rcases lt_trichotomy e e' with he | rfl | he
  · rw [compare_lt_iff_lt.mpr he]
    exact scaled_lt_of_exponent_lt h h' he
  · rw [compare_eq_iff_eq.mpr rfl]
    rcases lt_trichotomy m m' with hm | rfl | hm
    · rw [compare_lt_iff_lt.mpr hm]
      show (m : ℚ) * 2 ^ e < m' * 2 ^ e
      gcongr
    · rw [compare_eq_iff_eq.mpr rfl]
      rfl
    · rw [compare_gt_iff_gt.mpr hm]
      show (m' : ℚ) * 2 ^ e < m * 2 ^ e
      gcongr
  · rw [compare_gt_iff_gt.mpr he]
    exact scaled_lt_of_exponent_lt h' h he

theorem scaled_injective {m m' : Nat} {e e' : Int} (h : Fits m e) (h' : Fits m' e')
    (heq : (m : ℚ) * 2 ^ e = m' * 2 ^ e') : m = m' ∧ e = e' := by
  have hcompare := (scaled_compares h h').eq_eq.mpr heq
  rw [Ordering.then_eq_eq, compare_eq_iff_eq, compare_eq_iff_eq] at hcompare
  exact hcompare.symm

theorem compares_coe {a b : ℚ} {o : Ordering} (h : o.Compares a b) :
    o.Compares (a : Line) (b : Line) := by
  cases o with
  | lt => exact WithBotTop.coe_lt_coe.mpr h
  | eq => exact congrArg (fun q : ℚ => (q : Line)) h
  | gt => exact WithBotTop.coe_lt_coe.mpr h

/-! ### Order of doubles -/

/-- The end of the line that an infinity stands for. -/
def ending : Sign → Line
  | .negative => ⊥
  | .positive => ⊤

/-- The place of an unpacked double. -/
def placeUnpacked : UnpackedFloat → Option Line
  | .notANumber => none
  | .infinity s => some (ending s)
  | .zero _ => some (0 : ℚ)
  | .finite s m e _ => some (dyadic (Parts.isNegative s) m e : ℚ)

theorem dyadic_zero (negative : Bool) (e : Int) : dyadic negative 0 e = 0 := by
  cases negative <;> simp [dyadic]

theorem place_eq (x : Float) : place x = placeUnpacked x.toModel.unpack := by
  unfold place Parts.of
  cases x.toModel.unpack with
  | infinity s => cases s <;> rfl
  | notANumber => rfl
  | zero s => exact congrArg (fun q : ℚ => some (q : Line)) (dyadic_zero _ 0)
  | finite s m e h => rfl

theorem dyadic_pos {m : Nat} {e : Int} (h : 0 < m) : 0 < dyadic false m e :=
  mul_pos (Nat.cast_pos.mpr h) (zpow_pos (by norm_num) e)

theorem neg_compares {a b : ℚ} {o : Ordering} (h : o.Compares a b) : o.swap.Compares (-a) (-b) := by
  cases o with
  | lt => exact neg_lt_neg h
  | eq => exact congrArg Neg.neg h
  | gt => exact neg_lt_neg h

theorem finite_compares {s s' : Sign} {m m' : Nat} {e e' : Int} {hm : 0 < m} {hm' : 0 < m'}
    (h : Fits m e) (h' : Fits m' e') :
    ∃ o, (UnpackedFloat.finite s m e hm).compare (.finite s' m' e' hm') = some o ∧
      o.Compares (dyadic (Parts.isNegative s) m e) (dyadic (Parts.isNegative s') m' e') := by
  have hpos := dyadic_pos (e := e) hm
  have hpos' := dyadic_pos (e := e') hm'
  cases s with
  | negative =>
    cases s' with
    | negative => exact ⟨_, rfl, neg_compares (scaled_compares h h')⟩
    | positive =>
      refine ⟨.lt, rfl, ?_⟩
      show -dyadic false m e < dyadic false m' e'
      linarith
  | positive =>
    cases s' with
    | negative =>
      refine ⟨.gt, rfl, ?_⟩
      show -dyadic false m' e' < dyadic false m e
      linarith
    | positive => exact ⟨_, rfl, scaled_compares h h'⟩

theorem coe_compares_bot (q : ℚ) : Ordering.gt.Compares (q : Line) ⊥ := WithBot.bot_lt_coe _

theorem coe_compares_top (q : ℚ) : Ordering.lt.Compares (q : Line) ⊤ :=
  WithBot.coe_lt_coe.mpr (WithTop.coe_lt_top q)

theorem ends_compare (s t : Sign) : (compare s t).Compares (ending s) (ending t) := by
  have : (⊥ : Line) < ⊤ := bot_lt_top
  cases s <;> cases t <;> first | rfl | exact this

/-- A comparison of doubles finds what their places say. -/
theorem compare_compares {x y : Float.Model} {a b : Line} (hx : placeUnpacked x.unpack = some a)
    (hy : placeUnpacked y.unpack = some b) :
    ∃ o, x.unpack.compare y.unpack = some o ∧ o.Compares a b := by
  have hfx := @unpack_fits x
  have hfy := @unpack_fits y
  generalize x.unpack = u at hx hfx
  generalize y.unpack = v at hy hfy
  cases u with
  | notANumber => cases hx
  | infinity s =>
    cases hx
    cases v with
    | notANumber => cases hy
    | infinity t => cases hy; exact ⟨_, rfl, ends_compare s t⟩
    | zero | finite =>
      cases s <;> cases hy
      · exact ⟨_, rfl, (coe_compares_bot _).swap⟩
      · exact ⟨_, rfl, (coe_compares_top _).swap⟩
  | zero s =>
    cases hx
    cases v with
    | notANumber => cases hy
    | infinity t =>
      cases t <;> cases hy
      · exact ⟨_, rfl, coe_compares_bot _⟩
      · exact ⟨_, rfl, coe_compares_top _⟩
    | zero t => cases hy; exact ⟨.eq, rfl, rfl⟩
    | finite t m e h =>
      have := dyadic_pos (e := e) h
      cases t <;> cases hy
      · exact ⟨.gt, rfl, compares_coe (o := .gt) (neg_neg_of_pos this)⟩
      · exact ⟨.lt, rfl, compares_coe (o := .lt) this⟩
  | finite s m e hm =>
    cases hx
    cases v with
    | notANumber => cases hy
    | infinity t =>
      cases t <;> cases s <;> cases hy
      · exact ⟨_, rfl, coe_compares_bot _⟩
      · exact ⟨_, rfl, coe_compares_bot _⟩
      · exact ⟨_, rfl, coe_compares_top _⟩
      · exact ⟨_, rfl, coe_compares_top _⟩
    | zero t =>
      have := dyadic_pos (e := e) hm
      cases s <;> cases hy
      · exact ⟨.lt, rfl, compares_coe (o := .lt) (neg_neg_of_pos this)⟩
      · exact ⟨.gt, rfl, compares_coe (o := .gt) this⟩
    | finite t m' e' hm' =>
      cases hy
      obtain ⟨o, ho, hc⟩ := @finite_compares s t m m' e e' hm hm' (hfx rfl) (hfy rfl)
      exact ⟨o, ho, compares_coe hc⟩

theorem eq_notANumber {u : UnpackedFloat} (h : placeUnpacked u = none) : u = .notANumber := by
  cases u with
  | notANumber => rfl
  | infinity | zero | finite => cases h

theorem compare_of_place_eq_none {x y : Float.Model}
    (h : placeUnpacked x.unpack = none ∨ placeUnpacked y.unpack = none) :
    x.unpack.compare y.unpack = none := by
  rcases h with h | h
  · rw [eq_notANumber h]
    rfl
  · rw [eq_notANumber h]
    cases x.unpack <;> rfl

theorem lt_iff_compare (x y : Float) :
    x < y ↔ x.toModel.unpack.compare y.toModel.unpack = some .lt := by
  show decide (x.toModel < y.toModel) = true ↔ _
  rw [decide_eq_true_iff]
  show (x.toModel.unpack.compare y.toModel.unpack == some .lt) = true ↔ _
  rw [beq_iff_eq]

theorem le_iff_compare (x y : Float) :
    x ≤ y ↔ ∃ o, x.toModel.unpack.compare y.toModel.unpack = some o ∧ o.isLE := by
  show decide (x.toModel ≤ y.toModel) = true ↔ _
  rw [decide_eq_true_iff]
  show ((x.toModel.unpack.compare y.toModel.unpack).any (·.isLE)) = true ↔ _
  rw [Option.any_eq_true]

theorem beq_iff_compare (x y : Float) :
    (x == y) = true ↔ x.toModel.unpack.compare y.toModel.unpack = some .eq := by
  show (x.toModel.unpack.compare y.toModel.unpack == some .eq) = true ↔ _
  rw [beq_iff_eq]

variable {x y : Float} {a b : Line}

/-- One double is below another when its place is. -/
theorem lt_iff (hx : place x = some a) (hy : place y = some b) : x < y ↔ a < b := by
  rw [place_eq] at hx hy
  obtain ⟨o, ho, hc⟩ := compare_compares hx hy
  rw [lt_iff_compare, ho, Option.some.injEq]
  exact hc.eq_lt

/-- One double is at most another when its place is. -/
theorem le_iff (hx : place x = some a) (hy : place y = some b) : x ≤ y ↔ a ≤ b := by
  rw [place_eq] at hx hy
  obtain ⟨o, ho, hc⟩ := compare_compares hx hy
  rw [le_iff_compare, ho, ← hc.ne_gt]
  cases o <;> simp

/-- One double equals another when their places agree. -/
theorem beq_iff (hx : place x = some a) (hy : place y = some b) : (x == y) = true ↔ a = b := by
  rw [place_eq] at hx hy
  obtain ⟨o, ho, hc⟩ := compare_compares hx hy
  rw [beq_iff_compare, ho, Option.some.injEq]
  exact hc.eq_eq

/-- Doubles that can be compared have places. -/
theorem places_of_compare {o : Ordering} (h : x.toModel.unpack.compare y.toModel.unpack = some o) :
    ∃ a b, place x = some a ∧ place y = some b := by
  cases hx : place x with
  | none =>
    rw [place_eq] at hx
    rw [compare_of_place_eq_none (.inl hx)] at h
    cases h
  | some a =>
    cases hy : place y with
    | none =>
      rw [place_eq] at hy
      rw [compare_of_place_eq_none (.inr hy)] at h
      cases h
    | some b => exact ⟨a, b, rfl, rfl⟩

theorem places_of_lt (h : x < y) : ∃ a b, place x = some a ∧ place y = some b ∧ a < b := by
  obtain ⟨a, b, hx, hy⟩ := places_of_compare ((lt_iff_compare x y).mp h)
  exact ⟨a, b, hx, hy, (lt_iff hx hy).mp h⟩

theorem places_of_le (h : x ≤ y) : ∃ a b, place x = some a ∧ place y = some b ∧ a ≤ b := by
  obtain ⟨o, ho, -⟩ := (le_iff_compare x y).mp h
  obtain ⟨a, b, hx, hy⟩ := places_of_compare ho
  exact ⟨a, b, hx, hy, (le_iff hx hy).mp h⟩

/-- Between doubles with places, one order excludes the other. -/
theorem not_le_iff_lt (hx : place x = some a) (hy : place y = some b) : ¬ x ≤ y ↔ y < x := by
  rw [le_iff hx hy, lt_iff hy hx, not_le]

/-! ### Finite doubles -/

theorem isFinite_iff : x.isFinite = true ↔ ∃ q : ℚ, place x = some q := by
  rw [place_eq]
  show x.toModel.unpack.isFinite = true ↔ _
  cases x.toModel.unpack with
  | infinity s =>
    have hbot : ∀ q : ℚ, (⊥ : Line) ≠ q := fun q => (WithBotTop.coe_ne_bot q).symm
    have htop : ∀ q : ℚ, (⊤ : Line) ≠ q := fun q => (WithBotTop.coe_ne_top q).symm
    refine iff_of_false nofun fun ⟨q, hq⟩ => ?_
    cases s with
    | negative => exact hbot q (Option.some.inj hq)
    | positive => exact htop q (Option.some.inj hq)
  | notANumber => exact iff_of_false nofun nofun
  | zero | finite => exact iff_of_true rfl ⟨_, rfl⟩

/-- What has a place is finite unless it is infinite. -/
theorem isFinite_of_place (h : place x = some a) (hinf : x.isInf = false) : x.isFinite = true := by
  rw [place_eq] at h
  have hinf : x.toModel.unpack.isInf = false := hinf
  show x.toModel.unpack.isFinite = true
  cases hu : x.toModel.unpack with
  | infinity s =>
    rw [hu] at hinf
    cases hinf
  | notANumber =>
    rw [hu] at h
    cases h
  | zero s => rfl
  | finite s m e hm => rfl

theorem isInf_of_isFinite (h : x.isFinite = true) : x.isInf = false := by
  change x.toModel.unpack.isFinite = true at h
  show x.toModel.unpack.isInf = false
  cases hu : x.toModel.unpack with
  | infinity s =>
    rw [hu] at h
    cases h
  | notANumber | zero | finite => rfl

/-- A double at a rational is a zero or has a mantissa and an exponent. -/
theorem unpack_of_place {q : ℚ} (h : place x = some (q : Line)) :
    (∃ s, x.toModel.unpack = .zero s ∧ q = 0) ∨
      ∃ s m e hm, x.toModel.unpack = .finite s m e hm ∧ Fits m e ∧
        q = dyadic (Parts.isNegative s) m e := by
  rw [place_eq] at h
  cases hu : x.toModel.unpack with
  | notANumber =>
    rw [hu] at h
    cases h
  | infinity s =>
    rw [hu] at h
    cases s <;> cases h
  | zero s =>
    rw [hu] at h
    cases h
    exact .inl ⟨s, rfl, rfl⟩
  | finite s m e hm =>
    rw [hu] at h
    cases h
    exact .inr ⟨s, m, e, hm, rfl, unpack_fits hu, rfl⟩

/-- Apart from the zeros, a double is determined by its place. -/
theorem eq_of_place {q : ℚ} (hx : place x = some (q : Line)) (hy : place y = some (q : Line)) (hq : q ≠ 0) :
    x = y := by
  rcases unpack_of_place hx with ⟨_, -, h⟩ | ⟨s, m, e, hm, hux, hfits, hqx⟩
  · exact absurd h hq
  rcases unpack_of_place hy with ⟨_, -, h⟩ | ⟨s', m', e', hm', huy, hfits', hqy⟩
  · exact absurd h hq
  have hpos := dyadic_pos (e := e) hm
  have hpos' := dyadic_pos (e := e') hm'
  have hneg : ∀ n k, dyadic true n k = -dyadic false n k := fun _ _ => rfl
  have hsame : s = s' ∧ dyadic false m e = dyadic false m' e' := by
    rw [hqx] at hqy
    cases s <;> cases s' <;> simp only [Parts.isNegative, hneg] at hqy
    · exact ⟨rfl, neg_injective hqy⟩
    · linarith
    · linarith
    · exact ⟨rfl, hqy⟩
  obtain ⟨rfl, hscaled⟩ := hsame
  obtain ⟨rfl, rfl⟩ := scaled_injective hfits hfits' hscaled
  exact eq_of_unpack (hux.trans huy.symm)

theorem isNaN_iff : x.isNaN = true ↔ place x = none := by
  rw [place_eq]
  show x.toModel.unpack.isNaN = true ↔ _
  cases x.toModel.unpack with
  | infinity s => cases s <;> exact iff_of_false nofun nofun
  | notANumber => exact iff_of_true rfl rfl
  | zero | finite => exact iff_of_false nofun nofun

/-- NaN alone is neither below another double nor from it on. -/
theorem not_lt_not_le_iff : ¬ y < x ∧ ¬ x ≤ y ↔ x.isNaN = true ∨ y.isNaN = true := by
  rw [isNaN_iff, isNaN_iff]
  cases hx : place x with
  | none =>
    rw [place_eq] at hx
    rw [lt_iff_compare, le_iff_compare, compare_of_place_eq_none (.inl hx), compare_of_place_eq_none (.inr hx)]
    simp
  | some a =>
    cases hy : place y with
    | none =>
      rw [place_eq] at hy
      rw [lt_iff_compare, le_iff_compare, compare_of_place_eq_none (.inl hy), compare_of_place_eq_none (.inr hy)]
      simp
    | some b =>
      rw [not_le_iff_lt hx hy]
      simp

theorem place_zero : place 0.0 = some (0 : ℚ) :=
  congrArg (fun q : ℚ => some (q : Line)) (dyadic_zero false 0)

end PoolScaling.Number

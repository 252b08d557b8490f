import PoolScaling.Number.Order
import PoolScaling.Proofs.Number.Rounding

/-! Extremes of lists.

A fold that keeps the greater of two numbers, or the lesser, passes over NaN and ends at a
number of the list that is at least as extreme as all others, if there is one
(`Extreme.isExtreme_fold`). Lists of the same numbers have the same extreme up to the sign
of a zero (`IsExtreme.eq_or_zero`). -/
namespace PoolScaling.Number

variable {x y z : Float}

theorem float_le_trans (h : x ≤ y) (h' : y ≤ z) : x ≤ z := by
  obtain ⟨a, b, hx, hy, hab⟩ := places_of_le h
  obtain ⟨b', c, hy', hz, hbc⟩ := places_of_le h'
  cases hy.symm.trans hy'
  exact (le_iff hx hz).mpr (hab.trans hbc)

/-- A double that is not NaN has a place. -/
theorem exists_place (h : x.isNaN = false) : ∃ a, place x = some a := by
  rw [← Option.ne_none_iff_exists', ne_eq, ← isNaN_iff, h]
  exact Bool.false_ne_true

theorem isNaN_of_isFinite (h : x.isFinite = true) : x.isNaN = false := by
  obtain ⟨q, hq⟩ := isFinite_iff.mp h
  rw [← Bool.not_eq_true, isNaN_iff, hq]
  exact nofun

theorem float_le_refl (h : x.isNaN = false) : x ≤ x := by
  obtain ⟨a, ha⟩ := exists_place h
  exact (le_iff ha ha).mpr le_rfl

/-- An infinity is determined by its place. -/
theorem eq_of_ending {s : Float.Model.UnpackedFloat.Sign} (hx : place x = some (ending s))
    (hy : place y = some (ending s)) : x = y :=
  eq_of_unpack ((unpack_of_ending hx).trans (unpack_of_ending hy).symm)

/-- Doubles at one place are the same, or both are zeros. -/
theorem eq_or_zero_of_place {a : Line} (hx : place x = some a) (hy : place y = some a) :
    x = y ∨ ((x == 0.0) = true ∧ (y == 0.0) = true) := by
  induction a using WithBotTop.rec with
  | bot => exact .inl (eq_of_ending (s := .negative) hx hy)
  | top => exact .inl (eq_of_ending (s := .positive) hx hy)
  | coe q =>
    by_cases hq : q = 0
    · subst hq
      exact .inr ⟨(beq_iff hx place_zero).mpr rfl, (beq_iff hy place_zero).mpr rfl⟩
    · exact .inl (eq_of_place hx hy hq)

/-! ### The two ends -/

/-- An end of a list of numbers. -/
inductive Extreme where
  | greatest
  | least

namespace Extreme

/-- The more extreme of two numbers. -/
def pick : Extreme → Float → Float → Float
  | greatest => larger
  | least => smaller

/-- Where a search begins: at the number that is never the more extreme of two. -/
def start : Extreme → Float
  | greatest => -infinity
  | least => infinity

/-- Whether a number is at least as extreme as another. -/
def Reaches : Extreme → Float → Float → Prop
  | greatest, m, x => x ≤ m
  | least, m, x => m ≤ x

variable {e : Extreme} {m : Float} {xs xs' : List Float}

theorem Reaches.trans (h : e.Reaches x y) (h' : e.Reaches y z) : e.Reaches x z := by
  cases e with
  | greatest => exact float_le_trans h' h
  | least => exact float_le_trans h h'

theorem reaches_refl (e : Extreme) (h : x.isNaN = false) : e.Reaches x x := by
  cases e <;> exact float_le_refl h

/-- Two numbers that reach each other are the same, or both are zeros. -/
theorem Reaches.antisymm (h : e.Reaches x y) (h' : e.Reaches y x) :
    x = y ∨ ((x == 0.0) = true ∧ (y == 0.0) = true) := by
  have hle : x ≤ y ∧ y ≤ x := by
    cases e with
    | greatest => exact ⟨h', h⟩
    | least => exact ⟨h, h'⟩
  obtain ⟨a, b, hx, hy, hab⟩ := places_of_le hle.1
  have hba := (le_iff hy hx).mp hle.2
  cases le_antisymm hab hba
  exact eq_or_zero_of_place hx hy

theorem isNaN_start (e : Extreme) : e.start.isNaN = false := by
  cases e <;> decide +kernel

theorem place_start (e : Extreme) :
    place e.start = some (match e with | greatest => ⊥ | least => ⊤) := by
  cases e <;> rfl

/-- Only the start itself is not beyond it. -/
theorem eq_start_of_reaches (h : e.Reaches e.start x) : x = e.start := by
  have hstart := e.place_start
  cases e with
  | greatest =>
    obtain ⟨a, b, hx, hs, hle⟩ := places_of_le h
    cases hs.symm.trans hstart
    cases le_bot_iff.mp hle
    exact eq_of_ending (s := .negative) hx hstart
  | least =>
    obtain ⟨a, b, hs, hx, hle⟩ := places_of_le h
    cases hs.symm.trans hstart
    cases top_le_iff.mp hle
    exact eq_of_ending (s := .positive) hx hstart

/-! ### One step -/

theorem larger_eq (hm : m.isNaN = false) : larger m x = if m < x then x else m := by
  simp only [larger, hm, Bool.false_or, decide_eq_true_eq]

theorem smaller_eq (hm : m.isNaN = false) : smaller m x = if x < m then x else m := by
  simp only [smaller, hm, Bool.false_or, decide_eq_true_eq]

/-- NaN is passed over. -/
theorem pick_of_isNaN (e : Extreme) (hm : m.isNaN = false) (hx : x.isNaN = true) : e.pick m x = m := by
  cases e with
  | greatest => exact (larger_eq hm).trans (if_neg (not_lt_not_le_iff.mpr (.inl hx)).1)
  | least => exact (smaller_eq hm).trans (if_neg (not_lt_not_le_iff.mpr (.inr hx)).1)

/-- Of two numbers one is picked that reaches the other. -/
theorem pick_spec (e : Extreme) (hm : m.isNaN = false) (hx : x.isNaN = false) :
    (e.pick m x = m ∧ e.Reaches m x) ∨ (e.pick m x = x ∧ e.Reaches x m) := by
  obtain ⟨a, ha⟩ := exists_place hm
  obtain ⟨b, hb⟩ := exists_place hx
  cases e with
  | greatest =>
    rcases lt_or_ge a b with hlt | hle
    · exact .inr ⟨(larger_eq hm).trans (if_pos ((lt_iff ha hb).mpr hlt)), (le_iff ha hb).mpr hlt.le⟩
    · have hnot : ¬ m < x := fun h => absurd ((lt_iff ha hb).mp h) (not_lt.mpr hle)
      exact .inl ⟨(larger_eq hm).trans (if_neg hnot), (le_iff hb ha).mpr hle⟩
  | least =>
    rcases lt_or_ge b a with hlt | hle
    · exact .inr ⟨(smaller_eq hm).trans (if_pos ((lt_iff hb ha).mpr hlt)), (le_iff hb ha).mpr hlt.le⟩
    · have hnot : ¬ x < m := fun h => absurd ((lt_iff hb ha).mp h) (not_lt.mpr hle)
      exact .inl ⟨(smaller_eq hm).trans (if_neg hnot), (le_iff ha hb).mpr hle⟩

/-! ### Extremes -/

/-- Whether a number is of a list and reaches all numbers of it. -/
structure IsExtreme (e : Extreme) (m : Float) (xs : List Float) : Prop where
  mem : m ∈ xs
  number : m.isNaN = false
  reaches : ∀ x ∈ xs, x.isNaN = false → e.Reaches m x

/-- One of two numbers stands for both if it reaches them. -/
theorem IsExtreme.cons_cons {r p : Float} (h : e.IsExtreme r (p :: xs)) (hp : p.isNaN = false) (hmem : p = m ∨ p = x)
    (hm : e.Reaches p m) (hx : x.isNaN = false → e.Reaches p x) : e.IsExtreme r (m :: x :: xs) := by
  have hreaches := h.reaches p List.mem_cons_self hp
  refine ⟨?_, h.number, List.forall_mem_cons.mpr ⟨fun _ => hreaches.trans hm, List.forall_mem_cons.mpr
    ⟨fun hnumber => hreaches.trans (hx hnumber), fun y hy => h.reaches y (List.mem_cons_of_mem _ hy)⟩⟩⟩
  rcases List.mem_cons.mp h.mem with rfl | hxs
  · rcases hmem with rfl | rfl <;> simp
  · exact List.mem_cons_of_mem _ (List.mem_cons_of_mem _ hxs)

/-- **Extremes.** Lists of the same numbers have the same extreme up to the sign of a zero. -/
theorem IsExtreme.eq_or_zero {m' : Float} (h : e.IsExtreme m xs) (h' : e.IsExtreme m' xs') (hperm : xs.Perm xs') :
    m = m' ∨ ((m == 0.0) = true ∧ (m' == 0.0) = true) :=
  (h.reaches m' (hperm.mem_iff.mpr h'.mem) h'.number).antisymm (h'.reaches m (hperm.mem_iff.mp h.mem) h.number)

/-! ### Searches -/

/-- From any number on, a search ends at an extreme. -/
theorem isExtreme_foldl (hm : m.isNaN = false) (xs : List Float) :
    e.IsExtreme (xs.foldl e.pick m) (m :: xs) := by
  induction xs generalizing m with
  | nil =>
    refine ⟨List.mem_singleton_self m, hm, fun x hx _ => ?_⟩
    cases List.mem_singleton.mp hx
    exact e.reaches_refl hm
  | cons x xs ih =>
    rw [List.foldl_cons]
    cases hx : x.isNaN with
    | true =>
      rw [e.pick_of_isNaN hm hx]
      refine (ih hm).cons_cons hm (.inl rfl) (e.reaches_refl hm) fun hnumber => ?_
      cases hx.symm.trans hnumber
    | false =>
      rcases e.pick_spec hm hx with ⟨hpick, hreaches⟩ | ⟨hpick, hreaches⟩
      · rw [hpick]
        exact (ih hm).cons_cons hm (.inl rfl) (e.reaches_refl hm) fun _ => hreaches
      · rw [hpick]
        exact (ih hx).cons_cons hx (.inr rfl) hreaches fun _ => e.reaches_refl hx

/-- The search of a list. -/
def fold (e : Extreme) (xs : List Float) : Float := xs.foldl e.pick e.start

/-- **Searches.** A search ends at an extreme of the numbers in a list, if there is one. -/
theorem isExtreme_fold (e : Extreme) (h : ∃ x ∈ xs, x.isNaN = false) : e.IsExtreme (e.fold xs) xs := by
  obtain ⟨hmem, hnumber, hreaches⟩ := @isExtreme_foldl e e.start e.isNaN_start xs
  refine ⟨?_, hnumber, fun x hx => hreaches x (List.mem_cons_of_mem _ hx)⟩
  rcases List.mem_cons.mp hmem with hstart | hmem
  · -- Nothing in the list is beyond the start, so a number of the list is the start.
    obtain ⟨x, hx, hxnumber⟩ := h
    have hle := hreaches x (List.mem_cons_of_mem _ hx) hxnumber
    rw [hstart] at hle
    have heq : e.fold xs = x := hstart.trans (eq_start_of_reaches hle).symm
    exact heq ▸ hx
  · exact hmem

/-- The entries of a list that are not NaN. -/
def numbers (xs : List Float) : List Float := xs.filter fun x => !x.isNaN

/-- NaN makes no difference to a search. -/
theorem foldl_numbers (hm : m.isNaN = false) (xs : List Float) :
    (numbers xs).foldl e.pick m = xs.foldl e.pick m := by
  induction xs generalizing m with
  | nil => rfl
  | cons x xs ih =>
    cases hx : x.isNaN with
    | true =>
      have hdrop : numbers (x :: xs) = numbers xs := List.filter_cons_of_neg (by rw [hx]; decide)
      rw [hdrop, ih hm, List.foldl_cons, e.pick_of_isNaN hm hx]
    | false =>
      have hkeep : numbers (x :: xs) = x :: numbers xs := List.filter_cons_of_pos (by rw [hx]; rfl)
      have hpick : (e.pick m x).isNaN = false := by
        rcases e.pick_spec hm hx with ⟨hpick, -⟩ | ⟨hpick, -⟩
        · rwa [hpick]
        · rwa [hpick]
      rw [hkeep, List.foldl_cons, ih hpick, List.foldl_cons]

theorem fold_numbers (e : Extreme) (xs : List Float) : e.fold (numbers xs) = e.fold xs :=
  foldl_numbers e.isNaN_start xs

end Extreme

end PoolScaling.Number

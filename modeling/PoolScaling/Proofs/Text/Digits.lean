import Mathlib.Data.List.Basic
import Mathlib.Data.List.Induction
import Mathlib.Tactic.IntervalCases
import Mathlib.Tactic.Ring
import PoolScaling.Proofs.Text.Utf8
import PoolScaling.Text.Blank
import PoolScaling.Text.Digits

/-! Numbers in digits, read back.

The digits of a natural number read back as the number, at any place of a longer list
of digits (`ofDigits_append`), and hold no blank that trimming would take. -/
namespace PoolScaling.Text

variable {cs ds : List Char} {c : Char}

/-! ### Values -/

theorem ofDigits_eq (ds : List Char) : ofDigits ds = Nat.ofDigitChars 10 ds 0 :=
  Nat.ofDigitChars_eq_foldl.symm

@[simp] theorem ofDigits_toDigits (n : Nat) : ofDigits (Nat.toDigits 10 n) = n := by
  rw [ofDigits_eq, Nat.ofDigitChars_ten_toDigits]

theorem ofDigits_append (cs ds : List Char) :
    ofDigits (cs ++ ds) = ofDigits cs * 10 ^ ds.length + ofDigits ds := by
  induction ds using List.reverseRecOn with
  | nil => simp [ofDigits]
  | append_singleton ds c ih =>
    have hlast : ∀ ds, ofDigits (ds ++ [c]) = appendDigit (ofDigits ds) c := fun ds =>
      List.foldl_concat _ _ _ _
    rw [← List.append_assoc, hlast, hlast, ih, appendDigit, appendDigit, List.length_append,
      List.length_singleton]
    ring

theorem ofDigits_zeros (k : Nat) : ofDigits (List.replicate k '0') = 0 := by
  induction k with
  | zero => rfl
  | succ k ih =>
    rw [List.replicate_succ', ofDigits_append, ih]
    rfl

/-! ### The digits of a number -/

theorem isDigit_of_mem_toDigits {n : Nat} (h : c ∈ Nat.toDigits 10 n) : c.isDigit = true :=
  Nat.isDigit_of_mem_toDigits (by norm_num) (by norm_num) h

/-- A positive number has no leading zero. -/
theorem head?_toDigits {n : Nat} (h : 0 < n) : (Nat.toDigits 10 n).head? ≠ some '0' := by
  induction n using Nat.strong_induction_on with
  | _ n ih =>
    rw [Nat.toDigits_eq_if (by norm_num)]
    split
    · rename_i hlt
      interval_cases n <;> decide
    · rename_i hge
      rw [List.head?_append_of_ne_nil _ Nat.toDigits_ne_nil]
      exact ih (n / 10) (by omega) (by omega)

theorem digits?_toDigits (n : Nat) : digits? (Nat.toDigits 10 n) = some n := by
  have hall : (Nat.toDigits 10 n).all Char.isDigit = true :=
    List.all_eq_true.mpr fun c => isDigit_of_mem_toDigits
  rw [digits?, hall, ofDigits_toDigits, List.isEmpty_eq_false_iff.mpr Nat.toDigits_ne_nil]
  rfl

theorem isDigit_of_digits? (h : (digits? ds).isSome = true) : ∀ c ∈ ds, c.isDigit = true := by
  unfold digits? at h
  split at h
  · cases h
  · rename_i hall
    simp only [Bool.or_eq_true, Bool.not_eq_true', not_or, Bool.not_eq_false, List.all_eq_true] at hall
    exact hall.2

theorem natBelow?_toDigits (limit n : Nat) :
    natBelow? limit (Nat.toDigits 10 n) = if n < limit then some n else none := by
  have hplus : ∀ rest, Nat.toDigits 10 n ≠ '+' :: rest := by
    intro rest h
    have hdigit : ('+').isDigit = true := isDigit_of_mem_toDigits (n := n) (by rw [h]; exact List.mem_cons_self)
    exact absurd hdigit (by decide)
  have hread : natBelow? limit (Nat.toDigits 10 n) = (digits? (Nat.toDigits 10 n)).filter (· < limit) := by
    unfold natBelow?
    split
    · rename_i h
      exact absurd h (hplus _)
    · rfl
  rw [hread, digits?_toDigits, Option.filter_some]
  simp only [decide_eq_true_eq]

/-! ### Blanks and endings -/

theorem isBlank_of_isDigit (h : c.isDigit = true) : isBlank c = false := by
  have hbounds := isDigit_iff.mp h
  simp only [isBlank, blankRanges, List.any_cons, List.any_nil, Bool.or_false, Bool.or_eq_false_iff,
    Bool.and_eq_false_iff, decide_eq_false_iff_not]
  omega

theorem trim_of_not_blank (h : ∀ c ∈ cs, isBlank c = false) : trimEnd (trimStart cs) = cs := by
  have hkeep : ∀ cs : List Char, (∀ c ∈ cs, isBlank c = false) → cs.dropWhile isBlank = cs := by
    intro cs hcs
    cases cs with
    | nil => rfl
    | cons c rest => rw [List.dropWhile_cons_of_neg (by rw [hcs c List.mem_cons_self]; decide)]
  rw [trimEnd, trimStart, hkeep cs h, hkeep, List.reverse_reverse]
  exact fun c hc => h c (List.mem_reverse.mp hc)

theorem dropEnding?_eq_some_iff {ending kept : List Char} :
    dropEnding? ending cs = some kept ↔ kept ++ ending = cs := by
  unfold dropEnding?
  constructor
  · intro h
    dsimp only at h
    split at h
    · rename_i heq
      cases h
      exact heq
    · cases h
  · rintro rfl
    simp

theorem dropEnding?_of_getLast?_ne {ending : List Char} (hending : ending ≠ [])
    (h : cs.getLast? ≠ ending.getLast?) : dropEnding? ending cs = none := by
  refine Option.eq_none_iff_forall_ne_some.mpr fun kept hkept => h ?_
  rw [← dropEnding?_eq_some_iff.mp hkept, List.getLast?_append_of_ne_nil _ hending]

end PoolScaling.Text

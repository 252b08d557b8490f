import PoolScaling.Number.Decimal
import PoolScaling.Proofs.Text.Utf8

/-! Numerals.

A numeral has digits, before a point, after it or on both sides, and perhaps an
exponent, which has digits too. Scanning reads a numeral as itself (`Decimal.scan_text`),
stops at no shorter one than the text begins with (`Decimal.length_scan_le`), and what it
takes where one begins is a numeral (`Decimal.written_scan`). Each is a number
(`Decimal.ofText?_text`). -/
namespace PoolScaling.Number

variable {cs rest : List Char} {c : Char}

/-- The characters that numerals are written with. -/
def isNumeric (c : Char) : Bool := c.isDigit || ['.', 'e', 'E', '+', '-'].contains c

theorem isNumeric_of_isDigit (h : c.isDigit = true) : isNumeric c = true := by rw [isNumeric, h, Bool.true_or]

theorem ascii_of_isNumeric (h : isNumeric c = true) : c.toNat < 128 := by
  rw [isNumeric, Bool.or_eq_true, List.contains_iff_mem] at h
  obtain hdigit | hmem := h
  · exact Text.ascii_of_isDigit hdigit
  · have hall : (['.', 'e', 'E', '+', '-'].all fun c => decide (c.toNat < 128)) = true := by decide
    exact of_decide_eq_true (List.all_eq_true.mp hall c hmem)

/-! ### Exponents -/

namespace Exponent

variable {e : Exponent}

/-- An exponent as the grammar has it. -/
structure Written (e : Exponent) : Prop where
  mark : e.mark = 'e' ∨ e.mark = 'E'
  sign : ∀ c ∈ e.sign, c = '-' ∨ c = '+'
  digits : ∀ c ∈ e.digits, c.isDigit = true
  some_digit : e.digits ≠ []

theorem isDigit_of_mem_takeWhile (h : c ∈ cs.takeWhile Char.isDigit) : c.isDigit = true :=
  List.all_eq_true.mp List.all_takeWhile c h

/-- The sign that a text begins with, if any, and what follows it. -/
def signAt : List Char → Option Char × List Char
  | c :: rest => if c = '-' ∨ c = '+' then (some c, rest) else (none, c :: rest)
  | [] => (none, [])

theorem signAt_sign {s : Char} (h : s = '-' ∨ s = '+') (cs : List Char) : signAt (s :: cs) = (some s, cs) := by
  rw [signAt, if_pos h]

theorem signAt_other (h : ∀ c ∈ cs.head?, ¬ (c = '-' ∨ c = '+')) : signAt cs = (none, cs) := by
  cases cs with
  | nil => rfl
  | cons c cs => rw [signAt, if_neg (h c rfl)]

theorem of_signAt (h : c ∈ (signAt cs).1) : (c = '-' ∨ c = '+') ∧ cs = c :: (signAt cs).2 := by
  cases cs with
  | nil => cases h
  | cons d ds =>
    by_cases hd : d = '-' ∨ d = '+'
    · rw [signAt_sign hd] at h ⊢
      cases h
      exact ⟨hd, rfl⟩
    · rw [signAt, if_neg hd] at h
      cases h

theorem scan?_cons (mark : Char) (cs : List Char) :
    scan? (mark :: cs) =
      if mark = 'e' ∨ mark = 'E' then
        if ((signAt cs).2.takeWhile Char.isDigit).isEmpty then none
        else some (⟨mark, (signAt cs).1, (signAt cs).2.takeWhile Char.isDigit⟩, (signAt cs).2.dropWhile Char.isDigit)
      else none := by
  cases cs <;> rfl

theorem written_scan? (h : scan? cs = some (e, rest)) : e.Written := by
  cases cs with
  | nil => cases h
  | cons mark cs =>
    rw [scan?_cons] at h
    split at h
    · rename_i hmark
      split at h
      · cases h
      · rename_i hne
        cases h
        exact ⟨hmark, fun c hc => (of_signAt hc).1, fun _ => isDigit_of_mem_takeWhile,
          fun hnil => hne (List.isEmpty_iff.mpr hnil)⟩
    · cases h

theorem isNumeric_of_written (he : e.Written) (hc : c ∈ e.text) : isNumeric c = true := by
  rw [text, List.mem_append, List.mem_cons] at hc
  obtain (rfl | hsign) | hdigit := hc
  · obtain hmark | hmark := he.mark <;> (rw [hmark]; decide)
  · obtain rfl | rfl := he.sign c (Option.mem_toList.mp hsign) <;> decide
  · exact isNumeric_of_isDigit (he.digits c hdigit)

theorem length_scan?_le {cs rest : List Char} (h : scan? cs = some (e, rest)) : rest.length ≤ cs.length := by
  rw [← text_append_scan h, List.length_append]
  omega

/-- An exponent is read with any digits that follow it. -/
theorem scan?_text_append (he : e.Written) (rest : List Char) :
    scan? (e.text ++ rest) =
      some ({ e with digits := e.digits ++ rest.takeWhile Char.isDigit }, rest.dropWhile Char.isDigit) := by
  have htake : (e.digits ++ rest).takeWhile Char.isDigit = e.digits ++ rest.takeWhile Char.isDigit :=
    List.takeWhile_append_of_pos he.digits
  have hdrop : (e.digits ++ rest).dropWhile Char.isDigit = rest.dropWhile Char.isDigit :=
    List.dropWhile_append_of_pos he.digits
  have hne : ¬ ((e.digits ++ rest).takeWhile Char.isDigit).isEmpty = true := by
    rw [htake, List.isEmpty_iff]
    exact fun h => he.some_digit (List.append_eq_nil_iff.mp h).1
  have hsign : signAt (e.sign.toList ++ (e.digits ++ rest)) = (e.sign, e.digits ++ rest) := by
    cases hs : e.sign with
    | some s => exact signAt_sign (he.sign s hs) _
    | none =>
      refine signAt_other fun c hc => ?_
      obtain ⟨d, ds, hds⟩ := List.exists_cons_of_ne_nil he.some_digit
      rw [hds] at hc
      cases hc
      have hdigit : c.isDigit = true := he.digits c (by rw [hds]; exact List.mem_cons_self)
      rintro (rfl | rfl) <;> exact absurd hdigit (by decide)
  rw [text, List.append_assoc, List.cons_append, scan?_cons, if_pos he.mark, hsign, if_neg hne, htake, hdrop]

end Exponent

/-! ### Decimals -/

namespace Decimal

variable {d : Decimal} {ws fs : List Char}

/-- A decimal as the grammar has it. -/
structure Written (d : Decimal) : Prop where
  whole : ∀ c ∈ d.whole, c.isDigit = true
  fraction : ∀ c ∈ d.fraction, c.isDigit = true
  point : d.point = false → d.fraction = []
  some_digit : d.whole ++ d.fraction ≠ []
  exponent : ∀ e ∈ d.exponent, e.Written

theorem Written.text_ne_nil (hd : d.Written) : d.text ≠ [] := by
  intro hnil
  rw [text, List.append_eq_nil_iff, List.append_eq_nil_iff] at hnil
  obtain ⟨⟨hwhole, hpoint⟩, -⟩ := hnil
  split at hpoint
  · cases hpoint
  · rename_i hnone
    exact hd.some_digit (List.append_eq_nil_iff.mpr ⟨hwhole, hd.point (Bool.not_eq_true _ ▸ hnone)⟩)

/-- Whether a numeral begins with `c`, when `cs` follows. -/
def begins (c : Char) (cs : List Char) : Bool := c.isDigit || (c = '.' && cs.head?.any Char.isDigit)

theorem begins_iff :
    begins c cs = true ↔ c.isDigit = true ∨ c = '.' ∧ ∃ d ds, cs = d :: ds ∧ d.isDigit = true := by
  unfold begins
  cases cs with
  | nil => simp
  | cons d ds => simp

/-- The exponent that a text begins with, if any, and what follows it. -/
def exponentAt (cs : List Char) : Option Exponent × List Char :=
  match Exponent.scan? cs with
  | some (e, rest) => (some e, rest)
  | none => (none, cs)

theorem exponentAt_text_append {e : Exponent} (he : e.Written) (rest : List Char) :
    exponentAt (e.text ++ rest) =
      (some { e with digits := e.digits ++ rest.takeWhile Char.isDigit }, rest.dropWhile Char.isDigit) := by
  rw [exponentAt, Exponent.scan?_text_append he]

theorem length_exponentAt_le (cs : List Char) : (exponentAt cs).2.length ≤ cs.length := by
  unfold exponentAt
  split
  · rename_i h
    exact Exponent.length_scan?_le h
  · exact Nat.le_refl _

theorem written_exponentAt {e : Exponent} (h : e ∈ (exponentAt cs).1) : e.Written := by
  unfold exponentAt at h
  split at h
  · rename_i hscan
    cases h
    exact Exponent.written_scan? hscan
  · cases h

theorem digits_stop (hw : ∀ c ∈ ws, c.isDigit = true) (hrest : ∀ c ∈ rest.head?, c.isDigit = false) :
    (ws ++ rest).takeWhile Char.isDigit = ws ∧ (ws ++ rest).dropWhile Char.isDigit = rest := by
  rw [List.takeWhile_append_of_pos hw, List.dropWhile_append_of_pos hw]
  cases rest with
  | nil => exact ⟨List.append_nil _, rfl⟩
  | cons c cs =>
    have hc : ¬ c.isDigit = true := by rw [hrest c rfl]; decide
    rw [List.takeWhile_cons_of_neg hc, List.dropWhile_cons_of_neg hc, List.append_nil]
    exact ⟨rfl, rfl⟩

/-- With a point, digits follow it and then perhaps an exponent. -/
theorem scan_point (hw : ∀ c ∈ ws, c.isDigit = true) (rest : List Char) :
    scan (ws ++ '.' :: rest) =
      (⟨ws, true, rest.takeWhile Char.isDigit, (exponentAt (rest.dropWhile Char.isDigit)).1⟩,
        (exponentAt (rest.dropWhile Char.isDigit)).2) := by
  have hrest : ∀ c ∈ ('.' :: rest).head?, c.isDigit = false := fun c hc => by cases hc; decide
  obtain ⟨htake, hdrop⟩ := digits_stop hw hrest
  simp only [scan, exponentAt, htake, hdrop]
  cases Exponent.scan? (rest.dropWhile Char.isDigit) <;> rfl

/-- Without a point, perhaps an exponent follows at once. -/
theorem scan_whole (hw : ∀ c ∈ ws, c.isDigit = true) (hrest : ∀ c ∈ rest.head?, c.isDigit = false)
    (hpoint : '.' ∉ rest.head?) :
    scan (ws ++ rest) = (⟨ws, false, [], (exponentAt rest).1⟩, (exponentAt rest).2) := by
  obtain ⟨htake, hdrop⟩ := digits_stop hw hrest
  cases rest with
  | nil =>
    simp only [scan, exponentAt, htake, hdrop]
    rfl
  | cons c cs =>
    have hc : ∀ ds, c :: cs = '.' :: ds → False := fun ds h => hpoint (congrArg List.head? h)
    simp only [scan, exponentAt, htake, hdrop]
    cases Exponent.scan? (c :: cs) <;> rfl

/-- Every text is of one of the two kinds. -/
theorem exists_whole (cs : List Char) :
    ∃ ws rest, cs = ws ++ rest ∧ (∀ c ∈ ws, c.isDigit = true) ∧ (∀ c ∈ rest.head?, c.isDigit = false) ∧
      rest = cs.dropWhile Char.isDigit :=
  ⟨cs.takeWhile Char.isDigit, cs.dropWhile Char.isDigit, List.takeWhile_append_dropWhile.symm,
    fun _ => Exponent.isDigit_of_mem_takeWhile, fun c hc => by
      have := List.head?_dropWhile_not Char.isDigit cs
      rw [hc] at this
      simpa using this, rfl⟩

/-! ### The longest numeral -/

theorem length_scan_le_dropWhile (cs : List Char) :
    (scan cs).2.length ≤ (cs.dropWhile Char.isDigit).length := by
  obtain ⟨ws, rest, rfl, hw, hrest, hdrop⟩ := exists_whole cs
  rw [← hdrop]
  by_cases hpoint : '.' ∈ rest.head?
  · obtain ⟨ds, rfl⟩ := List.head?_eq_some_iff.mp hpoint
    rw [scan_point hw]
    calc (exponentAt (ds.dropWhile Char.isDigit)).2.length
        ≤ (ds.dropWhile Char.isDigit).length := length_exponentAt_le _
      _ ≤ ds.length := (List.dropWhile_suffix _).length_le
      _ ≤ ('.' :: ds).length := Nat.le_succ _
  · rw [scan_whole hw hrest hpoint]
    exact length_exponentAt_le rest

theorem Written.head_exponent {e : Exponent} (he : e.Written) (rest : List Char) :
    (∀ c ∈ (e.text ++ rest).head?, c.isDigit = false) ∧ '.' ∉ (e.text ++ rest).head? := by
  obtain hmark | hmark := he.mark
  all_goals
    rw [Exponent.text, List.cons_append, List.cons_append, List.head?_cons, hmark]
    exact ⟨fun c hc => by cases hc; decide, by decide⟩

/-- A scan goes at least as far as a numeral that the text begins with, and reads it as it
is when nothing follows. -/
theorem scan_text_append (hd : d.Written) (rest : List Char) :
    (scan (d.text ++ rest)).2.length ≤ rest.length ∧ (rest = [] → scan (d.text ++ rest) = (d, [])) := by
  have hle : ∀ rest : List Char, (rest.dropWhile Char.isDigit).length ≤ rest.length := fun rest =>
    (List.dropWhile_suffix _).length_le
  obtain ⟨whole, point, fraction, exponent⟩ := d
  have hwhole := hd.whole
  cases point with
  | true =>
    have hfraction := hd.fraction
    cases exponent with
    | some e =>
      have he := hd.exponent e rfl
      obtain ⟨htake, hdrop⟩ := digits_stop hfraction (Written.head_exponent he rest).1
      have htext : text ⟨whole, true, fraction, some e⟩ ++ rest = whole ++ '.' :: (fraction ++ (e.text ++ rest)) := by
        simp [text]
      rw [htext, scan_point hwhole, htake, hdrop, exponentAt_text_append he]
      refine ⟨hle rest, ?_⟩
      rintro rfl
      rw [List.takeWhile_nil, List.append_nil]
      rfl
    | none =>
      have htext : text ⟨whole, true, fraction, none⟩ ++ rest = whole ++ '.' :: (fraction ++ rest) := by
        simp [text]
      rw [htext, scan_point hwhole, List.takeWhile_append_of_pos hfraction, List.dropWhile_append_of_pos hfraction]
      refine ⟨Nat.le_trans (length_exponentAt_le _) (hle rest), ?_⟩
      rintro rfl
      rw [List.takeWhile_nil, List.append_nil]
      rfl
  | false =>
    have hfraction : fraction = [] := hd.point rfl
    subst hfraction
    cases exponent with
    | some e =>
      have he := hd.exponent e rfl
      obtain ⟨hdigit, hpoint⟩ := Written.head_exponent he rest
      have htext : text ⟨whole, false, [], some e⟩ ++ rest = whole ++ (e.text ++ rest) := by
        simp [text]
      rw [htext, scan_whole hwhole hdigit hpoint, exponentAt_text_append he]
      refine ⟨hle rest, ?_⟩
      rintro rfl
      rw [List.takeWhile_nil, List.append_nil]
      rfl
    | none =>
      have htext : text ⟨whole, false, [], none⟩ ++ rest = whole ++ rest := by
        simp [text]
      rw [htext]
      have hdrop : (whole ++ rest).dropWhile Char.isDigit = rest.dropWhile Char.isDigit :=
        List.dropWhile_append_of_pos hwhole
      refine ⟨Nat.le_trans (length_scan_le_dropWhile _) ?_, ?_⟩
      · rw [hdrop]
        exact hle rest
      · rintro rfl
        rw [scan_whole hwhole (fun c hc => by cases hc) (by simp)]
        rfl

/-- A point with a digit after it is passed with the digit. -/
theorem length_scan_point_lt (h : begins '.' cs = true) : (scan ('.' :: cs)).2.length < cs.length := by
  obtain hdigit | ⟨-, d, ds, rfl, hd⟩ := begins_iff.mp h
  · exact absurd hdigit (by decide)
  · have hscan := scan_point (fun c (hc : c ∈ []) => nomatch hc) (d :: ds)
    rw [List.nil_append, List.dropWhile_cons_of_pos hd] at hscan
    rw [hscan]
    calc (exponentAt (ds.dropWhile Char.isDigit)).2.length
        ≤ (ds.dropWhile Char.isDigit).length := length_exponentAt_le _
      _ ≤ ds.length := (List.dropWhile_suffix _).length_le
      _ < (d :: ds).length := Nat.lt_succ_self _

/-- A numeral is read as itself. -/
theorem scan_text (hd : d.Written) : scan d.text = (d, []) := by
  have h := (scan_text_append hd []).2 rfl
  rwa [List.append_nil] at h

theorem begins_of_written (hd : d.Written) (h : d.text ++ rest = c :: cs) : begins c cs = true := by
  obtain ⟨whole, point, fraction, exponent⟩ := d
  rw [begins_iff]
  cases whole with
  | cons w ws =>
    cases h
    exact .inl (hd.whole c List.mem_cons_self)
  | nil =>
    obtain ⟨f, fs, rfl⟩ := List.exists_cons_of_ne_nil hd.some_digit
    cases point with
    | false => cases hd.point rfl
    | true =>
      cases h
      exact .inr ⟨rfl, f, _, rfl, hd.fraction f List.mem_cons_self⟩

/-- What a scan takes where a numeral begins is one. -/
theorem written_scan (h : begins c cs = true) : (scan (c :: cs)).1.Written := by
  obtain ⟨ws, rest, hsplit, hw, hrest, -⟩ := exists_whole (c :: cs)
  rw [begins_iff] at h
  have hdigit : ws = [] → c = '.' ∧ rest = '.' :: cs ∧ ∃ d ds, cs = d :: ds ∧ d.isDigit = true := by
    rintro rfl
    cases hsplit
    obtain hc | ⟨rfl, hnext⟩ := h
    · rw [hrest c rfl] at hc
      cases hc
    · exact ⟨rfl, rfl, hnext⟩
  rw [hsplit]
  by_cases hpoint : '.' ∈ rest.head?
  · obtain ⟨fs, rfl⟩ := List.head?_eq_some_iff.mp hpoint
    rw [scan_point hw]
    refine ⟨hw, fun _ => Exponent.isDigit_of_mem_takeWhile, fun h => (by cases h), ?_, fun _ => written_exponentAt⟩
    cases ws with
    | cons w ws => exact List.cons_ne_nil _ _
    | nil =>
      obtain ⟨-, heq, d, ds, rfl, hd⟩ := hdigit rfl
      cases heq
      rw [List.nil_append, List.takeWhile_cons_of_pos hd]
      exact List.cons_ne_nil _ _
  · rw [scan_whole hw hrest hpoint]
    refine ⟨hw, fun c hc => (by cases hc), fun _ => rfl, ?_, fun _ => written_exponentAt⟩
    cases ws with
    | cons w ws => exact List.cons_ne_nil _ _
    | nil =>
      obtain ⟨-, rfl, -⟩ := hdigit rfl
      exact absurd rfl hpoint

/-! ### Numbers -/

theorem isNumeric_of_written (hd : d.Written) (hc : c ∈ d.text) : isNumeric c = true := by
  rw [text, List.mem_append, List.mem_append] at hc
  obtain (hwhole | hpoint) | hexponent := hc
  · exact isNumeric_of_isDigit (hd.whole c hwhole)
  · split at hpoint
    · obtain rfl | hfraction := List.mem_cons.mp hpoint
      · decide
      · exact isNumeric_of_isDigit (hd.fraction c hfraction)
    · cases hpoint
  · cases he : d.exponent with
    | none => rw [he] at hexponent; cases hexponent
    | some e =>
      rw [he] at hexponent
      exact Exponent.isNumeric_of_written (hd.exponent e he) hexponent

/-- Every numeral is a number. -/
theorem ofText?_text (hd : d.Written) : ofText? (String.ofList d.text) = some d.toFloat := by
  have hsign : ∀ c cs, d.text = c :: cs → c ≠ '-' ∧ c ≠ '+' := by
    intro c cs h
    have hbegins : begins c cs = true := begins_of_written hd ((List.append_nil _).trans h)
    rw [begins_iff] at hbegins
    obtain hc | ⟨rfl, -⟩ := hbegins
    · constructor <;> (rintro rfl; revert hc; decide)
    · decide
  have hdigits : (d.whole ++ d.fraction).isEmpty = false :=
    List.isEmpty_eq_false_iff.mpr hd.some_digit
  unfold ofText?
  rw [String.toList_ofList]
  split
  rename_i negative cs hsplit
  split at hsplit
  · rename_i h
    exact absurd rfl (hsign _ _ h).1
  · rename_i h
    exact absurd rfl (hsign _ _ h).2
  · cases hsplit
    rw [scan_text hd]
    dsimp only
    rw [hdigits]
    rfl

end Decimal

end PoolScaling.Number

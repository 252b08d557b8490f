import PoolScaling.Expr.Token
import PoolScaling.Proofs.Number.Numeral

/-! Gaps and lexemes.

What a gap and a lexeme are, apart from how a source is scanned for them. Of all gaps that
a text begins with, scanning finds the longest (`Gap.scan_of_longest`); of all lexemes it
finds the longest too (`Lexeme.scan_of_longest`), and it gives up only where none begins
(`Lexeme.scan_eq_error_iff`). -/
namespace PoolScaling.Expr
open Number Text

/-! ### Gaps -/

/-- White space, line feeds included. -/
def isWhite (c : Char) : Bool := c = '\n' || isSpace c

/-- White space and comments before `rest`. A comment runs to the end of its line or of
the source. -/
inductive IsGap (rest : List Char) : List Char → Prop where
  | nil : IsGap rest []
  | white {c gap} (hc : isWhite c = true) (hgap : IsGap rest gap) : IsGap rest (c :: gap)
  | comment {body gap} (hbody : '\n' ∉ body) (hend : ∀ c ∈ (gap ++ rest).head?, c = '\n')
    (hgap : IsGap rest gap) : IsGap rest ('/' :: '/' :: (body ++ gap))

/-- A gap that no longer gap at its place has more of. -/
structure LongestGap (gap rest : List Char) : Prop where
  isGap : IsGap rest gap
  longest : ∀ gap' rest', gap' ++ rest' = gap ++ rest → IsGap rest' gap' → gap'.length ≤ gap.length

namespace Gap

variable {gap rest body cs : List Char} {c : Char}

theorem ascii_of_isWhite (h : isWhite c = true) : c.toNat < 128 := by
  simp only [isWhite, isSpace, Bool.or_eq_true, decide_eq_true_eq] at h
  obtain rfl | ((rfl | rfl) | rfl) | rfl := h <;> decide

theorem isWhite_of_isSpace (h : isSpace c = true) : isWhite c = true := by rw [isWhite, h, Bool.or_true]

/-- What is left of a gap, inside of a comment or outside. -/
inductive Remains (rest : List Char) : Bool → List Char → Prop where
  | outside {gap : List Char} (hgap : IsGap rest gap) : Remains rest false gap
  | inside (body : List Char) {gap : List Char} (hbody : '\n' ∉ body)
    (hend : ∀ c ∈ (gap ++ rest).head?, c = '\n') (hgap : IsGap rest gap) : Remains rest true (body ++ gap)

theorem Remains.newline (comment : Bool) (h : IsGap rest gap) : Remains rest comment ('\n' :: gap) := by
  have hgap : IsGap rest ('\n' :: gap) := .white rfl h
  cases comment with
  | false => exact .outside hgap
  | true =>
    refine .inside [] List.not_mem_nil ?_ hgap
    rintro c ⟨⟩
    rfl

theorem Remains.cons (hc : c ≠ '\n') (h : Remains rest true gap) : Remains rest true (c :: gap) := by
  cases h with
  | inside body hbody hend hgap =>
    refine .inside (c :: body) ?_ hend hgap
    rw [List.mem_cons, not_or]
    exact ⟨hc.symm, hbody⟩

/-- The second stroke of a comment is inside of it. -/
theorem Remains.comment (hnext : (gap ++ rest).head? = some '/') (h : Remains rest true gap) :
    IsGap rest ('/' :: gap) := by
  cases h with
  | inside body hbody hend hgap =>
    cases body with
    | nil => exact absurd (hend '/' hnext) (by decide)
    | cons c body =>
      cases hnext
      exact .comment (fun hmem => hbody (List.mem_cons_of_mem _ hmem)) hend hgap

/-- Scanning takes a gap. -/
theorem exists_of_scan (comment : Bool) (cs : List Char) :
    ∃ gap, cs = gap ++ (scan comment cs).rest ∧ Remains (scan comment cs).rest comment gap ∧
      (scan comment cs).size = byteCount gap ∧ (scan comment cs).newline = decide ('\n' ∈ gap) := by
  induction cs generalizing comment with
  | nil =>
    refine ⟨[], rfl, ?_, rfl, by simp [scan]⟩
    cases comment with
    | false => exact .outside .nil
    | true => exact .inside [] List.not_mem_nil (by simp [scan]) .nil
  | cons c cs ih =>
    unfold scan
    split
    · rename_i hc
      subst hc
      obtain ⟨gap, hcs, hgap, hsize, -⟩ := ih false
      cases hgap with
      | outside hgap =>
        refine ⟨_, congrArg _ hcs, .newline comment hgap, ?_, by simp⟩
        rw [byteCount_cons, ← hsize, Nat.add_comm]
        rfl
    · rename_i hc
      split
      · rename_i hcomment
        subst hcomment
        obtain ⟨gap, hcs, hgap, hsize, hnewline⟩ := ih true
        exact ⟨c :: gap, congrArg _ hcs, hgap.cons hc, by simp [hsize, Nat.add_comm],
          by simp [hnewline, Ne.symm hc]⟩
      · rename_i hcomment
        rw [Bool.not_eq_true] at hcomment
        subst hcomment
        split
        · rename_i hspace
          have hwhite := isWhite_of_isSpace hspace
          obtain ⟨gap, hcs, hgap, hsize, hnewline⟩ := ih false
          cases hgap with
          | outside hgap =>
            exact ⟨_, congrArg _ hcs, .outside (.white hwhite hgap),
              by simp [hsize, Nat.add_comm, utf8Size_of_ascii (ascii_of_isWhite hwhite)], by simp [hnewline, Ne.symm hc]⟩
        · split
          · rename_i hslash
            simp only [Bool.and_eq_true, decide_eq_true_eq] at hslash
            obtain ⟨rfl, hnext⟩ := hslash
            obtain ⟨gap, hcs, hgap, hsize, hnewline⟩ := ih true
            have hsecond : (gap ++ (scan true cs).rest).head? = some '/' := by rw [← hcs, hnext]
            exact ⟨_, congrArg _ hcs, .outside (hgap.comment hsecond),
              by rw [byteCount_cons, ← hsize, Nat.add_comm]; rfl, by simp [hnewline]⟩
          · exact ⟨[], rfl, .outside .nil, rfl, by simp⟩

/-- From inside a comment, scanning goes on at the end of the line. -/
theorem scan_comment (cs : List Char) :
    scan true cs =
      ⟨(scan false (cs.dropWhile (· ≠ '\n'))).newline,
        byteCount (cs.takeWhile (· ≠ '\n')) + (scan false (cs.dropWhile (· ≠ '\n'))).size,
        (scan false (cs.dropWhile (· ≠ '\n'))).rest⟩ := by
  induction cs with
  | nil => rfl
  | cons c cs ih =>
    by_cases hc : c = '\n'
    · rw [List.takeWhile_cons_of_neg (by simpa using hc), List.dropWhile_cons_of_neg (by simpa using hc),
        byteCount_nil, Nat.zero_add, hc]
      rfl
    · rw [List.takeWhile_cons_of_pos (by simpa using hc), List.dropWhile_cons_of_pos (by simpa using hc),
        byteCount_cons, scan, if_neg hc, if_pos rfl, ih]
      dsimp only
      rw [Nat.add_comm, ← Nat.add_assoc]

/-- After a gap, scanning goes on as if it began there. -/
theorem rest_scan_append (h : IsGap rest gap) : (scan false (gap ++ rest)).rest = (scan false rest).rest := by
  induction h with
  | nil => rfl
  | @white c gap hc _ ih =>
    rw [← ih, List.cons_append, scan]
    split
    · rfl
    · rename_i hne
      have hspace : isSpace c = true := by simpa [isWhite, hne] using hc
      rw [if_neg (by decide), if_pos hspace]
  | @comment body gap hbody hend _ ih =>
    have hopen : (scan false ('/' :: '/' :: (body ++ (gap ++ rest)))).rest =
        (scan true ('/' :: body ++ (gap ++ rest))).rest := rfl
    have hinside : ∀ c ∈ '/' :: body, decide (c ≠ '\n') = true := by
      refine List.forall_mem_cons.mpr ⟨by decide, fun c hc => decide_eq_true ?_⟩
      rintro rfl
      exact hbody hc
    have hline : (gap ++ rest).dropWhile (· ≠ '\n') = gap ++ rest := by
      cases hcs : gap ++ rest with
      | nil => rfl
      | cons c cs =>
        rw [hcs] at hend
        exact List.dropWhile_cons_of_neg (by simpa using hend c rfl)
    rw [← ih, List.cons_append, List.cons_append, List.append_assoc, hopen, scan_comment,
      List.dropWhile_append_of_pos hinside, hline]

/-- The gap that scanning takes is longest. -/
theorem exists_longestGap (cs : List Char) :
    ∃ gap, cs = gap ++ (scan false cs).rest ∧ LongestGap gap (scan false cs).rest ∧
      scan false cs = ⟨decide ('\n' ∈ gap), byteCount gap, (scan false cs).rest⟩ := by
  obtain ⟨gap, hcs, hgap, hsize, hnewline⟩ := exists_of_scan false cs
  cases hgap with
  | outside hgap =>
    refine ⟨gap, hcs, ⟨hgap, fun gap' rest' heq hgap' => ?_⟩, by rw [← hsize, ← hnewline]⟩
    have hrest := rest_scan_append hgap'
    rw [heq, ← hcs] at hrest
    have hle := rest_length_le false rest'
    have hlength := congrArg List.length heq
    rw [← hrest] at hle
    rw [List.length_append, List.length_append] at hlength
    omega

theorem append_inj_of_longestGap {gap' rest' : List Char} (h : LongestGap gap rest) (h' : LongestGap gap' rest')
    (heq : gap ++ rest = gap' ++ rest') : gap = gap' ∧ rest = rest' :=
  List.append_inj heq (Nat.le_antisymm (h'.longest _ _ heq h.isGap) (h.longest _ _ heq.symm h'.isGap))

/-- **Gaps.** Scanning finds the longest gap. -/
theorem scan_of_longest (h : LongestGap gap rest) :
    scan false (gap ++ rest) = ⟨decide ('\n' ∈ gap), byteCount gap, rest⟩ := by
  obtain ⟨gap', heq, hlongest, hscan⟩ := exists_longestGap (gap ++ rest)
  obtain ⟨hgap, hrest⟩ := append_inj_of_longestGap h hlongest heq
  rw [hscan, ← hgap, ← hrest]

end Gap

/-! ### Strings -/

/-- The inside of a string and what it denotes. -/
inductive Quoted (quote : Char) : List Char → List Char → Prop where
  | nil : Quoted quote [] []
  | escape {c body value} (h : Quoted quote body value) : Quoted quote ('\\' :: c :: body) (unescape c :: value)
  | plain {c body value} (hquote : c ≠ quote) (hescape : c ≠ '\\') (h : Quoted quote body value) :
    Quoted quote (c :: body) (c :: value)

section Strings

variable {quote : Char} {cs body value rest : List Char} {size : Nat}

theorem scanString_plain {c : Char} (hquote : c ≠ quote) (hescape : c ≠ '\\') (cs : List Char) :
    scanString quote (c :: cs) =
      (scanString quote cs).map fun (value, size, rest) => (c :: value, size + c.utf8Size, rest) := by
  rw [scanString.eq_def]
  dsimp only
  rw [if_neg hquote, if_neg hescape]

theorem scanString_escape (hquote : quote ≠ '\\') (c : Char) (cs : List Char) :
    scanString quote ('\\' :: c :: cs) =
      (scanString quote cs).map fun (value, size, rest) => (unescape c :: value, size + 1 + c.utf8Size, rest) := by
  rw [scanString.eq_def]
  dsimp only
  rw [if_neg (Ne.symm hquote), if_pos rfl]

theorem scanString_of_quoted (hquote : quote ≠ '\\') (h : Quoted quote body value) (rest : List Char) :
    scanString quote (body ++ quote :: rest) = some (value, byteCount body + quote.utf8Size, rest) := by
  induction h with
  | nil =>
    rw [List.nil_append, scanString.eq_def]
    dsimp only
    rw [if_pos rfl, byteCount_nil, Nat.zero_add]
  | @escape c body value _ ih =>
    have hslash : ('\\').utf8Size = 1 := rfl
    rw [List.cons_append, List.cons_append, scanString_escape hquote, ih, Option.map_some, byteCount_cons,
      byteCount_cons, hslash]
    simp only [Option.some.injEq, Prod.mk.injEq, true_and, and_true]
    omega
  | @plain c body value hne hescape _ ih =>
    rw [List.cons_append, scanString_plain hne hescape, ih, Option.map_some, byteCount_cons]
    simp only [Option.some.injEq, Prod.mk.injEq, true_and, and_true]
    omega

theorem exists_of_scanString (h : scanString quote cs = some (value, size, rest)) :
    ∃ body, cs = body ++ quote :: rest ∧ Quoted quote body value := by
  fun_induction scanString quote cs generalizing value size rest with
  | case1 => cases h
  | case2 cs =>
    cases h
    exact ⟨[], rfl, .nil⟩
  | case3 => cases h
  | case4 e cs hne ih =>
    obtain ⟨⟨value', size', rest'⟩, hscan, heq⟩ := Option.map_eq_some_iff.mp h
    cases heq
    obtain ⟨body, rfl, hbody⟩ := ih hscan
    exact ⟨_, rfl, .escape hbody⟩
  | case5 c cs hne hescape ih =>
    obtain ⟨⟨value', size', rest'⟩, hscan, heq⟩ := Option.map_eq_some_iff.mp h
    cases heq
    obtain ⟨body, rfl, hbody⟩ := ih hscan
    exact ⟨_, rfl, .plain hne hescape hbody⟩

end Strings

/-! ### Marks -/

namespace Mark

theorem spellings_sorted : spellings.Pairwise fun s t => t.1.length ≤ s.1.length := by decide

theorem eq_of_spelling : ∀ s ∈ spellings, ∀ t ∈ spellings, s.1 = t.1 → s = t := by decide

theorem ascii_of_spelling {s : List Char × Mark} (hs : s ∈ spellings) {c : Char} (hc : c ∈ s.1) :
    c.toNat < 128 := by
  have hall : (spellings.all fun s => s.1.all fun c => decide (c.toNat < 128)) = true := by decide
  exact of_decide_eq_true (List.all_eq_true.mp (List.all_eq_true.mp hall s hs) c hc)

/-- A mark begins with a character that begins no string and no name, and no number either
unless the mark is a point. -/
theorem head_of_spelling {s : List Char × Mark} (hs : s ∈ spellings) {c : Char} (hc : c ∈ s.1.head?) :
    c.isDigit = false ∧ ¬ (c = '"' ∨ c = '\'') ∧ isNameStart c = false ∧ (c = '.' → s.1 = ['.']) := by
  have hall : (spellings.all fun s => s.1.head?.all fun c => decide (c.isDigit = false ∧
      ¬ (c = '"' ∨ c = '\'') ∧ isNameStart c = false ∧ (c = '.' → s.1 = ['.']))) = true := by decide
  exact of_decide_eq_true (Option.all_eq_true _ _ |>.mp (List.all_eq_true.mp hall s hs) c hc)

theorem of_leading? {cs : List Char} {s : List Char × Mark} (h : leading? cs = some s) :
    s ∈ spellings ∧ s.1 <+: cs :=
  have hprefix : s.1.isPrefixOf cs = true :=
    List.find?_some (p := fun s : List Char × Mark => s.1.isPrefixOf cs) h
  ⟨List.mem_of_find?_eq_some h, List.isPrefixOf_iff_prefix.mp hprefix⟩

/-- Of all spellings that a text begins with, the longest is found. -/
theorem exists_of_prefix {cs : List Char} {s : List Char × Mark} (hs : s ∈ spellings) (h : s.1 <+: cs) :
    ∃ t, leading? cs = some t ∧ s.1.length ≤ t.1.length := by
  cases hfind : leading? cs with
  | none =>
    have hnone := List.find?_eq_none.mp hfind s hs
    exact absurd (List.isPrefixOf_iff_prefix.mpr h) hnone
  | some t =>
    obtain ⟨-, before, after, heq, hbefore⟩ := List.find?_eq_some_iff_append.mp hfind
    have hsorted := spellings_sorted
    rw [heq] at hs hsorted
    have hnot : s ∉ before := fun hmem => by
      have hno := hbefore s hmem
      rw [Bool.not_eq_true'] at hno
      exact absurd (List.isPrefixOf_iff_prefix.mpr h) (Bool.eq_false_iff.mp hno)
    refine ⟨t, rfl, ?_⟩
    obtain rfl | hafter := List.mem_cons.mp ((List.mem_append.mp hs).resolve_left hnot)
    · exact Nat.le_refl _
    · exact (List.pairwise_cons.mp (List.pairwise_append.mp hsorted).2.1).1 s hafter

end Mark

/-! ### Lexemes -/

/-- A lexeme and what it says: a numeral, a string in quotes, a name or a mark. -/
inductive IsLexeme : Content → List Char → Prop where
  | number {d : Decimal} {x : Float} (hd : d.Written) (hx : Decimal.ofText? (String.ofList d.text) = some x) :
    IsLexeme (.number x) d.text
  | string {quote body value} (hquote : quote = '"' ∨ quote = '\'') (h : Quoted quote body value) :
    IsLexeme (.string (String.ofList value)) (quote :: (body ++ [quote]))
  | name {c cs} (hc : isNameStart c = true) (hcs : ∀ d ∈ cs, isNameChar d = true) :
    IsLexeme (.name (String.ofList (c :: cs))) (c :: cs)
  | mark {spelling m} (h : (spelling, m) ∈ Mark.spellings) : IsLexeme (.mark m) spelling

theorem IsLexeme.ne_nil {content : Content} {lexeme : List Char} (h : IsLexeme content lexeme) : lexeme ≠ [] := by
  cases h with
  | number hd => exact hd.text_ne_nil
  | string => exact List.cons_ne_nil _ _
  | name => exact List.cons_ne_nil _ _
  | mark h => exact List.ne_nil_of_length_pos (Mark.spelling_length_pos _ h)

/-- A lexeme that no longer lexeme at its place has more of. -/
structure LongestLexeme (content : Content) (lexeme rest : List Char) : Prop where
  isLexeme : IsLexeme content lexeme
  longest : ∀ content' lexeme', lexeme' <+: lexeme ++ rest → IsLexeme content' lexeme' →
    lexeme'.length ≤ lexeme.length

/-- What is wrong with a character that begins no lexeme. -/
def refusal (c : Char) : Flaw :=
  if c = '"' ∨ c = '\'' then .unterminatedString else .unexpectedCharacter c

namespace Lexeme

variable {content : Content} {lexeme rest cs : List Char} {c : Char} {l : Lexeme}

/-! #### One equation for each kind of lexeme -/

theorem scan_number (h : Decimal.begins c cs = true) :
    scan c cs = .ok ⟨.number (Decimal.scan (c :: cs)).1.toFloat, byteCount (Decimal.scan (c :: cs)).1.text,
      (Decimal.scan (c :: cs)).2⟩ := by
  have hd := Decimal.written_scan h
  have hif : (c.isDigit || (c = '.' && cs.head?.any Char.isDigit)) = true := h
  unfold scan
  rw [if_pos hif]
  dsimp only
  rw [Decimal.ofText?_text hd, byteCount_of_ascii fun c hc => ascii_of_isNumeric (Decimal.isNumeric_of_written hd hc)]

theorem begins_eq_false (hdigit : c.isDigit = false) (hpoint : c ≠ '.') : Decimal.begins c cs = false := by
  rw [Decimal.begins, hdigit, decide_eq_false hpoint, Bool.false_and, Bool.false_or]

theorem scan_string (h : c = '"' ∨ c = '\'') :
    scan c cs = match scanString c cs with
      | some (value, size, rest) => .ok ⟨.string (String.ofList value), size + 1, rest⟩
      | none => .error .unterminatedString := by
  have hnumber : ¬ (c.isDigit || (c = '.' && cs.head?.any Char.isDigit)) = true := by
    rw [Bool.not_eq_true]
    obtain rfl | rfl := h <;> exact begins_eq_false (by decide) (by decide)
  have hif : (c = '"' || c = '\'') = true := by simpa using h
  unfold scan
  exact (if_neg hnumber).trans (if_pos hif)

theorem of_isNameStart (h : isNameStart c = true) :
    c.toNat < 128 ∧ c.isDigit = false ∧ c ≠ '.' ∧ ¬ (c = '"' ∨ c = '\'') := by
  have hkind : c.isAlpha = true ∨ c = '_' ∨ c = '$' := by simpa [isNameStart, or_assoc] using h
  obtain halpha | rfl | rfl := hkind
  · refine ⟨ascii_of_isAlpha halpha, ?_, ?_, ?_⟩
    · rw [isAlpha_iff] at halpha
      rw [← Bool.not_eq_true, isDigit_iff]
      omega
    · rintro rfl
      revert halpha
      decide
    · rintro (rfl | rfl) <;> (revert halpha; decide)
  · decide
  · decide

theorem ascii_of_isNameChar (h : isNameChar c = true) : c.toNat < 128 := by
  have hkind : (c.isAlpha = true ∨ c.isDigit = true) ∨ c = '_' ∨ c = '$' := by
    simpa [isNameChar, Char.isAlphanum, or_assoc] using h
  obtain (halpha | hdigit) | rfl | rfl := hkind
  · exact ascii_of_isAlpha halpha
  · exact ascii_of_isDigit hdigit
  · decide
  · decide

theorem isNameChar_of_isNameStart (h : isNameStart c = true) : isNameChar c = true := by
  rw [isNameStart] at h
  rw [isNameChar, Char.isAlphanum]
  cases halpha : c.isAlpha with
  | true => rfl
  | false =>
    rw [halpha, Bool.false_or] at h
    rw [Bool.or_assoc, h, Bool.or_true]

theorem byteCount_name (h : isNameStart c = true) (cs : List Char) :
    byteCount (c :: cs.takeWhile isNameChar) = (c :: cs.takeWhile isNameChar).length :=
  byteCount_of_ascii <| List.forall_mem_cons.mpr ⟨(of_isNameStart h).1, fun d hd =>
    ascii_of_isNameChar (List.all_eq_true.mp List.all_takeWhile d hd)⟩

theorem scan_name (h : isNameStart c = true) :
    scan c cs = .ok ⟨.name (String.ofList (c :: cs.takeWhile isNameChar)), (c :: cs.takeWhile isNameChar).length,
      cs.dropWhile isNameChar⟩ := by
  obtain ⟨-, hdigit, hpoint, hquote⟩ := of_isNameStart h
  have hnumber : ¬ (c.isDigit || (c = '.' && cs.head?.any Char.isDigit)) = true := by
    rw [Bool.not_eq_true]
    exact begins_eq_false hdigit hpoint
  have hif : ¬ (c = '"' || c = '\'') = true := by simpa using hquote
  unfold scan
  rw [if_neg hnumber, if_neg hif, if_pos h]

theorem scan_mark (hbegins : Decimal.begins c cs = false) (hquote : ¬ (c = '"' ∨ c = '\''))
    (hname : isNameStart c = false) :
    scan c cs = match Mark.leading? (c :: cs) with
      | some (spelling, m) => .ok ⟨.mark m, spelling.length, (c :: cs).drop spelling.length⟩
      | none => .error (.unexpectedCharacter c) := by
  have hnumber : ¬ (c.isDigit || (c = '.' && cs.head?.any Char.isDigit)) = true := by
    rw [Bool.not_eq_true]
    exact hbegins
  have hif : ¬ (c = '"' || c = '\'') = true := by simpa using hquote
  have hstart : ¬ isNameStart c = true := by rw [hname]; decide
  unfold scan
  exact (if_neg hnumber).trans ((if_neg hif).trans (if_neg hstart))

/-- What a character can begin: a lexeme of one of the four kinds, or else nothing. -/
inductive Opening (c : Char) (cs : List Char) : Prop where
  | number (h : Decimal.begins c cs = true)
  | string (h : c = '"' ∨ c = '\'')
  | name (h : isNameStart c = true)
  | other (hnumber : Decimal.begins c cs = false) (hstring : ¬ (c = '"' ∨ c = '\''))
    (hname : isNameStart c = false)

theorem opening (c : Char) (cs : List Char) : Opening c cs := by
  cases hnumber : Decimal.begins c cs with
  | true => exact .number hnumber
  | false =>
    by_cases hstring : c = '"' ∨ c = '\''
    · exact .string hstring
    · cases hname : isNameStart c with
      | true => exact .name hname
      | false => exact .other hnumber hstring hname

/-! #### The longest lexeme -/

/-- What scanning takes is a lexeme. -/
theorem exists_of_scan (h : scan c cs = .ok l) :
    ∃ lexeme, c :: cs = lexeme ++ l.rest ∧ IsLexeme l.content lexeme ∧ l.size = byteCount lexeme := by
  cases opening c cs with
  | number hbegins =>
    rw [scan_number hbegins] at h
    cases h
    have hd := Decimal.written_scan hbegins
    exact ⟨_, (Decimal.text_append_scan _).symm, .number hd (Decimal.ofText?_text hd), rfl⟩
  | string hquote =>
    rw [scan_string hquote] at h
    split at h
    · rename_i value size rest hscan
      cases h
      obtain ⟨body, rfl, hbody⟩ := exists_of_scanString hscan
      have hne : c ≠ '\\' := by obtain rfl | rfl := hquote <;> decide
      have hone : c.utf8Size = 1 := by obtain rfl | rfl := hquote <;> decide
      rw [scanString_of_quoted hne hbody] at hscan
      cases hscan
      refine ⟨c :: (body ++ [c]), by simp, .string hquote hbody, ?_⟩
      simp only [byteCount_cons, byteCount_append, byteCount_nil, hone]
      omega
    · cases h
  | name hname =>
    rw [scan_name hname] at h
    cases h
    have hcs : ∀ d ∈ cs.takeWhile isNameChar, isNameChar d = true := fun d hd =>
      List.all_eq_true.mp List.all_takeWhile d hd
    refine ⟨c :: cs.takeWhile isNameChar, ?_, .name hname hcs, (byteCount_name hname cs).symm⟩
    rw [List.cons_append, List.takeWhile_append_dropWhile]
  | other hbegins hquote hname =>
    rw [scan_mark hbegins hquote hname] at h
    split at h
    · rename_i spelling m hleading
      cases h
      obtain ⟨hmem, hprefix⟩ := Mark.of_leading? hleading
      refine ⟨spelling, ?_, .mark hmem, (byteCount_of_ascii fun c => Mark.ascii_of_spelling hmem).symm⟩
      exact (List.prefix_iff_eq_append.mp hprefix).symm
    · cases h

/-- Scanning goes at least as far as any lexeme that the text begins with, and reads what
that lexeme says if it goes no further. -/
theorem scan_of_isLexeme (h : IsLexeme content lexeme) (heq : lexeme ++ rest = c :: cs) :
    ∃ l, scan c cs = .ok l ∧ l.rest.length ≤ rest.length ∧ (l.rest = rest → l.content = content) := by
  cases h with
  | @number d x hd hx =>
    refine ⟨_, scan_number (Decimal.begins_of_written hd heq), ?_, fun hrest => ?_⟩
    · rw [← heq]
      exact (Decimal.scan_text_append hd rest).1
    · have hwhole := Decimal.text_append_scan (c :: cs)
      have hread := Decimal.ofText?_text (Decimal.written_scan (Decimal.begins_of_written hd heq))
      dsimp only at hrest
      rw [hrest, ← heq] at hwhole
      rw [← heq, List.append_cancel_right hwhole, hx] at hread
      rw [← heq]
      exact congrArg Content.number (Option.some.inj hread).symm
  | @string quote body value hquote h =>
    rw [List.cons_append, List.cons.injEq, List.append_assoc, List.singleton_append] at heq
    obtain ⟨rfl, rfl⟩ := heq
    have hne : quote ≠ '\\' := by obtain rfl | rfl := hquote <;> decide
    rw [scan_string hquote, scanString_of_quoted hne h]
    exact ⟨_, rfl, Nat.le_refl _, fun _ => rfl⟩
  | @name first others hfirst hothers =>
    rw [List.cons_append, List.cons.injEq] at heq
    obtain ⟨rfl, rfl⟩ := heq
    have htake : (others ++ rest).takeWhile isNameChar = others ++ rest.takeWhile isNameChar :=
      List.takeWhile_append_of_pos hothers
    have hdrop : (others ++ rest).dropWhile isNameChar = rest.dropWhile isNameChar :=
      List.dropWhile_append_of_pos hothers
    rw [scan_name hfirst, htake, hdrop]
    refine ⟨_, rfl, (List.dropWhile_suffix _).length_le, fun hrest => ?_⟩
    have hsplit := List.takeWhile_append_dropWhile (p := isNameChar) (l := rest)
    dsimp only at hrest ⊢
    rw [hrest] at hsplit
    rw [List.append_left_eq_self.mp hsplit, List.append_nil]
  | @mark spelling m hmem =>
    have hpos := Mark.spelling_length_pos _ hmem
    have hlength := congrArg List.length heq
    rw [List.length_append, List.length_cons] at hlength
    have hhead : c ∈ lexeme.head? := by
      cases lexeme with
      | nil => cases hpos
      | cons s ss =>
        cases heq
        rfl
    obtain ⟨hdigit, hquote, hname, hpoint⟩ := Mark.head_of_spelling hmem hhead
    by_cases hbegins : Decimal.begins c cs = true
    · -- A point with a digit after it begins a number, which is longer.
      obtain hc | ⟨rfl, -⟩ := Decimal.begins_iff.mp hbegins
      · rw [hdigit] at hc
        cases hc
      have hspelling : lexeme = ['.'] := hpoint rfl
      rw [hspelling, List.singleton_append, List.cons.injEq] at heq
      obtain ⟨-, rfl⟩ := heq
      have hlt := Decimal.length_scan_point_lt hbegins
      refine ⟨_, scan_number hbegins, Nat.le_of_lt hlt, fun hrest => ?_⟩
      exact absurd (congrArg List.length hrest) (Nat.ne_of_lt hlt)
    · rw [Bool.not_eq_true] at hbegins
      rw [scan_mark hbegins hquote hname]
      obtain ⟨t, ht, hle⟩ := Mark.exists_of_prefix hmem ⟨rest, heq⟩
      obtain ⟨htmem, htprefix⟩ := Mark.of_leading? ht
      rw [ht]
      refine ⟨_, rfl, ?_, fun hrest => ?_⟩
      · rw [List.length_drop, List.length_cons]
        dsimp only at hle
        omega
      · have hsplit := List.prefix_iff_eq_append.mp htprefix
        dsimp only at hrest ⊢
        rw [hrest, ← heq] at hsplit
        have ht' := Mark.eq_of_spelling _ htmem _ hmem (List.append_cancel_right hsplit)
        rw [ht']

/-- The lexeme that scanning takes is longest. -/
theorem exists_longestLexeme (h : scan c cs = .ok l) :
    ∃ lexeme, c :: cs = lexeme ++ l.rest ∧ LongestLexeme l.content lexeme l.rest ∧ l.size = byteCount lexeme := by
  obtain ⟨lexeme, hcs, hlex, hsize⟩ := exists_of_scan h
  refine ⟨lexeme, hcs, ⟨hlex, fun content' lexeme' hprefix hlex' => ?_⟩, hsize⟩
  rw [← hcs] at hprefix
  obtain ⟨rest', heq⟩ := hprefix
  obtain ⟨l', hscan', hle, -⟩ := scan_of_isLexeme hlex' heq
  rw [h] at hscan'
  cases hscan'
  have hlength := congrArg List.length (heq.trans hcs)
  rw [List.length_append, List.length_append] at hlength
  omega

/-- **Lexemes.** Scanning finds the longest lexeme. -/
theorem scan_of_longest (h : LongestLexeme content lexeme rest) (heq : lexeme ++ rest = c :: cs) :
    scan c cs = .ok ⟨content, byteCount lexeme, rest⟩ := by
  obtain ⟨⟨content', size, rest'⟩, hscan, hle, hcontent⟩ := scan_of_isLexeme h.isLexeme heq
  obtain ⟨lexeme', hcs, hlex', hsize⟩ := exists_of_scan hscan
  dsimp only at hle hcontent hcs hlex' hsize
  have hle' := h.longest _ _ ⟨rest', by rw [heq, hcs]⟩ hlex'
  have hsplit := heq.trans hcs
  have hlength := congrArg List.length hsplit
  rw [List.length_append, List.length_append] at hlength
  obtain ⟨rfl, rfl⟩ := List.append_inj hsplit (by omega)
  rw [hscan, hcontent rfl, hsize]

theorem flaw_of_scan {flaw : Flaw} (h : scan c cs = .error flaw) : flaw = refusal c := by
  cases opening c cs with
  | number hbegins =>
    rw [scan_number hbegins] at h
    cases h
  | string hquote =>
    rw [scan_string hquote] at h
    rw [refusal, if_pos hquote]
    split at h
    · cases h
    · cases h
      rfl
  | name hname =>
    rw [scan_name hname] at h
    cases h
  | other hbegins hquote hname =>
    rw [scan_mark hbegins hquote hname] at h
    rw [refusal, if_neg hquote]
    split at h
    · cases h
    · cases h
      rfl

/-- **Refusals.** Scanning gives up where no lexeme begins, and only there. -/
theorem scan_eq_error_iff {flaw : Flaw} :
    scan c cs = .error flaw ↔
      (∀ content lexeme, IsLexeme content lexeme → ¬ lexeme <+: c :: cs) ∧ flaw = refusal c := by
  constructor
  · intro h
    refine ⟨fun content lexeme hlex ⟨rest, heq⟩ => ?_, flaw_of_scan h⟩
    obtain ⟨l, hscan, -, -⟩ := scan_of_isLexeme hlex heq
    rw [h] at hscan
    cases hscan
  · rintro ⟨hnone, rfl⟩
    cases hscan : scan c cs with
    | ok l =>
      obtain ⟨lexeme, hcs, hlex, -⟩ := exists_of_scan hscan
      exact absurd ⟨l.rest, hcs.symm⟩ (hnone _ _ hlex)
    | error flaw => rw [flaw_of_scan hscan]

end Lexeme

end PoolScaling.Expr

import PoolScaling.Toml.Printer
import PoolScaling.Toml.Text

/-! Texts, read back.

Whatever form a text is written in, the reader of that form takes it back, up to the
line break after it (`text?_writeText`). The two forms that escape are read by readers
that undo one escape after the other (`Unescapes`). In the two forms over several lines
the quotes at the end of the text meet the closing ones; both are told apart at the
first three quotes in a row, which the text has nowhere before. -/
namespace PoolScaling.Toml

variable {c x : Char} {cs rest tail : List Char} {long : Bool}

/-! ### Escapes -/

/-- A reader of texts that undoes escapes and takes plain characters as they are. -/
structure Unescapes (long : Bool) (read : List Char → Option (List Char × List Char)) : Prop where
  plain : ∀ {c tail cs rest}, isPlain c = true ∨ (long = true ∧ c = '\n') → c ≠ '"' → c ≠ '\\' →
    read tail = some (cs, rest) → read (c :: tail) = some (c :: cs, rest)
  letter : ∀ {c x tail cs rest}, escaped? c = some x →
    read tail = some (cs, rest) → read ('\\' :: c :: tail) = some (x :: cs, rest)
  code : ∀ {a b c d x tail cs rest}, codePoint? [a, b, c, d] = some x →
    read tail = some (cs, rest) → read ('\\' :: 'u' :: a :: b :: c :: d :: tail) = some (x :: cs, rest)

theorem hexDigit?_hexDigit : ∀ n < 16, Text.hexDigit? (hexDigit n) = some n := by decide

theorem codePoint?_hexDigit (h : c.toNat < 256) :
    codePoint? ['0', '0', hexDigit (c.toNat / 16), hexDigit (c.toNat % 16)] = some c := by
  have hhigh := hexDigit?_hexDigit (c.toNat / 16) (by omega)
  have hlow := hexDigit?_hexDigit (c.toNat % 16) (by omega)
  have hvalue : Text.hex? ['0', '0', hexDigit (c.toNat / 16), hexDigit (c.toNat % 16)] = some c.toNat := by
    have hzero : Text.hexDigit? '0' = some 0 := by decide
    simp only [Text.hex?, List.foldlM_cons, List.foldlM_nil, hzero, hhigh, hlow, Option.map_some,
      Option.bind_eq_bind, Option.bind_some, Option.pure_def]
    congr 1
    omega
  rw [codePoint?, hvalue, Option.bind_some, if_pos (by exact c.valid), Char.ofNat_toNat]

theorem isPlain_of_not_needsCode (h : needsCode c = false) (hline : c ≠ '\n') : isPlain c = true := by
  simp only [needsCode, Bool.or_eq_false_iff, Bool.and_eq_false_iff, decide_eq_false_iff_not,
    Decidable.not_not] at h
  obtain ⟨hlow, hdelete⟩ := h
  simp only [isPlain, Bool.or_eq_true, Bool.and_eq_true, decide_eq_true_eq]
  rcases hlow with (hlow | htab) | hline'
  · exact .inr ⟨by omega, hdelete⟩
  · exact .inl htab
  · exact absurd hline' hline

theorem toNat_of_needsCode (h : needsCode c = true) : c.toNat < 256 := by
  simp only [needsCode, Bool.or_eq_true, Bool.and_eq_true, decide_eq_true_eq] at h
  omega

/-- A character other than a double quote is read back from its escape. -/
theorem Unescapes.escape {read : List Char → Option (List Char × List Char)} (h : Unescapes long read)
    (hc : c ≠ '"') (htail : read tail = some (cs, rest)) :
    read (escape long c ++ tail) = some (c :: cs, rest) := by
  unfold Toml.escape
  split
  · exact h.letter rfl htail
  · exact h.letter rfl htail
  · cases long with
    | true => exact h.plain (.inr ⟨rfl, rfl⟩) hc (by decide) htail
    | false => exact h.letter rfl htail
  · exact h.letter rfl htail
  · exact h.letter rfl htail
  · exact h.letter rfl htail
  · rename_i hline _ _ hbackslash
    split
    · rename_i hcode
      exact h.code (codePoint?_hexDigit (toNat_of_needsCode hcode)) htail
    · rename_i hcode
      have hplain := isPlain_of_not_needsCode (by simpa using hcode) hline
      exact h.plain (.inl hplain) hc hbackslash htail

/-- An escape begins with neither a double quote nor a line break. -/
theorem escape_eq_cons (long : Bool) (hc : c ≠ '"') :
    ∃ d ds, escape long c = d :: ds ∧ d ≠ '"' ∧ (c ≠ '\n' → d ≠ '\n' ∧ d ≠ '\r') := by
  unfold escape
  split
  · exact ⟨_, _, rfl, by decide, fun _ => by decide⟩
  · exact ⟨_, _, rfl, by decide, fun _ => by decide⟩
  · cases long <;> exact ⟨_, _, rfl, by decide, fun h => absurd rfl h⟩
  · exact ⟨_, _, rfl, by decide, fun _ => by decide⟩
  · exact ⟨_, _, rfl, by decide, fun _ => by decide⟩
  · exact ⟨_, _, rfl, by decide, fun _ => by decide⟩
  · split
    · exact ⟨_, _, rfl, by decide, fun _ => by decide⟩
    · exact ⟨_, _, rfl, hc, fun h => ⟨h, by assumption⟩⟩

theorem ne_of_escaped? (h : escaped? c = some x) : c ≠ 'u' ∧ c ≠ 'U' := by
  constructor <;> (rintro rfl; cases h)

theorem endsLine_of_escaped? (h : escaped? c = some x) : endsLine (c :: tail) = false := by
  unfold escaped? at h
  split at h <;> first | rfl | cases h

/-! ### Between double quotes -/

theorem quoted?_unescapes : Unescapes false quoted? where
  plain {c tail cs rest} hplain hquote hbackslash htail := by
    have hc : isPlain c = true := hplain.resolve_right fun h => Bool.false_ne_true h.1
    rw [quoted?]
    · simp [hc, htail]
    · exact hquote
    all_goals intros; contradiction
  letter hletter htail := by
    obtain ⟨hu, hU⟩ := ne_of_escaped? hletter
    rw [quoted?]
    · simp [hletter, htail]
    all_goals intros; contradiction
  code hcode htail := by
    rw [quoted?, hcode]
    simp [htail]

theorem escapeAll_cons (hc : c ≠ '"') (run : Nat) :
    escapeAll long run (c :: cs) = escape long c ++ escapeAll long 0 cs := by
  rw [escapeAll, if_neg hc]

theorem quoted?_escapeAll (run : Nat) (cs rest : List Char) :
    quoted? (escapeAll false run cs ++ '"' :: rest) = some (cs, rest) := by
  induction cs generalizing run with
  | nil => rfl
  | cons c cs ih =>
    by_cases hc : c = '"'
    · subst hc
      exact quoted?_unescapes.letter rfl (ih 0)
    · rw [escapeAll_cons hc, List.append_assoc]
      exact quoted?_unescapes.escape hc (ih 0)

theorem escapeAll_ne_two_quotes {t : List Char} :
    escapeAll false 0 cs ++ '"' :: '\n' :: rest ≠ '"' :: '"' :: t := by
  intro h
  cases cs with
  | nil => cases h
  | cons c cs =>
    by_cases hc : c = '"'
    · subst hc
      cases h
    · obtain ⟨d, ds, hescape, hd, -⟩ := escape_eq_cons false hc
      rw [escapeAll_cons hc, hescape] at h
      simp only [List.cons_append, List.cons.injEq] at h
      exact hd h.1

/-! ### Between three double quotes -/

theorem longQuoted?_unescapes : Unescapes true (longQuoted? false) where
  plain {c tail cs rest} hplain hquote hbackslash htail := by
    have hreturn : c ≠ '\r' := by rintro rfl; revert hplain; decide
    have hc : isPlain c = true ∨ c = '\n' := hplain.imp_right And.right
    rw [longQuoted?]
    · simp [hc, htail]
    all_goals intros; contradiction
  letter hletter htail := by
    obtain ⟨hu, hU⟩ := ne_of_escaped? hletter
    rw [longQuoted?]
    · simp [endsLine_of_escaped? hletter, hletter, htail]
    all_goals intros; contradiction
  code hcode htail := by
    rw [longQuoted?, hcode]
    simp [htail]

/-- A double quote is one of the text unless two more follow. -/
theorem longQuoted?_quote (hquotes : ∀ t, tail ≠ '"' :: '"' :: t)
    (htail : longQuoted? false tail = some (cs, rest)) :
    longQuoted? false ('"' :: tail) = some ('"' :: cs, rest) := by
  have hplain : isPlain '"' = true := rfl
  rw [longQuoted?]
  · simp [hplain, htail]
  · intro t _ ht
    exact hquotes t ht
  all_goals intros; contradiction

theorem escapeAll_quote (run : Nat) (cs : List Char) :
    escapeAll true run ('"' :: cs) =
      if 2 ≤ run then '\\' :: '"' :: escapeAll true 0 cs else '"' :: escapeAll true (run + 1) cs := rfl

/-- After three quotes in a row, up to two more end the text. -/
theorem closing_replicate {quote a : Char} (h : a ≠ quote) {k : Nat} (hk : k ≤ 2) (rest : List Char) :
    closing quote (List.replicate k quote ++ a :: rest) = (List.replicate k quote, a :: rest) := by
  match k with
  | 0 => cases rest <;> simp [closing, h]
  | 1 => cases rest <;> simp [closing, h]
  | 2 => simp [closing]

/-- Of an escaped text, two quotes in a row are followed by no third, unless it ends there. -/
theorem escapeAll_two_quotes {run : Nat} (hrun : 0 < run) {t : List Char}
    (h : escapeAll true run cs ++ '"' :: '"' :: '"' :: tail = '"' :: '"' :: t) :
    cs = [] ∨ (cs = ['"'] ∧ run = 1) := by
  cases cs with
  | nil => exact .inl rfl
  | cons c cs =>
    right
    by_cases hc : c = '"'
    · subst hc
      rw [escapeAll_quote] at h
      split at h
      · cases h
      · have hone : run = 1 := by omega
        subst hone
        cases cs with
        | nil => exact ⟨rfl, rfl⟩
        | cons d cs =>
          by_cases hd : d = '"'
          · subst hd
            cases h
          · obtain ⟨e, es, hescape, he, -⟩ := escape_eq_cons true hd
            rw [escapeAll_cons hd, hescape] at h
            simp only [List.cons_append, List.cons.injEq, true_and] at h
            exact absurd h.1 he
    · obtain ⟨e, es, hescape, he, -⟩ := escape_eq_cons true hc
      rw [escapeAll_cons hc, hescape] at h
      simp only [List.cons_append, List.cons.injEq] at h
      exact absurd h.1 he

theorem longQuoted?_escapeAll (run : Nat) (cs rest : List Char) :
    longQuoted? false (escapeAll true run cs ++ '"' :: '"' :: '"' :: '\n' :: rest) =
      some (cs, '\n' :: rest) := by
  have hclosing : ∀ k ≤ 2, longQuoted? false ('"' :: '"' :: '"' :: (List.replicate k '"' ++ '\n' :: rest)) =
      some (List.replicate k '"', '\n' :: rest) := by
    intro k hk
    rw [longQuoted?, closing_replicate (by decide) hk]
  induction cs generalizing run with
  | nil => exact hclosing 0 (by decide)
  | cons c cs ih =>
    by_cases hc : c = '"'
    · subst hc
      rw [escapeAll_quote]
      split
      · exact longQuoted?_unescapes.letter rfl (ih 0)
      · by_cases hend : cs = [] ∨ (cs = ['"'] ∧ run + 1 = 1)
        · -- The quotes of the text and the closing ones make four or five in a row.
          rcases hend with rfl | ⟨rfl, hrun⟩
          · exact hclosing 1 (by decide)
          · rw [hrun]
            exact hclosing 2 (by decide)
        · refine longQuoted?_quote (fun t ht => hend ?_) (ih (run + 1))
          exact escapeAll_two_quotes (Nat.succ_pos run) ht
    · rw [escapeAll_cons hc, List.append_assoc]
      exact longQuoted?_unescapes.escape hc (ih 0)

/-! ### Between single quotes -/

theorem literal?_append (h : ∀ c ∈ cs, isPlain c = true ∧ c ≠ '\'') (rest : List Char) :
    literal? (cs ++ '\'' :: rest) = some (cs, rest) := by
  induction cs with
  | nil => rfl
  | cons c cs ih =>
    obtain ⟨hplain, hquote⟩ := h c List.mem_cons_self
    rw [List.cons_append, literal?]
    · simp [hplain, ih fun d hd => h d (List.mem_cons_of_mem c hd)]
    · exact hquote

theorem le_longestRun (c : Char) (run : Nat) (cs : List Char) : run ≤ longestRun c run cs := by
  induction cs generalizing run with
  | nil => exact Nat.le_refl run
  | cons d cs ih =>
    rw [longestRun]
    split
    · exact Nat.le_of_succ_le (ih (run + 1))
    · exact Nat.le_max_left _ _

theorem not_mem_of_longestRun (h : longestRun c 0 cs = 0) : c ∉ cs := by
  induction cs with
  | nil => exact List.not_mem_nil
  | cons d cs ih =>
    rw [longestRun] at h
    split at h
    · exact absurd (le_longestRun c (0 + 1) cs) (by omega)
    · rename_i hd
      have hrest : longestRun c 0 cs = 0 := by omega
      simp only [List.mem_cons, not_or]
      exact ⟨fun hc => hd hc.symm, ih hrest⟩

/-! ### Between three single quotes -/

theorem longLiteral?_plain (hplain : isPlain c = true ∨ c = '\n')
    (hquotes : ∀ t, c = '\'' → tail ≠ '\'' :: '\'' :: t)
    (htail : longLiteral? tail = some (cs, rest)) : longLiteral? (c :: tail) = some (c :: cs, rest) := by
  have hreturn : c ≠ '\r' := by rintro rfl; revert hplain; decide
  rw [longLiteral?]
  · simp [hplain, htail]
  · exact hquotes
  · intros; contradiction

/-- Where no three quotes stand in a row, the quotes before the closing ones end the text. -/
theorem eq_of_two_quotes {run : Nat} (hrun : longestRun '\'' (run + 1) cs ≤ 2) {t : List Char}
    (h : cs ++ '\'' :: '\'' :: '\'' :: tail = '\'' :: '\'' :: t) : cs = [] ∨ cs = ['\''] := by
  match cs with
  | [] => exact .inl rfl
  | [c] =>
    cases h
    exact .inr rfl
  | c :: d :: cs =>
    cases h
    have hthree := le_longestRun '\'' (run + 1 + 1 + 1) cs
    simp only [longestRun, if_true] at hrun
    omega

theorem longLiteral?_append (h : ∀ c ∈ cs, isPlain c = true ∨ c = '\n') {run : Nat}
    (hrun : longestRun '\'' run cs ≤ 2) (rest : List Char) :
    longLiteral? (cs ++ '\'' :: '\'' :: '\'' :: '\n' :: rest) = some (cs, '\n' :: rest) := by
  have hclosing : ∀ k ≤ 2, longLiteral? ('\'' :: '\'' :: '\'' :: (List.replicate k '\'' ++ '\n' :: rest)) =
      some (List.replicate k '\'', '\n' :: rest) := by
    intro k hk
    rw [longLiteral?, closing_replicate (by decide) hk]
  induction cs generalizing run with
  | nil => exact hclosing 0 (by decide)
  | cons c cs ih =>
    have hplain := h c List.mem_cons_self
    have hrest : ∀ d ∈ cs, isPlain d = true ∨ d = '\n' := fun d hd => h d (List.mem_cons_of_mem c hd)
    rw [longestRun] at hrun
    split at hrun
    · rename_i hc
      subst hc
      by_cases hend : cs = [] ∨ cs = ['\'']
      · -- The quotes of the text and the closing ones make four or five in a row.
        rcases hend with rfl | rfl
        · exact hclosing 1 (by decide)
        · exact hclosing 2 (by decide)
      · exact longLiteral?_plain hplain (fun t _ ht => hend (eq_of_two_quotes hrun ht)) (ih hrest hrun)
    · rename_i hc
      have hrun : longestRun '\'' 0 cs ≤ 2 := by omega
      exact longLiteral?_plain hplain (fun t heq => absurd heq hc) (ih hrest hrun)

/-! ### Every form -/

theorem Form.of_eq_literal (h : Form.of cs = .literal) :
    (∀ c ∈ cs, needsCode c = false) ∧ '\'' ∉ cs ∧ '\n' ∉ cs := by
  unfold Form.of at h
  dsimp only at h
  split at h
  · cases h
  split at h
  · rename_i hliteral
    simp only [Bool.and_eq_true, Bool.not_eq_true', List.any_eq_false, Bool.not_eq_true, decide_eq_true_eq,
      List.contains_eq_mem, decide_eq_false_iff_not] at hliteral
    obtain ⟨⟨hcodes, hsingles⟩, hlines⟩ := hliteral
    exact ⟨hcodes, not_mem_of_longestRun hsingles, hlines⟩
  split at h
  · cases h
  split at h
  · cases h
  split at h <;> cases h

theorem Form.of_eq_longLiteral (h : Form.of cs = .longLiteral) :
    (∀ c ∈ cs, needsCode c = false) ∧ longestRun '\'' 0 cs ≤ 2 := by
  unfold Form.of at h
  dsimp only at h
  split at h
  · cases h
  split at h
  · cases h
  split at h
  · cases h
  split at h
  · rename_i hlong
    simp only [Bool.and_eq_true, Bool.not_eq_true', List.any_eq_false, Bool.not_eq_true,
      decide_eq_true_eq] at hlong
    exact hlong
  split at h <;> cases h

/-- A line break after the opening quotes is dropped. -/
theorem openLines_of_head (hline : c ≠ '\n') (hreturn : c ≠ '\r') : openLines (c :: cs) = c :: cs := by
  unfold openLines newline?
  split
  · rename_i h
    cases h
    exact absurd rfl hline
  · rename_i h
    cases h
    exact absurd rfl hreturn
  · rfl

theorem openLines_opening (cs body : List Char) (h : '\n' ∉ cs → openLines body = body) :
    openLines ((if cs.contains '\n' then "\n" else "").toList ++ body) = body := by
  by_cases hline : '\n' ∈ cs
  · rw [if_pos (List.contains_iff_mem.mpr hline)]
    rfl
  · rw [if_neg (fun hc => hline (List.contains_iff_mem.mp hc))]
    exact h hline

/-- Of a text on one line, neither the escaped form nor the text itself begins with a
line break. -/
theorem openLines_escapeAll (h : '\n' ∉ cs) :
    openLines (escapeAll true 0 cs ++ '"' :: tail) = escapeAll true 0 cs ++ '"' :: tail := by
  cases cs with
  | nil => exact openLines_of_head (by decide) (by decide)
  | cons c cs =>
    by_cases hc : c = '"'
    · subst hc
      exact openLines_of_head (by decide) (by decide)
    · have hline : c ≠ '\n' := fun heq => h (heq ▸ List.mem_cons_self)
      obtain ⟨d, ds, hescape, -, hd⟩ := escape_eq_cons true hc
      rw [escapeAll_cons hc, hescape]
      exact openLines_of_head (hd hline).1 (hd hline).2

theorem openLines_literal (h : '\n' ∉ cs) (hcodes : ∀ c ∈ cs, needsCode c = false) :
    openLines (cs ++ '\'' :: tail) = cs ++ '\'' :: tail := by
  cases cs with
  | nil => exact openLines_of_head (by decide) (by decide)
  | cons c cs =>
    refine openLines_of_head (fun heq => h (heq ▸ List.mem_cons_self)) ?_
    rintro rfl
    exact absurd (hcodes _ List.mem_cons_self) (by decide)

/-- **A written text reads back**, up to the line break that follows. -/
theorem text?_writeText (s : String) (rest : List Char) :
    text? ((writeText s).toList ++ '\n' :: rest) = some (s, '\n' :: rest) := by
  have hread : ∀ r, r = some (s.toList, '\n' :: rest) → text?.read r = some (s, '\n' :: rest) := by
    rintro _ rfl
    simp [text?.read]
  unfold writeText
  dsimp only
  cases hform : Form.of s.toList with
  | quoted =>
    simp only [String.toList_append, String.toList_ofList, List.append_assoc]
    show text? ('"' :: (escapeAll false 0 s.toList ++ '"' :: '\n' :: rest)) = _
    rw [text?]
    · exact hread _ (quoted?_escapeAll 0 _ _)
    · exact fun t => escapeAll_ne_two_quotes
  | literal =>
    obtain ⟨hcodes, hsingles, hlines⟩ := Form.of_eq_literal hform
    simp only [String.toList_append, List.append_assoc]
    show text? ('\'' :: (s.toList ++ '\'' :: '\n' :: rest)) = _
    rw [text?]
    · refine hread _ (literal?_append (fun c hc => ⟨?_, ?_⟩) _)
      · exact isPlain_of_not_needsCode (hcodes c hc) fun heq => hlines (heq ▸ hc)
      · exact fun heq => hsingles (heq ▸ hc)
    · intro t ht
      cases hs : s.toList with
      | nil =>
        rw [hs] at ht
        cases ht
      | cons c cs =>
        rw [hs] at ht hsingles
        simp only [List.cons_append, List.cons.injEq] at ht
        exact hsingles (ht.1 ▸ List.mem_cons_self)
  | longQuoted =>
    simp only [String.toList_append, String.toList_ofList, List.append_assoc]
    show text?.read (longQuoted? false (openLines ((if s.toList.contains '\n' then "\n" else "").toList ++
      (escapeAll true 0 s.toList ++ '"' :: '"' :: '"' :: '\n' :: rest)))) = _
    rw [openLines_opening _ _ openLines_escapeAll]
    exact hread _ (longQuoted?_escapeAll 0 _ _)
  | longLiteral =>
    obtain ⟨hcodes, hsingles⟩ := Form.of_eq_longLiteral hform
    simp only [String.toList_append, List.append_assoc]
    show text?.read (longLiteral? (openLines ((if s.toList.contains '\n' then "\n" else "").toList ++
      (s.toList ++ '\'' :: '\'' :: '\'' :: '\n' :: rest)))) = _
    rw [openLines_opening _ _ fun h => openLines_literal h hcodes]
    refine hread _ (longLiteral?_append (fun c hc => ?_) hsingles _)
    by_cases hline : c = '\n'
    · exact .inr hline
    · exact .inl (isPlain_of_not_needsCode (hcodes c hc) hline)

end PoolScaling.Toml

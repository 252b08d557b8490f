import PoolScaling.Proofs.Expr.Completeness
import PoolScaling.Proofs.Expr.Height
import PoolScaling.Proofs.Expr.Scanner

/-! Names in a source.

A text of names, marks and quoted names on one line has their tokens one after another, if
no name is followed by what would make it longer (`Lexes`). A name that is no keyword is
looked up, whatever it is, so `x.f` is the field `f` of `x` (`spells_member`). -/
namespace PoolScaling.Expr
open Number Scanner

/-! ### Names -/

/-- Whether a text is one name from its first character to its last. -/
def isName (s : String) : Bool :=
  match s.toList with
  | [] => false
  | c :: cs => isNameStart c && cs.all isNameChar

/-- The names of values that cannot be given another value. -/
def literals : List String := ["true", "false", "null", "undefined"]

/-- The names that are not looked up where a statement may begin. -/
def keywords : List String := leadingWords ++ literals

/-- Whether a text, by itself, is a name that is looked up. -/
structure IsReference (x : String) : Prop where
  isName : isName x = true
  not_keyword : x ∉ keywords

theorem exists_of_isName {x : String} (h : isName x = true) :
    ∃ c cs, x.toList = c :: cs ∧ isNameStart c = true ∧ ∀ d ∈ cs, isNameChar d = true := by
  unfold isName at h
  split at h
  · cases h
  · rename_i c cs hx
    rw [Bool.and_eq_true, List.all_eq_true] at h
    exact ⟨c, cs, hx, h.1, h.2⟩

theorem isNameChar_of_mem {x : String} (h : isName x = true) {c : Char} (hc : c ∈ x.toList) :
    isNameChar c = true := by
  obtain ⟨d, ds, hx, hd, hds⟩ := exists_of_isName h
  rw [hx] at hc
  rcases List.mem_cons.mp hc with rfl | hc
  · exact Lexeme.isNameChar_of_isNameStart hd
  · exact hds c hc

theorem IsReference.not_leading {x : String} (h : IsReference x) : x ∉ leadingWords := fun hmem =>
  h.not_keyword (List.mem_append_left _ hmem)

/-- Only a literal stands for something else. -/
theorem IsReference.ofName {x : String} (h : IsReference x) : Parser.ofName x = .name x := by
  have hnot : x ∉ literals := fun hmem => h.not_keyword (List.mem_append_right _ hmem)
  simp only [literals, List.mem_cons, List.not_mem_nil, or_false, not_or] at hnot
  obtain ⟨htrue, hfalse, hnull, hundefined⟩ := hnot
  simp [Parser.ofName, htrue, hfalse, hnull, hundefined]

/-! ### Tokens of a line -/

/-- Whether a text has tokens of these contents wherever it stands, none of them after a
line break. -/
def Lexes (text : List Char) (contents : List Content) : Prop :=
  ∀ i, ∃ ts, tokensFrom i text = .ok ts ∧ ts.map Token.content = contents ∧ ∀ t ∈ ts, t.newlineBefore = false

variable {c : Char} {cs text : List Char} {contents : List Content} {x f : String}

theorem lexes_nil : Lexes [] [] := fun i => ⟨[], tokensFrom_eq i [], rfl, nofun⟩

theorem Lexes.space (h : Lexes text contents) : Lexes (' ' :: text) contents := by
  intro i
  obtain ⟨ts, hts, hcontents⟩ := h (i + 1)
  refine ⟨ts, ?_, hcontents⟩
  rw [tokensFrom_space (by decide) (by decide), hts]
  exact congrArg Except.ok (broken_false ts)

theorem Lexes.lexeme {l : Lexeme} (hwhite : isWhite c = false) (hslash : c ≠ '/')
    (hscan : Lexeme.scan c cs = .ok l) (h : Lexes l.rest contents) : Lexes (c :: cs) (l.content :: contents) := by
  have hplain : c ≠ '\n' ∧ ¬ isSpace c = true := by
    simpa [isWhite] using hwhite
  have hcomment : ¬ (c = '/' && cs.head? = some '/') = true := by simp [hslash]
  intro i
  obtain ⟨ts, hts, hcontents, hline⟩ := h (i + 0 + l.size)
  refine ⟨⟨l.content, i + 0, false⟩ :: ts, ?_, congrArg (l.content :: ·) hcontents, ?_⟩
  · rw [tokensFrom_lexeme hplain.1 hplain.2 hcomment, tokensAfter]
    dsimp only
    rw [hscan]
    dsimp only
    rw [hts]
    rfl
  · exact List.forall_mem_cons.mpr ⟨rfl, hline⟩

/-- A name ends where no longer one is possible. -/
theorem Lexes.name (hx : isName x = true) (hstop : ∀ d ∈ text.head?, isNameChar d = false)
    (h : Lexes text contents) : Lexes (x.toList ++ text) (.name x :: contents) := by
  obtain ⟨c, cs, hlist, hc, hcs⟩ := exists_of_isName hx
  have hwhite : isWhite c = false := by
    rw [← Bool.not_eq_true]
    intro hwhite
    simp only [isWhite, isSpace, Bool.or_eq_true, decide_eq_true_eq] at hwhite
    obtain rfl | ((rfl | rfl) | rfl) | rfl := hwhite <;> exact absurd hc (by decide)
  have hslash : c ≠ '/' := by
    rintro rfl
    exact absurd hc (by decide)
  have htake : text.takeWhile isNameChar = [] ∧ text.dropWhile isNameChar = text := by
    cases text with
    | nil => exact ⟨rfl, rfl⟩
    | cons d ds =>
      have hd : ¬ isNameChar d = true := by rw [hstop d rfl]; decide
      exact ⟨List.takeWhile_cons_of_neg hd, List.dropWhile_cons_of_neg hd⟩
  have hscan := @Lexeme.scan_name (cs ++ text) c hc
  rw [List.takeWhile_append_of_pos hcs, List.dropWhile_append_of_pos hcs, htake.1, htake.2, List.append_nil, ← hlist,
    String.ofList_toList] at hscan
  rw [hlist, List.cons_append]
  exact Lexes.lexeme hwhite hslash hscan h

/-- A mark is what the text begins with. -/
theorem Lexes.mark {spelling : List Char} {m : Mark} (hwhite : isWhite c = false) (hslash : c ≠ '/')
    (hbegins : Decimal.begins c cs = false) (hmark : Mark.leading? (c :: cs) = some (spelling, m))
    (h : Lexes ((c :: cs).drop spelling.length) contents) : Lexes (c :: cs) (.mark m :: contents) := by
  obtain ⟨hspelling, rest, hrest⟩ := Mark.of_leading? hmark
  have hhead : c ∈ spelling.head? := by
    cases spelling with
    | nil => exact absurd (Mark.spelling_length_pos _ hspelling) (Nat.lt_irrefl 0)
    | cons d ds =>
      cases hrest
      rfl
  obtain ⟨-, hquote, hname, -⟩ := Mark.head_of_spelling hspelling hhead
  have hscan := Lexeme.scan_mark hbegins hquote hname
  rw [hmark] at hscan
  exact Lexes.lexeme hwhite hslash hscan h

/-- A name in quotes. -/
theorem Lexes.quoted (hx : isName x = true) (h : Lexes text contents) :
    Lexes ('\'' :: (x.toList ++ '\'' :: text)) (.string x :: contents) := by
  have hquoted : ∀ body : List Char, (∀ c ∈ body, isNameChar c = true) → Quoted '\'' body body := by
    intro body hbody
    induction body with
    | nil => exact .nil
    | cons c body ih =>
      obtain ⟨hc, hbody⟩ := List.forall_mem_cons.mp hbody
      refine .plain ?_ ?_ (ih hbody)
      · rintro rfl
        exact absurd hc (by decide)
      · rintro rfl
        exact absurd hc (by decide)
  have hscan := @Lexeme.scan_string (x.toList ++ '\'' :: text) '\'' (.inr rfl)
  rw [scanString_of_quoted (by decide) (hquoted _ fun c => isNameChar_of_mem hx)] at hscan
  dsimp only at hscan
  rw [String.ofList_toList] at hscan
  exact Lexes.lexeme (by decide) (by decide) hscan h

/-- The name of a field. The point before it is none of a number, as no name begins with a digit. -/
theorem Lexes.field (hf : isName f = true) (hstop : ∀ d ∈ text.head?, isNameChar d = false)
    (h : Lexes text contents) : Lexes ('.' :: (f.toList ++ text)) (.mark .dot :: .name f :: contents) := by
  have hpoint : Decimal.begins '.' (f.toList ++ text) = false := by
    obtain ⟨c, cs, hlist, hc, -⟩ := exists_of_isName hf
    obtain ⟨-, hdigit, -⟩ := Lexeme.of_isNameStart hc
    rw [hlist]
    exact hdigit
  have hmark : Mark.leading? ('.' :: (f.toList ++ text)) = some (['.'], .dot) := rfl
  exact Lexes.mark (by decide) (by decide) hpoint hmark (Lexes.name hf hstop h)

/-- A field of a name. -/
theorem Lexes.member (hx : isName x = true) (hf : isName f = true) (hstop : ∀ d ∈ text.head?, isNameChar d = false)
    (h : Lexes text contents) :
    Lexes ((x ++ "." ++ f).toList ++ text) (.name x :: .mark .dot :: .name f :: contents) := by
  have htext : (x ++ "." ++ f).toList ++ text = x.toList ++ '.' :: (f.toList ++ text) := by
    simp [String.toList_append]
  rw [htext]
  refine Lexes.name hx ?_ (Lexes.field hf hstop h)
  rintro d ⟨⟩
  decide

/-! ### Trees -/

/-- The tokens of a field of a name. -/
def memberContents (x f : String) : List Content := [.name x, .mark .dot, .name f]

theorem spells_member {n : Nat} {i : Bool} {ts : List Token} (hn : n < maxNesting) (hx : IsReference x)
    (hcontents : ts.map Token.content = memberContents x f) (hline : ∀ t ∈ ts, t.newlineBefore = false) :
    Spells n i (.unary (.member (.name x) f)) ts := by
  obtain ⟨t, ts, rfl, ht, hcontents⟩ := List.map_eq_cons_iff.mp hcontents
  obtain ⟨d, ts, rfl, hd, hcontents⟩ := List.map_eq_cons_iff.mp hcontents
  obtain ⟨m, ts, rfl, hm, hcontents⟩ := List.map_eq_cons_iff.mp hcontents
  obtain rfl := List.map_eq_nil_iff.mp hcontents
  have hatom : t.atom? = some (.name x) := by rw [Token.atom?, ht, ← hx.ofName]
  have hjoins : d.joins i := .inr (hline d (by simp))
  have htarget : Spells n i (.postfixed 0 (.name x)) [t] := .primary (.atom hatom)
  exact .bare (htarget.member hn hd hjoins hm)

theorem Tree.height_member_name (x f : String) : (Tree.member (.name x) f).height ≤ 2 := by
  have hname : (Tree.name x).height ≤ 1 := height_le_succ nofun
  exact height_le_succ (List.forall_mem_singleton.mpr hname)

/-- Two operands with an operator between them. -/
theorem spells_binary {n : Nat} {i : Bool} {left right : Tree} {ts us : List Token} {t : Token} {op : BinaryOp}
    (hleft : Spells n i (.unary left) ts) (hop : t.operator? = some op) (hjoins : t.joins i)
    (hright : Spells n i (.unary right) us) : Spells n i (.body (.run left [(op, right)])) (ts ++ t :: us) := by
  have hlevel := op.level_lt_levels
  have hrun : Spells n i (.operation op.level left []) ts :=
    (Spells.operand hleft).loosen (Nat.le_refl _) (Nat.le_of_lt hlevel)
  have hoperand : Spells n i (.operation (op.level + 1) right []) us :=
    (Spells.operand hright).loosen (Nat.le_refl _) hlevel
  exact .plain ((hrun.apply hop hjoins hoperand (by decide)).loosen (Nat.le_of_lt hlevel) (Nat.zero_le _))

end PoolScaling.Expr

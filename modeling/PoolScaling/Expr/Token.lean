import PoolScaling.Expr.Error
import PoolScaling.Number.Decimal
import PoolScaling.Text.Blank

/-! Tokens of the expression language.

A source is a sequence of lexemes with gaps between them. A gap is made of blank
characters and comments that run to the end of their line; a lexeme is the
longest number, string, name or mark at its place. Each token knows the byte
offset of its lexeme and whether a line feed stands in the gap before it.

`tokenize` goes through a source once; every lexeme takes at least one
character, so it ends. -/
namespace PoolScaling.Expr

inductive Content where
  | number (value : Float)
  | string (value : String)
  | name (value : String)
  | mark (m : Mark)

structure Token where
  content : Content
  /-- Byte offset of the lexeme in the source. -/
  position : Nat
  newlineBefore : Bool

/-! ### Gaps -/

/-- Blanks of the expression language, line feeds apart. -/
def isSpace (c : Char) : Bool := c = ' ' || c = '\t' || c = '\r' || c = '\x0c'

/-- A gap: whether it has a line feed, its size in bytes and what follows it. -/
structure Gap where
  newline : Bool
  size : Nat
  rest : List Char
  deriving Repr, DecidableEq

/-- The longest gap that a text begins with, from inside a comment or outside. -/
def Gap.scan (comment : Bool) : List Char → Gap
  | [] => ⟨false, 0, []⟩
  | c :: cs =>
    if c = '\n' then
      let g := scan false cs
      ⟨true, g.size + 1, g.rest⟩
    else if comment then
      let g := scan true cs
      ⟨g.newline, g.size + c.utf8Size, g.rest⟩
    else if isSpace c then
      let g := scan false cs
      ⟨g.newline, g.size + 1, g.rest⟩
    else if c = '/' && cs.head? = some '/' then
      let g := scan true cs
      ⟨g.newline, g.size + 1, g.rest⟩
    else ⟨false, 0, c :: cs⟩

/-! ### Lexemes -/

def isNameStart (c : Char) : Bool := c.isAlpha || c = '_' || c = '$'

def isNameChar (c : Char) : Bool := c.isAlphanum || c = '_' || c = '$'

/-- What a backslash makes of the character after it. -/
def unescape (c : Char) : Char :=
  if c = 'n' then '\n' else if c = 't' then '\t' else c

/-- The inside of a string up to its closing quote: the characters it denotes,
its size in bytes with the closing quote, and what follows. -/
def scanString (quote : Char) : List Char → Option (List Char × Nat × List Char)
  | [] => none
  | c :: cs =>
    if c = quote then some ([], c.utf8Size, cs)
    else if c = '\\' then
      match cs with
      | [] => none
      | e :: cs =>
        (scanString quote cs).map fun (value, size, rest) =>
          (unescape e :: value, size + 1 + e.utf8Size, rest)
    else
      (scanString quote cs).map fun (value, size, rest) => (c :: value, size + c.utf8Size, rest)

/-- A lexeme: what it says, its size in bytes and what follows it. -/
structure Lexeme where
  content : Content
  size : Nat
  rest : List Char

/-- The longest lexeme at the start of `c :: cs`. -/
def Lexeme.scan (c : Char) (cs : List Char) : Except Flaw Lexeme :=
  if c.isDigit || (c = '.' && (cs.head?.any Char.isDigit)) then
    let (d, rest) := Number.Decimal.scan (c :: cs)
    let text := String.ofList d.text
    match Number.Decimal.ofText? text with
    | some value => .ok ⟨.number value, d.text.length, rest⟩
    | none => .error (.invalidNumber text)
  else if c = '"' || c = '\'' then
    match scanString c cs with
    | some (value, size, rest) => .ok ⟨.string (String.ofList value), size + 1, rest⟩
    | none => .error .unterminatedString
  else if isNameStart c then
    let name := c :: cs.takeWhile isNameChar
    .ok ⟨.name (String.ofList name), name.length, cs.dropWhile isNameChar⟩
  else
    match Mark.leading? (c :: cs) with
    | some (spelling, m) => .ok ⟨.mark m, spelling.length, (c :: cs).drop spelling.length⟩
    | none => .error (.unexpectedCharacter c)

/-! ### Every step takes a character -/

theorem Gap.rest_length_le (comment : Bool) (cs : List Char) :
    (Gap.scan comment cs).rest.length ≤ cs.length := by
  induction cs generalizing comment with
  | nil => simp [Gap.scan]
  | cons c cs ih =>
    have := ih true
    have := ih false
    simp only [Gap.scan, List.length_cons]
    repeat' split
    all_goals simp only [List.length_cons]; omega

theorem length_dropWhile_le {α : Type} (p : α → Bool) (l : List α) :
    (l.dropWhile p).length ≤ l.length := by
  induction l with
  | nil => simp
  | cons a l ih =>
    rw [List.dropWhile_cons]
    split
    · simp only [List.length_cons]; omega
    · exact Nat.le_refl _

theorem scanString_length_lt {quote : Char} {cs value rest : List Char} {size : Nat}
    (h : scanString quote cs = some (value, size, rest)) : rest.length < cs.length := by
  fun_induction scanString quote cs generalizing value size rest with
  | case1 => simp at h
  | case2 => simp_all
  | case3 => simp at h
  | case4 =>
    simp only [Option.map_eq_some_iff, Prod.exists, Prod.mk.injEq] at h
    grind
  | case5 =>
    simp only [Option.map_eq_some_iff, Prod.exists, Prod.mk.injEq] at h
    grind

theorem Lexeme.scan_length_lt {c : Char} {cs : List Char} {l : Lexeme}
    (h : Lexeme.scan c cs = .ok l) : l.rest.length < (c :: cs).length := by
  simp only [Lexeme.scan] at h
  split at h
  · rename_i hc
    split at h
    · cases h
      have whole := congrArg List.length (Number.Decimal.text_append_scan (c :: cs))
      have taken : 0 < (Number.Decimal.scan (c :: cs)).1.text.length := by
        simp only [Number.Decimal.scan]
        by_cases hd : c.isDigit
        · split <;> simp [Number.Decimal.text, hd]
        · have : c = '.' := by simp_all
          subst this
          split <;> simp [Number.Decimal.text, hd]
      simp only [List.length_append] at whole
      simp only at whole taken ⊢
      omega
    · cases h
  · split at h
    · split at h
      · rename_i hs
        cases h
        have := scanString_length_lt hs
        simp only [List.length_cons]
        omega
      · cases h
    · split at h
      · cases h
        have := length_dropWhile_le isNameChar cs
        simp only [List.length_cons]
        omega
      · split at h
        · rename_i spelling m hm
          cases h
          have : 0 < spelling.length :=
            Mark.spelling_length_pos _ (List.mem_of_find?_eq_some hm)
          simp only [List.length_drop, List.length_cons]
          omega
        · cases h

/-! ### Sources -/

/-- The tokens of a text that starts at byte `position` of a source. -/
def tokensFrom (position : Nat) (cs : List Char) : Except Defect (List Token) :=
  let g := Gap.scan false cs
  match hg : g.rest with
  | [] => .ok []
  | c :: rest =>
    match hl : Lexeme.scan c rest with
    | .error flaw => .error ⟨position + g.size, flaw⟩
    | .ok l =>
      have : l.rest.length < cs.length := by
        have gap := Gap.rest_length_le false cs
        have lexeme := Lexeme.scan_length_lt hl
        rw [hg] at gap
        omega
      match tokensFrom (position + g.size + l.size) l.rest with
      | .error d => .error d
      | .ok tokens => .ok (⟨l.content, position + g.size, g.newline⟩ :: tokens)
termination_by cs.length

/-- The tokens of a source, or the first place where none begins. -/
def tokenize (source : String) : Except Defect (List Token) :=
  tokensFrom 0 source.toList

end PoolScaling.Expr

import PoolScaling.Text.Digits

/-! Texts of TOML documents.

There are four written forms: between double quotes, where a backslash escapes,
and between single quotes, where nothing does; each with one quote on a single
line or with three quotes over several lines. The readers here start after the
opening quotes and answer with the text and what follows the closing ones. -/
namespace PoolScaling.Toml

def isBlank (c : Char) : Bool := c = ' ' || c = '\t'

def skipBlanks (cs : List Char) : List Char := cs.dropWhile isBlank

/-- What follows a line break. -/
def newline? : List Char → Option (List Char)
  | '\n' :: cs => some cs
  | '\r' :: '\n' :: cs => some cs
  | _ => none

/-- Characters that texts and comments hold as they are: of the control characters
only the tab. -/
def isPlain (c : Char) : Bool := c = '\t' || (0x20 ≤ c.toNat && c.toNat ≠ 0x7F)

/-- The character that a backslash and a letter stand for. -/
def escaped? (c : Char) : Option Char :=
  match c with
  | 'b' => some '\x08'
  | 't' => some '\t'
  | 'n' => some '\n'
  | 'f' => some '\x0c'
  | 'r' => some '\r'
  | '"' => some '"'
  | '\\' => some '\\'
  | _ => none

/-- The character with a code point in hexadecimal digits. -/
def codePoint? (digits : List Char) : Option Char :=
  (Text.hex? digits).bind fun n => if n.isValidChar then some (Char.ofNat n) else none

/-- A text between double quotes. -/
def quoted? : List Char → Option (List Char × List Char)
  | [] => none
  | '"' :: rest => some ([], rest)
  | '\\' :: 'u' :: a :: b :: c :: d :: rest => do
    let x ← codePoint? [a, b, c, d]
    let (cs, rest) ← quoted? rest
    some (x :: cs, rest)
  | '\\' :: 'U' :: a :: b :: c :: d :: e :: f :: g :: h :: rest => do
    let x ← codePoint? [a, b, c, d, e, f, g, h]
    let (cs, rest) ← quoted? rest
    some (x :: cs, rest)
  | '\\' :: c :: rest => do
    let x ← escaped? c
    let (cs, rest) ← quoted? rest
    some (x :: cs, rest)
  | c :: rest =>
    if isPlain c then do
      let (cs, rest) ← quoted? rest
      some (c :: cs, rest)
    else none

/-- A text between single quotes. -/
def literal? : List Char → Option (List Char × List Char)
  | [] => none
  | '\'' :: rest => some ([], rest)
  | c :: rest =>
    if isPlain c then do
      let (cs, rest) ← literal? rest
      some (c :: cs, rest)
    else none

/-- Ends a text of several lines after three quotes. Up to two quotes more belong to
the text, before the closing three. -/
def closing (quote : Char) : List Char → List Char × List Char
  | a :: b :: rest =>
    if a = quote then
      if b = quote then ([quote, quote], rest) else ([quote], b :: rest)
    else ([], a :: b :: rest)
  | [a] => if a = quote then ([quote], []) else ([], [a])
  | [] => ([], [])

/-- Whether only blanks stand before the end of the line. -/
def endsLine (cs : List Char) : Bool := (newline? (skipBlanks cs)).isSome

/-- A text between three double quotes. A backslash at the end of a line removes what
follows up to the next visible character; `folding` says that one has. -/
def longQuoted? (folding : Bool) : List Char → Option (List Char × List Char)
  | [] => none
  | '"' :: '"' :: '"' :: rest => some (closing '"' rest)
  | '\\' :: 'u' :: a :: b :: c :: d :: rest => do
    let x ← codePoint? [a, b, c, d]
    let (cs, rest) ← longQuoted? false rest
    some (x :: cs, rest)
  | '\\' :: 'U' :: a :: b :: c :: d :: e :: f :: g :: h :: rest => do
    let x ← codePoint? [a, b, c, d, e, f, g, h]
    let (cs, rest) ← longQuoted? false rest
    some (x :: cs, rest)
  | '\\' :: c :: rest =>
    if endsLine (c :: rest) then longQuoted? true (c :: rest)
    else do
      let x ← escaped? c
      let (cs, rest) ← longQuoted? false rest
      some (x :: cs, rest)
  | '\r' :: '\n' :: rest =>
    if folding then longQuoted? true rest
    else do
      let (cs, rest) ← longQuoted? false rest
      some ('\n' :: cs, rest)
  | c :: rest =>
    if folding && (isBlank c || c = '\n') then longQuoted? true rest
    else if isPlain c || c = '\n' then do
      let (cs, rest) ← longQuoted? false rest
      some (c :: cs, rest)
    else none

/-- A text between three single quotes. -/
def longLiteral? : List Char → Option (List Char × List Char)
  | [] => none
  | '\'' :: '\'' :: '\'' :: rest => some (closing '\'' rest)
  | '\r' :: '\n' :: rest => do
    let (cs, rest) ← longLiteral? rest
    some ('\n' :: cs, rest)
  | c :: rest =>
    if isPlain c || c = '\n' then do
      let (cs, rest) ← longLiteral? rest
      some (c :: cs, rest)
    else none

/-- Drops the line break that may follow three opening quotes. -/
def openLines (cs : List Char) : List Char := (newline? cs).getD cs

/-- A text in one of its four forms, from the opening quotes on. -/
def text? : List Char → Option (String × List Char)
  | '"' :: '"' :: '"' :: rest => read (longQuoted? false (openLines rest))
  | '"' :: rest => read (quoted? rest)
  | '\'' :: '\'' :: '\'' :: rest => read (longLiteral? (openLines rest))
  | '\'' :: rest => read (literal? rest)
  | _ => none
where
  read (r : Option (List Char × List Char)) : Option (String × List Char) :=
    r.map fun (cs, rest) => (String.ofList cs, rest)

end PoolScaling.Toml

import PoolScaling.Toml.Scalar
import PoolScaling.Toml.Text

/-! Statements of TOML documents.

A document is a sequence of lines: headers of tables, headers of items of a list
of tables, and entries. What the tables they add up to look like is decided
elsewhere. Values nest less than eighty deep, and so do keys. -/
namespace PoolScaling.Toml

/-- The depth of nesting that is refused. -/
def depthLimit : Nat := 80

/-! ### Comments and line ends -/

def skipComment : List Char → List Char
  | '#' :: cs => cs.dropWhile isPlain
  | cs => cs

/-- What follows the end of a line, before which blanks and a comment may stand. -/
def lineEnd? (cs : List Char) : Option (List Char) :=
  match skipComment (skipBlanks cs) with
  | [] => some []
  | cs => newline? cs

/-- Skips blanks, line breaks and comments between the items of a list. -/
def skipLines (inComment : Bool) : List Char → List Char
  | [] => []
  | '\r' :: '\n' :: cs => skipLines false cs
  | c :: cs =>
    if c = '\n' then skipLines false cs
    else if inComment then if isPlain c then skipLines true cs else c :: cs
    else if isBlank c then skipLines false cs
    else if c = '#' then skipLines true cs
    else c :: cs

/-! ### Keys -/

def isKeyChar (c : Char) : Bool := c.isAlphanum || c = '_' || c = '-'

/-- One key: bare or a text on a single line. -/
def key? : List Char → Option (String × List Char)
  | '"' :: rest => (quoted? rest).map fun (cs, rest) => (String.ofList cs, rest)
  | '\'' :: rest => (literal? rest).map fun (cs, rest) => (String.ofList cs, rest)
  | cs =>
    let name := cs.takeWhile isKeyChar
    if name.isEmpty then none else some (String.ofList name, cs.dropWhile isKeyChar)

/-- At most `most` keys with points between them, and blanks around each. -/
def keys? : Nat → List Char → Option (List String × List Char)
  | 0, _ => none
  | most + 1, cs => do
    let (key, rest) ← key? (skipBlanks cs)
    match skipBlanks rest with
    | '.' :: rest =>
      let (path, rest) ← keys? most rest
      some (key :: path, rest)
    | rest => some ([key], rest)

def path? (cs : List Char) : Option (List String × List Char) := keys? (depthLimit - 1) cs

end PoolScaling.Toml

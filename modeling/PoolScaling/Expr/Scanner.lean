import PoolScaling.Expr.Token

/-! Scanning a source by bytes.

The same tokens as those of `tokenize`, found with nothing but a byte offset. A byte is
looked at as the character with its number, which is no ASCII character for any byte of a
longer one. Text is taken out of the source by slices, and a slice that begins or ends in
the middle of a character is a crash, as is a round that does not move on. -/
namespace PoolScaling.Expr.Scanner

def bytes (source : String) : List UInt8 := source.toByteArray.data.toList

/-- What is read as a character at a byte offset. -/
def charAt? (source : String) (i : Nat) : Option Char := (bytes source)[i]?.map Char.ofUInt8

/-- The offset after all bytes of a kind, from `i` on. -/
def passOver (p : Char → Bool) (source : String) (i : Nat) : Nat :=
  i + (((bytes source).drop i).takeWhile fun b => p (Char.ofUInt8 b)).length

/-- The text between two offsets. -/
def slice (source : String) (i j : Nat) : Except (Failure Defect) String :=
  if h : i ≤ j ∧ (String.Pos.Raw.mk i).IsValid source ∧ (String.Pos.Raw.mk j).IsValid source then
    .ok (source.extract ⟨⟨i⟩, h.2.1⟩ ⟨⟨j⟩, h.2.2⟩)
  else .error .crash

/-- The text from an offset on. -/
def sliceFrom (source : String) (i : Nat) : Except (Failure Defect) (List Char) :=
  (slice source i source.utf8ByteSize).map String.toList

/-- The offset after the exponent at `i`, or `i` if there is none. -/
def passExponent (source : String) (i : Nat) : Nat :=
  if (charAt? source i).any fun c => c = 'e' || c = 'E' then
    let j := if (charAt? source (i + 1)).any fun c => c = '+' || c = '-' then i + 2 else i + 1
    if (charAt? source j).any Char.isDigit then passOver Char.isDigit source j else i
  else i

/-- The offset after the number at `i`. -/
def passNumber (source : String) (i : Nat) : Nat :=
  let i := passOver Char.isDigit source i
  passExponent source
    (if (charAt? source i).any (· = '.') then passOver Char.isDigit source (i + 1) else i)

/-- What a round finds: a token or, without content, a part of a gap. -/
structure Found where
  content : Option Content
  newline : Bool
  next : Nat

def Found.gap (newline : Bool) (next : Nat) : Found := ⟨none, newline, next⟩

def Found.token (content : Content) (next : Nat) : Found := ⟨some content, false, next⟩

/-- The lexeme at `i`, where `c` is read. -/
def lexeme (source : String) (i : Nat) (c : Char) : Except (Failure Defect) Found :=
  if c.isDigit || (c = '.' && (charAt? source (i + 1)).any Char.isDigit) then do
    let stop := passNumber source i
    let text ← slice source i stop
    match Number.Decimal.ofText? text with
    | some value => .ok (.token (.number value) stop)
    | none => .error (.error ⟨i, .invalidNumber text⟩)
  else if c = '"' || c = '\'' then do
    let text ← sliceFrom source i
    match scanString (text.headD '"') text.tail with
    | some (value, size, _) => .ok (.token (.string (String.ofList value)) (i + 1 + size))
    | none => .error (.error ⟨i, .unterminatedString⟩)
  else if isNameStart c then do
    let stop := passOver isNameChar source i
    let text ← slice source i stop
    .ok (.token (.name text) stop)
  else do
    let text ← sliceFrom source i
    match Mark.leading? text with
    | some (spelling, m) => .ok (.token (.mark m) (i + spelling.length))
    | none => .error (.error ⟨i, .unexpectedCharacter (text.headD '?')⟩)

/-- A round at `i`, where `c` is read. -/
def round (source : String) (i : Nat) (c : Char) : Except (Failure Defect) Found :=
  if c = '\n' then .ok (.gap true (i + 1))
  else if isSpace c then .ok (.gap false (i + 1))
  else do
    let text ← sliceFrom source i
    if ['/', '/'].isPrefixOf text then .ok (.gap false (passOver (· ≠ '\n') source i))
    else lexeme source i c

theorem lt_length_of_charAt? {source : String} {i : Nat} {c : Char} (h : charAt? source i = some c) :
    i < (bytes source).length := by
  obtain ⟨b, hb, -⟩ := Option.map_eq_some_iff.mp h
  exact (List.getElem?_eq_some_iff.mp hb).1

/-- The tokens from `i` on; `newline` tells of a line feed since the last one. -/
def tokensAt (source : String) (i : Nat) (newline : Bool) : Except (Failure Defect) (List Token) :=
  match h : charAt? source i with
  | none => .ok []
  | some c =>
    match round source i c with
    | .error e => .error e
    | .ok found =>
      have := lt_length_of_charAt? h
      if i < found.next then
        match found.content with
        | none => tokensAt source found.next (newline || found.newline)
        | some content => (tokensAt source found.next false).map (⟨content, i, newline⟩ :: ·)
      else .error .crash
termination_by (bytes source).length - i

def scan (source : String) : Except (Failure Defect) (List Token) := tokensAt source 0 false

end PoolScaling.Expr.Scanner

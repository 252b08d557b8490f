import PoolScaling.Expr.Token
import PoolScaling.Expr.Tree

/-! From tokens to trees.

Operators bind, loosest first: `?:`, `||`, `&&`, `== !=`, `< <= > >=`, `+ -`,
`* / %`, unary `- !`, then calls, members and indexes. Outside brackets a line
break ends a statement, so a token after one continues nothing.

Forms nest at most `maxNesting` deep. The parsers of one depth are built from
those of the next deeper one (`Level`), so none of them calls itself, and the
loops over operands, items and statements go round at most once per token. A
parser that fails keeps its cursor, as the depth it has reached is part of what
can be said of it. -/
namespace PoolScaling.Expr

/-- How deep brackets, unary operators, branches and postfix forms may nest. -/
def maxNesting : Nat := 64

/-- How tall the tree of a statement may be. -/
def maxHeight : Nat := 256

/-- How many operands one run may have. -/
def maxOperands : Nat := 10000

/-! ### Operators -/

namespace BinaryOp

/-- Looser operators have lower levels. -/
def level : BinaryOp → Nat
  | either => 0
  | both => 1
  | equal | unequal => 2
  | arithmetic .less | arithmetic .atMost | arithmetic .greater | arithmetic .atLeast => 3
  | arithmetic .add | arithmetic .subtract => 4
  | arithmetic .multiply | arithmetic .divide | arithmetic .remainder => 5

/-- The number of levels. -/
def levels : Nat := 6

def ofMark? : Mark → Option BinaryOp
  | .either => some either
  | .both => some both
  | .equal => some equal
  | .unequal => some unequal
  | .less => some (arithmetic .less)
  | .atMost => some (arithmetic .atMost)
  | .greater => some (arithmetic .greater)
  | .atLeast => some (arithmetic .atLeast)
  | .plus => some (arithmetic .add)
  | .minus => some (arithmetic .subtract)
  | .star => some (arithmetic .multiply)
  | .slash => some (arithmetic .divide)
  | .percent => some (arithmetic .remainder)
  | _ => none

end BinaryOp

/-! ### The cursor -/

structure Cursor where
  rest : List Token
  /-- Open brackets around the current place. -/
  brackets : Nat
  /-- Nested forms around the current place. -/
  nesting : Nat
  /-- The number of tokens of the source, which no loop exceeds. -/
  total : Nat
  /-- The size of the source in bytes, where errors at its end show. -/
  stop : Nat

namespace Cursor

def position (s : Cursor) : Nat :=
  match s.rest with
  | [] => s.stop
  | t :: _ => t.position

def mark? (s : Cursor) : Option Mark :=
  match s.rest with
  | ⟨.mark m, _, _⟩ :: _ => some m
  | _ => none

def name? (s : Cursor) : Option String :=
  match s.rest with
  | ⟨.name n, _, _⟩ :: _ => some n
  | _ => none

def isAt (s : Cursor) (m : Mark) : Bool := s.mark? == some m

def atLineBreak (s : Cursor) : Bool :=
  match s.rest with
  | [] => false
  | t :: _ => t.newlineBefore

/-- Whether a line break ends the statement here. -/
def isCut (s : Cursor) : Bool := s.brackets == 0 && s.atLineBreak

/-- Whether the mark `m` stands here and continues the statement. -/
def continues (s : Cursor) (m : Mark) : Bool := s.isAt m && !s.isCut

/-- The operator that continues the statement here. -/
def operator? (s : Cursor) : Option BinaryOp :=
  if s.isCut then none else s.mark?.bind BinaryOp.ofMark?

def advance (s : Cursor) : Cursor := { s with rest := s.rest.tail }

end Cursor

abbrev Parser := EStateM Defect Cursor

namespace Parser

variable {α : Type}

/-- Fails at the current place. -/
def flaw (f : Flaw) : Parser α := fun s => .error ⟨s.position, f⟩ s

def advance : Parser Unit := modify Cursor.advance

/-- Takes the next token. -/
def next : Parser Token := fun s =>
  match s.rest with
  | [] => .error ⟨s.stop, .unexpectedEnd⟩ s
  | t :: _ => .ok t s.advance

/-- Takes the mark `m`. -/
def expect (m : Mark) : Parser Unit := fun s =>
  if s.isAt m then .ok () s.advance
  else if s.rest.isEmpty then .error ⟨s.stop, .unexpectedEnd⟩ s
  else .error ⟨s.position, .expectedMark m⟩ s

/-- Takes a name. -/
def expectName : Parser String := do
  let t ← next
  match t.content with
  | .name n => pure n
  | _ => throw ⟨t.position, .expectedName⟩

/-- Goes one form deeper. -/
def enter : Parser Unit := do
  if maxNesting ≤ (← get).nesting then flaw .nestedTooDeeply
  modify fun s => { s with nesting := s.nesting + 1 }

/-- Runs `p` and puts the nesting to `f` of what `p` leaves, also when `p` fails. -/
def settingNesting (f : Nat → Nat) (p : Parser α) : Parser α := fun s =>
  match p s with
  | .ok a s' => .ok a { s' with nesting := f s'.nesting }
  | .error d s' => .error d { s' with nesting := f s'.nesting }

/-- Runs `p` one form deeper. -/
def nested (p : Parser α) : Parser α := do
  enter
  settingNesting (· - 1) p

/-- Runs `p` and restores the nesting that was there before. -/
def keepingNesting (p : Parser α) : Parser α := do
  let s ← get
  settingNesting (fun _ => s.nesting) p

/-- Runs `p` between brackets, of which the opening one has been taken. -/
def inside (close : Mark) (p : Parser α) : Parser α := do
  modify fun s => { s with brackets := s.brackets + 1 }
  let a ← p
  expect close
  modify fun s => { s with brackets := s.brackets - 1 }
  pure a

/-! ### Loops -/

/-- Items up to a closing mark, with commas between them and perhaps one after
the last. Every round takes a token. -/
def items (item : Parser α) (close : Mark) : Nat → Parser (List α)
  | 0 => flaw .unexpectedEnd
  | rounds + 1 => do
    if (← get).isAt close then pure []
    else
      let a ← item
      unless (← get).isAt close do expect .comma
      let as ← items item close rounds
      pure (a :: as)

/-- A bracketed list of items, of which the opening bracket has been taken. -/
def list (item : Parser α) (close : Mark) : Parser (List α) := do
  let s ← get
  inside close (items item close (s.total + 1))

/-- The operators of level `least` and tighter that follow, with their right
operands, of which the last argument says how many may still be read. -/
def operands (right : Nat → Parser Tree) (least : Nat) :
    Nat → Parser (List (BinaryOp × Tree))
  | 0 => do
    match (← get).operator? with
    | none => pure []
    | some op =>
      if op.level < least then pure [] else flaw (.tooManyOperands maxOperands)
  | left + 1 => do
    match (← get).operator? with
    | none => pure []
    | some op =>
      if op.level < least then pure []
      else
        advance
        let t ← right op.level
        let rest ← operands right least left
        pure ((op, t) :: rest)

/-- A run of operators of level `least` and tighter. A right operand is a run of
operators tighter than its own; the first number counts the levels left. -/
def binary (operand : Parser Tree) : Nat → Nat → Parser Tree
  | 0, _ => operand
  | levels + 1, least => do
    let first ← operand
    let rest ← operands (fun level => binary operand levels (level + 1)) least (maxOperands - 1)
    pure (if rest.isEmpty then first else .run first rest)

/-! ### One depth of nesting -/

/-- The parsers of one depth. -/
structure Level where
  /-- An expression one form deeper. -/
  expression : Parser Tree
  /-- An expression at this depth. -/
  body : Parser Tree
  /-- An operand with its unary operators. -/
  unary : Parser Tree
  /-- The members, indexes and calls that follow a tree. -/
  postfixes : Tree → Parser Tree

def conditional (expression operand : Parser Tree) : Parser Tree := do
  let condition ← binary operand BinaryOp.levels 0
  if (← get).continues .question then
    advance
    let yes ← expression
    expect .colon
    let no ← expression
    pure (.conditional condition yes no)
  else pure condition

/-- The field of a record. -/
def field (expression : Parser Tree) : Parser (String × Tree) := do
  let t ← next
  match t.content with
  | .name key | .string key =>
    expect .colon
    let value ← expression
    pure (key, value)
  | _ => throw ⟨t.position, .expectedField⟩

/-- The literal that a name stands for, or the name. -/
def ofName (n : String) : Tree :=
  if n = "true" then .bool true
  else if n = "false" then .bool false
  else if n = "null" ∨ n = "undefined" then .null
  else .name n

def primary (expression : Parser Tree) : Parser Tree := do
  let t ← next
  match t.content with
  | .number n => pure (.number n)
  | .string s => pure (.string s)
  | .name n => pure (ofName n)
  | .mark .leftParen => inside .rightParen expression
  | .mark .leftBracket => .array <$> list expression .rightBracket
  | .mark .leftBrace => .record <$> list (field expression) .rightBrace
  | .mark m => throw ⟨t.position, .unexpectedMark m⟩

/-- One postfix form after `t`, and with `inner` those after it. Each counts as one
form deeper. -/
def postfixForms (inner : Level) (t : Tree) : Parser Tree := do
  let s ← get
  if s.continues .dot then
    enter
    advance
    let f ← expectName
    inner.postfixes (.member t f)
  else if s.continues .leftBracket then
    enter
    advance
    let i ← inside .rightBracket inner.expression
    inner.postfixes (.index t i)
  else if s.continues .leftParen then
    enter
    advance
    let arguments ← list inner.expression .rightParen
    inner.postfixes (.call t arguments)
  else pure t

def unaryForms (expression deeper : Parser Tree) (postfixes : Tree → Parser Tree) :
    Parser Tree := do
  let s ← get
  if s.isAt .minus then
    advance
    let t ← deeper
    pure (.unary .negate t)
  else if s.isAt .bang then
    advance
    let t ← deeper
    pure (.unary .not t)
  else
    keepingNesting do
      let t ← primary expression
      postfixes t

/-- Beyond the greatest depth. Nothing enters here. -/
def Level.beyond : Level where
  expression := flaw .nestedTooDeeply
  body := flaw .nestedTooDeeply
  unary := flaw .nestedTooDeeply
  postfixes _ := flaw .nestedTooDeeply

/-- The parsers of the depth around `inner`. -/
def Level.around (inner : Level) : Level :=
  let expression := nested inner.body
  let postfixes := postfixForms inner
  let unary := unaryForms expression (nested inner.unary) postfixes
  { expression := expression
    body := conditional expression unary
    unary := unary
    postfixes := postfixes }

/-- The parsers of a place from which `n - 1` more forms can be entered. -/
def level : Nat → Level
  | 0 => .beyond
  | n + 1 => (level n).around

def expression : Parser Tree := (level (maxNesting + 1)).expression

/-! ### Scripts -/

def statement : Parser Statement := do
  match (← get).name? with
  | some word =>
    if word = "let" ∨ word = "const" ∨ word = "var" then
      advance
      let name ← expectName
      expect .assign
      let value ← expression
      pure (.define name value)
    else if word = "return" then
      advance
      .answer <$> expression
    else .yield <$> expression
  | none => .yield <$> expression

/-- Whether a token is a semicolon. -/
def isSeparator (t : Token) : Bool :=
  match t.content with
  | .mark .semicolon => true
  | _ => false

/-- Statements to the end of the source. Semicolons or line breaks part them, and
every round takes a token. -/
def statements : Nat → Parser (List Statement)
  | 0 => pure []
  | rounds + 1 => do
    modify fun s => { s with rest := s.rest.dropWhile isSeparator }
    if (← get).rest.isEmpty then pure []
    else
      let first ← statement
      let s ← get
      if !s.rest.isEmpty && !s.isAt .semicolon && !s.atLineBreak then flaw .unexpectedToken
      let rest ← statements rounds
      pure (first :: rest)

end Parser

/-- The statements that a list of tokens spells; `stop` is the size of its source. -/
def parse (tokens : List Token) (stop : Nat) : Except Defect (List Statement) :=
  match Parser.statements (tokens.length + 1) ⟨tokens, 0, 0, tokens.length, stop⟩ with
  | .ok statements _ => .ok statements
  | .error d _ => .error d

/-- Compiles a source without running it. -/
def compile (source : String) : Except EvalError Program :=
  match tokenize source with
  | .error d => .error (.malformed d)
  | .ok tokens =>
    match parse tokens source.utf8ByteSize with
    | .error d => .error (.malformed d)
    | .ok [] => .error .empty
    | .ok statements =>
      if statements.any fun s => maxHeight < s.tree.height then
        .error (.malformed ⟨0, .tooTall maxHeight⟩)
      else .ok ⟨statements⟩

end PoolScaling.Expr

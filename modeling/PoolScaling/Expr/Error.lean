import PoolScaling.Expr.Mark
import PoolScaling.Expr.Value
import PoolScaling.Failure
import PoolScaling.Time.Duration

/-! What can be wrong with an expression.

Errors hold causes; `message` is the one place that words them. Positions are
byte offsets into the source. -/
namespace PoolScaling.Expr

/-- A defect of the source text. -/
inductive Flaw where
  | unexpectedCharacter (c : Char)
  | unterminatedString
  | invalidNumber (text : String)
  | unexpectedMark (m : Mark)
  | unexpectedToken
  | unexpectedEnd
  | expectedMark (m : Mark)
  | expectedName
  | expectedField
  | nestedTooDeeply
  | tooManyOperands (limit : Nat)
  | tooTall (limit : Nat)
  deriving Repr, DecidableEq

def Flaw.message : Flaw → String
  | unexpectedCharacter c => "unexpected character `" ++ String.singleton c ++ "`"
  | unterminatedString => "unterminated string literal"
  | invalidNumber text => "invalid number `" ++ text ++ "`"
  | unexpectedMark m => "unexpected `" ++ m.text ++ "`"
  | unexpectedToken => "unexpected token"
  | unexpectedEnd => "unexpected end of input"
  | expectedMark m => "expected `" ++ m.text ++ "`"
  | expectedName => "expected identifier"
  | expectedField => "expected field name"
  | nestedTooDeeply => "expression nested too deeply"
  | tooManyOperands limit => "more than " ++ toString limit ++ " operands in one expression"
  | tooTall limit => "expression nested deeper than " ++ toString limit

/-- A flaw and the byte offset where it shows. -/
structure Defect where
  position : Nat
  flaw : Flaw
  deriving Repr, DecidableEq

/-- Something that is asked for and not there. -/
inductive Reference where
  | name (s : String)
  | field (s : String)
  | index (i : Float)

def Reference.message : Reference → String
  | name s => s
  | field s => "field `" ++ s ++ "`"
  | index i => "index " ++ writeNumber i

/-- Arithmetic and comparison, as error messages name them. -/
inductive Arithmetic where
  | add | subtract | multiply | divide | remainder | less | atMost | greater | atLeast
  deriving Repr, DecidableEq

def Arithmetic.text : Arithmetic → String
  | add => "Add" | subtract => "Sub" | multiply => "Mul" | divide => "Div" | remainder => "Rem"
  | less => "Lt" | atMost => "Le" | greater => "Gt" | atLeast => "Ge"

/-- An operation on values of the wrong kind. -/
inductive Mismatch where
  | negation (k : Kind)
  | operands (left right : Kind) (op : Arithmetic)
  | badIndex (i : Float)
  | indexing (target index : Kind)
  | reading (field : String) (k : Kind)
  | plucking (field : String) (k : Kind)

def Mismatch.message : Mismatch → String
  | negation k => "cannot negate " ++ k.text
  | operands left right op =>
    "unsupported operands " ++ left.text ++ " and " ++ right.text ++ " for " ++ op.text
  | badIndex i => "invalid array index " ++ writeNumber i
  | indexing target index => "cannot index " ++ target.text ++ " with " ++ index.text
  | reading field k => "cannot read `" ++ field ++ "` of " ++ k.text
  | plucking field k => "pluck() cannot read `" ++ field ++ "` of " ++ k.text

/-- An argument that a builtin cannot use. -/
inductive BadArgument where
  | noValues
  | notNumber (k : Kind)
  | notArray (k : Kind)
  | notArrayAndString
  | boundsCrossed (low high : Float)

def BadArgument.message : BadArgument → String
  | noValues => "no values"
  | notNumber k => "expected number, got " ++ k.text
  | notArray k => "expected array, got " ++ k.text
  | notArrayAndString => "expected (array, string)"
  | boundsCrossed low high =>
    "lower bound " ++ writeNumber low ++ " exceeds upper bound " ++ writeNumber high

/-- A bound of an evaluation that was reached. -/
inductive Limit where
  | steps (most : Nat)
  | time (timeout : Duration)
  | depth (most : Nat)
  deriving Repr, DecidableEq

def Limit.message : Limit → String
  | steps most => "more than " ++ toString most ++ " steps"
  | time timeout => "ran longer than " ++ timeout.describe
  | depth most => "expression nested deeper than " ++ toString most

inductive EvalError where
  | malformed (d : Defect)
  | empty
  | undefined (r : Reference)
  | mismatch (m : Mismatch)
  | notCallable (v : Value)
  | arity (function : Builtin) (expected got : Nat)
  | badArgument (function : Builtin) (reason : BadArgument)
  | notFinite (v : Value)
  | limit (l : Limit)

def EvalError.message : EvalError → String
  | malformed d => "syntax error at offset " ++ toString d.position ++ ": " ++ d.flaw.message
  | empty => "expression is empty"
  | undefined r => "undefined reference: " ++ r.message
  | mismatch m => "type error: " ++ m.message
  | notCallable v => "`" ++ v.display ++ "` is not a function"
  | arity function expected got =>
    function.name ++ "() expects " ++ toString expected ++ " argument(s), got " ++ toString got
  | badArgument function reason => function.name ++ "(): " ++ reason.message
  | notFinite v => "result is not a finite number: " ++ v.kind.text ++ " (" ++ v.display ++ ")"
  | limit l => "execution limit exceeded: " ++ l.message

/-- The result of evaluating: a value, an error or a crash. -/
abbrev Outcome := Except (Failure EvalError)

def fail {α : Type} (e : EvalError) : Outcome α := .error (.error e)

end PoolScaling.Expr

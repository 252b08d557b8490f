import PoolScaling.Expr.Tree
import PoolScaling.Number.Order
import PoolScaling.Number.Remainder
import PoolScaling.Number.Whole

/-! Operations on values: operators, members, indexes and builtins.

Every operation is a plain function. The only crash among them is `clamp` with a
bound that is NaN: such bounds are neither crossed nor in order. -/
namespace PoolScaling.Expr

/-! ### Operators -/

/-- A comparison of strings by their code points; none for arithmetic. -/
def Arithmetic.onStrings? (op : Arithmetic) (a b : String) : Option Bool :=
  match op with
  | .less => some (decide (a < b))
  | .atMost => some (!decide (b < a))
  | .greater => some (decide (b < a))
  | .atLeast => some (!decide (a < b))
  | _ => none

def Arithmetic.onNumbers (op : Arithmetic) (a b : Float) : Value :=
  match op with
  | .add => .number (a + b)
  | .subtract => .number (a - b)
  | .multiply => .number (a * b)
  | .divide => .number (a / b)
  | .remainder => .number (Number.remainder a b)
  | .less => .bool (a < b)
  | .atMost => .bool (a ≤ b)
  | .greater => .bool (b < a)
  | .atLeast => .bool (b ≤ a)

/-- Applies an operator. A sum with a string joins texts, and two strings can be
compared; all else is for numbers. -/
def Arithmetic.apply (op : Arithmetic) (left right : Value) : Outcome Value :=
  let mismatch := fail (.mismatch (.operands left.kind right.kind op))
  match left, right with
  | .number a, .number b => .ok (op.onNumbers a b)
  | .string a, .string b =>
    match op with
    | .add => .ok (.string (a ++ b))
    | _ =>
      match op.onStrings? a b with
      | some answer => .ok (.bool answer)
      | none => mismatch
  | .string a, v => if op = .add then .ok (.string (a ++ v.display)) else mismatch
  | v, .string b => if op = .add then .ok (.string (v.display ++ b)) else mismatch
  | _, _ => mismatch

namespace Value

def negate : Value → Outcome Value
  | number n => .ok (number (-n))
  | v => fail (.mismatch (.negation v.kind))

/-- The field of a record, or the length of an array. -/
def member (v : Value) (field : String) : Outcome Value :=
  match v with
  | record fields =>
    match Dictionary.find? field fields with
    | some value => .ok value
    | none => fail (.undefined (.field field))
  | array items =>
    if field = "length" then .ok (number (Float.ofNat items.length))
    else fail (.mismatch (.reading field .array))
  | _ => fail (.mismatch (.reading field v.kind))

/-- An item of an array by its place, or a field of a record by its name. -/
def index (v i : Value) : Outcome Value :=
  match v, i with
  | array items, number n =>
    match Number.toNat? n with
    | none => fail (.mismatch (.badIndex n))
    | some k =>
      match items[k]? with
      | some item => .ok item
      | none => fail (.undefined (.index n))
  | record fields, string s => member (record fields) s
  | _, _ => fail (.mismatch (.indexing v.kind i.kind))

end Value

/-! ### Builtins -/

namespace Builtin

def numberOf (b : Builtin) : Value → Outcome Float
  | .number n => .ok n
  | v => fail (.badArgument b (.notNumber v.kind))

/-- The arguments as numbers: either several numbers or one array of them. -/
def numbersOf (b : Builtin) (arguments : List Value) : Outcome (List Float) :=
  match arguments with
  | [.array items] => items.mapM b.numberOf
  | _ => arguments.mapM b.numberOf

/-- The same for builtins that need at least one number. -/
def someNumbersOf (b : Builtin) (arguments : List Value) : Outcome (List Float) := do
  let ns ← b.numbersOf arguments
  if ns.isEmpty then fail (.badArgument b .noValues) else .ok ns

def wrongCount (b : Builtin) (expected : Nat) (arguments : List Value) : Outcome Value :=
  fail (.arity b expected arguments.length)

def onNumber (b : Builtin) (f : Float → Float) (arguments : List Value) : Outcome Value :=
  match arguments with
  | [v] => do
    let n ← b.numberOf v
    .ok (.number (f n))
  | _ => b.wrongCount 1 arguments

/-- The field of every record of a list. -/
def pluckFrom (field : String) (items : List Value) : Outcome (List Value) :=
  items.mapM fun item =>
    match item with
    | .record fields =>
      match Dictionary.find? field fields with
      | some value => .ok value
      | none => fail (.undefined (.field field))
    | v => fail (.mismatch (.plucking field v.kind))

def call (b : Builtin) (arguments : List Value) : Outcome Value :=
  match b with
  | max => do
    let ns ← b.someNumbersOf arguments
    .ok (.number (ns.foldl Number.larger (-Number.infinity)))
  | min => do
    let ns ← b.someNumbersOf arguments
    .ok (.number (ns.foldl Number.smaller Number.infinity))
  | sum => do
    let ns ← b.numbersOf arguments
    .ok (.number (Number.total ns))
  | avg => do
    let ns ← b.someNumbersOf arguments
    .ok (.number (Number.total ns / Float.ofNat ns.length))
  | count =>
    match arguments with
    | [.array items] => .ok (.number (Float.ofNat items.length))
    | [v] => fail (.badArgument b (.notArray v.kind))
    | _ => b.wrongCount 1 arguments
  | abs => b.onNumber Float.abs arguments
  | ceil => b.onNumber Number.ceil arguments
  | floor => b.onNumber Number.floor arguments
  | round => b.onNumber Number.round arguments
  | sqrt => b.onNumber Float.sqrt arguments
  | pow =>
    match arguments with
    | [base, exponent] => do
      let x ← b.numberOf base
      let y ← b.numberOf exponent
      .ok (.number (Float.pow x y))
    | _ => b.wrongCount 2 arguments
  | clamp =>
    match arguments with
    | [value, low, high] => do
      let x ← b.numberOf value
      let lo ← b.numberOf low
      let hi ← b.numberOf high
      if hi < lo then fail (.badArgument b (.boundsCrossed lo hi))
      else if lo ≤ hi then .ok (.number (Number.confine x lo hi))
      else .error .crash
    | _ => b.wrongCount 3 arguments
  | pluck =>
    match arguments with
    | [.array items, .string field] => do
      let values ← pluckFrom field items
      .ok (.array values)
    | [_, _] => fail (.badArgument b .notArrayAndString)
    | _ => b.wrongCount 2 arguments

end Builtin

end PoolScaling.Expr

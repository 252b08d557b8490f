import PoolScaling.Expr.Builtin
import PoolScaling.Number.Layout

/-! Values of the expression language.

A record keeps its fields in the order of their names, as a dictionary does. -/
namespace PoolScaling.Expr

inductive Value where
  | null
  | bool (b : Bool)
  | number (n : Float)
  | string (s : String)
  | array (items : List Value)
  | record (fields : List (String × Value))
  | builtin (b : Builtin)
  deriving Inhabited

/-- Kinds of values, as error messages name them. -/
inductive Kind where
  | null | boolean | number | string | array | record | function
  deriving Repr, DecidableEq

def Kind.text : Kind → String
  | null => "null" | boolean => "boolean" | number => "number" | string => "string"
  | array => "array" | record => "record" | function => "function"

/-- Numbers are written in full: no exponent mark, and no point in whole ones. -/
def numberLayout : Number.Layout where
  positional := none
  wholeSuffix := ""
  plus := ""
  nan := "NaN"
  infinity := "inf"
  tie := .up

def writeNumber (x : Float) : String := numberLayout.write x

namespace Value

def kind : Value → Kind
  | null => .null
  | bool _ => .boolean
  | number _ => .number
  | string _ => .string
  | array _ => .array
  | record _ => .record
  | builtin _ => .function

def number? : Value → Option Float
  | number n => some n
  | _ => none

/-- A record of fields in any order; the last field of a name stays. -/
def ofFields (fields : List (String × Value)) : Value := record (Dictionary.ofList fields)

/-- The record of all builtins, which is what `Math` names. -/
def math : Value := ofFields (Builtin.all.map fun b => (b.name, builtin b))

/-- False are null, `false`, the zeros, NaN and the empty string. -/
def isTruthy : Value → Bool
  | null => false
  | bool b => b
  | number n => n != 0.0 && !n.isNaN
  | string s => !s.isEmpty
  | array _ | record _ | builtin _ => true

mutual

/-- Equality of kind and content. NaN differs from itself and the zeros are equal. -/
def same : Value → Value → Bool
  | null, null => true
  | bool a, bool b => a == b
  | number a, number b => a == b
  | string a, string b => a == b
  | array a, array b => sameItems a b
  | record a, record b => sameFields a b
  | builtin a, builtin b => a == b
  | _, _ => false

def sameItems : List Value → List Value → Bool
  | [], [] => true
  | a :: as, b :: bs => same a b && sameItems as bs
  | _, _ => false

def sameFields : List (String × Value) → List (String × Value) → Bool
  | [], [] => true
  | (j, a) :: as, (k, b) :: bs => j == k && same a b && sameFields as bs
  | _, _ => false

end

mutual

/-- The text of a value. Strings stand without quotes. -/
def display : Value → String
  | null => "null"
  | bool b => if b then "true" else "false"
  | number n => writeNumber n
  | string s => s
  | array items => "[" ++ ", ".intercalate (displayItems items) ++ "]"
  | record fields => "\x7b" ++ ", ".intercalate (displayFields fields) ++ "\x7d"
  | builtin b => b.name ++ "()"

def displayItems : List Value → List String
  | [] => []
  | v :: rest => display v :: displayItems rest

def displayFields : List (String × Value) → List String
  | [] => []
  | (k, v) :: rest => (k ++ ": " ++ display v) :: displayFields rest

end

end Value

end PoolScaling.Expr

/-! What a data file says, whatever its format.

Both file formats are read into `Data`. Records are then taken from it by the
names of their fields: a field may have a second name, may have a default, and
may not be given twice. A record can also be written as a list of its fields in
order. -/
namespace PoolScaling

inductive Data where
  | null
  | bool (b : Bool)
  | integer (n : Int)
  | float (x : Float)
  | text (s : String)
  | list (items : List Data)
  /-- Entries in the order of the file; keys may repeat. -/
  | table (entries : List (String × Data))
  /-- Well-formed, but no field takes it: a date, or a number or text out of range. -/
  | other
  deriving Inhabited

namespace Data

def text? : Data → Option String
  | text s => some s
  | _ => none

/-- A number as a double. -/
def float? : Data → Option Float
  | float x => some x
  | integer n => some (Float.ofInt n)
  | _ => none

/-- A natural number below `limit`. -/
def natBelow? (limit : Nat) : Data → Option Nat
  | integer n => if 0 ≤ n ∧ n < limit then some n.toNat else none
  | _ => none

def list? : Data → Option (List Data)
  | list items => some items
  | _ => none

/-- The fields of a record as they are given: by place or by name. -/
inductive Fields where
  | placed (items : List Data)
  | named (entries : List (String × Data))

/-- A record of `count` fields. A list may have more items than that only if
`spare`. -/
def fields? (spare : Bool) (count : Nat) : Data → Option Fields
  | list items => if spare || items.length ≤ count then some (.placed items) else none
  | table entries => some (.named entries)
  | _ => none

/-- The field at `place`, or under one of `names`: absent, present, or none at all if
it is given twice. -/
def Fields.get? (place : Nat) (names : List String) : Fields → Option (Option Data)
  | placed items => some items[place]?
  | named entries =>
    match entries.filter fun e => names.contains e.1 with
    | [] => some none
    | [e] => some (some e.2)
    | _ => none

/-- A field that has to be there. -/
def Fields.required? {α : Type} (f : Fields) (place : Nat) (names : List String)
    (decode : Data → Option α) : Option α := do
  let d ← ← f.get? place names
  decode d

/-- A field with a default. -/
def Fields.optional? {α : Type} (f : Fields) (place : Nat) (names : List String) (default : α)
    (decode : Data → Option α) : Option α := do
  match ← f.get? place names with
  | none => some default
  | some d => decode d

end Data

end PoolScaling

import PoolScaling.Data
import PoolScaling.Dictionary

/-! Tables of TOML documents.

A table comes into being by its own header, on the way to the header of another,
or on the way of a dotted key, and is open to additions accordingly: a header may
complete a table that was only passed on the way, a dotted key may enter no table
that has a header, and nothing is given twice. -/
namespace PoolScaling.Toml

/-- How a table came into being. -/
inductive Origin where
  | header
  /-- On the way to the header of another table. -/
  | implied
  /-- On the way of a dotted key. -/
  | dotted
  deriving Repr, DecidableEq

inductive Node where
  | value (d : Data)
  | table (origin : Origin) (entries : List (String × Node))
  /-- A list of tables, each of which has a header. -/
  | list (items : List (List (String × Node)))

abbrev Entries := Dictionary Node

namespace Entries

/-- Edits the table at the end of a path. Tables on the way that are not there come
into being as `way`, and a path through a list of tables leads into the last one. -/
def edit (way : Origin) (change : Origin → Entries → Option Entries) :
    List String → Origin → Entries → Option Entries
  | [], origin, entries => change origin entries
  | key :: path, _, entries =>
    match Dictionary.find? key entries with
    | none => do
      let inner ← edit way change path way []
      some (Dictionary.insert key (.table way inner) entries)
    | some (.value _) => none
    | some (.table origin inner) =>
      if way = .dotted ∧ origin = .header then none
      else do
        let inner ← edit way change path origin inner
        some (Dictionary.insert key (.table origin inner) entries)
    | some (.list items) => do
      let inner ← edit way change path .header (← items.getLast?)
      some (Dictionary.insert key (.list (items.dropLast ++ [inner])) entries)

/-- Adds a value under a dotted key. The table it ends up in has to be one of dotted
keys, or the one that the path starts from. -/
def add (path : List String) (d : Data) (origin : Origin) (entries : Entries) :
    Option Entries := do
  let key ← path.getLast?
  let way := path.dropLast
  edit .dotted (fun origin entries =>
    if (origin == .dotted) == way.isEmpty || Dictionary.contains entries key then none
    else some (Dictionary.insert key (.value d) entries)) way origin entries

/-- Opens the table of a header. -/
def openTable (path : List String) (root : Entries) : Option Entries := do
  let key ← path.getLast?
  edit .implied (fun _ entries =>
    match Dictionary.find? key entries with
    | none => some (Dictionary.insert key (.table .header []) entries)
    | some (.table .implied inner) => some (Dictionary.insert key (.table .header inner) entries)
    | some _ => none) path.dropLast .header root

/-- Opens another item of a list of tables. -/
def openItem (path : List String) (root : Entries) : Option Entries := do
  let key ← path.getLast?
  edit .implied (fun _ entries =>
    match Dictionary.find? key entries with
    | none => some (Dictionary.insert key (.list [[]]) entries)
    | some (.list items) => some (Dictionary.insert key (.list (items ++ [[]])) entries)
    | some _ => none) path.dropLast .header root

end Entries

/-! ### The data of a table -/

mutual

def Node.toData : Node → Data
  | .value d => d
  | .table _ entries => .table (entriesData entries)
  | .list items => .list (itemsData items)

def entriesData : List (String × Node) → List (String × Data)
  | [] => []
  | (key, node) :: rest => (key, node.toData) :: entriesData rest

def itemsData : List (List (String × Node)) → List Data
  | [] => []
  | item :: rest => .table (entriesData item) :: itemsData rest

end

end PoolScaling.Toml

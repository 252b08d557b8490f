import PoolScaling.Toml.Statement
import PoolScaling.Toml.Tables

/-! Reading TOML. -/
namespace PoolScaling.Toml

/-! ### Values -/

/-- A table written on one line, from the keys and values in it. -/
def inlineTable? (pairs : List (List String × Data)) : Option Data := do
  let entries ← pairs.foldlM (fun entries (path, d) => Entries.add path d .header entries) []
  some (.table (entriesData entries))

mutual

/-- A value `depth` lists and tables deep. Every round costs a character, so as many
rounds as there are characters suffice. -/
def value? : Nat → Nat → List Char → Option (Data × List Char)
  | 0, _, _ => none
  | rounds + 1, depth, cs =>
    match cs with
    | '"' :: _ | '\'' :: _ => (text? cs).map fun (s, rest) => (.text s, rest)
    | '[' :: rest =>
      if depthLimit ≤ depth + 1 then none
      else (items? rounds (depth + 1) rest).map fun (items, rest) => (.list items, rest)
    | '\x7b' :: rest =>
      if depthLimit ≤ depth + 1 then none
      else
        match skipBlanks rest with
        | '\x7d' :: rest => some (.table [], rest)
        | rest => do
          let (pairs, rest) ← pairs? rounds (depth + 1) rest
          let d ← inlineTable? pairs
          some (d, rest)
    | 't' :: 'r' :: 'u' :: 'e' :: rest => some (.bool true, rest)
    | 'f' :: 'a' :: 'l' :: 's' :: 'e' :: rest => some (.bool false, rest)
    | _ =>
      if startsDate cs || startsTime cs then (moment? cs).map fun rest => (momentData, rest)
      else number? cs

/-- The items of a list up to the closing bracket; a comma may follow the last one. -/
def items? : Nat → Nat → List Char → Option (List Data × List Char)
  | 0, _, _ => none
  | rounds + 1, depth, cs =>
    match skipLines false cs with
    | ']' :: rest => some ([], rest)
    | cs => do
      let (item, rest) ← value? rounds depth cs
      match skipLines false rest with
      | ',' :: rest =>
        let (items, rest) ← items? rounds depth rest
        some (item :: items, rest)
      | ']' :: rest => some ([item], rest)
      | _ => none

/-- The keys and values of a table on one line up to the closing brace. -/
def pairs? : Nat → Nat → List Char → Option (List (List String × Data) × List Char)
  | 0, _, _ => none
  | rounds + 1, depth, cs => do
    let (path, rest) ← path? cs
    let (d, rest) ← value? rounds depth (skipBlanks (← after? '=' rest))
    match skipBlanks rest with
    | ',' :: rest =>
      let (pairs, rest) ← pairs? rounds depth rest
      some ((path, d) :: pairs, rest)
    | '\x7d' :: rest => some ([(path, d)], rest)
    | _ => none

end

/-! ### Documents -/

inductive Statement where
  | table (path : List String)
  | item (path : List String)
  | entry (path : List String) (d : Data)

/-- The statement on a line, and the lines that follow. -/
def statement? : List Char → Option (Statement × List Char)
  | '[' :: '[' :: rest => do
    let (path, rest) ← path? rest
    let rest ← lineEnd? (← after? ']' (← after? ']' rest))
    some (.item path, rest)
  | '[' :: rest => do
    let (path, rest) ← path? rest
    let rest ← lineEnd? (← after? ']' rest)
    some (.table path, rest)
  | cs => do
    let (path, rest) ← path? cs
    let rest := skipBlanks (← after? '=' rest)
    let (d, rest) ← value? (rest.length + 1) 0 rest
    let rest ← lineEnd? rest
    some (.entry path d, rest)

/-- The statements of a document. Each takes a character at least, so as many rounds
as there are characters suffice. -/
def statements? : Nat → List Char → Option (List Statement)
  | 0, _ => none
  | rounds + 1, cs =>
    match skipBlanks cs with
    | [] => some []
    | cs =>
      match lineEnd? cs with
      | some rest => statements? rounds rest
      | none => do
        let (s, rest) ← statement? cs
        let ss ← statements? rounds rest
        some (s :: ss)

/-- A document so far: its tables, and the path of the one that entries go to. -/
structure Document where
  root : Entries
  current : List String

/-- Extends a document by a statement. -/
def Document.extend (doc : Document) : Statement → Option Document
  | .table path => (Entries.openTable path doc.root).map fun root => ⟨root, path⟩
  | .item path => (Entries.openItem path doc.root).map fun root => ⟨root, path⟩
  | .entry path d =>
    (Entries.edit .implied (Entries.add path d) doc.current .header doc.root).map fun root =>
      { doc with root }

/-- Reads a document, before which a byte order mark may stand. -/
def read? (text : String) : Option Data := do
  let cs := match text.toList with
    | '\uFEFF' :: cs => cs
    | cs => cs
  let ss ← statements? (cs.length + 1) cs
  let doc ← ss.foldlM Document.extend ⟨[], []⟩
  some (.table (entriesData doc.root))

end PoolScaling.Toml

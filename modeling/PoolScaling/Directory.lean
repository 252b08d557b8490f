/-! Text files in a directory.

A path leads to a file if its last part is the name and the parts before, of
which a single point counts for nothing, are the folders. Paths that start at the
root or go back up lead nowhere. -/
namespace PoolScaling

/-- Texts of files by their paths. -/
abbrev Directory := List (String × String)

namespace Directory

/-- The path without empty parts and single points before the name. -/
def resolve? (path : String) : Option String :=
  match (path.splitOn "/").reverse with
  | [] => none
  | name :: folders =>
    if name = "" ∨ name = "." ∨ name = ".." ∨ folders.contains ".." ∨ path.startsWith "/" then none
    else
      let folders := folders.filter fun f => f ≠ "" ∧ f ≠ "."
      some ("/".intercalate (name :: folders).reverse)

def read? (files : Directory) (path : String) : Option String :=
  (resolve? path).bind fun path => files.lookup path

end Directory

end PoolScaling

/-! Dictionaries with text keys.

A dictionary is a list of pairs in ascending order of its keys, each key at most
once. The order of texts is that of their code points, which is also the order
of their bytes in UTF-8. Two dictionaries with the same look-ups are the same
list. -/
namespace PoolScaling

abbrev Dictionary (α : Type) := List (String × α)

namespace Dictionary

variable {α β : Type}

/-- Binds `k` to `v`; an earlier binding of `k` is replaced. -/
def insert (k : String) (v : α) : Dictionary α → Dictionary α
  | [] => [(k, v)]
  | (k', v') :: rest =>
    if k < k' then (k, v) :: (k', v') :: rest
    else if k = k' then (k, v) :: rest
    else (k', v') :: insert k v rest

def find? (k : String) : Dictionary α → Option α
  | [] => none
  | (k', v) :: rest => if k = k' then some v else find? k rest

def contains (d : Dictionary α) (k : String) : Bool := (find? k d).isSome

def keys (d : Dictionary α) : List String := d.map Prod.fst

/-- Inserts pairs from left to right, so the last one of a key stays. -/
def insertAll (d : Dictionary α) (pairs : List (String × α)) : Dictionary α :=
  pairs.foldl (fun d (k, v) => insert k v d) d

def ofList (pairs : List (String × α)) : Dictionary α := insertAll [] pairs

/-- Ascending keys, each once. -/
def Ordered (d : Dictionary α) : Prop := d.Pairwise fun a b => a.1 < b.1

end Dictionary

end PoolScaling

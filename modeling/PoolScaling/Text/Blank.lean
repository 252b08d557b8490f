/-! Blank characters.

The twenty-five code points with the Unicode property White_Space, and trimming
by that property. -/
namespace PoolScaling.Text

/-- Ranges of the property White_Space, in ascending order. -/
def blankRanges : List (Nat × Nat) :=
  [(0x09, 0x0D), (0x20, 0x20), (0x85, 0x85), (0xA0, 0xA0), (0x1680, 0x1680),
   (0x2000, 0x200A), (0x2028, 0x2029), (0x202F, 0x202F), (0x205F, 0x205F), (0x3000, 0x3000)]

def isBlank (c : Char) : Bool :=
  blankRanges.any fun (low, high) => low ≤ c.toNat && c.toNat ≤ high

def trimStart (cs : List Char) : List Char := cs.dropWhile isBlank

def trimEnd (cs : List Char) : List Char := (cs.reverse.dropWhile isBlank).reverse

/-- Removes blank characters from both ends. -/
def trim (s : String) : String := String.ofList (trimEnd (trimStart s.toList))

/-- Drops an ending from a list of characters, if it has that ending. -/
def dropEnding? (ending cs : List Char) : Option (List Char) :=
  let kept := cs.take (cs.length - ending.length)
  if kept ++ ending = cs then some kept else none

/-- The number of bytes of a text in UTF-8. -/
def byteCount (cs : List Char) : Nat := cs.foldl (fun n c => n + c.utf8Size) 0

end PoolScaling.Text

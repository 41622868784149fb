/-!
# Blank characters

The characters with the Unicode property White_Space, and the removal of blank ends from a text.
-/

set_option autoImplicit false

namespace StudioMake.Text

/-- The code points with the property White_Space, as ranges with both ends included. -/
def blankRanges : List (Nat × Nat) :=
  [(0x09, 0x0D), (0x20, 0x20), (0x85, 0x85), (0xA0, 0xA0), (0x1680, 0x1680), (0x2000, 0x200A),
   (0x2028, 0x2029), (0x202F, 0x202F), (0x205F, 0x205F), (0x3000, 0x3000)]

def isBlank (c : Char) : Bool :=
  blankRanges.any fun range => range.1 ≤ c.toNat && c.toNat ≤ range.2

def dropEndWhile (p : Char → Bool) (l : List Char) : List Char :=
  (l.reverse.dropWhile p).reverse

theorem dropEndWhile_concat (p : Char → Bool) (l : List Char) (c : Char) :
    dropEndWhile p (l ++ [c]) = if p c then dropEndWhile p l else l ++ [c] := by
  by_cases h : p c <;> simp [dropEndWhile, h]

def trimStart (s : String) : String :=
  String.ofList (s.toList.dropWhile isBlank)

def trim (s : String) : String :=
  String.ofList (dropEndWhile isBlank (s.toList.dropWhile isBlank))

def trimChar (c : Char) (s : String) : String :=
  String.ofList (dropEndWhile (· == c) (s.toList.dropWhile (· == c)))

def isAllBlank (s : String) : Bool :=
  s.toList.all isBlank

theorem toList_trim (s : String) :
    (trim s).toList = dropEndWhile isBlank (s.toList.dropWhile isBlank) := by
  simp [trim]

end StudioMake.Text

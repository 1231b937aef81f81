/-
  AgreedOrder.Text.Blank

  White space in texts: the characters with the Unicode property
  `White_Space`. A text is trimmed at both ends, or cut into the fields that
  stand between blanks.
-/

import AgreedOrder.Text.Split

namespace AgreedOrder.Text

/-- The code points with the property `White_Space`, as closed ranges. -/
def blankRanges : List (Nat × Nat) :=
  [(0x09, 0x0D), (0x20, 0x20), (0x85, 0x85), (0xA0, 0xA0), (0x1680, 0x1680), (0x2000, 0x200A),
    (0x2028, 0x2029), (0x202F, 0x202F), (0x205F, 0x205F), (0x3000, 0x3000)]

/-- Whether a character is white space. -/
def isBlank (c : Char) : Bool :=
  blankRanges.any fun r => r.1 ≤ c.toNat && c.toNat ≤ r.2

/-- The characters from the first that is not blank to the last that is not. -/
def trimChars (cs : List Char) : List Char :=
  ((cs.dropWhile isBlank).reverse.dropWhile isBlank).reverse

/-- A text without the blanks at its ends. -/
def trim (s : String) : String := String.ofList (trimChars s.toList)

/-- The non-empty pieces between blanks. -/
def fields (s : String) : List String :=
  ((splitWhere isBlank s.toList).filter (fun piece => !piece.isEmpty)).map String.ofList

/-- Whether a text holds nothing but blanks. -/
def isAllBlank (s : String) : Bool := s.toList.all isBlank

/-- The lines of a text: what stands between its line feeds. -/
def lines (s : String) : List String :=
  (splitWhere (· == '\n') s.toList).map String.ofList

end AgreedOrder.Text

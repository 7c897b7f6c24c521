import QueryPipeline.Text.CharRange

/-!
# Blank characters

The characters with the property White_Space, and what is left of a text when those at both ends are removed.
-/

namespace QueryPipeline.Text

/-- The ranges of characters with the property White_Space. -/
def blankRanges : List CharRange :=
  [(0x9, 0xd), (0x20, 0x20), (0x85, 0x85), (0xa0, 0xa0), (0x1680, 0x1680), (0x2000, 0x200a),
   (0x2028, 0x2029), (0x202f, 0x202f), (0x205f, 0x205f), (0x3000, 0x3000)]

/-- Whether a character is blank. -/
def isBlank (c : Char) : Bool := CharRange.covers blankRanges c

/-- The characters that are left when the blank ones at both ends are removed. -/
def trimBlanks (cs : List Char) : List Char :=
  ((cs.dropWhile isBlank).reverse.dropWhile isBlank).reverse

end QueryPipeline.Text

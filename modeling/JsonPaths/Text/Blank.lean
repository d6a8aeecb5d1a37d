/-
JsonPaths/Text/Blank.lean

White space of Unicode, and its removal from both ends of a text.

A character is blank if its bidirectional class is a separator of paragraphs,
of segments or white space, or if it is a space separator; this takes in the
four information separators below the space.
-/
import JsonPaths.Text.Ranges

namespace JsonPaths.Text

/-- The blank code points. -/
def blankRanges : Ranges := [
  (0x9, 0xd), (0x1c, 0x20), (0x85, 0x85), (0xa0, 0xa0), (0x1680, 0x1680), (0x2000, 0x200a),
  (0x2028, 0x2029), (0x202f, 0x202f), (0x205f, 0x205f), (0x3000, 0x3000)]

/-- Whether a character is white space. -/
def isBlank (c : Char) : Bool := blankRanges.contains c.toNat

/-- The text without the blanks at its two ends. -/
def strip (s : List Char) : List Char :=
  ((s.dropWhile isBlank).reverse.dropWhile isBlank).reverse

end JsonPaths.Text

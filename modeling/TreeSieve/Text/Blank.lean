import TreeSieve.Text.Basic
import TreeSieve.Text.Ranges

/-!
# Blank characters

The blank characters are those of Unicode's white space together with the four information
separators U+001C to U+001F.

* `Text.isBlank` is the class; `Text.trimStart`, `Text.trimEnd` and `Text.trim` remove its members
  from the ends of a text.
-/

namespace TreeSieve.Text

/-- The code points of blank characters. -/
def blankRanges : CodeRanges :=
  [(0x09, 0x0D), (0x1C, 0x20), (0x85, 0x85), (0xA0, 0xA0), (0x1680, 0x1680), (0x2000, 0x200A),
   (0x2028, 0x2029), (0x202F, 0x202F), (0x205F, 0x205F), (0x3000, 0x3000)]

/-- Whether a character is blank. -/
def isBlank (c : Char) : Bool := blankRanges.contains c.toNat

/-- The text without blanks at its start. -/
def trimStart (t : Text) : Text := t.dropWhile isBlank

/-- The text without blanks at its end. -/
def trimEnd (t : Text) : Text := dropEndWhile isBlank t

/-- The text without blanks at either end. -/
def trim (t : Text) : Text := trimEnd (trimStart t)

end TreeSieve.Text

import TreeSieve.Text.Basic

/-!
# Lines

A line ends at a line feed, a carriage return, the two together, or one of the other line and
paragraph separators; the end of the text ends a last line that holds at least one character.

* `Text.lines` gives the lines of a text, without the characters that end them.
-/

namespace TreeSieve.Text

/-- The characters that end a line. -/
def isLineBreak (c : Char) : Bool :=
  [0x0A, 0x0B, 0x0C, 0x0D, 0x1C, 0x1D, 0x1E, 0x85, 0x2028, 0x2029].contains c.toNat

/-- The lines of a text, where `line` holds backwards what has been read of the first of them. -/
def linesFrom (line : Text) : Text → List Text
  | [] => if line.isEmpty then [] else [line.reverse]
  | '\r' :: '\n' :: rest => line.reverse :: linesFrom [] rest
  | c :: rest =>
    if isLineBreak c then line.reverse :: linesFrom [] rest else linesFrom (c :: line) rest

/-- The lines of a text. -/
def lines (t : Text) : List Text := linesFrom [] t

end TreeSieve.Text

import TreeSieve.Text.Blank

/-!
# Lines of an ignore file

* `lineContent` takes the blanks off a line that are not part of its pattern.
* `RuleLine.ofText?` reads a line as a rule: an exclamation mark in front negates it, and a slash at
  the start of the rest ties it to the directory of the file. Empty lines, comments, and lines that
  hold nothing else give no rule.
-/

namespace TreeSieve

/-- The characters that may be trimmed from the end of a line. -/
def isLinePadding (c : Char) : Bool := c == ' ' || c == '\t' || c == '\r' || c == '\n'

/-- Takes the padding off a line that is given backwards, up to a character that a backslash stands
in front of. -/
def dropPadding : Text → Text
  | [] => []
  | c :: before =>
    if isLinePadding c && before.head? != some '\\' then dropPadding before else c :: before

/-- A line without the blanks at its start, and without the padding at its end except for a
character that follows a backslash. -/
def lineContent (line : Text) : Text := (dropPadding (Text.trimStart line).reverse).reverse

/-- Whether a trimmed line is a comment. -/
def isComment (line : Text) : Bool := line.head? == some '#'

/-- A trimmed line that is a rule. -/
structure RuleLine where
  text : Text
  negated : Bool
  anchored : Bool
  body : Text
  deriving DecidableEq, Repr

namespace RuleLine

/-- Splits a given character off the start of a text. -/
def takeMark (mark : Char) : Text → Bool × Text
  | [] => (false, [])
  | c :: rest => if c = mark then (true, rest) else (false, c :: rest)

/-- Reads a line of an ignore file. -/
def ofText? (line : Text) : Option RuleLine :=
  let text := lineContent line
  if text.isEmpty || isComment text then none
  else
    let (negated, unmarked) := takeMark '!' text
    let (anchored, body) := takeMark '/' unmarked
    if body.isEmpty || body = ['/'] then none else some ⟨text, negated, anchored, body⟩

/-- Whether a rule holds for directories and what is below them only. -/
def directoryOnly (r : RuleLine) : Bool := r.body.getLast? == some '/'

/-- The pattern that a rule stands for: a rule that is not anchored holds at every depth. -/
def glob (r : RuleLine) : Text := if r.anchored then '/' :: r.body else '*' :: '*' :: '/' :: r.body

end RuleLine

end TreeSieve

import TreeSieve.Text.Basic
import TreeSieve.Text.Printable

/-!
# Quoted text

Messages show a path or a pattern between quotes, with everything that does not print escaped.

* `Text.quoted` uses single quotes, and double quotes for a text that holds a single quote and no
  double one. The quote in use and the backslash get a backslash; line feed, carriage return and tab
  have escapes of their own; other unprintable characters are written by code point.
-/

namespace TreeSieve.Text

/-- The quote that a text is put between. -/
def quoteFor (t : Text) : Char := if t.contains '\'' && !t.contains '"' then '"' else '\''

/-- A character as it stands between quotes. -/
def quotedChar (quote c : Char) : Text :=
  if c = quote || c = '\\' then ['\\', c]
  else if c = '\n' then ['\\', 'n']
  else if c = '\r' then ['\\', 'r']
  else if c = '\t' then ['\\', 't']
  else if isPrintable c then [c]
  else
    let n := c.toNat
    if n < 0x100 then '\\' :: 'x' :: hex 2 n
    else if n < 0x10000 then '\\' :: 'u' :: hex 4 n
    else '\\' :: 'U' :: hex 8 n

/-- A text between quotes. -/
def quoted (t : Text) : Text :=
  let quote := quoteFor t
  quote :: t.flatMap (quotedChar quote) ++ [quote]

end TreeSieve.Text

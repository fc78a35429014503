import TreeSieve.Text.Basic

/-!
# JSON

* `Json` is a value, with the members of an object in the order in which they are written.
* `Json.compact` writes a value on one line, with a blank after each comma and colon.
* `Json.indented` writes a value over several lines, two blanks deeper at each level; an empty list
  or object stays on one line.

Strings are written in ASCII: other characters become escapes of their UTF-16 units.
-/

namespace TreeSieve

/-- A JSON value; a number is kept as it is written. -/
inductive Json where
  | null
  | bool (b : Bool)
  | number (written : Text)
  | str (t : Text)
  | list (items : List Json)
  | object (members : List (Text × Json))

namespace Json

/-- A natural number. -/
def nat (n : Nat) : Json := number (Text.ofNat n)

/-- An integer. -/
def int (n : Int) : Json := number (Text.ofInt n)

/-- The escape of one UTF-16 unit. -/
def unitEscape (n : Nat) : Text := '\\' :: 'u' :: Text.hex 4 n

/-- A character inside a JSON string. -/
def escapeChar (c : Char) : Text :=
  if c = '"' || c = '\\' then ['\\', c]
  else if c = '\n' then ['\\', 'n']
  else if c = '\r' then ['\\', 'r']
  else if c = '\t' then ['\\', 't']
  else if c = '\x08' then ['\\', 'b']
  else if c = '\x0c' then ['\\', 'f']
  else
    let n := c.toNat
    if 0x20 ≤ n && n < 0x7F then [c]
    else if n < 0x10000 then unitEscape n
    else unitEscape (0xD800 + (n - 0x10000) / 0x400) ++ unitEscape (0xDC00 + (n - 0x10000) % 0x400)

/-- A JSON string with its quotes. -/
def string (t : Text) : Text := '"' :: t.flatMap escapeChar ++ ['"']

/-- A value that holds no other, or an empty list or object. -/
def scalar : Json → Text
  | null => Text.lit "null"
  | bool true => Text.lit "true"
  | bool false => Text.lit "false"
  | number written => written
  | str t => string t
  | list _ => ['[', ']']
  | object _ => [Char.ofNat 0x7B, Char.ofNat 0x7D]

mutual

/-- A value on one line. -/
def compact : Json → Text
  | list (item :: items) => '[' :: compact item ++ compactItems items ++ [']']
  | object ((name, value) :: members) =>
    Char.ofNat 0x7B :: string name ++ ':' :: ' ' :: compact value ++ compactMembers members
      ++ [Char.ofNat 0x7D]
  | value => scalar value

/-- The items after the first, each after a comma. -/
def compactItems : List Json → Text
  | [] => []
  | item :: items => ',' :: ' ' :: compact item ++ compactItems items

/-- The members after the first, each after a comma. -/
def compactMembers : List (Text × Json) → Text
  | [] => []
  | (name, value) :: members =>
    ',' :: ' ' :: string name ++ ':' :: ' ' :: compact value ++ compactMembers members

end

/-- A new line, indented for the given depth. -/
def newline (depth : Nat) : Text := '\n' :: List.replicate (2 * depth) ' '

mutual

/-- A value over several lines; `depth` is the depth of the line it begins on. -/
def indentedAt (depth : Nat) : Json → Text
  | list (item :: items) =>
    '[' :: newline (depth + 1) ++ indentedAt (depth + 1) item ++ indentedItems (depth + 1) items
      ++ newline depth ++ [']']
  | object ((name, value) :: members) =>
    Char.ofNat 0x7B :: newline (depth + 1) ++ string name ++ ':' :: ' '
      :: indentedAt (depth + 1) value ++ indentedMembers (depth + 1) members
      ++ newline depth ++ [Char.ofNat 0x7D]
  | value => scalar value

/-- The items after the first, each on a line of its own. -/
def indentedItems (depth : Nat) : List Json → Text
  | [] => []
  | item :: items => ',' :: newline depth ++ indentedAt depth item ++ indentedItems depth items

/-- The members after the first, each on a line of its own. -/
def indentedMembers (depth : Nat) : List (Text × Json) → Text
  | [] => []
  | (name, value) :: members =>
    ',' :: newline depth ++ string name ++ ':' :: ' ' :: indentedAt depth value
      ++ indentedMembers depth members

end

/-- A value over several lines. -/
def indented (value : Json) : Text := indentedAt 0 value

end Json

end TreeSieve

import TreeSieve.Regex.CharSet
import TreeSieve.Regex.Source

/-!
# Escapes and sets

* `simpleEscape` reads an escape that stands for one code point.
* `setItems` reads the items of a set in brackets.
-/

namespace TreeSieve.Regex

/-! ### Numbers -/

/-- The value of a digit in a base up to sixteen. -/
def digitOf (c : Char) : Nat :=
  if c.isDigit then c.toNat - '0'.toNat
  else if 'a' ≤ c && c ≤ 'f' then c.toNat - 'a'.toNat + 10
  else c.toNat - 'A'.toNat + 10

/-- The number that digits stand for. -/
def numberOf (base : Nat) (digits : Text) : Nat :=
  digits.foldl (fun n c => n * base + digitOf c) 0

/-- Whether a character is a hexadecimal digit. -/
def isHexDigit (c : Char) : Bool :=
  c.isDigit || ('a' ≤ c && c ≤ 'f') || ('A' ≤ c && c ≤ 'F')

/-- Whether a character is an octal digit. -/
def isOctalDigit (c : Char) : Bool := '0' ≤ c && c ≤ '7'

/-! ### Escapes -/

/-- The character classes written as escapes. -/
def escapedClass? : Char → Option CharItem
  | 'd' => some (.ofClass .digit false)
  | 'D' => some (.ofClass .digit true)
  | 's' => some (.ofClass .blank false)
  | 'S' => some (.ofClass .blank true)
  | 'w' => some (.ofClass .word false)
  | 'W' => some (.ofClass .word true)
  | _ => none

/-- The control characters written as escapes, in a set and elsewhere. -/
def escapedControl? : Char → Option Char
  | 'a' => some '\x07'
  | 'f' => some '\x0c'
  | 'n' => some '\n'
  | 'r' => some '\r'
  | 't' => some '\t'
  | 'v' => some '\x0b'
  | '\\' => some '\\'
  | _ => none

/-- Reads the digits of `\x`, `\u` or `\U`, of which there must be exactly `width`. The code point
need not be one of a character. -/
def hexEscape (s : Source) (c : Char) (width : Nat) : Except RegexError (Nat × Source) := do
  let (digits, s) ← s.takeWhile isHexDigit width
  let written := '\\' :: c :: digits
  let value := numberOf 16 digits
  if digits.length = width then
    if value < 0x110000 then return (value, s)
    else s.fail (.badEscape written) written.length
  else s.fail (.incompleteEscape written) written.length

/-- Reads the name of a character in braces, which must be there; names themselves are not known. -/
def namedEscape (s : Source) : Except RegexError (Nat × Source) := do
  match ← s.accept (Char.ofNat 0x7B) with
  | none => s.fail (.nothingGiven "\x7b") 0
  | some s =>
    let (name, s) ← s.name "character name" (Char.ofNat 0x7D)
    s.fail (.unsupported ['\\', 'N']) (name.length + 4)

/-- Escapes of a single code point that mean the same in a set and elsewhere; the source stands
behind the escaped character. -/
def simpleEscape (s : Source) (c : Char) : Except RegexError (Nat × Source) :=
  match escapedControl? c with
  | some d => .ok (d.toNat, s)
  | none =>
    if c = 'x' then hexEscape s c 2
    else if c = 'u' then hexEscape s c 4
    else if c = 'U' then hexEscape s c 8
    else if c = 'N' then namedEscape s
    else if c.isAlphanum then s.fail (.badEscape ['\\', c]) 2
    else .ok (c.toNat, s)

/-! ### Sets -/

/-- An escape inside a set. -/
def setEscape (s : Source) (c : Char) : Except RegexError (CharItem × Source) := do
  match escapedClass? c with
  | some item => return (item, s)
  | none =>
    if c = 'b' then return (.single 0x08, s)
    else if isOctalDigit c then
      let (digits, s) ← s.takeWhile isOctalDigit 2
      let written := '\\' :: c :: digits
      let value := numberOf 8 (c :: digits)
      if value ≤ 0o377 then return (.single value, s)
      else s.fail (.octalTooLarge written) written.length
    else
      let (code, s) ← simpleEscape s c
      return (.single code, s)

/-- One end of a range or a member of a set, from a symbol just taken. -/
def setMember (s : Source) : Symbol → Except RegexError (CharItem × Source)
  | .plain c => .ok (.single c.toNat, s)
  | .escaped c => setEscape s c

/-- The items of a set up to its closing bracket. `opened` is the position of the opening one, where
a set that does not end is reported; a closing bracket that comes first is a member. -/
def setItems (opened : Nat) : Nat → Bool → Source → Except RegexError (List CharItem × Source)
  | 0, _, _ => .error ⟨.unclosedSet, opened⟩
  | fuel + 1, isFirst, s => do
    let some symbol := s.peek | .error ⟨.unclosedSet, opened⟩
    let s ← s.drop symbol
    if symbol = .plain ']' && !isFirst then return ([], s)
    let (item, s) ← setMember s symbol
    match ← s.accept '-' with
    | none =>
      let (items, s) ← setItems opened fuel false s
      return (item :: items, s)
    | some s =>
      let some lastSymbol := s.peek | .error ⟨.unclosedSet, opened⟩
      let s ← s.drop lastSymbol
      if lastSymbol = .plain ']' then return ([item, .single '-'.toNat], s)
      let (lastItem, s) ← setMember s lastSymbol
      let width := symbol.written.length + 1 + lastSymbol.written.length
      let reversed := RegexFault.rangeReversed symbol.written lastSymbol.written
      match item, lastItem with
      | .single first, .single last =>
        if last < first then s.fail reversed width
        else
          let (items, s) ← setItems opened fuel false s
          return (.range first last :: items, s)
      | _, _ => s.fail reversed width

end TreeSieve.Regex

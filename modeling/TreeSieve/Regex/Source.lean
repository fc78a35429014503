import TreeSieve.Regex.Error
import TreeSieve.Text.Alphanumeric

/-!
# The text of a regular expression while it is read

* `Symbol` is a character, or a backslash with the character after it.
* `Source` is what is left to read; `Source.peek` is its next symbol and `Source.drop` what is
  behind it.

The reader sees one symbol ahead. A single backslash at the very end is therefore reported as
soon as the symbol before it has been taken, ahead of anything that is wrong with that symbol.
-/

namespace TreeSieve.Regex

/-- Whether a character is a letter, or a numeral that is no decimal digit. -/
def isLetterLike (c : Char) : Bool := Text.isAlphanumeric c && !Text.isDecimalDigit c

/-- A character, or an escaped one. -/
inductive Symbol where
  | plain (c : Char)
  | escaped (c : Char)
  deriving DecidableEq

/-- A symbol as it was written. -/
def Symbol.written : Symbol → Text
  | plain c => [c]
  | escaped c => ['\\', c]

/-- What is left to read, and how many characters have been taken. -/
structure Source where
  position : Nat
  rest : Text

namespace Source

/-- The next symbol, if any. -/
def peek (s : Source) : Option Symbol :=
  match s.rest with
  | [] => none
  | ['\\'] => none
  | '\\' :: c :: _ => some (.escaped c)
  | c :: _ => some (.plain c)

/-- Refuses a source of which only a backslash is left. -/
def check (s : Source) : Except RegexError Source :=
  if s.rest = ['\\'] then .error ⟨.escapeAtEnd, s.position⟩ else .ok s

/-- The source behind the given symbol, which is the next one. -/
def drop (s : Source) (symbol : Symbol) : Except RegexError Source :=
  check ⟨s.position + symbol.written.length, s.rest.drop symbol.written.length⟩

/-- Takes the next symbol if it is the given character. -/
def accept (s : Source) (c : Char) : Except RegexError (Option Source) :=
  if s.peek = some (.plain c) then (s.drop (.plain c)).map some else .ok none

/-- Takes at most `most` characters that pass the test. -/
def takeWhile (test : Char → Bool) : Nat → Source → Except RegexError (Text × Source)
  | 0, s => .ok ([], s)
  | most + 1, s =>
    match s.peek with
    | some (.plain c) =>
      if test c then do
        let s ← s.drop (.plain c)
        let (taken, s) ← takeWhile test most s
        return (c :: taken, s)
      else .ok ([], s)
    | _ => .ok ([], s)

/-- Takes the symbols in front of the character `stop` and that character too; there is none if the
source ends before it. Each of the `most` symbols has at least one character. -/
def takeUntil (stop : Char) : Nat → Source → Except RegexError (Text × Option Source)
  | 0, _ => .ok ([], none)
  | most + 1, s =>
    match s.peek with
    | none => .ok ([], none)
    | some symbol => do
      let s ← s.drop symbol
      if symbol = .plain stop then return ([], some s)
      let (taken, after?) ← takeUntil stop most s
      return (symbol.written ++ taken, after?)

/-- An error about the `length` characters just taken. -/
def fail (s : Source) (fault : RegexFault) (length : Nat) : Except RegexError α :=
  .error ⟨fault, s.position - length⟩

/-- Reads a name of the given kind up to the character `stop`. -/
def name (s : Source) (kind : String) (stop : Char) : Except RegexError (Text × Source) := do
  let (name, after?) ← s.takeUntil stop (s.rest.length + 1)
  match after? with
  | some s => if name.isEmpty then s.fail (.nothingGiven kind) 1 else return (name, s)
  | none =>
    let fault := if name.isEmpty then .nothingGiven kind else .unfinishedName stop
    .error ⟨fault, s.position⟩

end Source

end TreeSieve.Regex

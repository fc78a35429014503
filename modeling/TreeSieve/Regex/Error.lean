import TreeSieve.Text.Decimal
import TreeSieve.Text.Quoted

/-!
# Malformed regular expressions

* `RegexFault` says what is wrong and `RegexError` where.
* `RegexError.message` words it; in an expression of several lines the place is given as line and
  column too.
-/

namespace TreeSieve

/-- What is wrong with a regular expression. -/
inductive RegexFault where
  | unclosedGroup
  | unopenedGroup
  | unclosedSet
  | unclosedComment
  | endOfPattern
  | unknownExtension (tail : Text)
  | nothingToRepeat
  | repeatedTwice
  | countsReversed
  | countTooLarge
  | countTooLong (digits : Nat)
  | escapeAtEnd
  | badEscape (written : Text)
  | incompleteEscape (written : Text)
  | octalTooLarge (written : Text)
  | rangeReversed (first last : Text)
  | nothingGiven (what : String)
  | unfinishedName (stop : Char)
  | badGroupName (name : Text)
  | groupNamedTwice (name : Text) (number former : Nat)
  | unknownGroupName (name : Text)
  | noSuchGroup (number : Nat)
  | groupZero
  | groupStillOpen
  | groupInLookbehind
  | tooManyBranches
  | optionsNotAtStart
  | unknownOption
  | optionMisused (how : String)
  | lengthVaries
  | unsupported (construct : Text)
  deriving DecidableEq, Repr

namespace RegexFault

/-- The wording of a fault, without its place. -/
def wording : RegexFault → Text
  | unclosedGroup => Text.lit "missing ), unterminated subpattern"
  | unopenedGroup => Text.lit "unbalanced parenthesis"
  | unclosedSet => Text.lit "unterminated character set"
  | unclosedComment => Text.lit "missing ), unterminated comment"
  | endOfPattern => Text.lit "unexpected end of pattern"
  | unknownExtension tail => Text.lit "unknown extension ?" ++ tail
  | nothingToRepeat => Text.lit "nothing to repeat"
  | repeatedTwice => Text.lit "multiple repeat"
  | countsReversed => Text.lit "min repeat greater than max repeat"
  | countTooLarge => Text.lit "the repetition number is too large"
  | countTooLong digits => Text.tooManyDigits digits
  | escapeAtEnd => Text.lit "bad escape (end of pattern)"
  | badEscape written => Text.lit "bad escape " ++ written
  | incompleteEscape written => Text.lit "incomplete escape " ++ written
  | octalTooLarge written =>
    Text.lit "octal escape value " ++ written ++ Text.lit " outside of range 0-0o377"
  | rangeReversed first last => Text.lit "bad character range " ++ first ++ '-' :: last
  | nothingGiven what => Text.lit "missing " ++ Text.lit what
  | unfinishedName stop => Text.lit "missing " ++ stop :: Text.lit ", unterminated name"
  | badGroupName name => Text.lit "bad character in group name " ++ Text.quoted name
  | groupNamedTwice name number former =>
    Text.lit "redefinition of group name " ++ Text.quoted name ++ Text.lit " as group "
      ++ Text.ofNat number ++ Text.lit "; was group " ++ Text.ofNat former
  | unknownGroupName name => Text.lit "unknown group name " ++ Text.quoted name
  | noSuchGroup number => Text.lit "invalid group reference " ++ Text.ofNat number
  | groupZero => Text.lit "bad group number"
  | groupStillOpen => Text.lit "cannot refer to an open group"
  | groupInLookbehind =>
    Text.lit "cannot refer to group defined in the same lookbehind subpattern"
  | tooManyBranches => Text.lit "conditional backref with more than two branches"
  | optionsNotAtStart => Text.lit "global flags not at the start of the expression"
  | unknownOption => Text.lit "unknown flag"
  | optionMisused how => Text.lit "bad inline flags: " ++ Text.lit how
  | lengthVaries => Text.lit "look-behind requires fixed-width pattern"
  | unsupported construct => Text.lit "unsupported construct " ++ construct

/-- Whether a fault lies in the size of a number. -/
def isOverflow : RegexFault → Bool
  | countTooLarge | countTooLong _ => true
  | _ => false

/-- Whether a fault is reported with its place. -/
def hasPlace (fault : RegexFault) : Bool := !fault.isOverflow && fault != lengthVaries

end RegexFault

/-- A fault and the number of characters before it. -/
structure RegexError where
  fault : RegexFault
  position : Nat
  deriving DecidableEq, Repr

/-- The line of a place, counted from 1. -/
def lineOf (pattern : Text) (position : Nat) : Nat := (pattern.take position).count '\n' + 1

/-- The column of a place in its line, counted from 1. -/
def columnOf (pattern : Text) (position : Nat) : Nat :=
  ((pattern.take position).reverse.takeWhile (· != '\n')).length + 1

/-- The message for a fault in the given pattern. -/
def RegexError.message (pattern : Text) (e : RegexError) : Text :=
  if e.fault.hasPlace then
    let placed := e.fault.wording ++ Text.lit " at position " ++ Text.ofNat e.position
    if pattern.contains '\n' then
      placed ++ Text.lit " (line " ++ Text.ofNat (lineOf pattern e.position)
        ++ Text.lit ", column " ++ Text.ofNat (columnOf pattern e.position) ++ [')']
    else placed
  else e.fault.wording

end TreeSieve

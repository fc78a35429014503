import TreeSieve.Regex.Error
import TreeSieve.Text.Quoted

/-!
# Malformed patterns

* `GlobFault` says why a pattern has no meaning.
* `PatternError` is such a fault in a line of an ignore file, and `invalidPattern` the wording for
  a pattern named in a message.
-/

namespace TreeSieve

/-- What is wrong with a pattern: it cannot be read at all, a bracket does not close, or a bracket
holds a reversed range, reported as in the regular expression `regex` of the pattern. -/
inductive GlobFault where
  | unreadable (pattern : Text)
  | unclosedBracket
  | reversedRange (regex : Text) (error : RegexError)
  deriving DecidableEq, Repr

/-- The wording of a fault. -/
def GlobFault.message : GlobFault → Text
  | unreadable pattern => Text.lit "Invalid git pattern: " ++ Text.quoted pattern
  | unclosedBracket => Text.lit "invalid range notation"
  | reversedRange regex error => error.message regex

/-- A fault in a line of an ignore file. -/
structure PatternError where
  pattern : Text
  fault : GlobFault
  deriving DecidableEq, Repr

/-- The wording of a fault, without the line. -/
def PatternError.message (e : PatternError) : Text := e.fault.message

/-- The full wording for an invalid pattern; line 0 stands for no line. -/
def invalidPattern (line : Option Int) (pattern message : Text) : Text :=
  let place :=
    match line with
    | none => []
    | some n => if n = 0 then [] else Text.lit "line " ++ Text.ofInt n ++ Text.lit ": "
  place ++ Text.lit "invalid pattern '" ++ pattern ++ Text.lit "': " ++ message

end TreeSieve

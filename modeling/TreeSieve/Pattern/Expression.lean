import TreeSieve.Pattern.Glob
import TreeSieve.Pattern.Line
import TreeSieve.Regex.Basic

/-!
# From patterns to regular expressions

A pattern is matched as a regular expression over a relative path, searched from any place; a path
that names a directory ends in a slash.

* `GlobPart` is a part of that expression, with its text and its meaning.
* `Glob.parts` lays out the parts of a pattern.
* `Glob.regex` puts them together. The one thing that can be wrong with a part is a reversed range
  in a bracket, and its place is counted in the text of the whole expression.
-/

namespace TreeSieve

/-- A part of the regular expression of a pattern. -/
inductive GlobPart where
  | start
  | parentsFromStart
  | slash
  | parents
  | piece (p : Piece)
  | name
  | anything
  | nameEnd
  | slashOrEnd
  deriving DecidableEq, Repr

/-- Whether a character is escaped where it stands for itself. -/
def isRegexSpecial (c : Char) : Bool :=
  "()[]\x7b\x7d?*+-|^$\\.&~# \t\n\r\x0b\x0c".toList.contains c

/-- A character of the body of a bracket as it is written in the regular expression. -/
def bracketChar (c : Char) : Text := if c = '\\' then ['\\', '\\'] else [c]

/-- The members of a bracket. A hyphen between two characters makes a range; the error holds a
reversed range and how many characters are written before it. -/
def bracketItems (written : Nat) : Text → Except RegexError (List CharItem)
  | first :: '-' :: last :: rest =>
    let width := (bracketChar first).length + 1 + (bracketChar last).length
    if last < first then
      .error ⟨.rangeReversed (bracketChar first) (bracketChar last), written⟩
    else (bracketItems (written + width) rest).map
      (.range first.toNat last.toNat :: ·)
  | c :: rest =>
    (bracketItems (written + (bracketChar c).length) rest).map (.single c.toNat :: ·)
  | [] => .ok []

/-- The text of a piece. -/
def Piece.text : Piece → Text
  | literal c => if isRegexSpecial c then ['\\', c] else [c]
  | anyRun => Text.lit "[^/]*"
  | anyOne => Text.lit "[^/]"
  | oneOf negated body =>
    '[' :: (if negated then ['^'] else []) ++ body.flatMap bracketChar ++ [']']

/-- The meaning of a piece, with `written` characters before it. -/
def Piece.regex (written : Nat) : Piece → Except RegexError Regex
  | literal c => .ok (.char c)
  | anyRun => .ok (.star .nonSlash)
  | anyOne => .ok .nonSlash
  | oneOf negated body =>
    (bracketItems (written + 1 + negated.toNat) body).map fun items =>
      .one ⟨negated, false, items⟩

namespace GlobPart

/-- The text of a part. -/
def text : GlobPart → Text
  | start => Text.lit "^"
  | parentsFromStart => Text.lit "^(?:.+/)?"
  | slash => Text.lit "/"
  | parents => Text.lit "(?:/.+)?"
  | piece p => p.text
  | name => Text.lit "[^/]+"
  | anything => Text.lit "."
  | nameEnd => Text.lit "(?:/|$)"
  | slashOrEnd => Text.lit "/?$"

/-- The meaning of a part, with `written` characters before it. -/
def regex (written : Nat) : GlobPart → Except RegexError Regex
  | start => .ok .textStart
  | parentsFromStart =>
    .ok (.seq .textStart (.optional (.seq (.plus .nonNewline) (.char '/'))))
  | slash => .ok (.char '/')
  | parents => .ok (.optional (.seq (.char '/') (.plus .nonNewline)))
  | piece p => p.regex written
  | name => .ok (.plus .nonSlash)
  | anything => .ok .nonNewline
  | nameEnd => .ok (.alt (.char '/') .lastLineEnd)
  | slashOrEnd => .ok (.seq (.optional (.char '/')) .lastLineEnd)

/-- The meaning of parts in a row. -/
def regexOf (written : Nat) : List GlobPart → Except RegexError (List Regex)
  | [] => .ok []
  | part :: parts => do
    let first ← part.regex written
    let rest ← regexOf (written + part.text.length) parts
    return first :: rest

end GlobPart

/-- The parts for one component of a path. -/
def Segment.parts : Segment → List GlobPart
  | anyDepth => [.slash]
  | anyName => [.name]
  | shape pieces => pieces.map .piece

namespace Glob

/-- The end of a pattern whose last segment is given. -/
def ending (kind : GlobKind) (last : Segment) : GlobPart :=
  if kind = .including && last = .anyName then .slashOrEnd else .nameEnd

/-- The parts of the segments behind the first one. -/
def partsAfter (kind : GlobKind) (afterName : Bool) : List Segment → List GlobPart
  | [] => []
  | [.anyDepth] => [.slash]
  | .anyDepth :: rest => .parents :: partsAfter kind true rest
  | [segment] => (if afterName then [.slash] else []) ++ segment.parts ++ [ending kind segment]
  | segment :: rest =>
    (if afterName then [.slash] else []) ++ segment.parts ++ partsAfter kind true rest

/-- The parts of a pattern. -/
def parts (kind : GlobKind) (g : Glob) : List GlobPart :=
  match g.segments with
  | [.anyDepth] => if g.directory then [.slash] else [.anything]
  | [.anyDepth, .anyName] => [.anything]
  | [.anyDepth, .anyName, .anyDepth] => [.slash]
  | .anyDepth :: rest => .parentsFromStart :: partsAfter kind false rest
  | segments => .start :: partsAfter kind false segments

/-- The regular expression of a pattern. -/
def regex (kind : GlobKind) (g : Glob) : Except GlobFault Regex :=
  let parts := g.parts kind
  match GlobPart.regexOf 0 parts with
  | .ok regexes => .ok (Regex.sequence regexes)
  | .error e => .error (.reversedRange (parts.flatMap GlobPart.text) e)

end Glob

/-- The regular expression for a pattern of an ignore file. A pattern that is empty or a slash alone
stands for nothing, and is refused like a bracket that does not close. -/
def ignoringRegex (pattern : Text) : Except GlobFault Regex := do
  let trimmed := Glob.trimPattern pattern
  if trimmed.isEmpty || trimmed = ['/'] then throw .unclosedBracket
  let glob ← Glob.ofTrimmed .ignoring pattern trimmed
  glob.regex .ignoring

/-- The regular expression for a pattern that includes paths, and whether an exclamation mark turns
it into one that excludes them; blank lines and comments give nothing. -/
def includingRegex? (pattern : Text) : Except GlobFault (Option (Bool × Regex)) := do
  let trimmed := Glob.trimPattern pattern
  if trimmed.isEmpty || isComment trimmed then return none
  let (negated, body) := RuleLine.takeMark '!' trimmed
  let glob ← Glob.ofTrimmed .including pattern body
  return some (negated, ← glob.regex .including)

end TreeSieve

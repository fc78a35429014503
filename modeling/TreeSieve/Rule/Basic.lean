import TreeSieve.Path.Scope
import TreeSieve.Pattern.Expression

/-!
# Rules

A rule is a line of an ignore file together with the directory it holds for. As in `inScope`, the
host is taken to be a POSIX one that does not compare paths case-insensitively: patterns are
compiled with letter case, and scopes are compared with it.

* `Matchers.ofGlob` compiles a pattern: one expression decides whether a path is matched, and one
  for each leading segment of an anchored pattern decides whether something below a directory still
  can be.
* `Rule.compile` compiles a line.
* `Rule.covers` tells whether a path is matched, `Rule.mayCoverBelow` whether something at or below
  a directory could be.
-/

namespace TreeSieve

/-- The compiled form of a pattern. -/
structure Matchers where
  exact : Regex
  leading : List Regex
  deriving DecidableEq, Repr

namespace Matchers

/-- The segments of an anchored pattern before the first that is empty or stands for any depth. -/
def leadingSegments (glob : Text) : List Text :=
  let inner := Text.dropEndWhile (· == '/') (glob.dropWhile (· == '/'))
  (Text.split '/' inner).takeWhile fun segment =>
    !segment.isEmpty && segment != Segment.anyDepthText

/-- The patterns of the directories that lead to what an anchored pattern names, outermost first. -/
def leadingGlobs (glob : Text) : List Text :=
  let segments := leadingSegments glob
  (List.range segments.length).map fun depth =>
    '/' :: Text.joinWith '/' (segments.take (depth + 1)) ++ ['/']

/-- Compiles a pattern; it is anchored if it begins with a slash. -/
def ofGlob (glob : Text) : Except GlobFault Matchers := do
  let exact ← ignoringRegex glob
  let leading ←
    if glob.head? = some '/' then (leadingGlobs glob).mapM ignoringRegex else pure []
  return ⟨exact, leading⟩

end Matchers

/-- A rule: the line it was read from, the directory it holds for, and its compiled form. The line
number and the source serve messages only. -/
structure Rule where
  pattern : Text
  negated : Bool
  directoryOnly : Bool
  anchored : Bool
  scope : Text
  matchers : Matchers
  line : Int
  source : Option Text
  deriving DecidableEq, Repr

namespace Rule

/-- The rule of a line that has been read, with its compiled pattern. -/
def ofLine (read : RuleLine) (matchers : Matchers) (scope : Text) (line : Int)
    (source : Option Text) : Rule where
  pattern := read.text
  negated := read.negated
  directoryOnly := read.directoryOnly
  anchored := read.anchored
  scope := canonical scope
  matchers := matchers
  line := line
  source := source

/-- Compiles a line of an ignore file; a line without a pattern gives no rule. -/
def compile (scope text : Text) (line : Int) (source : Option Text) :
    Except PatternError (Option Rule) :=
  match RuleLine.ofText? text with
  | none => .ok none
  | some read =>
    match Matchers.ofGlob read.glob with
    | .ok matchers => .ok (some (ofLine read matchers scope line source))
    | .error fault => .error ⟨read.text, fault⟩

/-- Whether a path lies in the directory that a rule holds for. -/
def appliesTo (r : Rule) (path : Text) : Bool := inScope path r.scope

/-- Whether a rule matches a canonical path below its scope; the scope itself is never matched. -/
def covers (r : Rule) (path : Text) (isDirectory : Bool) : Bool :=
  match relativePath? path r.scope with
  | none => false
  | some [] => false
  | some (c :: rest) =>
    let relative := c :: rest
    r.matchers.exact.search (if isDirectory then relative ++ ['/'] else relative)

/-- Whether something at or below a directory could be matched. Only an anchored rule can exclude
that: then the directory must fit the leading segments as far as both reach. -/
def mayCoverBelow (r : Rule) (directory : Text) : Bool :=
  match relativePath? directory r.scope with
  | none => false
  | some relative =>
    if relative.isEmpty || !r.anchored then true
    else
      let depth := min (relative.count '/' + 1) r.matchers.leading.length
      match r.matchers.leading[depth - 1]? with
      | none => true
      | some regex => regex.search (relative ++ ['/'])

end Rule

end TreeSieve

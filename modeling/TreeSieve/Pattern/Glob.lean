import TreeSieve.Pattern.Error
import TreeSieve.Text.Blank

/-!
# Glob patterns

A pattern is cut at its slashes into segments. `**` stands for any number of components, `*` for
one, and other segments for one component of a given shape.

* `Piece` and `Segment` are the syntax; `Segment.ofText` reads a segment.
* `Glob.segmentTexts` cuts a pattern and brings it into one form: a pattern without inner slash
  holds at every depth, a slash at the end stands for everything below a directory, and
  neighbouring `**` count once.
* `Glob.ofText` reads a pattern.

Two kinds of patterns differ in details: those of ignore files, and those that choose paths to be
included.
-/

namespace TreeSieve

/-- What a pattern is written for. -/
inductive GlobKind where
  | ignoring
  | including
  deriving DecidableEq, Repr

/-- A piece of a segment: a character, any run of characters, any one character, or one character
of a bracket. -/
inductive Piece where
  | literal (c : Char)
  | anyRun
  | anyOne
  | oneOf (negated : Bool) (body : Text)
  deriving DecidableEq, Repr

/-- A part of a pattern between slashes. -/
inductive Segment where
  | anyDepth
  | anyName
  | shape (pieces : List Piece)
  deriving DecidableEq, Repr

/-- Why a segment cannot be read. -/
inductive SegmentFault where
  | loneBackslash
  | unclosedBracket
  deriving DecidableEq, Repr

namespace Segment

/-- The text of the segment for any number of components. -/
def anyDepthText : Text := ['*', '*']

/-- The text before the first closing bracket, if there is one. -/
def upToBracket (t : Text) : Option Text :=
  if t.contains ']' then some (t.takeWhile (· != ']')) else none

/-- The body of a bracket, up to its closing bracket; one that comes first belongs to the body. -/
def bracketBody : Text → Option Text
  | ']' :: rest => (upToBracket rest).map (']' :: ·)
  | rest => upToBracket rest

/-- What follows an opening bracket: whether the bracket is negated, and its body. -/
def bracket? : Text → Option (Bool × Text)
  | '!' :: rest => (bracketBody rest).map (true, ·)
  | '^' :: rest => (bracketBody rest).map (true, ·)
  | rest => (bracketBody rest).map (false, ·)

/-- Reads the pieces of a segment, behind the next `skip` characters, which belong to a bracket. A
bracket that does not close is an ordinary character in a pattern that includes. -/
def piecesFrom (kind : GlobKind) : Nat → Text → Except SegmentFault (List Piece)
  | _, [] => .ok []
  | skip + 1, _ :: rest => piecesFrom kind skip rest
  | 0, ['\\'] => .error .loneBackslash
  | 0, '\\' :: c :: rest => (piecesFrom kind 0 rest).map (.literal c :: ·)
  | 0, c :: rest =>
    if c = '*' then (piecesFrom kind 0 rest).map (.anyRun :: ·)
    else if c = '?' then (piecesFrom kind 0 rest).map (.anyOne :: ·)
    else if c = '[' then
      match bracket? rest with
      | some (negated, body) =>
        let length := negated.toNat + body.length + 1
        (piecesFrom kind length rest).map (.oneOf negated body :: ·)
      | none =>
        match kind with
        | .ignoring => .error .unclosedBracket
        | .including => (piecesFrom kind 0 rest).map (.literal '[' :: ·)
    else (piecesFrom kind 0 rest).map (.literal c :: ·)

/-- Reads a segment. -/
def ofText (kind : GlobKind) (t : Text) : Except SegmentFault Segment :=
  if t = anyDepthText then .ok .anyDepth
  else if t = ['*'] then .ok .anyName
  else (piecesFrom kind 0 t).map .shape

end Segment

/-- A pattern: its segments, and whether it is written with a slash at its end. -/
structure Glob where
  segments : List Segment
  directory : Bool
  deriving DecidableEq, Repr

namespace Glob

/-- A pattern without the blanks at its end, unless the last of them follows a backslash. -/
def trimPattern (t : Text) : Text :=
  match t.reverse with
  | ' ' :: '\\' :: _ => t
  | _ => Text.trimEnd t

/-- Puts `**` in front of a pattern without inner slash; a slash at the start only serves to give a
pattern an inner slash. -/
def placeFirst : List Text → List Text
  | [] :: rest => rest
  | [single] =>
    if single = Segment.anyDepthText then [single] else [Segment.anyDepthText, single]
  | [single, []] =>
    if single = Segment.anyDepthText then [single, []] else [Segment.anyDepthText, single, []]
  | texts => texts

/-- Lets a slash at the end stand for everything below. -/
def placeLast : List Text → List Text
  | [] => []
  | [last] => if last = [] then [Segment.anyDepthText] else [last]
  | text :: next :: rest => text :: placeLast (next :: rest)

/-- Keeps one of neighbouring `**`. -/
def mergeDepths : List Text → List Text
  | [] => []
  | [last] => [last]
  | text :: next :: rest =>
    if text = Segment.anyDepthText && next = Segment.anyDepthText then mergeDepths (next :: rest)
    else text :: mergeDepths (next :: rest)

/-- The texts of the segments of a pattern, in one form for all spellings of it. -/
def segmentTexts (pattern : Text) : List Text :=
  mergeDepths (placeLast (placeFirst (Text.split '/' pattern)))

/-- Whether a pattern is written with a slash at its end. In a pattern that includes, a slash alone
is no such ending. -/
def endsInSlash (kind : GlobKind) (pattern : Text) : Bool :=
  (pattern.isEmpty || pattern.getLast? == some '/') && !(kind = .including && pattern = ['/'])

/-- Reads a trimmed pattern; `given` is the pattern as it is named in an error. -/
def ofTrimmed (kind : GlobKind) (given pattern : Text) : Except GlobFault Glob :=
  match segmentTexts pattern with
  | [] => .error (.unreadable given)
  | texts =>
    match texts.mapM (Segment.ofText kind) with
    | .ok segments => .ok ⟨segments, endsInSlash kind pattern⟩
    | .error .loneBackslash => .error (.unreadable given)
    | .error .unclosedBracket => .error .unclosedBracket

end Glob

end TreeSieve

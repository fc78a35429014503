import TreeSieve.Regex.CharSet

/-!
# Regular expressions

* `Regex` is the syntax of a regular expression, `Cursor` a place in a text.
* `Regex.run` follows an expression from a cursor and asks a continuation about each place where it
  can end. Which of several ways is tried first does not matter for the answer, so a lazy repetition
  is the same expression as a greedy one.
* `Regex.search` tells whether an expression matches somewhere in a text.
* `Regex.lengths` bounds the number of characters that an expression takes.

Repeating stops where a round consumes nothing, because another such round reaches no new place.
Of the rounds that are required at least, one more than there are characters left is enough: one of
them consumes nothing, and stands for any number of such rounds.
-/

namespace TreeSieve

/-- The syntax of regular expressions. -/
inductive Regex where
  | empty
  | one (s : CharSet)
  | textStart
  | textEnd
  | lastLineEnd
  | lineStart
  | lineEnd
  | wordBoundary (present : Bool)
  | seq (first second : Regex)
  | alt (left right : Regex)
  | group (body : Regex)
  | loop (atLeast : Nat) (atMost : Option Nat) (body : Regex)
  | ahead (present : Bool) (body : Regex)
  | behind (present : Bool) (length : Nat) (body : Regex)
  deriving DecidableEq, Repr

/-- A place in a text: the characters before it, the nearest first, and those after it. -/
structure Cursor where
  before : Text
  rest : Text
  deriving DecidableEq, Repr

namespace Cursor

/-- Whether a word character stands at the head of a text. -/
def wordAtHead : Text → Bool
  | [] => false
  | c :: _ => CharClass.word.contains c

/-- Whether a word begins or ends at a place. -/
def atWordBoundary (p : Cursor) : Bool := wordAtHead p.before != wordAtHead p.rest

/-- Whether the text has no characters at all. -/
def inEmptyText (p : Cursor) : Bool := p.before.isEmpty && p.rest.isEmpty

/-- Whether a text is empty or begins with a line feed. -/
def beginsLine : Text → Bool
  | [] => true
  | c :: _ => c == '\n'

/-- Whether at most one line feed follows. -/
def atLastLineEnd (p : Cursor) : Bool := p.rest.isEmpty || p.rest == ['\n']

/-- The place that lies a number of characters before, if there are as many. -/
def back : Nat → Cursor → Option Cursor
  | 0, p => some p
  | _ + 1, ⟨[], _⟩ => none
  | count + 1, ⟨c :: before, rest⟩ => back count ⟨before, c :: rest⟩

/-- The place and all later ones, where `before` has been passed. -/
def onwards (before : Text) : Text → List Cursor
  | [] => [⟨before, []⟩]
  | c :: rest => ⟨before, c :: rest⟩ :: onwards (c :: before) rest

/-- All places of a text. -/
def places (t : Text) : List Cursor := onwards [] t

end Cursor

namespace Regex

/-- A way to follow an expression: it asks the continuation about the places that it reaches. -/
abbrev Follower := (Cursor → Bool) → Cursor → Bool

/-- Follows `body` as often as it goes on consuming, at most `rounds` times. -/
def repeatWhileMoving (body : Follower) : Nat → Follower
  | 0, next, p => next p
  | rounds + 1, next, p =>
    next p || body (fun q =>
      q.rest.length < p.rest.length && repeatWhileMoving body rounds next q) p

/-- Follows `body` exactly `rounds` times. -/
def repeatExactly (body : Follower) : Nat → Follower
  | 0, next, p => next p
  | rounds + 1, next, p => body (repeatExactly body rounds next) p

/-- Follows an expression from a place and tells whether the continuation accepts an end. -/
def run : Regex → Follower
  | empty, next, p => next p
  | one s, next, p =>
    match p.rest with
    | [] => false
    | c :: rest => s.contains c && next ⟨c :: p.before, rest⟩
  | textStart, next, p => p.before.isEmpty && next p
  | textEnd, next, p => p.rest.isEmpty && next p
  | lastLineEnd, next, p => p.atLastLineEnd && next p
  | lineStart, next, p => Cursor.beginsLine p.before && next p
  | lineEnd, next, p => Cursor.beginsLine p.rest && next p
  | wordBoundary present, next, p =>
    !p.inEmptyText && p.atWordBoundary == present && next p
  | seq first second, next, p => run first (run second next) p
  | alt left right, next, p => run left next p || run right next p
  | group body, next, p => run body next p
  | loop atLeast atMost body, next, p =>
    repeatExactly (run body) (min atLeast (p.rest.length + 1)) (fun q =>
      let rounds := match atMost with
        | some most => min (most - atLeast) q.rest.length
        | none => q.rest.length
      repeatWhileMoving (run body) rounds next q) p
  | ahead present body, next, p => run body (fun _ => true) p == present && next p
  | behind present length body, next, p =>
    (p.back length).any (run body fun _ => true) == present && next p

/-- Whether an expression matches somewhere in a text. -/
def search (r : Regex) (t : Text) : Bool := (Cursor.places t).any (run r fun _ => true)

/-- The least number of characters that an expression takes, and the greatest if there is one. -/
def lengths : Regex → Nat × Option Nat
  | one _ => (1, some 1)
  | seq first second =>
    let (least, most) := lengths first
    let (least', most') := lengths second
    (least + least', most.bind fun n => most'.map (n + ·))
  | alt left right =>
    let (least, most) := lengths left
    let (least', most') := lengths right
    (min least least', most.bind fun n => most'.map (max n))
  | group body => lengths body
  | loop atLeast atMost body =>
    let (least, most) := lengths body
    (atLeast * least, if most = some 0 then some 0 else atMost.bind fun n => most.map (n * ·))
  | _ => (0, some 0)

/-- The number of characters that an expression takes, if it is always the same. -/
def length? (r : Regex) : Option Nat :=
  if r.lengths.2 = some r.lengths.1 then some r.lengths.1 else none

/-- One given character. -/
def char (c : Char) : Regex := one (CharSet.single c)

/-- A character that is not a slash. -/
def nonSlash : Regex := one (CharSet.except '/')

/-- A character that is not a line feed. -/
def nonNewline : Regex := one (CharSet.except '\n')

/-- Any character. -/
def anyChar : Regex := one ⟨true, false, []⟩

/-- Any number of times. -/
def star (r : Regex) : Regex := loop 0 none r

/-- At least once. -/
def plus (r : Regex) : Regex := loop 1 none r

/-- Once or not at all. -/
def optional (r : Regex) : Regex := loop 0 (some 1) r

/-- As many characters of a set as there are within the bounds. -/
def asManyOf (s : CharSet) (atLeast : Nat) (atMost : Option Nat) : Regex :=
  let ended (bound : Option Nat) := seq (loop atLeast bound (one s)) (ahead false (one s))
  match atMost with
  | none => ended none
  | some most =>
    let full := loop most (some most) (one s)
    if most ≤ atLeast then full else alt full (ended (some (most - 1)))

/-- Expressions one after the other. -/
def sequence : List Regex → Regex
  | [] => empty
  | [r] => r
  | r :: s :: rest => seq r (sequence (s :: rest))

/-- One of several expressions. -/
def choice : Regex → List Regex → Regex
  | r, [] => r
  | r, s :: rest => alt r (choice s rest)

end Regex

end TreeSieve

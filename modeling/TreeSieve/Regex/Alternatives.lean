import TreeSieve.Regex.Basic

/-!
# Alternatives

An alternative is a list of expressions, one after the other.

* `Regex.ofAlternatives` makes one list of expressions of several alternatives: what all of them
  begin with is written once in front, and alternatives of one character each become one set.

Both keep what the alternatives match, except for letters beyond the basic plane when case is
ignored: a set compares those as they are written (`CharItem.containsVariant`).
-/

namespace TreeSieve.Regex

/-- Whether an expression says all about itself: what was opened by a parenthesis or is repeated is
taken as different from any other expression. -/
def isSimple : Regex → Bool
  | one _ | textStart | textEnd | lastLineEnd | lineStart | lineEnd | wordBoundary _ => true
  | _ => false

/-- What follows in each alternative behind the expression `first`, if all of them begin with it. -/
def behind? (first : Regex) : List (List Regex) → Option (List (List Regex))
  | [] => some []
  | (r :: rest) :: others => if r = first then (behind? first others).map (rest :: ·) else none
  | [] :: _ => none

/-- The expressions that the alternatives `[head ++ ..., ...]` begin with in common, and what
remains of each alternative. -/
def commonStart (head : List Regex) (others : List (List Regex)) :
    List Regex × List (List Regex) :=
  match head with
  | [] => ([], [] :: others)
  | r :: rest =>
    match if r.isSimple then behind? r others else none with
    | none => ([], (r :: rest) :: others)
    | some others =>
      let (common, remaining) := commonStart rest others
      (r :: common, remaining)

/-- The items of a set that an alternative consists of. -/
def setItems? : List Regex → Option (List CharItem)
  | [one ⟨false, _, items⟩] => some items
  | _ => none

/-- Whether an alternative is one set that ignores case. -/
def ignoresCase : List Regex → Bool
  | [one s] => s.ignoreCase
  | _ => false

/-- One of several alternatives, as a set if each of them is one. -/
def branch (alternatives : List (List Regex)) : Regex :=
  match alternatives.mapM setItems? with
  | some items => one ⟨false, alternatives.any ignoresCase, items.flatten.eraseDups⟩
  | none =>
    match alternatives.map sequence with
    | [] => empty
    | first :: rest => choice first rest

/-- The expressions that a choice between alternatives comes to. -/
def ofAlternatives : List (List Regex) → List Regex
  | [] => []
  | [alternative] => alternative
  | first :: second :: rest =>
    let (common, remaining) := commonStart first (second :: rest)
    common ++ [branch remaining]

end TreeSieve.Regex

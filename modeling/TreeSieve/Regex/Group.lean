import TreeSieve.Regex.Source

/-!
# The groups of a regular expression

Groups are numbered from 1 in the order in which they are opened, and may have names.

* `Groups` are those opened so far; `Groups.add` opens one.
* `Groups.checkReference` says what is wrong with a reference to a group.
-/

namespace TreeSieve.Regex

/-- The groups opened so far: how many there are, those that have names, those that are closed, how
many there were when a lookbehind was opened that is still open, and the groups that conditions ask
about with the places where they do. -/
structure Groups where
  count : Nat
  names : List (Text × Nat)
  closed : List Nat
  beforeLookbehind : Option Nat
  awaited : List (Nat × Nat)

/-- Whether a text is the name of a group: letters, numerals and underscores, of which the first is
no digit. -/
def isGroupName : Text → Bool
  | [] => false
  | c :: rest =>
    (isLetterLike c || c == '_') && rest.all fun d => Text.isAlphanumeric d || d == '_'

namespace Groups

/-- No groups. -/
def initial : Groups := ⟨0, [], [], none, []⟩

/-- Opens a group without a name. -/
def add (g : Groups) : Groups := { g with count := g.count + 1 }

/-- Opens a group with a name; the source stands behind the name and the character after it. -/
def addNamed (g : Groups) (name : Text) (s : Source) : Except RegexError Groups :=
  let number := g.count + 1
  match g.names.lookup name with
  | some former => s.fail (.groupNamedTwice name number former) (name.length + 1)
  | none => .ok { g with count := number, names := (name, number) :: g.names }

/-- Closes a group. -/
def close (g : Groups) (number : Nat) : Groups := { g with closed := number :: g.closed }

/-- Reads the name of a group up to the character `stop`. -/
def readName (s : Source) (stop : Char) : Except RegexError (Text × Source) := do
  let (name, s) ← s.name "group name" stop
  if isGroupName name then return (name, s)
  else s.fail (.badGroupName name) (name.length + 1)

/-- The number of a group with a name. -/
def number (g : Groups) (name : Text) (s : Source) : Except RegexError Nat :=
  match g.names.lookup name with
  | some number => .ok number
  | none => s.fail (.unknownGroupName name) (name.length + 1)

/-- Refuses what stands in a lookbehind and depends on a group that is not closed, or that was
opened in the same lookbehind. -/
def checkLookbehind (g : Groups) (number : Nat) (s : Source) : Except RegexError Unit :=
  match g.beforeLookbehind with
  | none => .ok ()
  | some before =>
    if !g.closed.contains number then s.fail .groupStillOpen 0
    else if before < number then s.fail .groupInLookbehind 0
    else .ok ()

/-- Refuses a reference of `length` characters to a group that is still open. -/
def checkReference (g : Groups) (number length : Nat) (s : Source) : Except RegexError Unit :=
  if g.closed.contains number then g.checkLookbehind number s
  else s.fail .groupStillOpen length

/-- Reads the group that a condition asks about, up to the closing parenthesis: a name, or the
number of a group that may be opened later. -/
def readCondition (g : Groups) (s : Source) : Except RegexError (Groups × Source) := do
  let (name, s) ← s.name "group name" ')'
  if isGroupName name then
    let number ← g.number name s
    g.checkLookbehind number s
    return (g, s)
  else
    match Text.parseInt? name with
    | some (.ofNat (number + 1)) =>
      let place := s.position - (name.length + 1)
      let g :=
        if g.awaited.any (·.1 == number + 1) then g
        else { g with awaited := g.awaited ++ [(number + 1, place)] }
      g.checkLookbehind (number + 1) s
      return (g, s)
    | some 0 => s.fail .groupZero (name.length + 1)
    | _ => s.fail (.badGroupName name) (name.length + 1)

/-- The error of a condition about a group that does not exist. -/
def awaitedError? (g : Groups) : Option RegexError :=
  (g.awaited.find? fun (number, _) => g.count < number).map fun (number, place) =>
    ⟨.noSuchGroup number, place⟩

end Groups

end TreeSieve.Regex

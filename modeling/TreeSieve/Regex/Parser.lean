import TreeSieve.Regex.Alternatives
import TreeSieve.Regex.Escape
import TreeSieve.Regex.Group
import TreeSieve.Regex.Options

/-!
# Reading regular expressions

* `Regex.parse` reads the text of a regular expression, with letter case ignored if asked for, or
  says what is wrong with it and where.

Open groups stand on a stack of `Level`s. Each step takes at least one character, so the length of
the text bounds the number of steps.

What a group has matched is not kept, and no way to follow an expression is given up because another
one was found before. So references back to groups, conditions on them and groups that never give
back are read and then refused as unsupported, as are a foreign alphabet and names of characters. A
repetition that never gives back is supported for a set of characters. What nested listings show is
proved for any reading of expressions, `RegexReading`, so that nothing there rests on what is
refused here.
-/

namespace TreeSieve.Regex

/-- Whether a part of a sequence may be repeated. -/
inductive PartKind where
  | assertion
  | repetition
  | other
  deriving DecidableEq

/-- A part of the sequence being read: the expressions it consists of, and its kind. -/
structure Part where
  content : List Regex
  kind : PartKind

/-- What a parenthesis opened: a group with a number, one that keeps its content apart from what is
around it, one that does not, a condition on what follows or on what lies before, or an expression
that depends on a group. A lookbehind may stand in another one. -/
inductive GroupKind where
  | numbered (number : Nat)
  | closed
  | plain
  | ahead (present : Bool)
  | behind (present isInner : Bool)
  | conditional

/-- An open group, or the whole expression: where and how it was opened, the options in force, its
finished alternatives and the current one, both backwards. -/
structure Level where
  opened : Nat
  kind : GroupKind
  options : Options
  alternatives : List (List Regex)
  parts : List Part

namespace Level

/-- A group without any content. -/
def new (opened : Nat) (kind : GroupKind) (options : Options) : Level :=
  ⟨opened, kind, options, [], []⟩

/-- Whether nothing has been read yet. -/
def isFresh (level : Level) : Bool := level.alternatives.isEmpty && level.parts.isEmpty

/-- Whether no further alternative may follow. -/
def isFull (level : Level) : Bool :=
  match level.kind with
  | .conditional => !level.alternatives.isEmpty
  | _ => false

/-- Adds a part. -/
def push (level : Level) (content : List Regex) (kind : PartKind) : Level :=
  { level with parts := ⟨content, kind⟩ :: level.parts }

/-- The current alternative. -/
def alternative (level : Level) : List Regex := level.parts.reverse.flatMap (·.content)

/-- Begins the next alternative. -/
def nextAlternative (level : Level) : Level :=
  { level with alternatives := level.alternative :: level.alternatives, parts := [] }

/-- The content as expressions one after the other. -/
def content (level : Level) : List Regex :=
  ofAlternatives (level.alternative :: level.alternatives).reverse

end Level

/-- The state of reading: the innermost open level, those around it, the groups, and what the
expression is refused for once it has been read to its end. -/
structure Reader where
  level : Level
  outer : List Level
  groups : Groups
  varying : Bool
  refused : Option RegexError

namespace Reader

/-- The state before anything has been read. -/
def new (options : Options) : Reader := ⟨.new 0 .plain options, [], .initial, false, none⟩

/-- The options in force. -/
def options (r : Reader) : Options := r.level.options

/-- Adds a part of one expression to the innermost level. -/
def push (r : Reader) (regex : Regex) (kind : PartKind) : Reader :=
  { r with level := r.level.push [regex] kind }

/-- Opens a group. -/
def openGroup (r : Reader) (opened : Nat) (kind : GroupKind) : Reader :=
  { r with level := .new opened kind r.options, outer := r.level :: r.outer }

/-- Notes something that is not supported; the first such thing is reported. -/
def refuse (r : Reader) (construct : Text) (position : Nat) : Reader :=
  { r with refused := r.refused.or (some ⟨.unsupported construct, position⟩) }

/-- The expression that has been read. -/
def finish (r : Reader) : Except RegexError Regex :=
  match r.groups.awaitedError? with
  | some e => .error e
  | none =>
    if r.varying then .error ⟨.lengthVaries, 0⟩
    else
      match r.refused with
      | some e => .error e
      | none => .ok (sequence r.level.content)

end Reader

/-- A set of characters as an expression; an item that is written twice counts once. -/
def ofItems (options : Options) (negated : Bool) (items : List CharItem) : Regex :=
  one ⟨negated, options.ignoreCase, items.eraseDups⟩

/-- One code point as an expression. -/
def ofCode (options : Options) (code : Nat) : Regex := ofItems options false [.single code]

/-- Reads what follows `\` and a digit other than zero: an octal number of three digits, or a
reference to a group. -/
def readNumberEscape (r : Reader) (s : Source) (c : Char) :
    Except RegexError (Reader × Source) := do
  let (more, s) ← s.takeWhile Char.isDigit 1
  let digits := c :: more
  let (third, s) ←
    if more.length = 1 && digits.all isOctalDigit then s.takeWhile isOctalDigit 1 else pure ([], s)
  if third.length = 1 then
    let written := '\\' :: digits ++ third
    let value := numberOf 8 (digits ++ third)
    if value ≤ 0o377 then return (r.push (ofCode r.options value) .other, s)
    else s.fail (.octalTooLarge written) written.length
  else
    let number := numberOf 10 digits
    let length := digits.length + 1
    if r.groups.count < number then s.fail (.noSuchGroup number) digits.length
    r.groups.checkReference number length s
    return ((r.refuse ('\\' :: digits) (s.position - length)).push empty .other, s)

/-- Reads an escape outside a set. -/
def readEscape (r : Reader) (s : Source) (c : Char) : Except RegexError (Reader × Source) := do
  match escapedClass? c with
  | some item => return (r.push (ofItems r.options false [item]) .other, s)
  | none =>
    if c = 'A' then return (r.push .textStart .assertion, s)
    else if c = 'Z' then return (r.push .textEnd .assertion, s)
    else if c = 'b' then return (r.push (.wordBoundary true) .assertion, s)
    else if c = 'B' then return (r.push (.wordBoundary false) .assertion, s)
    else if c = '0' then
      let (digits, s) ← s.takeWhile isOctalDigit 2
      return (r.push (ofCode r.options (numberOf 8 digits)) .other, s)
    else if c.isDigit then readNumberEscape r s c
    else
      let (code, s) ← simpleEscape s c
      return (r.push (ofCode r.options code) .other, s)

/-- Reads a set, behind its opening bracket. -/
def readSet (r : Reader) (s : Source) : Except RegexError (Reader × Source) := do
  let opened := s.position - 1
  let (negated, s) ← match ← s.accept '^' with
    | some s => pure (true, s)
    | none => pure (false, s)
  let (items, s) ← setItems opened (s.rest.length + 1) true s
  return (r.push (ofItems r.options negated items) .other, s)

/-- Repeats the last part; `s` stands behind the repetition, which begins at `written`. -/
def repeatLast (r : Reader) (s : Source) (written atLeast : Nat) (atMost : Option Nat) :
    Except RegexError (Reader × Source) := do
  match r.level.parts with
  | [] => .error ⟨.nothingToRepeat, written⟩
  | part :: parts =>
    let replaced (regex : Regex) : Reader :=
      { r with level := { r.level with parts := ⟨[regex], .repetition⟩ :: parts } }
    match part.kind with
    | .assertion => .error ⟨.nothingToRepeat, written⟩
    | .repetition => .error ⟨.repeatedTwice, written⟩
    | .other =>
      let repeated := loop atLeast atMost (sequence part.content)
      match ← s.accept '?' with
      | some s => return (replaced repeated, s)
      | none =>
        match ← s.accept '+' with
        | none => return (replaced repeated, s)
        | some s =>
          match part.content with
          | [one set] => return (replaced (asManyOf set atLeast atMost), s)
          | _ => return ((replaced repeated).refuse ['+'] (s.position - 1), s)

/-- The largest number of repetitions that can be written. -/
def maxCount : Nat := 4294967294

/-- The number of repetitions that digits stand for. -/
def countOf (digits : Text) (position : Nat) : Except RegexError Nat :=
  if digits.length > Text.maxDigits then .error ⟨.countTooLong digits.length, position⟩
  else
    let count := numberOf 10 digits
    if count > maxCount then .error ⟨.countTooLarge, position⟩ else .ok count

/-- Reads the counts of a repetition, behind its opening brace; an opening brace that begins no
counts is an ordinary character. -/
def readCounts (r : Reader) (s : Source) : Except RegexError (Reader × Source) := do
  let literal := (r.push (ofCode r.options 0x7B) .other, s)
  if s.peek = some (.plain (Char.ofNat 0x7D)) then return literal
  let counts := s.position
  let (low, s) ← s.takeWhile Char.isDigit s.rest.length
  let (high, s) ← match ← s.accept ',' with
    | some s => s.takeWhile Char.isDigit s.rest.length
    | none => pure (low, s)
  match ← s.accept (Char.ofNat 0x7D) with
  | none => return literal
  | some s =>
    let atLeast ← countOf low counts
    if high.isEmpty then repeatLast r s (counts - 1) atLeast none
    else
      let atMost ← countOf high counts
      if atMost < atLeast then .error ⟨.countsReversed, counts⟩
      else repeatLast r s (counts - 1) atLeast (some atMost)

/-! ### Groups -/

/-- Skips a comment up to its closing parenthesis. -/
def skipComment (opened : Nat) (s : Source) : Except RegexError Source := do
  match ← s.takeUntil ')' (s.rest.length + 1) with
  | (_, some s) => return s
  | (_, none) => .error ⟨.unclosedComment, opened⟩

/-- Opens a group with the next number. -/
def openNumbered (r : Reader) (opened : Nat) (groups : Groups) : Reader :=
  { r with groups }.openGroup opened (.numbered groups.count)

/-- Opens a lookbehind, whose content must not depend on groups of its own. -/
def openBehind (r : Reader) (opened : Nat) (present : Bool) : Reader :=
  let inner := r.groups.beforeLookbehind.isSome
  let groups := { r.groups with
    beforeLookbehind := r.groups.beforeLookbehind.or (some r.groups.count) }
  { r with groups }.openGroup opened (.behind present inner)

/-- Reads a group with a name, behind `(?P`, or a reference to one. -/
def readNamed (r : Reader) (opened : Nat) (s : Source) : Except RegexError (Reader × Source) := do
  let some symbol := s.peek | .error ⟨.endOfPattern, s.position⟩
  let s ← s.drop symbol
  if symbol = .plain '<' then
    let (name, s) ← Groups.readName s '>'
    return (openNumbered r opened (← r.groups.addNamed name s), s)
  else if symbol = .plain '=' then
    let (name, s) ← Groups.readName s ')'
    let number ← r.groups.number name s
    r.groups.checkReference number (name.length + 1) s
    return ((r.refuse (Text.lit "(?P=") opened).push empty .other, s)
  else s.fail (.unknownExtension ('P' :: symbol.written)) (symbol.written.length + 2)

/-- Reads which kind of lookbehind is opened, behind `(?<`. -/
def readBehind (r : Reader) (opened : Nat) (s : Source) : Except RegexError (Reader × Source) := do
  let some symbol := s.peek | .error ⟨.endOfPattern, s.position⟩
  let s ← s.drop symbol
  if symbol = .plain '=' then return (openBehind r opened true, s)
  else if symbol = .plain '!' then return (openBehind r opened false, s)
  else s.fail (.unknownExtension ('<' :: symbol.written)) (symbol.written.length + 2)

/-- Reads options, of which the first character `c` has just been taken. Those that hold from there
on must come first in the expression. -/
def readOptions (r : Reader) (opened : Nat) (s : Source) (c : Char) :
    Except RegexError (Reader × Source) := do
  let (switch, s) ← OptionSwitch.read s c
  let r := match switch.unsupported? with
    | some letter => r.refuse ['(', '?', letter] opened
    | none => r
  let options := switch.apply r.options
  if switch.isScoped then
    let r := r.openGroup opened .closed
    return ({ r with level := { r.level with options } }, s)
  else if r.outer.isEmpty && r.level.isFresh then
    return ({ r with level := { r.level with options } }, s)
  else .error ⟨.optionsNotAtStart, opened⟩

/-- Reads what a parenthesis opens, behind it. -/
def readGroup (r : Reader) (s : Source) : Except RegexError (Reader × Source) := do
  let opened := s.position - 1
  match ← s.accept '?' with
  | none => return (openNumbered r opened r.groups.add, s)
  | some s =>
    let some symbol := s.peek | .error ⟨.endOfPattern, s.position⟩
    let s ← s.drop symbol
    let unknown := s.fail (.unknownExtension symbol.written) (symbol.written.length + 1)
    match symbol with
    | .escaped _ => unknown
    | .plain ':' => return (r.openGroup opened .plain, s)
    | .plain '=' => return (r.openGroup opened (.ahead true), s)
    | .plain '!' => return (r.openGroup opened (.ahead false), s)
    | .plain '<' => readBehind r opened s
    | .plain '>' => return ((r.refuse (Text.lit "(?>") opened).openGroup opened .closed, s)
    | .plain '#' => return (r, ← skipComment opened s)
    | .plain 'P' => readNamed r opened s
    | .plain '(' =>
      let (groups, s) ← r.groups.readCondition s
      return ({ r.refuse (Text.lit "(?(") opened with groups }.openGroup opened .conditional, s)
    | .plain c =>
      if c = '-' || OptionSwitch.letters.contains c then readOptions r opened s c else unknown

/-- Closes the innermost group. -/
def closeGroup (r : Reader) : Option Reader :=
  match r.outer with
  | [] => none
  | level :: outer =>
    let content := r.level.content
    let put (content : List Regex) : Reader :=
      { r with level := level.push content .other, outer }
    match r.level.kind with
    | .numbered number =>
      some { put [.group (sequence content)] with groups := r.groups.close number }
    | .closed | .conditional => some (put [.group (sequence content)])
    | .plain => some (put content)
    | .ahead present => some (put [.ahead present (sequence content)])
    | .behind present isInner =>
      let body := sequence content
      let groups :=
        if isInner then r.groups else { r.groups with beforeLookbehind := none }
      match body.length? with
      | some length => some { put [.behind present length body] with groups }
      | none => some { put [] with groups, varying := true }

/-! ### Whole expressions -/

/-- Whether a character may stand between the parts of an expression with blanks. -/
def isSpacing (c : Char) : Bool := [' ', '\t', '\n', '\r', '\x0b', '\x0c'].contains c

/-- Skips what may stand between the parts of an expression and begins with the character `c`, which
has just been taken: a blank, or a comment up to the end of its line. -/
def skipSpacing? (options : Options) (c : Char) (s : Source) :
    Except RegexError (Option Source) := do
  if options.spaced && isSpacing c then return some s
  else if options.spaced && c = '#' then
    let (comment, after?) ← s.takeUntil '\n' (s.rest.length + 1)
    return some (after?.getD ⟨s.position + comment.length, []⟩)
  else return none

/-- Reads a part of an expression that begins with the character `c`, which has just been taken. -/
def readPart (r : Reader) (s : Source) (c : Char) : Except RegexError (Reader × Source) := do
  let written := s.position - 1
  let options := r.options
  match c with
  | '|' => return ({ r with level := r.level.nextAlternative }, s)
  | '[' => readSet r s
  | '(' => readGroup r s
  | '*' => repeatLast r s written 0 none
  | '+' => repeatLast r s written 1 none
  | '?' => repeatLast r s written 0 (some 1)
  | '.' => return (r.push (if options.dotAll then anyChar else nonNewline) .other, s)
  | '^' => return (r.push (if options.everyLine then .lineStart else .textStart) .assertion, s)
  | '$' => return (r.push (if options.everyLine then .lineEnd else .lastLineEnd) .assertion, s)
  | c =>
    if c = Char.ofNat 0x7B then readCounts r s
    else
      match ← skipSpacing? options c s with
      | some s => return (r, s)
      | none => return (r.push (ofCode options c.toNat) .other, s)

/-- Reads the rest of an expression. -/
def readFrom : Nat → Reader → Source → Except RegexError Regex
  | 0, r, _ => r.finish
  | fuel + 1, r, s => do
    let some symbol := s.peek
      | if r.outer.isEmpty then r.finish else .error ⟨.unclosedGroup, r.level.opened⟩
    if symbol = .plain ')' then
      match closeGroup r with
      | none => .error ⟨.unopenedGroup, s.position⟩
      | some closed => readFrom fuel closed (← s.drop symbol)
    else if symbol = .plain '|' && r.level.isFull then .error ⟨.tooManyBranches, s.position⟩
    else
      let s ← s.drop symbol
      let (r, s) ← match symbol with
        | .escaped c => readEscape r s c
        | .plain c => readPart r s c
      readFrom fuel r s

/-- Reads a regular expression. -/
def parse (ignoreCase : Bool) (t : Text) : Except RegexError Regex := do
  let s ← Source.check ⟨0, t⟩
  readFrom (t.length + 1) (.new (.ofCase ignoreCase)) s

end TreeSieve.Regex

import TreeSieve.Regex.Source

/-!
# Options inside a regular expression

Options are turned on and off by letters behind `(?`.

* `Options` are the options in force at a place of an expression.
* `OptionSwitch.read` reads the letters: `(?i)` holds from there on, `(?i-s:...)` in its
  parentheses.
-/

namespace TreeSieve.Regex

/-- How an expression is meant: whether letter case is ignored, whether anchors hold at the ends of
every line, whether a dot stands for a line feed too, and whether blanks and comments may stand
between its parts. -/
structure Options where
  ignoreCase : Bool
  everyLine : Bool
  dotAll : Bool
  spaced : Bool
  deriving DecidableEq, Repr

namespace Options

/-- No option but the one about letter case. -/
def ofCase (ignoreCase : Bool) : Options := ⟨ignoreCase, false, false, false⟩

/-- Gives the option with a letter a value. -/
def set (value : Bool) (o : Options) : Char → Options
  | 'i' => { o with ignoreCase := value }
  | 'm' => { o with everyLine := value }
  | 's' => { o with dotAll := value }
  | 'x' => { o with spaced := value }
  | _ => o

end Options

/-- Options that are turned on and off, and whether they hold in their parentheses only. -/
structure OptionSwitch where
  on : List Char
  off : List Char
  isScoped : Bool

namespace OptionSwitch

/-- The letters of the options. -/
def letters : List Char := ['i', 'L', 'm', 's', 'x', 'a', 't', 'u']

/-- The letters that choose the alphabet; one of them rules the others out. -/
def alphabets : List Char := ['a', 'u', 'L']

/-- What is wrong with turning an option on behind others. -/
def onFault? (former : List Char) (c : Char) : Option RegexFault :=
  if c = 'L' then some (.optionMisused "cannot use 'L' flag with a str pattern")
  else if alphabets.contains c && former.any (fun d => alphabets.contains d && d != c) then
    some (.optionMisused "flags 'a', 'u' and 'L' are incompatible")
  else none

/-- What is wrong with turning an option off. -/
def offFault? (c : Char) : Option RegexFault :=
  if alphabets.contains c then
    some (.optionMisused "cannot turn off flags 'a', 'u' and 'L'")
  else none

/-- The letter of an option that a symbol is; in its place `expected` may stand. -/
def letterOf (expected : String) (s : Source) : Symbol → Except RegexError Char
  | .plain c =>
    if letters.contains c then .ok c
    else if isLetterLike c then s.fail .unknownOption 1
    else s.fail (.nothingGiven expected) 1
  | .escaped _ => s.fail (.nothingGiven expected) 2

/-- Reads letters of options behind `former`, of which `c` has just been taken, up to one of the
characters `stops`. -/
def readLetters (fault? : List Char → Char → Option RegexFault) (stops : List Char)
    (expected : String) : Nat → List Char → Char → Source →
      Except RegexError (List Char × Char × Source)
  | 0, former, c, s => .ok (former, c, s)
  | most + 1, former, c, s => do
    if let some fault := fault? former c then .error ⟨fault, s.position⟩
    let some symbol := s.peek | .error ⟨.nothingGiven expected, s.position⟩
    let s ← s.drop symbol
    match stops.find? fun stop => symbol == .plain stop with
    | some stop => return (c :: former, stop, s)
    | none =>
      let next ← letterOf expected s symbol
      readLetters fault? stops expected most (c :: former) next s

/-- Reads options, of which the first character `c` has just been taken: a letter or a hyphen. -/
def read (s : Source) (c : Char) : Except RegexError (OptionSwitch × Source) := do
  let (on, stop, s) ←
    if c = '-' then pure ([], c, s)
    else readLetters onFault? [')', '-', ':'] "-, : or )" (s.rest.length + 1) [] c s
  if stop = ')' then return (⟨on, [], false⟩, s)
  if on.contains 't' then s.fail (.optionMisused "cannot turn on global flag") 1
  let (off, s) ←
    if stop = '-' then do
      let some symbol := s.peek | .error ⟨.nothingGiven "flag", s.position⟩
      let s ← s.drop symbol
      let first ← letterOf "flag" s symbol
      let (off, _, s) ← readLetters (fun _ => offFault?) [':'] ":" (s.rest.length + 1) [] first s
      pure (off, s)
    else pure ([], s)
  if off.contains 't' then s.fail (.optionMisused "cannot turn off global flag") 1
  if on.any off.contains then s.fail (.optionMisused "flag turned on and off") 1
  return (⟨on, off, true⟩, s)

/-- The options after a switch. -/
def apply (switch : OptionSwitch) (o : Options) : Options :=
  switch.off.foldl (Options.set false) (switch.on.foldl (Options.set true) o)

/-- The letter of an option that is turned on and has no meaning here. -/
def unsupported? (switch : OptionSwitch) : Option Char :=
  switch.on.find? fun c => c == 'a' || c == 't'

end OptionSwitch

end TreeSieve.Regex

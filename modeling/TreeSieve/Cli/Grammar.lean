import TreeSieve.Text.Decimal

/-!
# Reading arguments

A grammar lists the options of a command and says what other arguments it takes.

* `Grammar.read` reads arguments into settings, or stops: help or the version was asked for, or the
  arguments do not fit.

A long option may be shortened as long as it stays unique, and its value may follow an equals sign.
Behind two hyphens nothing is an option, and neither is a negative number or an unknown text with a
blank in it. What fits nothing is left over; whether that is an error is for the caller to say,
because asking for help later in the line goes first.
-/

namespace TreeSieve.Cli

/-- What an option does: it is set, takes a text or a number, or stops reading. -/
inductive OptionKind where
  | flag
  | text
  | number
  | help
  | version
  deriving DecidableEq, Repr

/-- An option with its name, hyphens included. -/
structure OptionSpec where
  name : Text
  kind : OptionKind
  deriving DecidableEq, Repr

/-- The other arguments of a command: one that may be missing, at least one, or a command with its
own arguments, which takes up the rest of the line. -/
inductive Operands where
  | atMostOne
  | atLeastOne
  | command
  deriving DecidableEq, Repr

/-- The arguments that a command takes. -/
structure Grammar where
  options : List OptionSpec
  operands : Operands
  deriving Repr

/-- What an argument sets. -/
inductive Setting where
  | flag (name : Text)
  | text (name value : Text)
  | number (name : Text) (value : Int)
  deriving DecidableEq, Repr

/-- Why reading stops. -/
inductive Stop where
  | help
  | version
  | misuse
  deriving DecidableEq, Repr

/-- What an argument looks like: an ordinary one, the two hyphens, or an option, which may be
unknown and may bring a value with it. -/
inductive Shape where
  | plain
  | hyphens
  | option (spec : Option OptionSpec) (value : Option Text)
  deriving DecidableEq, Repr

/-- The arguments as far as they have been read: the settings, the operands if their place has been
reached, and what is left over. -/
structure Reading where
  settings : List Setting
  operands : Option (List Text)
  leftOver : Bool
  deriving Repr

/-- Two hyphens. -/
def twoHyphens : Text := ['-', '-']

namespace Shape

/-- Splits a text at its first equals sign. -/
def splitValue (t : Text) : Text × Option Text :=
  if t.contains '=' then
    (t.takeWhile (· != '='), some ((t.dropWhile (· != '=')).drop 1))
  else (t, none)

/-- Whether a text consists of digits, at least one, up to the end of its line. -/
def isDigits (t : Text) : Bool :=
  let digits := t.takeWhile Text.isDecimalDigit
  let behind := t.drop digits.length
  !digits.isEmpty && (behind.isEmpty || behind = ['\n'])

/-- Whether a text is a negative number, with or without a fraction. A line feed may end it. -/
def isNegativeNumber : Text → Bool
  | '-' :: number =>
    match number.dropWhile Text.isDecimalDigit with
    | '.' :: fraction => isDigits fraction
    | _ => isDigits number
  | _ => false

/-- The options that a text may stand for, with the value it brings along. What follows a short
option in the same argument belongs to it. -/
def candidates (options : List OptionSpec) (t : Text) : List Shape :=
  if twoHyphens.isPrefixOf t then
    let (name, value) := splitValue t
    (options.filter fun spec => name.isPrefixOf spec.name).map fun spec => .option (some spec) value
  else
    options.filterMap fun spec =>
      if spec.name = t.take 2 then some (.option (some spec) (some (t.drop 2)))
      else if t.isPrefixOf spec.name then some (.option (some spec) none)
      else none

/-- The shape of an argument; nothing if it could be one of several options. -/
def of? (options : List OptionSpec) (t : Text) : Option Shape :=
  let named (name : Text) := options.find? fun spec => spec.name = name
  let (name, value) := splitValue t
  if t.head? != some '-' || t.length = 1 then some plain
  else
    match named t, named name with
    | some spec, _ => some (option (some spec) none)
    | none, some spec => some (option (some spec) value)
    | none, none =>
      match candidates options t with
      | [shape] => some shape
      | _ :: _ :: _ => none
      | [] => some (if isNegativeNumber t || t.contains ' ' then plain else option none none)

/-- The shapes of arguments; nothing behind two hyphens is an option. -/
def ofAll? (options : List OptionSpec) : List Text → Option (List (Text × Shape))
  | [] => some []
  | t :: rest =>
    if t = twoHyphens then some ((t, hyphens) :: rest.map (·, plain))
    else do
      let shape ← of? options t
      return (t, shape) :: (← ofAll? options rest)

/-- Whether an argument is an option. -/
def isOption : Shape → Bool
  | option _ _ => true
  | _ => false

end Shape

namespace Grammar

/-- Splits the operands off the front of the arguments, if the ones that are due are there: two
hyphens may stand around them, but only a command keeps those. -/
def takeOperands (g : Grammar) (args : List (Text × Shape)) :
    Option (List Text × List (Text × Shape)) :=
  let isHyphens (arg : Text × Shape) : Bool := arg.2 == .hyphens
  let leading := args.takeWhile isHyphens
  let rest := args.drop leading.length
  match g.operands with
  | .atMostOne =>
    match rest with
    | (t, .plain) :: rest => some ([t], rest.dropWhile isHyphens)
    | _ => some ([], rest)
  | .atLeastOne =>
    match rest with
    | (_, .plain) :: _ =>
      let taken := rest.takeWhile fun arg => !arg.2.isOption
      let texts := if leading.isEmpty then (taken.map (·.1)).erase twoHyphens else taken.map (·.1)
      some (texts, rest.drop taken.length)
    | _ => none
  | .command =>
    match rest with
    | (_, .plain) :: _ => some (args.map (·.1), [])
    | _ => none

/-- The setting of an option with a value. -/
def valueSetting (spec : OptionSpec) (value : Text) : Except Stop Setting :=
  match spec.kind with
  | .number =>
    match Text.parseInt? value with
    | some n => .ok (.number spec.name n)
    | none => .error .misuse
  | _ => .ok (.text spec.name value)

/-- What follows from an option without a value. -/
def flagSetting (spec : OptionSpec) : Except Stop Setting :=
  match spec.kind with
  | .help => .error .help
  | .version => .error .version
  | _ => .ok (.flag spec.name)

/-- Whether an option takes a value. -/
def takesValue (spec : OptionSpec) : Bool := spec.kind = .text || spec.kind = .number

/-- Reads a flag with something behind it in the same argument, or behind an equals sign: a short
flag may be written several times in a row, and nothing else may follow. -/
def readBundle (spec : OptionSpec) (more : Text) : Except Stop Setting :=
  if !more.isEmpty && more.all fun c => spec.name = ['-', c] then flagSetting spec
  else .error .misuse

/-- Reads an option, and says how many further arguments it takes. -/
def readOption (spec : OptionSpec) (value : Option Text) (rest : List (Text × Shape)) :
    Except Stop (Setting × List (Text × Shape)) :=
  match value with
  | some value =>
    if takesValue spec then (valueSetting spec value).map (·, rest)
    else (readBundle spec value).map (·, rest)
  | none =>
    if takesValue spec then
      match rest with
      | (t, .plain) :: rest => (valueSetting spec t).map (·, rest)
      | _ => .error .misuse
    else (flagSetting spec).map (·, rest)

/-- Reads arguments in order. The operands are taken as soon as an argument that is no option is
reached, or at the end; a command among them reads its own arguments at once through `command`.
Every round takes an argument, so their number bounds the rounds. -/
def readFrom (g : Grammar) (command : List Text → Except Stop β) :
    Nat → Reading × Option β → List (Text × Shape) → Except Stop (Reading × Option β)
  | 0, state, _ => .ok state
  | rounds + 1, (reading, result), args =>
    match args with
    | (_, .option none _) :: rest =>
      readFrom g command rounds ({ reading with leftOver := true }, result) rest
    | (_, .option (some spec) value) :: rest => do
      let (setting, rest) ← readOption spec value rest
      let settings := reading.settings ++ [setting]
      readFrom g command rounds ({ reading with settings }, result) rest
    | _ =>
      match if reading.operands.isNone then g.takeOperands args else none with
      | some (operands, rest) => do
        let result ← match g.operands with
          | .command => (command operands).map some
          | _ => pure result
        let state := ({ reading with operands := some operands }, result)
        if rest.isEmpty then return state else readFrom g command rounds state rest
      | none =>
        let rest := args.dropWhile fun arg => !arg.2.isOption
        let state := ({ reading with leftOver := reading.leftOver || !args.isEmpty }, result)
        if rest.isEmpty then return state else readFrom g command rounds state rest

/-- Reads arguments. -/
def read (g : Grammar) (command : List Text → Except Stop β) (args : List Text) :
    Except Stop (Reading × Option β) :=
  match Shape.ofAll? g.options args with
  | none => .error .misuse
  | some shaped => readFrom g command (2 * shaped.length + 2) (⟨[], none, false⟩, none) shaped

end Grammar

namespace Reading

/-- The last text given for an option. -/
def text? (r : Reading) (name : Text) : Option Text :=
  (r.settings.filterMap fun
    | .text other value => if other = name then some value else none
    | _ => none).getLast?

/-- All texts given for an option. -/
def texts (r : Reading) (name : Text) : List Text :=
  r.settings.filterMap fun
    | .text other value => if other = name then some value else none
    | _ => none

/-- The last number given for an option. -/
def number? (r : Reading) (name : Text) : Option Int :=
  (r.settings.filterMap fun
    | .number other value => if other = name then some value else none
    | _ => none).getLast?

/-- Whether a flag is set. -/
def isSet (r : Reading) (name : Text) : Bool := r.settings.contains (.flag name)

/-- The first operand. -/
def operand? (r : Reading) : Option Text := (r.operands.getD []).head?

end Reading

end TreeSieve.Cli

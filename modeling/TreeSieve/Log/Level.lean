import TreeSieve.Text.Casing
import TreeSieve.Text.Quoted

/-!
# Log levels

* `LogLevel` lists the levels with their numbers and names.
* `LogLevel.resolve` chooses the level from a name that was asked for and from the environment; a
  name that is no level stands for warnings. The layouts of records have names too, which are
  refused.
-/

namespace TreeSieve

/-- The importance of a log record. -/
inductive LogLevel where
  | unset
  | trace
  | debug
  | info
  | warning
  | error
  | critical
  deriving DecidableEq, Repr

namespace LogLevel

/-- The number of a level; more important levels have larger ones. -/
def value : LogLevel → Nat
  | unset => 0
  | trace => 5
  | debug => 10
  | info => 20
  | warning => 30
  | error => 40
  | critical => 50

/-- The name under which a level is written. -/
def name : LogLevel → Text
  | unset => Text.lit "NOTSET"
  | trace => Text.lit "TRACE"
  | debug => Text.lit "DEBUG"
  | info => Text.lit "INFO"
  | warning => Text.lit "WARNING"
  | error => Text.lit "ERROR"
  | critical => Text.lit "CRITICAL"

/-- The level with an upper-case name; two levels have a second name. -/
def ofUpperName? (t : Text) : Option LogLevel :=
  if t = Text.lit "WARN" then some warning
  else if t = Text.lit "FATAL" then some critical
  else [unset, trace, debug, info, warning, error, critical].find? fun level => level.name = t

/-- The level that a name stands for in any letter case. -/
def ofName (t : Text) : LogLevel := ((Text.asciiUpperCase? t).bind ofUpperName?).getD warning

/-- The layout that records have unless another one is chosen. -/
def basicLayout : Text := Text.lit "%(levelname)s:%(name)s:%(message)s"

end LogLevel

/-- What is asked for in place of a level: the basic layout, or the table of layouts. -/
inductive LevelError where
  | layout
  | layoutTable
  deriving DecidableEq, Repr

/-- The wording of a mistaken level. -/
def LevelError.message : LevelError → Text
  | layout => Text.lit "Unknown level: " ++ Text.quoted LogLevel.basicLayout
  | layoutTable =>
    Text.lit "Level not an integer or a valid string: "
      ++ Text.lit "\x7b'%': (<class 'logging.PercentStyle'>, "
      ++ Text.lit "'%(levelname)s:%(name)s:%(message)s'), "
      ++ Text.lit "'\x7b': (<class 'logging.StrFormatStyle'>, "
      ++ Text.lit "'\x7blevelname\x7d:\x7bname\x7d:\x7bmessage\x7d'), "
      ++ Text.lit "'$': (<class 'logging.StringTemplateStyle'>, "
      ++ Text.lit "'$\x7blevelname\x7d:$\x7bname\x7d:$\x7bmessage\x7d')\x7d"

namespace LogLevel

/-- The level that a name stands for, unless it is the name of a layout. -/
def read (t : Text) : Except LevelError LogLevel :=
  let upper := Text.asciiUpperCase? t
  if upper = some (Text.lit "BASIC_FORMAT") then .error .layout
  else if upper = some (Text.lit "_STYLES") then .error .layoutTable
  else .ok (ofName t)

/-- The environment variables that may name a level, the more important one first. -/
structure Environment where
  own : Option Text
  general : Option Text

/-- The level to log at: the first name that is given and not empty decides. The general variable
counts as given even if it is empty. -/
def resolve (asked : Option Text) (env : Environment) : Except LevelError LogLevel :=
  let given (t : Option Text) : Option Text := t.filter fun name => !name.isEmpty
  let fallback := env.general.getD (Text.lit "WARNING")
  read ((given asked).getD ((given env.own).getD fallback))

/-- Whether records of level `level` pass a threshold. Records without a level never do. -/
def passes (level threshold : LogLevel) : Bool :=
  level != unset && threshold.value ≤ level.value

end LogLevel

end TreeSieve

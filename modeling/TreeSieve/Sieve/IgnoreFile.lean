import TreeSieve.Files.FileSystem
import TreeSieve.Log.Record
import TreeSieve.Path.Basic
import TreeSieve.Rule.Cache
import TreeSieve.Text.Alphanumeric
import TreeSieve.Text.Lines
import TreeSieve.Text.Utf8

/-!
# Ignore files

* `Content.text` decodes what an ignore file holds.
* `LineReading` is what one line comes to; `readLines` reads the lines one after the other.
* `IgnoreFile.parse` reads a text, `IgnoreFile.load` a file. A line that cannot be compiled is
  reported and left out, and the lines after it are read all the same.
-/

namespace TreeSieve

/-- What an ignore file holds: text, or bytes that are still to be decoded. -/
inductive Content where
  | text (t : Text)
  | bytes (b : List UInt8)

/-- The text of a content without byte order marks in front. -/
def Content.decoded : Content → Text
  | text t => t.dropWhile (· == '\uFEFF')
  | bytes b => (Utf8.decode b).dropWhile (· == '\uFEFF')

/-- Something to report about a line; line 0 stands for the whole file. -/
structure LineProblem where
  line : Nat
  pattern : Text
  message : Text
  deriving DecidableEq, Repr

/-- What a line of an ignore file comes to. -/
inductive LineReading where
  | empty
  | comment
  | pattern (line : Nat) (text : Text) (compiled : Except PatternError (Option Rule))

namespace LineReading

/-- The pattern of a line. -/
def pattern? : LineReading → Option Text
  | pattern _ text _ => some text
  | _ => none

/-- The rule of a line. -/
def rule? : LineReading → Option Rule
  | pattern _ _ (.ok rule) => rule
  | _ => none

/-- The pattern of a line that gave a rule. -/
def validPattern? : LineReading → Option Text
  | pattern _ text (.ok (some _)) => some text
  | _ => none

/-- What is wrong with a line. -/
def error? : LineReading → Option LineProblem
  | pattern line text (.error e) => some ⟨line, text, e.message⟩
  | _ => none

/-- The body of a pattern, behind an exclamation mark. -/
def warnedBody (pattern : Text) : Text := (RuleLine.takeMark '!' pattern).2

/-- Whether a backslash stands in front of a letter or numeral, as it would between the components
of a path. -/
def backslashBeforeName : Text → Bool
  | '\\' :: c :: rest => Text.isAlphanumeric c || backslashBeforeName (c :: rest)
  | _ :: rest => backslashBeforeName rest
  | [] => false

/-- The bodies that match nearly everything. -/
def broadBodies : List Text := ["*", "**", "**/*", "/*", "/**"].map Text.lit

/-- Whether a pattern for an extension has a slash before its end. -/
def extensionWithSlash : Text → Bool
  | '*' :: '.' :: rest => (Text.dropEndWhile (· == '/') rest).contains '/'
  | _ => false

/-- What is unusual about a well-formed pattern. -/
def warningsFor (pattern : Text) : List Text :=
  let body := warnedBody pattern
  (if backslashBeforeName body then
      [Text.lit "Pattern contains backslash. Use forward slashes for paths."] else [])
    ++ (if broadBodies.contains body then
      [Text.lit "Very broad pattern - will exclude many files"] else [])
    ++ (if extensionWithSlash body then
      [Text.lit "Extension pattern with path separator - this may not work as expected"] else [])

/-- What is unusual about a line that was compiled. -/
def warnings : LineReading → List LineProblem
  | pattern line text (.ok _) => (warningsFor text).map (⟨line, text, ·⟩)
  | _ => []

end LineReading

/-- Reads the lines of an ignore file, the first of which has the number `line`. -/
def readLines (scope : Text) (source : Option Text) :
    MatcherCache → Nat → List Text → List LineReading × MatcherCache
  | cache, _, [] => ([], cache)
  | cache, line, text :: rest =>
    let trimmed := lineContent text
    let (reading, cache) :=
      if trimmed.isEmpty then (LineReading.empty, cache)
      else if isComment trimmed then (LineReading.comment, cache)
      else
        let (compiled, cache) := cache.compile scope trimmed line source
        (LineReading.pattern line trimmed compiled, cache)
    let (readings, cache) := readLines scope source cache (line + 1) rest
    (reading :: readings, cache)

/-- How many lines of each kind an ignore file has. -/
structure LineCounts where
  total : Nat
  empty : Nat
  comment : Nat
  pattern : Nat
  deriving DecidableEq, Repr

/-- An ignore file: where it holds, what its lines gave, and what there is to report about them. -/
structure IgnoreFile where
  scope : Text
  source : Option Text
  patterns : List Text
  validPatterns : List Text
  rules : List Rule
  errors : List LineProblem
  warnings : List LineProblem
  counts : LineCounts
  deriving DecidableEq, Repr

namespace IgnoreFile

/-- The largest number of rules that one file may give. -/
def maxRules : Nat := 10000

/-- The largest size in bytes of a file that is read. -/
def maxSize : Nat := 1048576

/-- An ignore file that could not be read. -/
def unreadable (scope : Text) (source : Option Text) (message : Text) : IgnoreFile where
  scope := scope
  source := source
  patterns := []
  validPatterns := []
  rules := []
  errors := [⟨0, [], message⟩]
  warnings := []
  counts := ⟨0, 0, 0, 0⟩

/-- The counts of lines. -/
def countLines (readings : List LineReading) : LineCounts where
  total := readings.length
  empty := readings.countP fun | .empty => true | _ => false
  comment := readings.countP fun | .comment => true | _ => false
  pattern := readings.countP fun | .pattern .. => true | _ => false

/-- The report that a file gives more rules than it may. -/
def tooManyRules (count : Nat) : List LineProblem :=
  if count > maxRules then
    [⟨0, [], Text.lit "Too many patterns: " ++ Text.ofNat count ++ Text.lit " (max: "
      ++ Text.ofNat maxRules ++ [')']⟩]
  else []

/-- The ignore file with the given lines; rules beyond the largest number are left out. -/
def ofReadings (scope : Text) (source : Option Text) (readings : List LineReading) :
    IgnoreFile where
  scope := scope
  source := source
  patterns := readings.filterMap (·.pattern?)
  validPatterns := (readings.filterMap (·.validPattern?)).take maxRules
  rules := (readings.filterMap (·.rule?)).take maxRules
  errors := readings.filterMap (·.error?) ++ tooManyRules (readings.filterMap (·.rule?)).length
  warnings := readings.flatMap (·.warnings)
  counts := countLines readings

/-- Reads the text of an ignore file that holds for the directory `scope`. -/
def parse (cache : MatcherCache) (scope : Text) (content : Content) (source : Option Text) :
    IgnoreFile × MatcherCache :=
  let (readings, cache) := readLines scope source cache 1 (Text.lines content.decoded)
  (ofReadings scope source readings, cache)

/-- Reads an ignore file, which holds for the directory it stands in. A file that is too large is
not read. -/
def load {m : Type → Type} [Monad m] (fs : FileSystem m) (cache : MatcherCache) (path : Text) :
    m (IgnoreFile × MatcherCache) := do
  let file := Path.ofText path
  let source := file.toText
  let scope := file.parent.toText
  let failed (message : Text) := (unreadable scope (some source) message, cache)
  match ← fs.lstat source with
  | .error e => return failed (Text.lit "Cannot stat file: " ++ e.message)
  | .ok stats =>
    if stats.size > maxSize then
      return failed (Text.lit "File too large: " ++ Text.ofInt stats.size
        ++ Text.lit " bytes (max: " ++ Text.ofNat maxSize ++ [')'])
    else
      match ← fs.read source with
      | .error e => return failed (Text.lit "Error reading file: " ++ e.message)
      | .ok bytes => return parse cache scope (.bytes bytes) (some source)

/-- Whether there is nothing wrong with a file. -/
def isValid (f : IgnoreFile) : Bool := f.errors.isEmpty

/-- The name under which a file is reported. -/
def label (f : IgnoreFile) : Text :=
  match f.source with
  | none | some [] => f.scope
  | some source => source

/-- The record of a problem. -/
def problemLog (f : IgnoreFile) (level : LogLevel) (p : LineProblem) : LogRecord where
  level := level
  component := Text.lit "ignorewalk.ignore.manager"
  message := f.label ++ ':' :: Text.ofNat p.line ++ ':' :: ' ' :: p.message
  context := []

/-- The records of all problems, errors first. -/
def problemLogs (f : IgnoreFile) : List LogRecord :=
  f.errors.map (f.problemLog .error) ++ f.warnings.map (f.problemLog .warning)

end IgnoreFile

end TreeSieve

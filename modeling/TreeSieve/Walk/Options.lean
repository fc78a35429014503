import TreeSieve.Text.Basic

/-!
# Options of a walk

* `Walk.Options` are the options as a walk uses them.
* `Walk.Request` are options as they were asked for, where a limit may be any integer;
  `Walk.Request.check` refuses negative limits.
-/

namespace TreeSieve

/-- The names of ignore files if none are asked for. -/
def defaultIgnoreNames : List Text := [Text.lit ".gitignore"]

/-- The options of a walk: the names of ignore files, whether links are followed, how deep it goes
(the root has depth 0), how many entries it gives, and whether directories without children count
as entries. -/
structure Walk.Options where
  ignoreNames : List Text
  followLinks : Bool
  maxDepth : Option Nat
  maxEntries : Option Nat
  includeEmpty : Bool
  deriving DecidableEq, Repr

/-- Options as they were asked for. -/
structure Walk.Request where
  ignoreNames : List Text
  followLinks : Bool
  maxDepth : Option Int
  maxEntries : Option Int
  includeEmpty : Bool
  deriving DecidableEq, Repr

/-- Why options are refused. -/
inductive OptionError where
  | negativeDepth (n : Int)
  | negativeEntries (n : Int)
  deriving DecidableEq, Repr

/-- The wording of a refusal. -/
def OptionError.message : OptionError → Text
  | negativeDepth n => Text.lit "max_depth must be >= 0, got " ++ Text.ofInt n
  | negativeEntries n => Text.lit "max_entries must be >= 0, got " ++ Text.ofInt n

/-- The options of a plain walk. -/
def Walk.Request.plain : Walk.Request := ⟨defaultIgnoreNames, false, none, none, false⟩

/-- The options of a plain walk, ready for use. -/
def Walk.Options.plain : Walk.Options := ⟨defaultIgnoreNames, false, none, none, false⟩

/-- A limit that is not negative. -/
def checkLimit (error : Int → OptionError) : Option Int → Except OptionError (Option Nat)
  | none => .ok none
  | some (.ofNat n) => .ok (some n)
  | some (.negSucc n) => .error (error (.negSucc n))

/-- The options that a request asks for. -/
def Walk.Request.check (r : Walk.Request) : Except OptionError Walk.Options := do
  let maxDepth ← checkLimit .negativeDepth r.maxDepth
  let maxEntries ← checkLimit .negativeEntries r.maxEntries
  return ⟨r.ignoreNames, r.followLinks, maxDepth, maxEntries, r.includeEmpty⟩

end TreeSieve

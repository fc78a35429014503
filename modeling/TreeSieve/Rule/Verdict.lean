import TreeSieve.Log.Record
import TreeSieve.Rule.Basic

/-!
# Verdicts

Rules are numbered in the order in which they became known, and of those that match a path the last
one decides.

* `Verdict` is the deciding rule with its number, if there is one.
* `Verdict.ofRules` finds it; `Verdict.ignored` is the decision.
-/

namespace TreeSieve

/-- The rule that decides about a path, with its number. -/
structure Verdict where
  deciding : Option (Nat × Rule)
  deriving DecidableEq, Repr

namespace Verdict

/-- The verdict on a canonical path under numbered rules. -/
def ofRules (rules : List (Nat × Rule)) (path : Text) (isDirectory : Bool) : Verdict :=
  ⟨rules.reverse.find? fun (_, rule) => rule.covers path isDirectory⟩

/-- Whether the path is ignored: a rule matches it, and the last such rule is not negated. -/
def ignored (v : Verdict) : Bool :=
  match v.deciding with
  | some (_, rule) => !rule.negated
  | none => false

/-- The record of a verdict that some rule decided. -/
def log (v : Verdict) (path : Text) : List LogRecord :=
  match v.deciding with
  | none => []
  | some (_, rule) =>
    [{ level := .trace
       component := Text.lit "ignorewalk.ignore.rule_engine"
       message := path ++ Text.lit ": ignored=" ++ Text.ofBool v.ignored ++ Text.lit " (rule '"
         ++ rule.pattern ++ Text.lit "' from " ++ rule.scope ++ [')']
       context := [] }]

end Verdict

end TreeSieve

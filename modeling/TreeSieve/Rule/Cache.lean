import TreeSieve.Rule.Basic

/-!
# Compiling with a memory

Many lines of ignore files carry the same pattern, and a compiled pattern does not depend on the
scope, so a cache remembers what has been compiled.

* `MatcherCache.compile` compiles a line like `Rule.compile` and remembers the pattern if it is well
  formed; `MatcherCache.clear` forgets.
* `MatcherCache.compile_result` says that remembering changes no result.
-/

namespace TreeSieve

/-- The patterns compiled so far, each with what compiling it gives. -/
structure MatcherCache where
  known : List (Text × Matchers)
  sound : ∀ glob matchers, known.lookup glob = some matchers →
    Matchers.ofGlob glob = .ok matchers

namespace MatcherCache

/-- A cache that remembers nothing. -/
def empty : MatcherCache := ⟨[], by simp⟩

/-- Forgets all patterns. -/
def clear (_ : MatcherCache) : MatcherCache := empty

/-- Remembers a compiled pattern. -/
def remember (c : MatcherCache) (glob : Text) (matchers : Matchers)
    (h : Matchers.ofGlob glob = .ok matchers) : MatcherCache where
  known := (glob, matchers) :: c.known
  sound := by
    intro other found hfound
    rw [List.lookup_cons] at hfound
    split at hfound
    · rename_i hsame
      rw [eq_of_beq hsame, h]
      exact congrArg Except.ok (Option.some.inj hfound)
    · exact c.sound other found hfound

/-- The compiled form of a pattern, and the cache that remembers it. -/
def matchers (c : MatcherCache) (glob : Text) : Except GlobFault Matchers × MatcherCache :=
  match c.known.lookup glob with
  | some found => (.ok found, c)
  | none =>
    match h : Matchers.ofGlob glob with
    | .ok compiled => (.ok compiled, c.remember glob compiled h)
    | .error fault => (.error fault, c)

theorem matchers_result (c : MatcherCache) (glob : Text) :
    (c.matchers glob).1 = Matchers.ofGlob glob := by
  unfold matchers
  split
  · rename_i found hfound
    exact (c.sound glob found hfound).symm
  · split <;> rename_i h <;> exact h.symm

/-- Compiles a line of an ignore file. -/
def compile (c : MatcherCache) (scope text : Text) (line : Int) (source : Option Text) :
    Except PatternError (Option Rule) × MatcherCache :=
  match RuleLine.ofText? text with
  | none => (.ok none, c)
  | some read =>
    match c.matchers read.glob with
    | (.ok matchers, c) => (.ok (some (Rule.ofLine read matchers scope line source)), c)
    | (.error fault, c) => (.error ⟨read.text, fault⟩, c)

/-- What a cache remembers changes no result. -/
@[simp] theorem compile_result (c : MatcherCache) (scope text : Text) (line : Int)
    (source : Option Text) :
    (c.compile scope text line source).1 = Rule.compile scope text line source := by
  unfold compile Rule.compile
  cases RuleLine.ofText? text with
  | none => rfl
  | some read =>
    simp only [← matchers_result c read.glob]
    rcases c.matchers read.glob with ⟨compiled | fault, c'⟩ <;> rfl

/-- The fault of a pattern, taken as a line of the root's ignore file, if it has one. -/
def fault? (c : MatcherCache) (pattern : Text) : Option Text × MatcherCache :=
  match c.compile ['/'] pattern 0 none with
  | (.ok _, c) => (none, c)
  | (.error error, c) => (some error.message, c)

end MatcherCache

end TreeSieve

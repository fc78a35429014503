import TreeSieve.Log.Record
import TreeSieve.Rule.Basic
import TreeSieve.Text.Table

/-!
# The rulebook

Blocks of rules are kept in the order in which they were added and are never removed. The number of
a rule is its place in all blocks one after the other, so a number never changes once it is given.

* `RuleBlock.groups` are blocks by their scopes; `RuleBlock.groups_concat` adds one more block.
* `Rulebook` keeps the blocks, and along with them the number of rules and the blocks by their
  scopes. `Rulebook.add` adds a block at the end and keeps up both.
* `Rulebook.rules` lists all rules with their numbers, `Rulebook.rulesFor` those that hold for a
  path.
-/

namespace TreeSieve

/-- The rules of one ignore file in the order of its lines, and the number of the first of them. -/
structure RuleBlock where
  scope : Text
  rules : List Rule
  source : Option Text
  start : Nat
  deriving DecidableEq, Repr

namespace RuleBlock

/-- The rules of a block with their numbers. -/
def numbered (b : RuleBlock) : List (Nat × Rule) :=
  (b.rules.zipIdx b.start).map fun (rule, number) => (number, rule)

/-- Whether a path lies in the scope of a block. -/
def appliesTo (b : RuleBlock) (path : Text) : Bool := inScope path b.scope

/-- Blocks by their scopes, in the order in which the scopes came up. -/
def groups (blocks : List RuleBlock) : List (Text × List RuleBlock) :=
  (blocks.map (·.scope)).eraseDups.map fun scope => (scope, blocks.filter (·.scope = scope))

/-- The blocks of a scope with one more block. -/
theorem filter_scope_concat (blocks : List RuleBlock) (b : RuleBlock) (scope : Text) :
    (blocks ++ [b]).filter (·.scope = scope)
      = if scope = b.scope then blocks.filter (·.scope = scope) ++ [b]
        else blocks.filter (·.scope = scope) := by
  by_cases h : b.scope = scope
  · simp [h]
  · simp [h, Ne.symm h]

/-- One more block comes last among those of its scope. -/
theorem groups_concat (blocks : List RuleBlock) (b : RuleBlock) :
    groups (blocks ++ [b])
      = Text.alterEntry b.scope (fun filed => filed.getD [] ++ [b]) (groups blocks) := by
  have hnodup := nodup_eraseDups (blocks.map (·.scope))
  rw [groups, groups, Text.alterEntry_map _ _ _ hnodup, List.map_append, List.map_singleton,
    eraseDups_concat]
  simp only [filter_scope_concat, List.mem_eraseDups, List.contains_iff_mem]
  by_cases hold : b.scope ∈ blocks.map (·.scope)
  · rw [if_pos hold, if_pos hold]
    rfl
  · have hnone : blocks.filter (·.scope = b.scope) = [] := by simpa using hold
    have hothers : ∀ scope ∈ (blocks.map (·.scope)).eraseDups, scope ≠ b.scope :=
      fun scope hscope e => hold (e ▸ List.mem_eraseDups.mp hscope)
    rw [if_neg hold, if_neg hold, List.map_append, List.map_singleton, if_pos rfl, hnone]
    refine congrArg (· ++ _) (List.map_congr_left fun scope hscope => ?_)
    rw [if_neg (hothers scope hscope)]

end RuleBlock

/-- Blocks of rules in the order in which they were added, with the number of rules in all of them,
and with the blocks by their scopes. -/
structure Rulebook where
  blocks : List RuleBlock
  size : Nat
  byScope : List (Text × List RuleBlock)
  size_eq : size = (blocks.flatMap (·.rules)).length
  byScope_eq : byScope = RuleBlock.groups blocks
  deriving DecidableEq, Repr

/-- The numbers of blocks, rules, negated rules and different scopes of a rulebook. -/
structure RulebookCounts where
  blocks : Nat
  rules : Nat
  negated : Nat
  scopes : Nat
  deriving DecidableEq, Repr

namespace Rulebook

/-- A rulebook without rules. -/
def empty : Rulebook := ⟨[], 0, [], rfl, rfl⟩

/-- The block that would be added next for a scope. -/
def nextBlock (r : Rulebook) (scope : Text) (rules : List Rule) (source : Option Text) :
    RuleBlock :=
  ⟨canonical scope, rules, source, r.size⟩

/-- Adds a block behind all others. -/
def add (r : Rulebook) (scope : Text) (rules : List Rule) (source : Option Text) : Rulebook :=
  let block := r.nextBlock scope rules source
  { blocks := r.blocks ++ [block]
    size := r.size + block.rules.length
    byScope := Text.alterEntry block.scope (fun filed => filed.getD [] ++ [block]) r.byScope
    size_eq := by rw [r.size_eq, List.flatMap_append, List.length_append, List.flatMap_singleton]
    byScope_eq := by rw [r.byScope_eq, RuleBlock.groups_concat] }

/-- All rules with their numbers. -/
def rules (r : Rulebook) : List (Nat × Rule) := r.blocks.flatMap RuleBlock.numbered

/-- The blocks whose scope holds a canonical path. -/
def blocksFor (r : Rulebook) (path : Text) : List RuleBlock := r.blocks.filter (·.appliesTo path)

/-- The rules whose block's scope holds a canonical path, with their numbers. -/
def rulesFor (r : Rulebook) (path : Text) : List (Nat × Rule) :=
  (r.blocksFor path).flatMap RuleBlock.numbered

/-- The counts of a rulebook. -/
def stats (r : Rulebook) : RulebookCounts where
  blocks := r.blocks.length
  rules := r.size
  negated := (r.rules.filter (·.2.negated)).length
  scopes := r.byScope.length

/-- The record of adding a block. A source without a name counts as none. -/
def addLog (block : RuleBlock) : LogRecord :=
  let origin :=
    match block.source with
    | none | some [] => Text.lit "<content>"
    | some source => source
  { level := .debug
    component := Text.lit "ignorewalk.ignore.registry"
    message := Text.lit "Registered " ++ Text.ofNat block.rules.length ++ Text.lit " rules for "
      ++ block.scope ++ Text.lit " from " ++ origin
    context := [] }

end Rulebook

end TreeSieve

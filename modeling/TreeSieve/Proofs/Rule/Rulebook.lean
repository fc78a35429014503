import Mathlib.Data.List.Flatten
import TreeSieve.Proofs.Path.Rooted
import TreeSieve.Rule.Rulebook
import TreeSieve.Rule.Verdict

/-!
# The rulebook as a list of numbered rules

* `Rulebook.IsNumbered` says that the numbers of the rules are their places;
  `Rulebook.IsNumbered.add` says that adding a block keeps this.
* `Rulebook.rulesFor_append` and `Rulebook.rulesFor_of_outside` tell what further blocks do to the
  rules that hold for a path.
* `Verdict.deciding_eq_some_iff` places the deciding rule among the rules: no later one matches.
-/

namespace TreeSieve

/-! ### Numbers -/

theorem RuleBlock.map_fst_numbered (b : RuleBlock) :
    b.numbered.map (·.1) = List.range' b.start b.rules.length := by
  rw [numbered, List.map_map]
  exact List.zipIdx_map_snd b.start b.rules

theorem RuleBlock.map_snd_numbered (b : RuleBlock) : b.numbered.map (·.2) = b.rules := by
  rw [numbered, List.map_map]
  exact List.zipIdx_map_fst b.start b.rules

theorem RuleBlock.mem_of_mem_numbered {b : RuleBlock} {entry : Nat × Rule}
    (h : entry ∈ b.numbered) : entry.2 ∈ b.rules := by
  rw [← b.map_snd_numbered]
  exact List.mem_map_of_mem h

namespace Rulebook

theorem size_add (r : Rulebook) (scope : Text) (rules : List Rule) (source : Option Text) :
    (r.add scope rules source).size = r.size + rules.length := rfl

theorem length_rules (r : Rulebook) : r.rules.length = r.size := by
  rw [Rulebook.rules, size_eq, List.length_flatMap, List.length_flatMap]
  refine congrArg List.sum (List.map_congr_left fun b _ => ?_)
  rw [← b.map_snd_numbered, List.length_map]

/-- The number of each rule is its place among all rules. -/
def IsNumbered (r : Rulebook) : Prop := r.rules.map (·.1) = List.range r.size

theorem empty_isNumbered : empty.IsNumbered := rfl

theorem IsNumbered.add {r : Rulebook} (h : r.IsNumbered) (scope : Text) (rules : List Rule)
    (source : Option Text) : (r.add scope rules source).IsNumbered := by
  have hrules : (r.add scope rules source).rules
      = r.rules ++ (r.nextBlock scope rules source).numbered := by
    simp [Rulebook.rules, Rulebook.add]
  rw [IsNumbered, hrules, size_add, List.map_append, h, RuleBlock.map_fst_numbered, nextBlock,
    List.range_eq_range', List.range_eq_range', ← List.range'_append_1, Nat.zero_add]

/-- The rules that hold for a path stand in the order of their numbers. -/
theorem IsNumbered.pairwise_rulesFor {r : Rulebook} (h : r.IsNumbered) (path : Text) :
    (r.rulesFor path).Pairwise fun a b => a.1 < b.1 := by
  have hall : r.rules.Pairwise fun a b => a.1 < b.1 := by
    have hnumbers : (r.rules.map (·.1)).Pairwise (· < ·) := by
      rw [h]
      exact List.pairwise_lt_range
    exact List.pairwise_map.mp hnumbers
  have hsub : (r.rulesFor path).Sublist r.rules :=
    List.Sublist.flatMap List.filter_sublist RuleBlock.numbered
  exact hall.sublist hsub

theorem mem_rulesFor {r : Rulebook} {path : Text} {entry : Nat × Rule} :
    entry ∈ r.rulesFor path ↔ ∃ b ∈ r.blocks, b.appliesTo path = true ∧ entry ∈ b.numbered := by
  simp only [rulesFor, blocksFor, List.mem_flatMap, List.mem_filter, and_assoc]

/-! ### Further blocks -/

theorem rulesFor_append {r r' : Rulebook} {more : List RuleBlock}
    (h : r'.blocks = r.blocks ++ more) (path : Text) :
    r'.rulesFor path
      = r.rulesFor path ++ (more.filter (·.appliesTo path)).flatMap RuleBlock.numbered := by
  rw [rulesFor, blocksFor, h, List.filter_append, List.flatMap_append]
  rfl

/-- Blocks for other directories leave the rules for a path as they are. -/
theorem rulesFor_of_outside {r r' : Rulebook} {more : List RuleBlock}
    (h : r'.blocks = r.blocks ++ more) {path : Text}
    (hout : ∀ b ∈ more, b.appliesTo path = false) : r'.rulesFor path = r.rulesFor path := by
  have hnone : more.filter (·.appliesTo path) = [] :=
    List.filter_eq_nil_iff.mpr fun b hb => by simp [hout b hb]
  rw [rulesFor_append h, hnone, List.flatMap_nil, List.append_nil]

/-- A block without rules holds for no path. -/
theorem rulesFor_add_nil (r : Rulebook) (scope : Text) (source : Option Text)
    (path : Text) : (r.add scope [] source).rulesFor path = r.rulesFor path := by
  have hblocks : (r.add scope [] source).blocks = r.blocks ++ [r.nextBlock scope [] source] := rfl
  have hnone : ([r.nextBlock scope [] source].filter (·.appliesTo path)).flatMap
      RuleBlock.numbered = [] := by
    rw [List.flatMap_eq_nil_iff]
    intro b hb
    rw [List.mem_singleton.mp (List.mem_of_mem_filter hb)]
    rfl
  rw [rulesFor_append hblocks, hnone, List.append_nil]

/-- If the same blocks of a rulebook apply to two paths then the same rules hold for them. -/
theorem rulesFor_congr {r : Rulebook} {path other : Text}
    (h : ∀ b ∈ r.blocks, b.appliesTo path = b.appliesTo other) :
    r.rulesFor path = r.rulesFor other := by
  rw [rulesFor, rulesFor, blocksFor, blocksFor, List.filter_congr h]

end Rulebook

/-! ### The deciding rule -/

namespace Verdict

/-- The deciding rule matches the path, and no later rule does. -/
theorem deciding_eq_some_iff {rules : List (Nat × Rule)} {path : Text} {isDirectory : Bool}
    {entry : Nat × Rule} :
    (ofRules rules path isDirectory).deciding = some entry ↔
      entry.2.covers path isDirectory = true ∧ ∃ earlier later, rules = earlier ++ entry :: later ∧
        ∀ other ∈ later, other.2.covers path isDirectory = false := by
  rw [ofRules, List.find?_eq_some_iff_append]
  refine and_congr Iff.rfl ⟨?_, ?_⟩
  · rintro ⟨later, earlier, hsplit, hnone⟩
    refine ⟨earlier.reverse, later.reverse, ?_, ?_⟩
    · rw [← List.reverse_reverse rules, hsplit]
      simp
    · intro other hother
      simpa using hnone other (List.mem_reverse.mp hother)
  · rintro ⟨earlier, later, rfl, hnone⟩
    refine ⟨later.reverse, earlier.reverse, by simp, ?_⟩
    intro other hother
    simp [hnone other (List.mem_reverse.mp hother)]

theorem deciding_eq_none_iff {rules : List (Nat × Rule)} {path : Text} {isDirectory : Bool} :
    (ofRules rules path isDirectory).deciding = none ↔
      ∀ entry ∈ rules, entry.2.covers path isDirectory = false := by
  rw [ofRules, List.find?_eq_none]
  refine ⟨fun h entry he => ?_, fun h entry he => ?_⟩
  · simpa using h entry (List.mem_reverse.mpr he)
  · simp [h entry (List.mem_reverse.mp he)]

/-- A path is ignored if a rule that is not negated matches it and all later rules that match it
are not negated either. -/
theorem ignored_of_later {rules : List (Nat × Rule)} {path : Text} {isDirectory : Bool}
    {earlier later : List (Nat × Rule)} {entry : Nat × Rule}
    (hsplit : rules = earlier ++ entry :: later) (hcov : entry.2.covers path isDirectory = true)
    (hneg : entry.2.negated = false)
    (hlater : ∀ other ∈ later, other.2.covers path isDirectory = true → other.2.negated = false) :
    (ofRules rules path isDirectory).ignored = true := by
  cases hd : (ofRules rules path isDirectory).deciding with
  | none =>
    have hno := deciding_eq_none_iff.mp hd entry (by simp [hsplit])
    rw [hno] at hcov
    exact Bool.noConfusion hcov
  | some found =>
    obtain ⟨hfound, earlier', later', hsplit', hnone⟩ := deciding_eq_some_iff.mp hd
    have hmem : found ∈ entry :: later := by
      -- `entry` matches, so it does not stand behind the last match
      rw [hsplit] at hsplit'
      rcases List.append_eq_append_iff.mp hsplit' with ⟨mid, -, hmid⟩ | ⟨mid, -, hmid⟩
      · rw [hmid]
        simp
      · cases mid with
        | nil => simp [show entry :: later = found :: later' from hmid.symm]
        | cons first rest =>
          have hin : entry ∈ later' := by
            have hcons := List.cons.inj (hmid : found :: later' = first :: (rest ++ entry :: later))
            rw [hcons.2]
            simp
          rw [hnone entry hin] at hcov
          exact Bool.noConfusion hcov
    rw [ignored, hd]
    rcases List.mem_cons.mp hmem with rfl | hin
    · simp [hneg]
    · simp [hlater found hin hfound]

end Verdict

end TreeSieve

import TreeSieve.Proofs.Path.Below
import TreeSieve.Proofs.Sieve.Built

/-!
# Pruning loses nothing

A directory that is not looked into holds nothing that the rules keep: the rule that ignores the
directory covers all that is below it, and a later negated rule that could take something back
would have been possible there.

* `Sieve.appliesTo_below` says that the blocks for a directory are those for everything below it, as
  long as no ignore file from there is known.
* `Sieve.enters_eq_false_iff` says which directories are pruned.
* `Sieve.pruned_isIgnored` says that what is below a pruned directory is ignored.
-/

namespace TreeSieve

namespace Sieve

/-- Whether no block of a sieve is for a directory strictly below the given one. -/
def KnowsNothingBelow (s : Sieve) (directory : Text) : Prop :=
  ∀ b ∈ s.rulebook.blocks, inScope b.scope (canonical directory) = true →
    b.scope = canonical directory

/-- A block applies to a path below a directory exactly if it applies to the directory, unless it is
for something below that. -/
theorem appliesTo_below {d p : Path} (hd : d.IsRooted) (hp : p.IsRooted) (hds : d.start = .root)
    (hps : p.start = .root) (hbelow : d.parts <+: p.parts) {b : RuleBlock}
    (hscope : inScope b.scope (canonical d.toText) = true → b.scope = canonical d.toText) :
    b.appliesTo (canonical p.toText) = b.appliesTo (canonical d.toText) := by
  obtain ⟨more, hmore⟩ := hbelow
  rw [RuleBlock.appliesTo, RuleBlock.appliesTo, Bool.eq_iff_iff]
  constructor
  · intro h
    obtain ⟨front, back, hsplit, hstem⟩ := Path.scopeStem_of_inScope hp hps h
    have hfront : front <+: d.parts := by
      rcases List.prefix_or_prefix_of_prefix ⟨back, hsplit.symm⟩ ⟨more, hmore⟩ with
        hle | ⟨rest, hrest⟩
      · exact hle
      · -- a scope that the directory leads to is the directory itself
        rcases eq_or_ne rest [] with rfl | hne
        · rw [List.append_nil] at hrest
          exact hrest ▸ List.prefix_refl _
        · have hin : inScope b.scope (canonical d.toText) = true := by
            obtain ⟨name, rest, rfl⟩ := List.exists_cons_of_ne_nil hne
            obtain ⟨tail, htail, -⟩ := Text.dropEndWhile_append (· == '/') b.scope
            rw [inScope, Bool.or_eq_true, List.isPrefixOf_iff_prefix, Path.scopeStem_root hd hds]
            refine Or.inr ⟨name ++ Path.trail rest ++ tail, ?_⟩
            rw [htail]
            rw [scopeStem, ← hrest, Path.trail_append, Path.trail_cons] at hstem
            rw [hstem]
            simp
          rw [hscope hin, Path.scopeStem_root hd hds] at hstem
          have hnames : ∀ name ∈ front, '/' ∉ name := fun name hn =>
            (hp.names name (hsplit ▸ List.mem_append_left back hn)).slash_not_mem
          have hslash := fun name hn => (hd.names name hn).slash_not_mem
          have hsame := Path.trail_inj hslash hnames hstem
          exact hsame ▸ List.prefix_refl _
    obtain ⟨rest, hrest⟩ := hfront
    exact Path.inScope_of_stem hd hds hrest.symm hstem
  · intro h
    obtain ⟨front, back, hsplit, hstem⟩ := Path.scopeStem_of_inScope hd hds h
    exact Path.inScope_of_stem hp hps (by rw [← hmore, hsplit, List.append_assoc]) hstem

/-- A directory is pruned if the deciding rule is not negated and no later negated rule could cover
anything below the directory. -/
theorem enters_eq_false_iff {s : Sieve} {directory : Text} :
    (s.entering directory).enters = false ↔
      ∃ entry : Nat × Rule, (s.verdict directory true).deciding = some entry ∧
        entry.2.negated = false ∧ ∀ other ∈ s.rulesFor directory, entry.1 < other.1 →
          other.2.negated = true → other.2.mayCoverBelow (canonical directory) = false := by
  rw [entering, enteringAfter]
  cases (s.verdict directory true).deciding with
  | none => simp [Entering.enters]
  | some entry =>
    obtain ⟨number, deciding⟩ := entry
    cases hneg : deciding.negated with
    | true => simp [Entering.enters, hneg]
    | false =>
      simp only [hneg, Bool.false_eq_true, if_false]
      cases hfind : (s.rulesFor directory).find? (fun other => decide (number < other.1) &&
          other.2.negated && other.2.mayCoverBelow (canonical directory)) with
      | none =>
        refine iff_of_true rfl ⟨(number, deciding), rfl, hneg, ?_⟩
        intro other hother hlater hnegated
        have hno := List.find?_eq_none.mp hfind other hother
        simpa [hlater, hnegated] using hno
      | some found =>
        have hfound := List.find?_some hfind
        simp only [Bool.and_eq_true, decide_eq_true_eq] at hfound
        obtain ⟨⟨hlater, hnegated⟩, hmay⟩ := hfound
        refine iff_of_false Bool.noConfusion ?_
        rintro ⟨entry, hentry, -, hnone⟩
        obtain rfl := Option.some.inj hentry
        rw [hnone found (List.mem_of_find?_eq_some hfind) hlater hnegated] at hmay
        exact Bool.noConfusion hmay

/-- A rule that holds for a path stands in a block, comes from a line for some scope, and has for
the stem of its scope the trail of the first components of the path. -/
theorem Sound.exists_scope {s : Sieve} (h : s.Sound) {p : Path} (hp : p.IsRooted)
    (hs : p.start = .root) {entry : Nat × Rule}
    (hentry : entry ∈ s.rulebook.rulesFor (canonical p.toText)) :
    ∃ b ∈ s.rulebook.blocks, entry.2 ∈ b.rules ∧ (∃ scope, entry.2.ComesFrom scope) ∧
      ∃ front back, p.parts = front ++ back ∧ scopeStem entry.2.scope = Path.trail front := by
  obtain ⟨b, hb, happlies, hmem⟩ := Rulebook.mem_rulesFor.mp hentry
  have hrule := RuleBlock.mem_of_mem_numbered hmem
  obtain ⟨scope, hfrom, hscope⟩ := h.rules b hb entry.2 hrule
  obtain ⟨-, -, -, -, -, -, hruleScope⟩ := hfrom.exists_read
  rw [RuleBlock.appliesTo, hscope, ← hruleScope] at happlies
  exact ⟨b, hb, hrule, ⟨scope, hfrom⟩, Path.scopeStem_of_inScope hp hs happlies⟩

/-- If a directory is pruned, and no rules are known from below it, then the rules without brackets
ignore everything below it. -/
theorem Sound.isIgnored_below {s : Sieve} (h : s.Sound)
    (hbrackets : ∀ b ∈ s.rulebook.blocks, ∀ rule ∈ b.rules, '[' ∉ rule.pattern)
    {d p : Path} (hd : d.IsRooted) (hp : p.IsRooted) (hds : d.start = .root)
    (hps : p.start = .root) {more : List Text} (hmore : more ≠ [])
    (hbelow : p.parts = d.parts ++ more) {directory path : Text}
    (hdirectory : canonical directory = canonical d.toText)
    (hpath : canonical path = canonical p.toText) (hscopes : s.KnowsNothingBelow directory)
    (hpruned : (s.entering directory).enters = false) (isDirectory : Bool) :
    s.isIgnored path isDirectory = true := by
  obtain ⟨entry, hdeciding, hneg, hlater⟩ := enters_eq_false_iff.mp hpruned
  have hsame : s.rulesFor path = s.rulesFor directory := by
    rw [rulesFor, rulesFor, hdirectory, hpath]
    refine Rulebook.rulesFor_congr fun b hb => ?_
    refine appliesTo_below hd hp hds hps ⟨more, hbelow.symm⟩ fun hin => ?_
    exact hdirectory ▸ hscopes b hb (hdirectory ▸ hin)
  rw [verdict, Verdict.deciding_eq_some_iff] at hdeciding
  obtain ⟨hcovers, earlier, later, hsplit, hnone⟩ := hdeciding
  have hrulesFor : s.rulesFor directory = s.rulebook.rulesFor (canonical d.toText) := by
    rw [rulesFor, hdirectory]
  have hpairwise := h.numbered.pairwise_rulesFor (canonical d.toText)
  rw [← hrulesFor, hsplit, List.pairwise_append] at hpairwise
  have hnumbers : ∀ other ∈ later, entry.1 < other.1 := (List.pairwise_cons.mp hpairwise.2.1).1
  rw [hdirectory] at hcovers hnone
  rw [isIgnored, verdict, hsame, hpath]
  refine Verdict.ignored_of_later hsplit ?_ hneg ?_
  · have hentry : entry ∈ s.rulebook.rulesFor (canonical d.toText) := by
      rw [← hrulesFor, hsplit]
      simp
    obtain ⟨b, hb, hrule, ⟨scope, hfrom⟩, front, back, hparts, hstem⟩ :=
      h.exists_scope hd hds hentry
    exact Rule.covers_below hfrom (hbrackets b hb entry.2 hrule) hd hp hds hps hparts hstem hmore
      hbelow hcovers isDirectory
  · -- a later negated rule that covers the path would have kept the directory open
    intro other hother hcoversPath
    rw [← Bool.not_eq_true]
    intro hnegated
    have hentry : other ∈ s.rulesFor directory := by
      rw [hsplit]
      exact List.mem_append_right _ (List.mem_cons_of_mem _ hother)
    obtain ⟨b, hb, hrule, ⟨scope, hfrom⟩, front, back, hparts, hstem⟩ :=
      h.exists_scope hd hds (hrulesFor ▸ hentry)
    have hmay := Rule.mayCoverBelow_of_covers hfrom (hbrackets b hb other.2 hrule) hd hp hds hps
      hparts hstem hmore hbelow hcoversPath (hnone other hother)
    rw [← hdirectory, hlater other hentry (hnumbers other hother) hnegated] at hmay
    exact Bool.noConfusion hmay

/-- **Pruning is sound.** If a sieve, built of texts and files whose patterns hold no brackets, does
not have a directory looked into, and knows no rules from below it, then everything strictly below
the directory is ignored, as a directory and as anything else. -/
theorem pruned_isIgnored {s : Sieve} (hs : s.IsBuilt)
    (hbrackets : ∀ b ∈ s.rulebook.blocks, ∀ rule ∈ b.rules, '[' ∉ rule.pattern)
    {directory path : Text} (hdirectory : Path.startOf directory = .root)
    (hscopes : s.KnowsNothingBelow directory) (hpruned : (s.entering directory).enters = false)
    (hbelow : (Path.ofText path).collapse.isBelow (Path.ofText directory).collapse = true)
    (hne : (Path.ofText path).collapse ≠ (Path.ofText directory).collapse) (isDirectory : Bool) :
    s.isIgnored path isDirectory = true := by
  obtain ⟨hstart, more, hmore⟩ := Path.isBelow_iff.mp hbelow
  have hpathStart : Path.startOf path = .root := hstart.trans hdirectory
  have hdirectoryAbs : Path.startOf directory ≠ .current := by rw [hdirectory]; decide
  have hpathAbs : Path.startOf path ≠ .current := by rw [hpathStart]; decide
  have hmoreNe : more ≠ [] := by
    rintro rfl
    rw [List.append_nil] at hmore
    exact hne (by rw [Path.mk.injEq]; exact ⟨hstart, hmore.symm⟩)
  exact hs.sound.isIgnored_below hbrackets (Path.collapse_ofText_isRooted hdirectoryAbs)
    (Path.collapse_ofText_isRooted hpathAbs) hdirectory hpathStart hmoreNe hmore.symm
    (Path.canonical_collapse hdirectoryAbs).symm (Path.canonical_collapse hpathAbs).symm hscopes
    hpruned isDirectory

/-- An ignored directory with a negated rule for another one. -/
def otherReopened : Sieve :=
  (empty.insert (Text.lit "/r") (.text (Text.lit "/a/\n!/b/*.c\n")) none).2

/-- The negated rule does not keep the ignored directory open, and a file in it is ignored. -/
theorem pruned_isIgnored_otherReopened :
    (otherReopened.entering (Text.lit "/r/a")).enters = false ∧
      otherReopened.isIgnored (Text.lit "/r/a/f.c") false = true := by
  have hpruned : (otherReopened.entering (Text.lit "/r/a")).enters = false := by decide +kernel
  have hbrackets : ∀ b ∈ otherReopened.rulebook.blocks, ∀ rule ∈ b.rules, '[' ∉ rule.pattern := by
    decide +kernel
  have hscopes : otherReopened.KnowsNothingBelow (Text.lit "/r/a") := by
    unfold KnowsNothingBelow
    decide +kernel
  exact ⟨hpruned, pruned_isIgnored (.insert .empty _ _ _) hbrackets rfl hscopes hpruned
    (by decide +kernel) (by decide +kernel) false⟩

end Sieve

end TreeSieve

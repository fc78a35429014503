import Mathlib.Data.Finset.Card
import TreeSieve.Proofs.Sieve.Built
import TreeSieve.Proofs.Walk.Step

/-!
# One list of all rules

A sieve keeps blocks of rules, and asks for a path the blocks whose scope holds it. Everything it
answers can be read off one plain list: the rules of all files in the order in which the files were
taken in.

* `Sieve.takeInAll` takes in texts and files one after the other, in any order and for any scopes.
* `Sieve.TakesIn` is what the sieve has gained after that; `Sieve.takeInAll_takesIn` says so by
  induction on the calls.
* `Rulebook.rulesFor_eq_filter` reads the blocks that hold for a path as a filter on rules.
* `Sieve.takeInAll_faithful` says of all calls together what the numbers, the counts and the
  verdicts are.
-/

namespace TreeSieve

/-! ### Counting different texts -/

theorem length_eraseDups {α : Type} [BEq α] [LawfulBEq α] [DecidableEq α] (l : List α) :
    l.eraseDups.length = l.toFinset.card := by
  have hsame : l.toFinset = l.eraseDups.toFinset := by
    ext a
    simp [List.mem_eraseDups]
  rw [hsame, List.toFinset_card_of_nodup (nodup_eraseDups l)]

/-! ### The rules that hold for a path -/

/-- A rule that covers a path applies to it. -/
theorem Rule.appliesTo_of_covers {r : Rule} {path : Text} {isDirectory : Bool}
    (h : r.covers path isDirectory = true) : r.appliesTo path = true := by
  rw [Rule.appliesTo]
  by_contra hout
  rw [Rule.covers, relativePath?, if_neg hout] at h
  exact Bool.noConfusion h

namespace RuleBlock

/-- A block all of whose rules have its scope. -/
def IsUniform (b : RuleBlock) : Prop := ∀ rule ∈ b.rules, rule.scope = b.scope

theorem IsUniform.filter_numbered {b : RuleBlock} (h : b.IsUniform) (path : Text) :
    (b.numbered.filter fun entry => entry.2.appliesTo path)
      = if b.appliesTo path then b.numbered else [] := by
  have hsame : ∀ entry ∈ b.numbered, entry.2.appliesTo path = b.appliesTo path := by
    intro entry hentry
    rw [Rule.appliesTo, h entry.2 (mem_of_mem_numbered hentry), appliesTo]
  rw [List.filter_congr hsame]
  cases b.appliesTo path with
  | true => simp
  | false => simp

end RuleBlock

namespace Rulebook

/-- The rules of the blocks that hold for a path are, of all rules, those that hold for it. -/
theorem rulesFor_eq_filter {r : Rulebook} (h : ∀ b ∈ r.blocks, b.IsUniform) (path : Text) :
    r.rulesFor path = r.rules.filter fun entry => entry.2.appliesTo path := by
  rw [rulesFor, blocksFor, rules]
  generalize r.blocks = blocks at h ⊢
  induction blocks with
  | nil => rfl
  | cons b rest ih =>
    have hb := h b List.mem_cons_self
    have hrest := ih fun other hother => h other (List.mem_cons_of_mem b hother)
    rw [List.flatMap_cons, List.filter_append, hb.filter_numbered, ← hrest, List.filter_cons]
    cases b.appliesTo path with
    | true => rfl
    | false => rfl

/-- There are as many scopes as different ones among those of the blocks. -/
theorem length_byScope (r : Rulebook) :
    r.byScope.length = (r.blocks.map (·.scope)).toFinset.card := by
  rw [r.byScope_eq, RuleBlock.groups, List.length_map, length_eraseDups]

/-- The numbered rules of a rulebook are the rules of its blocks in a row, each with its place from
zero on. -/
theorem IsNumbered.rules_eq_zip {r : Rulebook} (h : r.IsNumbered) {all : List Rule}
    (hall : r.blocks.flatMap (·.rules) = all) : r.rules = (List.range all.length).zip all := by
  refine List.zip_of_prod ?_ ?_
  · rw [← hall, ← r.size_eq]
    exact h
  · rw [← hall, rules, List.map_flatMap]
    exact congrArg (List.flatMap · r.blocks) (funext RuleBlock.map_snd_numbered)

end Rulebook

/-! ### The last rule that matches -/

theorem mem_range_zip {α : Type} {l : List α} {i : Nat} {a : α} :
    (i, a) ∈ (List.range l.length).zip l ↔ l[i]? = some a := by
  rw [List.mem_iff_getElem?]
  refine ⟨?_, fun h => ⟨i, ?_⟩⟩
  · rintro ⟨place, hplace⟩
    obtain ⟨hnumber, ha⟩ := List.getElem?_zip_eq_some.mp hplace
    obtain ⟨hlt, hnumber⟩ := List.getElem?_eq_some_iff.mp hnumber
    rw [List.getElem_range] at hnumber
    rwa [show place = i from hnumber] at ha
  · have hlt : i < l.length := (List.getElem?_eq_some_iff.mp h).1
    exact List.getElem?_zip_eq_some.mpr ⟨List.getElem?_range hlt, h⟩

namespace Verdict

/-- Of rules in the order of their numbers, the one with the greatest number that matches decides.
-/
theorem deciding_eq_some_of_pairwise {rules : List (Nat × Rule)} {path : Text} {isDirectory : Bool}
    (hsorted : rules.Pairwise fun a b => a.1 < b.1) {entry : Nat × Rule} :
    (ofRules rules path isDirectory).deciding = some entry ↔
      entry ∈ rules ∧ entry.2.covers path isDirectory = true ∧
        ∀ other ∈ rules, entry.1 < other.1 → other.2.covers path isDirectory = false := by
  rw [deciding_eq_some_iff]
  refine ⟨?_, ?_⟩
  · rintro ⟨hcov, earlier, later, rfl, hnone⟩
    refine ⟨by simp, hcov, fun other hother hlt => ?_⟩
    obtain ⟨-, -, hbefore⟩ := List.pairwise_append.mp hsorted
    rcases List.mem_append.mp hother with hearlier | hlater
    · have hless := hbefore other hearlier entry List.mem_cons_self
      omega
    · rcases List.mem_cons.mp hlater with rfl | hlater
      · exact absurd hlt (Nat.lt_irrefl _)
      · exact hnone other hlater
  · rintro ⟨hmem, hcov, hnone⟩
    obtain ⟨earlier, later, rfl⟩ := List.append_of_mem hmem
    obtain ⟨-, hrest, -⟩ := List.pairwise_append.mp hsorted
    refine ⟨hcov, earlier, later, rfl, fun other hother => hnone other (by simp [hother]) ?_⟩
    exact (List.pairwise_cons.mp hrest).1 other hother

end Verdict

namespace Sieve

/-! ### Taking in one file after the other -/

/-- A call that takes in an ignore file: its text, or the path of the file. -/
inductive Intake where
  | text (scope : Text) (content : Content) (source : Option Text)
  | file (path : Text)

/-- The canonical path of the directory that the rules of a call hold for. -/
def Intake.scope : Intake → Text
  | text scope _ _ => canonical scope
  | file path => canonical (Path.ofText path).parent.toText

/-- Takes in what one call asks for. -/
def takeIn {m : Type → Type} [Monad m] (fs : FileSystem m) (s : Sieve) :
    Intake → m (IgnoreFile × Sieve)
  | .text scope content source => pure (s.insert scope content source)
  | .file path => s.load fs path

/-- Takes in what all calls ask for, one after the other. -/
def takeInAll {m : Type → Type} [Monad m] (fs : FileSystem m) :
    Sieve → List Intake → m (List IgnoreFile × Sieve)
  | s, [] => pure ([], s)
  | s, call :: rest => do
    let (f, s) ← s.takeIn fs call
    let (files, s) ← takeInAll fs s rest
    return (f :: files, s)

/-- A sieve that has gained a block of rules for each of some files, in this order. -/
structure TakesIn (s : Sieve) (scopes : List Text) (files : List IgnoreFile) (s' : Sieve) :
    Prop where
  sound : s.Sound → s'.Sound
  blocks : ∃ gained, s'.rulebook.blocks = s.rulebook.blocks ++ gained ∧
    gained.map (·.scope) = scopes ∧ gained.map (·.rules) = files.map (·.rules)

theorem TakesIn.refl (s : Sieve) : s.TakesIn [] [] s := ⟨id, [], by simp, rfl, rfl⟩

theorem TakesIn.trans {s s' s'' : Sieve} {scopes scopes' : List Text}
    {files files' : List IgnoreFile} (h : s.TakesIn scopes files s')
    (h' : s'.TakesIn scopes' files' s'') : s.TakesIn (scopes ++ scopes') (files ++ files') s'' := by
  obtain ⟨gained, hblocks, hscopes, hrules⟩ := h.blocks
  obtain ⟨gained', hblocks', hscopes', hrules'⟩ := h'.blocks
  refine ⟨h'.sound ∘ h.sound, gained ++ gained', ?_, ?_, ?_⟩
  · rw [hblocks', hblocks, List.append_assoc]
  · rw [List.map_append, hscopes, hscopes']
  · rw [List.map_append, List.map_append, hrules, hrules']

theorem register_takesIn (s : Sieve) {f : IgnoreFile} (hf : f.IsRead) (cache : MatcherCache) :
    s.TakesIn [canonical f.scope] [f] (s.register f cache) :=
  ⟨fun h => h.register hf cache, [s.rulebook.nextBlock f.scope f.rules f.source], rfl, rfl, rfl⟩

section Calls

variable {m : Type → Type} [Monad m] [AlwaysMonad m] (fs : FileSystem m)

theorem takeIn_takesIn (s : Sieve) (call : Intake) :
    Always (s.takeIn fs call) fun result => s.TakesIn [call.scope] [result.1] result.2 := by
  cases call with
  | text scope content source =>
    exact always_pure (s.register_takesIn (IgnoreFile.parse_isRead s.cache scope content source) _)
  | file path =>
    show Always (s.load fs path) _
    unfold load
    refine always_bind_of (IgnoreFile.load_reads fs s.cache path) ?_
    rintro ⟨f, cache⟩ ⟨hf, hscope⟩
    refine always_pure ?_
    rw [Intake.scope, ← hscope]
    exact s.register_takesIn hf cache

/-- Whatever the file system answers, each call adds one block, and nothing else changes. -/
theorem takeInAll_takesIn (s : Sieve) (calls : List Intake) :
    Always (takeInAll fs s calls) fun result =>
      s.TakesIn (calls.map (·.scope)) result.1 result.2 := by
  induction calls generalizing s with
  | nil => exact always_pure (TakesIn.refl s)
  | cons call rest ih =>
    refine always_bind_of (takeIn_takesIn fs s call) ?_
    rintro ⟨f, s'⟩ hone
    refine always_bind_of (ih s') ?_
    rintro ⟨files, s''⟩ hrest
    exact always_pure (hone.trans hrest)

end Calls

/-! ### What a sieve answers -/

/-- The last of some rules that matches a canonical path, and its place. -/
def IsLastMatch (all : List Rule) (path : Text) (isDirectory : Bool) (i : Nat) (rule : Rule) :
    Prop :=
  all[i]? = some rule ∧ rule.covers path isDirectory = true ∧
    ∀ j later, i < j → all[j]? = some later → later.covers path isDirectory = false

/-- A sieve whose numbers, counts and verdicts are those of one plain list of rules. -/
structure AnswersFrom (s : Sieve) (all : List Rule) : Prop where
  /-- The number of a rule is its place in the list. -/
  numbers : s.rulebook.rules = (List.range all.length).zip all
  /-- The rules that hold for a path are those whose scope holds the path. -/
  holding : ∀ path, s.rulebook.rulesFor path
    = s.rulebook.rules.filter fun entry => entry.2.appliesTo path
  /-- No rule decides about a path that none matches. -/
  undecided : ∀ path isDirectory, (s.verdict path isDirectory).deciding = none ↔
    ∀ rule ∈ all, rule.covers (canonical path) isDirectory = false
  /-- Otherwise the last rule that matches decides. -/
  decided : ∀ path isDirectory i rule, (s.verdict path isDirectory).deciding = some (i, rule) ↔
    IsLastMatch all (canonical path) isDirectory i rule
  /-- A path is ignored if this rule is not negated. -/
  ignored : ∀ path isDirectory, s.isIgnored path isDirectory = true ↔
    ∃ i rule, IsLastMatch all (canonical path) isDirectory i rule ∧ rule.negated = false

/-- The rules of each block have the scope of the block. -/
theorem Sound.isUniform {s : Sieve} (h : s.Sound) : ∀ b ∈ s.rulebook.blocks, b.IsUniform := by
  intro b hb rule hrule
  obtain ⟨scope, ⟨text, line, source, hcompile⟩, hscope⟩ := h.rules b hb rule hrule
  obtain ⟨-, -, -, -, -, hrulescope⟩ := Rule.exists_read_of_compile hcompile
  rw [hrulescope, hscope]

section Answers

variable {s : Sieve} (h : s.Sound) {all : List Rule}
  (hall : s.rulebook.blocks.flatMap (·.rules) = all) (path : Text) (isDirectory : Bool)

include h hall

/-- A rule that covers a path is among those that hold for it with the number `i` exactly if it is
the rule with the number `i` of all. -/
theorem Sound.mem_rulesFor_iff {i : Nat} {rule : Rule}
    (hcov : rule.covers (canonical path) isDirectory = true) :
    (i, rule) ∈ s.rulesFor path ↔ all[i]? = some rule := by
  rw [rulesFor, Rulebook.rulesFor_eq_filter h.isUniform, List.mem_filter,
    h.numbered.rules_eq_zip hall, mem_range_zip]
  exact and_iff_left (Rule.appliesTo_of_covers hcov)

theorem Sound.deciding_eq_none_iff : (s.verdict path isDirectory).deciding = none ↔
    ∀ rule ∈ all, rule.covers (canonical path) isDirectory = false := by
  rw [verdict, Verdict.deciding_eq_none_iff]
  refine ⟨fun hnone rule hrule => ?_, fun hnone entry hentry => ?_⟩
  · obtain ⟨i, hi⟩ := List.mem_iff_getElem?.mp hrule
    refine eq_false_of_ne_true fun hcov => ?_
    have hin : (i, rule) ∈ s.rulesFor path := (h.mem_rulesFor_iff hall path isDirectory hcov).mpr hi
    rw [hnone (i, rule) hin] at hcov
    exact Bool.noConfusion hcov
  · refine eq_false_of_ne_true fun hcov => ?_
    have hplace := (h.mem_rulesFor_iff hall path isDirectory hcov).mp hentry
    rw [hnone entry.2 (List.mem_of_getElem? hplace)] at hcov
    exact Bool.noConfusion hcov

theorem Sound.deciding_eq_some_iff (i : Nat) (rule : Rule) :
    (s.verdict path isDirectory).deciding = some (i, rule) ↔
      IsLastMatch all (canonical path) isDirectory i rule := by
  have hsorted : (s.rulesFor path).Pairwise fun a b => a.1 < b.1 :=
    h.numbered.pairwise_rulesFor (canonical path)
  rw [verdict, Verdict.deciding_eq_some_of_pairwise hsorted]
  refine ⟨?_, ?_⟩
  · rintro ⟨hin, hcov, hnone⟩
    have hplace := (h.mem_rulesFor_iff hall path isDirectory hcov).mp hin
    refine ⟨hplace, hcov, fun j later hlt hj => eq_false_of_ne_true fun hlater => ?_⟩
    have hin' := (h.mem_rulesFor_iff hall path isDirectory hlater).mpr hj
    rw [hnone (j, later) hin' hlt] at hlater
    exact Bool.noConfusion hlater
  · rintro ⟨hplace, hcov, hnone⟩
    have hin := (h.mem_rulesFor_iff hall path isDirectory hcov).mpr hplace
    refine ⟨hin, hcov, fun ⟨j, later⟩ hin' hlt => eq_false_of_ne_true fun hlater => ?_⟩
    have hj := (h.mem_rulesFor_iff hall path isDirectory hlater).mp hin'
    rw [hnone j later hlt hj] at hlater
    exact Bool.noConfusion hlater

theorem Sound.isIgnored_iff : s.isIgnored path isDirectory = true ↔
    ∃ i rule, IsLastMatch all (canonical path) isDirectory i rule ∧ rule.negated = false := by
  simp only [← h.deciding_eq_some_iff hall, isIgnored, Verdict.ignored]
  cases (s.verdict path isDirectory).deciding with
  | none => simp
  | some entry => simp [Prod.ext_iff]

/-- A sound sieve answers from the plain list of the rules of its blocks. -/
theorem Sound.answersFrom : s.AnswersFrom all where
  numbers := h.numbered.rules_eq_zip hall
  holding := Rulebook.rulesFor_eq_filter h.isUniform
  undecided := h.deciding_eq_none_iff hall
  decided := h.deciding_eq_some_iff hall
  ignored := h.isIgnored_iff hall

end Answers

theorem TakesIn.flatMap_rules {s : Sieve} {scopes : List Text} {files : List IgnoreFile}
    (h : empty.TakesIn scopes files s) :
    s.rulebook.blocks.flatMap (·.rules) = files.flatMap (·.rules) := by
  obtain ⟨gained, hblocks, -, hrules⟩ := h.blocks
  rw [hblocks, show empty.rulebook.blocks ++ gained = gained from List.nil_append gained,
    List.flatMap_def, List.flatMap_def, hrules]

theorem TakesIn.stats {s : Sieve} {scopes : List Text} {files : List IgnoreFile}
    (h : empty.TakesIn scopes files s) :
    s.rulebook.stats = ⟨scopes.length, (files.flatMap (·.rules)).length,
      (files.flatMap (·.rules)).countP (·.negated), scopes.toFinset.card⟩ := by
  have hall := h.flatMap_rules
  have hnegated : s.rulebook.rules.map (·.2) = files.flatMap (·.rules) := by
    rw [← hall, Rulebook.rules, List.map_flatMap]
    exact congrArg (List.flatMap · _) (funext RuleBlock.map_snd_numbered)
  obtain ⟨gained, hblocks, rfl, -⟩ := h.blocks
  replace hblocks : s.rulebook.blocks = gained := hblocks
  rw [Rulebook.stats, Rulebook.length_byScope, Rulebook.size_eq, hall, hblocks, ← hnegated,
    List.countP_map, List.countP_eq_length_filter, List.length_map, List.length_map,
    Function.comp_def]

theorem TakesIn.prefix_rules {s s' : Sieve} {scopes : List Text} {files : List IgnoreFile}
    (h : s.TakesIn scopes files s') : s.rulebook.rules <+: s'.rulebook.rules := by
  obtain ⟨gained, hblocks, -, -⟩ := h.blocks
  refine ⟨gained.flatMap RuleBlock.numbered, ?_⟩
  rw [Rulebook.rules, Rulebook.rules, hblocks, List.flatMap_append]

/-- **A sieve answers from one plain list of rules.** Texts and files are taken in one after the
other, whatever the file system answers; the list is that of the rules the calls gave, in the order
of the calls. The counts are those of the list and of the calls, and the numbers that have been
given stay the same when more is taken in. -/
theorem takeInAll_faithful {σ : Type} (fs : FileSystem (StateM σ)) (calls more : List Intake)
    (state : σ) :
    let taken := (takeInAll fs empty calls).run state
    let s := taken.1.2
    let all := taken.1.1.flatMap (·.rules)
    let later := ((takeInAll fs s more).run taken.2).1.2
    s.AnswersFrom all ∧
    s.rulebook.stats = ⟨calls.length, all.length, all.countP (·.negated),
      (calls.map (·.scope)).toFinset.card⟩ ∧
    s.rulebook.rules <+: later.rulebook.rules := by
  intro taken s all later
  have hfirst : empty.TakesIn (calls.map (·.scope)) taken.1.1 s :=
    takeInAll_takesIn fs empty calls state
  have hmore : s.TakesIn (more.map (·.scope)) _ later := takeInAll_takesIn fs s more taken.2
  refine ⟨(hfirst.sound empty_sound).answersFrom hfirst.flatMap_rules, ?_, hmore.prefix_rules⟩
  rw [hfirst.stats, List.length_map]

end Sieve

end TreeSieve

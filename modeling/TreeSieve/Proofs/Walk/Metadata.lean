import TreeSieve.Proofs.Sieve.Pruning
import TreeSieve.Proofs.Sieve.Written
import TreeSieve.Proofs.Walk.Ending
import TreeSieve.Proofs.Walk.Reaching
import TreeSieve.Proofs.Walk.Reentry

/-!
# The data of version control

A walk begins with a rule for the directory in which version control keeps its own data. The rule is
one among others: it holds as long as the walk goes on, but a later negated rule takes back what it
ignores.

* `exists_metadata_rule` says that the rule covers the directory and everything below it, and
  `Sieve.Sound.deciding_of_kept` what has kept a path that the first of all rules covers.
* `Walk.runFor_blocks` says that rules are never removed.
* `Walk.Yields` holds of an entry that a step gives out; `Walk.yields_of_entries` says that this
  holds of all entries that a walk has given out, and `Walk.Yields.isIgnored_eq_false` that no rules
  that are known later ignore such an entry.
* `Walk.entries_metadata` says that only a later negated rule gives out what belongs to version
  control, and `Walk.metadata_given` shows one that does.
-/

namespace TreeSieve

/-- The name of the directory that version control keeps its own data in. -/
def metadataName : Text := Text.lit ".git"

/-! ### The first rule -/

/-- A rule for a root, without brackets, whose expression matches the path of a directory behind the
root, covers this directory and everything below it. -/
theorem Rule.covers_of_prefix {r : Rule} {root : Path} (hroot : root.IsRooted)
    (hslash : root.start = .root) (hr : r.ComesFrom root.toText) (hbracket : '[' ∉ r.pattern)
    {directory names : List Text} (hne : directory ≠ [])
    (hsearch : r.matchers.exact.search (Path.reach directory) = true)
    (hn : ∀ part ∈ names, Path.IsEntryName part) (hpre : directory <+: names) {isDirectory : Bool}
    (hself : names = directory → isDirectory = true) :
    r.covers (canonical (root.descend names).toText) isDirectory = true := by
  obtain ⟨-, -, -, -, -, -, hscope⟩ := hr.exists_read
  have hstem : scopeStem r.scope = Path.trail root.parts := by
    rw [hscope, Path.scopeStem_root hroot hslash]
  obtain ⟨more, rfl⟩ := hpre
  have hd : ∀ part ∈ directory, Path.IsEntryName part :=
    fun part hp => hn part (List.mem_append_left more hp)
  have hcovers : r.covers (canonical (root.descend directory).toText) true = true :=
    (Rule.covers_canonical (hroot.descend hd) hslash rfl hstem true).mpr ⟨hne, hsearch⟩
  rcases eq_or_ne more [] with rfl | hmore
  · rw [List.append_nil] at hself ⊢
    rw [hself rfl]
    exact hcovers
  · exact Rule.covers_below hr hbracket (hroot.descend hd) (hroot.descend hn) hslash hslash rfl
      hstem hmore (List.append_assoc root.parts directory more).symm hcovers isDirectory

/-- The line that a walk begins with is one rule. It is not negated, and it covers the directory of
version control in the root and everything below it. -/
theorem exists_metadata_rule {root : Path} (hroot : root.IsRooted) (hslash : root.start = .root)
    (cache : MatcherCache) : ∃ rule,
    (IgnoreFile.parse cache root.toText (.text Walk.metadataRule) none).1.rules = [rule] ∧
      rule.negated = false ∧
      ∀ names, (∀ part ∈ names, Path.IsEntryName part) → [metadataName] <+: names →
        ∀ isDirectory, (names = [metadataName] → isDirectory = true) →
          rule.covers (canonical (root.descend names).toText) isDirectory = true := by
  obtain ⟨rule, hrules, hnegated, hcompile⟩ : ∃ rule,
      (IgnoreFile.parse MatcherCache.empty root.toText (.text Walk.metadataRule) none).1.rules
        = [rule] ∧ rule.negated = false ∧
      Rule.compile root.toText Walk.metadataRule 1 none = .ok (some rule) := ⟨_, rfl, rfl, rfl⟩
  rw [IgnoreFile.parse_eq cache MatcherCache.empty]
  refine ⟨rule, hrules, hnegated, fun names hn hpre isDirectory hself => ?_⟩
  have hbracket : '[' ∉ rule.pattern := fun hmem =>
    absurd (Rule.mem_of_mem_pattern hcompile hmem) (by decide)
  have hsearch : rule.matchers.exact.search (Path.reach [metadataName]) = true := by
    obtain ⟨read, hread, hmatchers, -⟩ := Rule.exists_read_of_compile hcompile
    have hmatches : (RuleLine.ofText? Walk.metadataRule).all (fun read =>
        (Matchers.ofGlob read.glob).toOption.all fun matchers =>
          matchers.exact.search (Path.reach [metadataName])) = true := by decide +kernel
    rw [hread, Option.all_some, hmatchers] at hmatches
    exact hmatches
  exact Rule.covers_of_prefix hroot hslash ⟨_, _, _, hcompile⟩ hbracket (by simp) hsearch hn hpre
    hself

/-- If the first of all rules covers a path and is not negated, and the path is not ignored, then a
later rule decides about it, which is negated. -/
theorem Sieve.Sound.deciding_of_kept {s : Sieve} (hs : s.Sound) {path : Text} {isDirectory : Bool}
    {first : Rule} (hfirst : (0, first) ∈ s.rulesFor path) (hnegated : first.negated = false)
    (hcovers : first.covers (canonical path) isDirectory = true)
    (hkept : s.isIgnored path isDirectory = false) :
    ∃ number rule, (s.verdict path isDirectory).deciding = some (number, rule) ∧ 0 < number ∧
      rule.negated = true := by
  cases hdeciding : (s.verdict path isDirectory).deciding with
  | none =>
    have hnone := Verdict.deciding_eq_none_iff.mp hdeciding (0, first) hfirst
    rw [hcovers] at hnone
    cases hnone
  | some entry =>
    obtain ⟨number, rule⟩ := entry
    have htaken : rule.negated = true := by
      rw [isIgnored, Verdict.ignored, hdeciding] at hkept
      simpa using hkept
    refine ⟨number, rule, rfl, ?_, htaken⟩
    obtain ⟨-, earlier, later, hsplit, hlater⟩ := Verdict.deciding_eq_some_iff.mp hdeciding
    rw [hsplit] at hfirst
    rcases List.mem_append.mp hfirst with hbefore | hafter
    · have hordered := hs.numbered.pairwise_rulesFor (canonical path)
      rw [← rulesFor, hsplit, List.pairwise_append] at hordered
      exact hordered.2.2 _ hbefore _ List.mem_cons_self
    · rcases List.mem_cons.mp hafter with hsame | hafter
      · rw [← (Prod.mk.inj hsame).2, hnegated] at htaken
        cases htaken
      · have hnot := hlater _ hafter
        rw [hcovers] at hnot
        cases hnot

namespace Walk

/-! ### Rules stay -/

section Rules

variable {m : Type → Type} [Monad m] [AlwaysMonad m]

/-- The blocks of a rulebook stay in front, in the same order, whatever a step adds to them. -/
theorem Moves.blocks {w w' : Walk} {outcome : StepOutcome} (h : w.Moves outcome w') :
    w.sieve.rulebook.blocks <+: w'.sieve.rulebook.blocks := by
  cases h with
  | finishes _ _ rulebook => rw [rulebook]
  | breaks _ _ rulebook => rw [rulebook]
  | passes _ stays => rw [stays.rulebook]; exact List.prefix_rfl
  | gives _ stays _ _ => rw [stays.rulebook]; exact List.prefix_rfl
  | withholds _ stays _ => rw [stays.rulebook]; exact List.prefix_rfl
  | opens _ opens =>
    obtain ⟨more, hblocks, -⟩ := opens.blocks
    exact ⟨more, hblocks.symm⟩

/-- The blocks of a rulebook stay in front, in the same order, whatever any number of steps adds to
them. -/
theorem runFor_blocks (fs : FileSystem m) (hfs : fs.ListsNames) (steps : Nat) :
    ∀ {w : Walk}, w.Started → Always (runFor fs steps w) fun w' =>
      w.sieve.rulebook.blocks <+: w'.sieve.rulebook.blocks := by
  induction steps with
  | zero => exact fun _ => always_pure List.prefix_rfl
  | succ steps ih =>
    intro w hw
    refine always_bind_of (step_moves fs hfs hw) ?_
    rintro ⟨outcome, w'⟩ (⟨hend, heq⟩ | ⟨w₁, hlooks, hrun, hfront, hmoves⟩)
    · obtain ⟨-, rfl⟩ := Prod.mk.inj heq
      exact ih hw
    · refine always_mono (ih (hmoves.started hfront hrun)) fun w'' h => ?_
      cases hlooks with
      | first hready =>
        -- a walk that has not begun has no rules yet
        cases hw with
        | ready _ _ rulebook =>
          rw [rulebook]
          exact List.nil_prefix
        | running hphase _ => exact absurd (hready.symm.trans hphase) (by decide)
        | ended hphase => exact absurd (hready.symm.trans hphase) (by decide)
      | later _ => exact hmoves.blocks.trans h

end Rules

/-! ### Entries that are given out -/

section Given

variable {fs : FileSystem Id}

/-- An entry that one of the next steps of a walk gives out, with the walk some steps later. -/
def Yields (fs : FileSystem Id) (w : Walk) (e : Entry) (last : Walk) : Prop :=
  ∃ before after, ((runFor fs before w).run.step fs).run.1 = .yielded e ∧
    (runFor fs after ((runFor fs before w).run.step fs).run.2).run = last

theorem Yields.of_step {w last : Walk} {e : Entry} (h : Yields fs (w.step fs).run.2 e last) :
    Yields fs w e last := by
  obtain ⟨before, after, hgiven, hlast⟩ := h
  exact ⟨before + 1, after, hgiven, hlast⟩

theorem Yields.exists_runFor {w last : Walk} {e : Entry} (h : Yields fs w e last) :
    ∃ count, (runFor fs count w).run = last := by
  obtain ⟨before, after, -, hlast⟩ := h
  exact ⟨before + (after + 1), by rw [runFor_add, runFor_succ, hlast]⟩

/-- Each entry that a walk has collected was collected before, or has been given out by one of the
steps. -/
theorem yields_of_visit (steps : Nat) : ∀ {acc out : List Entry} {w last : Walk},
    (visit fs (fun entry acc => .yield (entry :: acc)) steps acc w).run = (.ok out, last) →
    (∃ count, (runFor fs count w).run = last) ∧ ∀ e ∈ out, e ∈ acc ∨ Yields fs w e last := by
  induction steps with
  | zero =>
    intro acc out w last h
    obtain ⟨hout, hlast⟩ := Prod.mk.inj h
    exact ⟨⟨0, hlast⟩, fun e he => Or.inl (Except.ok.inj hout ▸ he)⟩
  | succ steps ih =>
    intro acc out w last h
    rcases visit_of_ok h with ⟨given, hgiven, hrest⟩ | ⟨hstep, rfl⟩
    · obtain ⟨⟨count, hcount⟩, hall⟩ := ih hrest
      refine ⟨⟨count + 1, hcount⟩, fun e he => ?_⟩
      rcases hall e he with hmem | hyields
      · rcases List.mem_append.mp hmem with hmem | hmem
        · have hyielded := StepOutcome.eq_yielded_of_mem hgiven (List.mem_reverse.mp hmem)
          exact Or.inr ⟨0, count, hyielded, hcount⟩
        · exact Or.inl hmem
      · exact Or.inr hyields.of_step
    · refine ⟨⟨1, ?_⟩, fun e he => Or.inl he⟩
      rw [runFor_succ, hstep]
      rfl

theorem yields_of_entries {w : Walk} (hphase : w.phase = .ready) {steps : Nat} {given : List Entry}
    {last : Walk} (h : (w.entries fs steps).run = (.ok given, last)) :
    ∀ e ∈ given, Yields fs w.begin e last := by
  cases steps with
  | zero =>
    intro e he
    rw [← Except.ok.inj (Prod.mk.inj h).1] at he
    exact absurd he List.not_mem_nil
  | succ steps =>
    rw [entries_of_ready fs hphase] at h
    generalize hvisit : (visit fs (fun entry acc => .yield (entry :: acc)) (steps + 1) []
      w.begin).run = result at h
    obtain ⟨answer, last'⟩ := result
    obtain ⟨hanswer, rfl⟩ := Prod.mk.inj h
    cases answer with
    | error fault => cases hanswer
    | ok out =>
      obtain rfl : out.reverse = given := Except.ok.inj hanswer
      intro e he
      exact ((yields_of_visit (steps + 1) hvisit).2 e (List.mem_reverse.mp he)).resolve_left
        List.not_mem_nil

variable (hlist : ∀ path entries, (fs.list path).run = .ok entries → IsListing entries)

include hlist

/-- What a walk has given out has names of entries, and is not ignored by the rules that are known
some steps later. -/
theorem Yields.isIgnored_eq_false {w last : Walk} {e : Entry} (h : Yields fs w e last)
    (hw : w.Started) : (∀ part ∈ e.names, Path.IsEntryName part) ∧
      last.sieve.isIgnored (w.pathOf e.names) e.stats.isDirectory = false := by
  have hfs : fs.ListsNames := fun path entries => hlist path entries
  obtain ⟨before, after, hgiven, rfl⟩ := h
  obtain ⟨hstarted, hroot⟩ :
      (runFor fs before w).run.Started ∧ (runFor fs before w).run.root = w.root :=
    runFor_started fs hfs before hw
  generalize (runFor fs before w).run = v at hgiven hstarted hroot ⊢
  have hmoves := step_moves fs hfs hstarted
  rcases hmoves with ⟨-, heq⟩ | ⟨v₁, hlooks, hrun, hfront, hmoves⟩
  · rw [show (v.step fs).run.1 = .finished from congrArg Prod.fst heq] at hgiven
    cases hgiven
  · have hconsidered : (v.step fs).run.1.considered = some (e.names, e.stats.isDirectory) := by
      rw [hgiven]
      rfl
    obtain ⟨⟨hphase, hfront', hleft⟩, -, hn, hkept, -⟩ :=
      hmoves.leftBehind_of_considered hfront hconsidered
    have hfinal := runFor_verdict fs hfs hn e.stats.isDirectory after
      (Or.inr ⟨hphase.trans hrun, hfront', hleft⟩)
    have hpath₁ : v₁.pathOf e.names = w.pathOf e.names := by
      rw [pathOf, pathOf, hlooks.root_eq, hroot]
    have hpath : (v.step fs).run.2.pathOf e.names = w.pathOf e.names := by
      rw [← hpath₁, pathOf, pathOf, hmoves.root_eq]
    refine ⟨hn, ?_⟩
    rw [← hpath, Sieve.isIgnored, show _ = _ from hfinal, hpath, ← hpath₁]
    exact hkept e hgiven

end Given

end Walk

/-! ### What is known of entries -/

/-- An entry whose look-up is what is known of it, unless it is the root. -/
structure Traversal.Knows (t : Traversal) (item : Candidate) : Prop where
  names : ∀ part ∈ item.names, Path.IsEntryName part
  stats : item.names ≠ [] → (t.files.lstat (t.pathOf item.names)).run = .ok item.stats

/-- The entries that are seen in a directory are known by their look-ups. -/
theorem Traversal.Knows.of_mem_sight {t : Traversal}
    (hlist : ∀ path entries, (t.files.list path).run = .ok entries → IsListing entries)
    {rules : List Rule} {item child : Candidate} (h : t.Knows item)
    (hchild : child ∈ (t.sight rules item).entries) : t.Knows child := by
  obtain ⟨-, entries, hentries, entry, hentry, hnames⟩ := t.exists_of_mem_sight hchild
  refine ⟨hnames ▸ Path.isEntryName_concat h.names ((hlist _ entries hentries).names entry hentry),
    fun _ => ?_⟩
  rcases t.sight_cases rules item with ⟨_, _, hs⟩ | hs | ⟨real, entries, -, -, -, hs⟩
  · rw [hs] at hchild
    exact absurd hchild List.not_mem_nil
  · rw [hs] at hchild
    exact absurd hchild List.not_mem_nil
  · rw [hs] at hchild
    obtain ⟨stats, hstats, heq⟩ := exists_stats_of_mem_children hchild
    rw [heq]
    exact hstats

/-- An entry below the root that is a directory by its look-up is given out as one. -/
theorem Traversal.Knows.isDirectory_found {t : Traversal} {item : Candidate} (h : t.Knows item)
    (hne : item.names ≠ []) {stats : FileStats}
    (hstats : (t.files.lstat (t.pathOf item.names)).run = .ok stats)
    (hdirectory : stats.isDirectory = true) : (t.found item).stats.isDirectory = true := by
  obtain rfl : item.stats = stats := Except.ok.inj ((h.stats hne).symm.trans hstats)
  rw [found, resolve, Walk.isSymlink_of_isDirectory hdirectory, Bool.false_and]
  exact hdirectory

/-! ### What is given out of the data of version control -/

namespace Walk

/-- Some steps after a walk has begun, the rule with the number zero is one that is not negated and
covers the directory of version control and what lies below it. -/
theorem exists_first_rule {w last : Walk} (hroot : w.root.IsRooted)
    (hslash : w.root.start = .root) (hrules : w.sieve.rulebook = Rulebook.empty)
    (hblocks : w.begin.sieve.rulebook.blocks <+: last.sieve.rulebook.blocks) {names : List Text}
    (hn : ∀ part ∈ names, Path.IsEntryName part) (hpre : [metadataName] <+: names)
    {isDirectory : Bool} (hself : names = [metadataName] → isDirectory = true) :
    ∃ first, (0, first) ∈ last.sieve.rulesFor (w.pathOf names) ∧ first.negated = false ∧
      first.covers (canonical (w.pathOf names)) isDirectory = true := by
  obtain ⟨first, hparsed, hnegated, hcovers⟩ :=
    exists_metadata_rule hroot hslash w.sieve.cache
  obtain ⟨block, hbegin, hscope, hown, hnumber⟩ : ∃ block : RuleBlock,
      w.begin.sieve.rulebook.blocks = w.sieve.rulebook.blocks ++ [block] ∧
      block.scope = canonical w.rootText ∧ block.rules = (IgnoreFile.parse w.sieve.cache w.rootText
        (.text metadataRule) none).1.rules ∧ block.start = w.sieve.rulebook.size :=
    ⟨_, rfl, rfl, rfl, rfl⟩
  have hmem : block ∈ last.sieve.rulebook.blocks := hblocks.subset (by rw [hbegin]; simp)
  refine ⟨first, Rulebook.mem_rulesFor.mpr ⟨block, hmem, ?_, ?_⟩, hnegated,
    hcovers names hn hpre isDirectory hself⟩
  · rw [RuleBlock.appliesTo, hscope, rootText, ← Path.descend_nil w.root]
    exact (inScope_pathOf hroot hn fun part hp => absurd hp List.not_mem_nil).mpr List.nil_prefix
  · rw [RuleBlock.numbered, hown, hnumber, hrules, rootText, hparsed]
    exact List.mem_singleton_self _

section Start

variable {fs : FileSystem Id}
  (hlist : ∀ path entries, (fs.list path).run = .ok entries → IsListing entries) {root : Path}
  (hroot : root.IsRooted) {options : Walk.Options} {w₀ : Walk}
  (hstart : ((Walk.new root options).start fs).run = (.ok (), w₀))

include hlist hroot hstart

/-- After any number of steps, all entries in the queue are known by their look-ups. -/
theorem runFor_queued (hreal : ∃ real, (fs.realPath root.toText).run = .ok real) (steps : Nat) :
    (runFor fs steps w₀.begin).run.Queued ⟨fs, root, options⟩
      (Traversal.Knows ⟨fs, root, options⟩) := by
  have hbegin : w₀.begin.Queued ⟨fs, root, options⟩ (Traversal.Knows ⟨fs, root, options⟩) :=
    begin_queued hstart fun _ hnone _ =>
      ⟨fun part hp => absurd (hnone ▸ hp) List.not_mem_nil, fun hne => absurd hnone hne⟩
  exact hbegin.runFor hlist hroot hreal (fun _ h => h.names)
    (fun _ _ h _ hchild => h.of_mem_sight hlist hchild) steps

/-- If a walk gives out the directory of version control, or something below it, then the rule that
decides about it is negated, and is not the first one. -/
theorem Yields.deciding {e : Entry} {last : Walk} (h : Yields fs w₀.begin e last)
    (hreal : ∃ real, (fs.realPath root.toText).run = .ok real) (hslash : root.start = .root)
    {stats : FileStats} (hstats : (fs.lstat (w₀.pathOf [metadataName])).run = .ok stats)
    (hdirectory : stats.isDirectory = true) (hpre : [metadataName] <+: e.names) :
    ∃ number rule, (last.sieve.verdict e.fullPath e.stats.isDirectory).deciding
      = some (number, rule) ∧ 0 < number ∧ rule.negated = true := by
  obtain ⟨_, -, haccepted⟩ := start_accepted hstart
  obtain ⟨count, hlast⟩ := h.exists_runFor
  have hrooted : w₀.root.IsRooted := haccepted.root ▸ hroot
  have hstarted : w₀.begin.Started :=
    .running rfl (begin_front hrooted haccepted.rulebook_eq)
  obtain ⟨hn, hkept⟩ := h.isIgnored_eq_false hlist hstarted
  have hblocks : w₀.begin.sieve.rulebook.blocks <+: last.sieve.rulebook.blocks :=
    hlast ▸ runFor_blocks fs (fun path entries => hlist path entries) count hstarted
  have hsound : last.sieve.Sound := hlast ▸ (runFor_queued hlist hroot hstart hreal count).sound
  obtain ⟨before, after, hgiven, -⟩ := h
  obtain ⟨item, hitem, rfl⟩ := (runFor_queued hlist hroot hstart hreal before).exists_of_yielded
    hlist hroot hreal (fun _ h => h.names) hgiven
  have hpath : (Traversal.found ⟨fs, root, options⟩ item).fullPath = w₀.pathOf item.names :=
    (haccepted.pathOf_eq item.names).symm
  have hself : item.names = [metadataName] →
      (Traversal.found ⟨fs, root, options⟩ item).stats.isDirectory = true := by
    intro hnames
    refine hitem.isDirectory_found (by simp [hnames]) ?_ hdirectory
    rw [haccepted.pathOf_eq] at hstats
    rw [hnames]
    exact hstats
  obtain ⟨first, hfirst, hnegated, hcovers⟩ := exists_first_rule hrooted (haccepted.root ▸ hslash)
    haccepted.rulebook_eq hblocks hn hpre hself
  rw [hpath]
  exact hsound.deciding_of_kept hfirst hnegated hcovers hkept

end Start

/-- **Only a later negated rule gives out the data of version control.** Let the files not change,
let listings be made of distinct names, and let the root be given with one slash in front and have a
directory with the name that version control uses. Whatever the options are, an entry that a walk
gives out and that is this directory or lies in it has been kept by a negated rule which is not the
one that the walk began with. -/
theorem entries_metadata (fs : FileSystem Id)
    (hlist : ∀ path entries, (fs.list path).run = .ok entries → IsListing entries) (current : Path)
    {root : Text} (hslash : Path.startOf root = .root) (options : Walk.Options) {w₀ : Walk}
    (hstart : ((Walk.new (Path.absolute current root) options).start fs).run = (.ok (), w₀))
    {stats : FileStats} (hstats : (fs.lstat (w₀.pathOf [metadataName])).run = .ok stats)
    (hdirectory : stats.isDirectory = true) (steps : Nat) {given : List Entry} {last : Walk}
    (hgiven : (w₀.entries fs steps).run = (.ok given, last)) :
    ∀ e ∈ given, [metadataName] <+: e.names →
      ∃ number rule, (last.sieve.verdict e.fullPath e.stats.isDirectory).deciding
        = some (number, rule) ∧ 0 < number ∧ rule.negated = true := by
  intro e he hpre
  rw [Path.absolute_of_startOf hslash] at hstart
  have hroot : (Path.ofText root).collapse.IsRooted :=
    Path.collapse_ofText_isRooted (by rw [hslash]; decide)
  cases hreal : (fs.realPath (Path.ofText root).collapse.toText).run with
  | error fault =>
    rw [eq_nil_of_unreal hstart hreal hgiven] at he
    exact absurd he List.not_mem_nil
  | ok real =>
    obtain ⟨_, -, haccepted⟩ := start_accepted hstart
    exact (yields_of_entries haccepted.phase hgiven e he).deciding hlist hroot hstart ⟨real, hreal⟩
      hslash hstats hdirectory hpre

/-- A root with the data of version control in it, and with an ignore file that takes directories
and one kind of files back. -/
def reopenedMetadata : Node :=
  .directory 0o755 0 [(Text.lit "r", .directory 0o755 0 [
    (metadataName, .directory 0o755 0 [(Text.lit "HEAD", .file .file 0o644 3 [114, 101, 102])]),
    (Text.lit ".gitignore",
      .file .file 0o644 12 ("*\n!*/\n!*.py\n".toList.map (·.toNat.toUInt8))),
    (Text.lit "a.py", .file .file 0o644 1 [49])])]

/-- What lies in the directory that is taken back is given out by the second line of the ignore
file. -/
theorem entries_metadata_reopenedMetadata :
    let fs : FileSystem Id := reopenedMetadata.fileSystem
    let w₀ := ((Walk.new (Path.absolute Path.rootDirectory (Text.lit "/r")) .plain).start fs).run.2
    ∃ given last, (w₀.entries fs 6).run = (.ok given, last) ∧ ∃ e ∈ given,
      e.names = [metadataName, Text.lit "HEAD"] ∧ ∃ number rule,
        (last.sieve.verdict e.fullPath e.stats.isDirectory).deciding = some (number, rule) ∧
          0 < number ∧ rule.negated = true := by
  intro fs w₀
  have hproper : reopenedMetadata.IsProper := by decide
  have hstart : ((Walk.new (Path.absolute Path.rootDirectory (Text.lit "/r")) .plain).start
      fs).run = (.ok (), w₀) := rfl
  have hstats : (fs.lstat (w₀.pathOf [metadataName])).run = .ok (.ofMode 0o40755 0) := by
    decide +kernel
  have hnames : (w₀.entries fs 6).run.1.map (List.map Entry.names)
      = .ok [[Text.lit "a.py"], [metadataName, Text.lit "HEAD"]] := by decide +kernel
  generalize hgiven : (w₀.entries fs 6).run = result at hnames
  obtain ⟨answer, last⟩ := result
  cases answer with
  | error e => cases hnames
  | ok given =>
    have hmem : [metadataName, Text.lit "HEAD"] ∈ given.map Entry.names := by
      rw [show given.map Entry.names = _ from Except.ok.inj hnames]
      simp
    obtain ⟨e, he, hHead⟩ := List.mem_map.mp hmem
    refine ⟨given, last, rfl, e, he, hHead, ?_⟩
    exact entries_metadata fs (hproper.looksUp.isListing hproper) Path.rootDirectory rfl .plain
      hstart hstats rfl 6 hgiven e he (by rw [hHead]; simp)

/-- In the reopened directory, a file of version control is given out. -/
theorem metadata_given :
    let fs : FileSystem Id := reopenedMetadata.fileSystem
    let w₀ := ((Walk.new (Path.absolute Path.rootDirectory (Text.lit "/r")) .plain).start fs).run.2
    Walk.Options.plain.followLinks = false ∧
      (fs.lstat (w₀.pathOf [metadataName])).run = .ok (.ofMode 0o40755 0) ∧
      (w₀.entries fs 6).run.2.phase = .ended ∧
      (w₀.entries fs 6).run.1.map (List.map Entry.path)
        = .ok [Text.lit "a.py", Text.lit ".git/HEAD"] := by
  intro fs w₀
  exact ⟨rfl, by decide +kernel, by decide +kernel, by decide +kernel⟩

end Walk

end TreeSieve

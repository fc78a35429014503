import TreeSieve.Proofs.Sieve.Built
import TreeSieve.Proofs.Sieve.Pruning
import TreeSieve.Proofs.Walk.Front
import TreeSieve.Proofs.Walk.Recursive

/-!
# What a step sees

On files that do not change, what a step of a walk comes to is told by the rules that hold for the
entry it looks at.

* `listIgnores_eq` and `listPrunes_eq` say that the numbers of rules decide nothing more than their
  order does.
* `IgnoreFile.load_eq` says that what has been compiled before changes nothing that is read.
* `Walk.Sees` says that a step has given out, learned and queued what there is to see at an entry,
  and `Walk.advance_sees` that a step does so.
-/

namespace TreeSieve

/-! ### Rules with and without numbers -/

/-- A list of rules ignores a path exactly if the verdict of the rules with their numbers does. -/
theorem listIgnores_eq (rules : List (Nat × Rule)) (path : Text) (isDirectory : Bool) :
    listIgnores (rules.map (·.2)) path isDirectory
      = (Verdict.ofRules rules path isDirectory).ignored := by
  rw [listIgnores, ← List.map_reverse, List.find?_map, Verdict.ignored, Verdict.ofRules]
  simp only [Function.comp_def]
  cases rules.reverse.find? fun entry => entry.2.covers path isDirectory with
  | none => rfl
  | some entry => rfl

/-- The rules for a directory, without their numbers, prune it exactly if the sieve with its numbers
does not enter it. -/
theorem listPrunes_eq {s : Sieve} (hs : s.rulebook.IsNumbered) (directory : Text) :
    listPrunes ((s.rulesFor directory).map (·.2)) (canonical directory)
      = !(s.entering directory).enters := by
  have hpair := hs.pairwise_rulesFor (canonical directory)
  rw [← Sieve.rulesFor] at hpair
  rw [Bool.eq_iff_iff, Bool.not_eq_true', Sieve.enters_eq_false_iff]
  cases hdeciding : (s.verdict directory true).deciding with
  | none =>
    rw [Sieve.verdict, Verdict.deciding_eq_none_iff] at hdeciding
    rw [listPrunes_of_none (List.forall_mem_map.mpr hdeciding)]
    simp
  | some entry =>
    rw [Sieve.verdict, Verdict.deciding_eq_some_iff] at hdeciding
    obtain ⟨hcovers, earlier, later, hsplit, hlater⟩ := hdeciding
    rw [hsplit, List.pairwise_append, List.pairwise_cons] at hpair
    obtain ⟨-, ⟨hbehind, -⟩, hbefore⟩ := hpair
    rw [hsplit, List.map_append, List.map_cons,
      listPrunes_append_cons hcovers (List.forall_mem_map.mpr hlater), List.forall_mem_map]
    constructor
    · rintro ⟨hneg, hnone⟩
      refine ⟨entry, rfl, hneg, fun other hother hlt => ?_⟩
      -- the rules up to the deciding one have no larger numbers
      rcases List.mem_append.mp hother with hother | hother
      · have hgt := hbefore other hother entry List.mem_cons_self
        exact absurd (Nat.lt_trans hlt hgt) (Nat.lt_irrefl _)
      · rcases List.mem_cons.mp hother with rfl | hother
        · exact absurd hlt (Nat.lt_irrefl _)
        · exact hnone other hother
    · rintro ⟨_, heq, hneg, hnone⟩
      obtain rfl := Option.some.inj heq
      refine ⟨hneg, fun other hother => ?_⟩
      exact hnone other (List.mem_append_right _ (List.mem_cons_of_mem _ hother))
        (hbehind other hother)

/-! ### Reading ignore files -/

/-- The rules and the notes that lines give are the same with any cache. -/
theorem readLines_eq (scope : Text) (source : Option Text) (texts : List Text)
    (cache other : MatcherCache) (line : Nat) :
    (readLines scope source cache line texts).1 = (readLines scope source other line texts).1 := by
  rw [readLines_fst, readLines_fst]

namespace IgnoreFile

theorem parse_eq (cache other : MatcherCache) (scope : Text) (content : Content)
    (source : Option Text) :
    (parse cache scope content source).1 = (parse other scope content source).1 :=
  congrArg (ofReadings scope source) (readLines_eq scope source _ cache other 1)

/-- The ignore file that is read at a path is the same with any cache. -/
theorem load_eq (fs : FileSystem Id) (cache other : MatcherCache) (path : Text) :
    (load fs cache path).run.1 = (load fs other path).run.1 := by
  unfold load
  simp only [Id.run_bind]
  cases (fs.lstat (Path.ofText path).toText).run with
  | error e => rfl
  | ok stats =>
    simp only
    split
    · rfl
    · simp only [Id.run_bind]
      cases (fs.read (Path.ofText path).toText).run with
      | error e => rfl
      | ok bytes => exact parse_eq cache other _ _ _

/-- An ignore file is read in the same way from two file systems that give the same answers for its
path. -/
theorem load_congr {fs fs' : FileSystem Id} {p : Path} (hp : p.IsRooted)
    (hlstat : fs'.lstat p.toText = fs.lstat p.toText)
    (hread : fs'.read p.toText = fs.read p.toText) (cache : MatcherCache) :
    load fs' cache p.toText = load fs cache p.toText := by
  unfold load
  simp only [hp.ofText_toText, hlstat, hread]

end IgnoreFile

/-- What a step gives out, or `none` if it ends the walk. -/
def StepOutcome.given : StepOutcome → Option (List Entry)
  | yielded entry => some [entry]
  | withheld _ _ | quiet => some []
  | finished | failed _ => none

theorem StepOutcome.eq_yielded_of_mem {outcome : StepOutcome} {given : List Entry}
    (h : outcome.given = some given) {e : Entry} (he : e ∈ given) : outcome = .yielded e := by
  cases outcome with
  | yielded entry =>
    rw [← Option.some.inj h, List.mem_singleton] at he
    rw [he]
  | withheld names isDirectory =>
    rw [← Option.some.inj h] at he
    exact absurd he List.not_mem_nil
  | quiet =>
    rw [← Option.some.inj h] at he
    exact absurd he List.not_mem_nil
  | finished => cases h
  | failed e => cases h

namespace Walk

/-- The recursive traversal of what a walk goes through. -/
def traversal (fs : FileSystem Id) (w : Walk) : Traversal := ⟨fs, w.root, w.options⟩

/-- The rules that hold for the entry with the given names. -/
def rulesAt (w : Walk) (names : List Text) : List Rule :=
  (w.sieve.rulesFor (w.pathOf names)).map (·.2)

/-- A walk that has taken in blocks of a directory with the given rules in all, and has the given
entries at the end of its queue. -/
structure Grows (w : Walk) (names : List Text) (rules : List Rule) (items : List Candidate)
    (w' : Walk) : Prop where
  root : w'.root = w.root
  options : w'.options = w.options
  phase : w'.phase = w.phase
  queue : w'.queue = w.queue ++ items
  sound : w.sieve.Sound → w'.sieve.Sound
  blocks : ∃ more, w'.sieve.rulebook.blocks = w.sieve.rulebook.blocks ++ more ∧
    (∀ b ∈ more, b.scope = canonical (w.pathOf names)) ∧ more.flatMap (·.rules) = rules

theorem Stays.sound {w w' : Walk} (h : w.Stays w') (hs : w.sieve.Sound) : w'.sieve.Sound :=
  ⟨h.rulebook ▸ hs.numbered, h.rulebook ▸ hs.rules⟩

theorem Stays.grows {w w' : Walk} (h : w.Stays w') (names : List Text) : w.Grows names [] [] w' :=
  ⟨h.root, h.options, h.phase, by rw [h.queue, List.append_nil], h.sound, [],
    by rw [h.rulebook, List.append_nil], fun _ hb => (nomatch hb), rfl⟩

theorem Grows.trans {w w' w'' : Walk} {names : List Text} {rules rules' : List Rule}
    {items items' : List Candidate} (h : w.Grows names rules items w')
    (h' : w'.Grows names rules' items' w'') :
    w.Grows names (rules ++ rules') (items ++ items') w'' := by
  obtain ⟨more, hmore, hscope, hrules⟩ := h.blocks
  obtain ⟨more', hmore', hscope', hrules'⟩ := h'.blocks
  rw [pathOf, h.root, ← pathOf] at hscope'
  refine ⟨h'.root.trans h.root, h'.options.trans h.options, h'.phase.trans h.phase, ?_,
    h'.sound ∘ h.sound, more ++ more', ?_, ?_, ?_⟩
  · rw [h'.queue, h.queue, List.append_assoc]
  · rw [hmore', hmore, List.append_assoc]
  · intro b hb
    rcases List.mem_append.mp hb with hb | hb
    · exact hscope b hb
    · exact hscope' b hb
  · rw [List.flatMap_append, hrules, hrules']

theorem Grows.traversal_eq {w w' : Walk} {names : List Text} {rules : List Rule}
    {items : List Candidate} (h : w.Grows names rules items w') (fs : FileSystem Id) :
    w'.traversal fs = w.traversal fs := by
  rw [traversal, traversal, h.root, h.options]

theorem Stays.traversal_eq {w w' : Walk} (h : w.Stays w') (fs : FileSystem Id) :
    w'.traversal fs = w.traversal fs := by
  rw [traversal, traversal, h.root, h.options]

theorem Stays.rulesAt {w w' : Walk} (h : w.Stays w') : w'.rulesAt = w.rulesAt := by
  funext names
  rw [Walk.rulesAt, Walk.rulesAt, Sieve.rulesFor, Sieve.rulesFor, h.pathOf, h.rulebook]

/-- A step that gives out what there is to see at an entry, takes in the rules and queues the
entries. -/
structure Sees (w : Walk) (names : List Text) (sight : Sight) (result : StepOutcome × Walk) :
    Prop extends w.Grows names sight.rules sight.entries result.2 where
  given : result.1.given = some sight.given

/-! ### The parts of a step -/

variable (fs : FileSystem Id)

/-- A walk finds an entry to be what the traversal finds it to be. -/
theorem resolve_eq (w : Walk) (item : Candidate) :
    (w.resolve fs item).run.1 = (w.traversal fs).resolve item := by
  have hpath : (w.traversal fs).pathOf = w.pathOf := rfl
  have hfiles : (w.traversal fs).files = fs := rfl
  have hoptions : (w.traversal fs).options = w.options := rfl
  unfold resolve Traversal.resolve
  simp only [hpath, hfiles, hoptions]
  split
  · rfl
  · simp only [Id.run_bind]
    cases (fs.stat (w.pathOf item.names)).run with
    | error e => rfl
    | ok stats =>
      simp only
      split
      · rfl
      · simp only [Id.run_bind]
        cases (fs.realPath (w.pathOf item.names)).run with
        | error e => rfl
        | ok real =>
          simp only
          split
          · rfl
          · rfl

theorem realPathOf_eq (w : Walk) (item : Candidate) :
    (w.realPathOf fs item).run = (w.traversal fs).realPathOf item := by
  unfold realPathOf Traversal.realPathOf
  split
  · rfl
  · rfl

/-- Taking in an ignore file of a directory adds the rules that are read from the file without a
cache, and queues nothing. -/
theorem takeIn_grows {w : Walk} (hroot : w.root.IsRooted) {names : List Text} {name : Text}
    (hn : ∀ part ∈ names, Path.IsEntryName part) (hname : Path.IsEntryName name) :
    w.Grows names
      (IgnoreFile.load fs MatcherCache.empty (w.pathOf (names ++ [name]))).run.1.rules []
      (w.takeIn fs (w.pathOf (names ++ [name]))).run := by
  have hscope : (IgnoreFile.load fs w.sieve.cache (w.pathOf (names ++ [name]))).run.1.scope
      = w.pathOf names := by
    rw [← parent_pathOf hroot hn hname]
    exact (IgnoreFile.load_reads fs w.sieve.cache (w.pathOf (names ++ [name]))).2
  refine ⟨rfl, rfl, rfl, (List.append_nil w.queue).symm, fun hs => ?_, [_], rfl, ?_, ?_⟩
  · exact hs.load fs (w.pathOf (names ++ [name]))
  · intro b hb
    rw [List.mem_singleton.mp hb]
    exact congrArg canonical hscope
  · rw [IgnoreFile.load_eq fs MatcherCache.empty w.sieve.cache]
    exact List.append_nil _

/-- Of a listing, the entries are queued that the traversal goes through in the directory, and the
rules are added that it reads there. -/
theorem gather_grows {item : Candidate} (real : Text)
    (hn : ∀ part ∈ item.names, Path.IsEntryName part) (entries : List ListedEntry) :
    ∀ w : Walk, w.root.IsRooted → (∀ entry ∈ entries, Path.IsEntryName entry.name) →
      (gather fs item real w entries).run.1 = (w.traversal fs).children item real entries ∧
      w.Grows item.names ((w.traversal fs).ownRules item.names entries) []
        (gather fs item real w entries).run.2 := by
  induction entries with
  | nil => exact fun w _ _ => ⟨rfl, (Stays.refl w).grows item.names⟩
  | cons entry rest ih =>
    intro w hroot hnames
    have hrest : ∀ e ∈ rest, Path.IsEntryName e.name :=
      fun e he => hnames e (List.mem_cons_of_mem entry he)
    have hpath : (w.traversal fs).pathOf = w.pathOf := rfl
    have hfiles : (w.traversal fs).files = fs := rfl
    have hoptions : (w.traversal fs).options = w.options := rfl
    unfold gather Traversal.children Traversal.ownRules
    rw [List.filterMap_cons, List.flatMap_cons]
    simp only [Id.run_bind, hpath, hfiles, hoptions]
    cases (fs.lstat (w.pathOf (item.names ++ [entry.name]))).run with
    | error e =>
      obtain ⟨hitems, hgrows⟩ := ih (w.note _) hroot hrest
      exact ⟨hitems, ((Stays.note w _).grows item.names).trans hgrows⟩
    | ok stats =>
      simp only
      split
      · have hfirst := takeIn_grows fs hroot hn (hnames entry List.mem_cons_self)
        obtain ⟨hitems, hgrows⟩ :=
          ih (w.takeIn fs (w.pathOf (item.names ++ [entry.name]))).run (hfirst.root ▸ hroot) hrest
        rw [hfirst.traversal_eq] at hitems hgrows
        exact ⟨congrArg _ hitems, hfirst.trans hgrows⟩
      · obtain ⟨hitems, hgrows⟩ := ih w hroot hrest
        exact ⟨congrArg _ hitems, hgrows⟩

/-- Of a listing that is gathered and queued, a walk has taken in the rules that the traversal reads
in the directory, and has queued the entries that it goes through there. -/
theorem gather_queued {w : Walk} (hroot : w.root.IsRooted) {item : Candidate} (real : Text)
    (hn : ∀ part ∈ item.names, Path.IsEntryName part) {entries : List ListedEntry}
    (hnames : ∀ entry ∈ entries, Path.IsEntryName entry.name) {items : List Candidate} {w' : Walk}
    (h : (gather fs item real w entries).run = (items, w')) :
    w.Grows item.names ((w.traversal fs).ownRules item.names entries)
      ((w.traversal fs).children item real entries) { w' with queue := w'.queue ++ items } := by
  obtain ⟨hitems, hgrows⟩ := gather_grows fs real hn entries w hroot hnames
  rw [h] at hitems hgrows
  obtain rfl : items = (w.traversal fs).children item real entries := hitems
  refine ⟨hgrows.root, hgrows.options, hgrows.phase, ?_, hgrows.sound, hgrows.blocks⟩
  show w'.queue ++ (w.traversal fs).children item real entries = _
  rw [hgrows.queue, List.append_nil]

/-- The rules that hold for an entry ignore it exactly if the sieve of the walk does. -/
theorem listIgnores_rulesAt (w : Walk) (names : List Text) (isDirectory : Bool) :
    listIgnores (w.rulesAt names) (canonical (w.pathOf names)) isDirectory
      = w.sieve.isIgnored (w.pathOf names) isDirectory :=
  listIgnores_eq _ _ _

/-- An offer gives out what the traversal offers with the rules that hold for the entry, and learns
and queues nothing. -/
theorem offer_sees (w : Walk) (item : Candidate) (stats : FileStats) (isDirectory : Bool) :
    w.Sees item.names
      ⟨(w.traversal fs).offer (w.rulesAt item.names) item stats isDirectory, [], []⟩
      (w.offer item stats isDirectory) := by
  have hpath : (w.traversal fs).pathOf = w.pathOf := rfl
  unfold offer Traversal.offer
  simp only [hpath, listIgnores_rulesAt, Sieve.isIgnored]
  split
  · exact ⟨(Stays.note w _).grows item.names, rfl⟩
  · refine ⟨Stays.grows ?_ item.names, rfl⟩
    exact ⟨rfl, rfl, rfl, rfl, rfl⟩

theorem Stays.sees {w w' : Walk} (h : w.Stays w') {names : List Text} {sight : Sight}
    {result : StepOutcome × Walk} (h' : w'.Sees names sight result) :
    w.Sees names sight result :=
  ⟨(h.grows names).trans h'.toGrows, h'.given⟩

/-- A step that gives out nothing and has changed notes and counters only sees nothing. -/
theorem Stays.sees_nothing {w w' : Walk} (h : w.Stays w') (names : List Text) :
    w.Sees names ⟨[], [], []⟩ (.quiet, w') :=
  ⟨h.grows names, rfl⟩

/-- Looking at a directory gives out, learns and queues what the traversal sees at it with the rules
that hold for it. -/
theorem lookAtDirectory_sees
    (hlist : ∀ path entries, (fs.list path).run = .ok entries → IsListing entries) {w : Walk}
    (hroot : w.root.IsRooted) (hsound : w.sieve.Sound) {item : Candidate}
    (hn : ∀ part ∈ item.names, Path.IsEntryName part) (stats : FileStats) (real : Text) :
    w.Sees item.names
      ((w.traversal fs).sightOfDirectory (w.rulesAt item.names) item stats real)
      (w.lookAtDirectory fs item stats real).run := by
  have hpath : (w.traversal fs).pathOf = w.pathOf := rfl
  have hfiles : (w.traversal fs).files = fs := rfl
  have hoptions : (w.traversal fs).options = w.options := rfl
  have hprunes : listPrunes (w.rulesAt item.names) (canonical (w.pathOf item.names))
      = !(w.sieve.enteringAfter (w.sieve.verdict (w.pathOf item.names) true)
        (w.pathOf item.names)).enters := listPrunes_eq hsound.numbered (w.pathOf item.names)
  unfold lookAtDirectory enqueue Traversal.sightOfDirectory
  simp only [hpath, hfiles, hoptions, hprunes]
  by_cases hdeep : w.isDeepest item.depth = true
  · have hdepth : (w.options.maxDepth == some item.depth) = true := hdeep
    rw [if_pos hdeep, if_pos hdepth]
    simp only [Id.run_bind, Id.run_pure, hdeep, if_true]
    exact offer_sees fs w item stats true
  · have hdepth : ¬(w.options.maxDepth == some item.depth) = true := hdeep
    have hstays := Stays.note w ((w.sieve.verdict (w.pathOf item.names) true).log
      (canonical (w.pathOf item.names)) ++ (w.sieve.enteringAfter (w.sieve.verdict
        (w.pathOf item.names) true) (w.pathOf item.names)).log (canonical (w.pathOf item.names)))
    rw [if_neg hdeep, if_neg hdepth]
    generalize w.note _ = w₁ at hstays ⊢
    have hdeeper : w₁.isDeepest item.depth = false := by
      rw [isDeepest, hstays.options]
      exact Bool.eq_false_iff.mpr hdeep
    split
    · simp only [Id.run_bind, Id.run_pure, hdeeper]
      exact hstays.sees_nothing item.names
    · simp only [Id.run_bind]
      cases hentries : (fs.list (w.pathOf item.names)).run with
      | error e => exact (hstays.trans (Stays.note _ _)).sees_nothing item.names
      | ok entries =>
        cases entries with
        | nil =>
          simp only [Id.run_pure, hdeeper, Bool.or_false, hstays.options]
          split
          · have hoffer := offer_sees fs w₁ item stats true
            rw [hstays.traversal_eq, hstays.rulesAt] at hoffer
            exact hstays.sees hoffer
          · exact hstays.sees_nothing item.names
        | cons entry entries =>
          simp only [Id.run_bind, Id.run_pure]
          generalize hgathered : (gather fs item real w₁ (entry :: entries)).run = gathered
          have hqueued := gather_queued fs (hstays.root ▸ hroot) real hn
            (hlist _ _ hentries).names hgathered
          rw [hstays.traversal_eq] at hqueued
          have hnot : ({ gathered.2 with queue := gathered.2.queue ++ gathered.1 } :
              Walk).isDeepest item.depth = false := by
            rw [isDeepest, hqueued.options, ← isDeepest, hdeeper]
          simp only [hnot]
          exact hstays.sees ⟨hqueued, rfl⟩

/-- Looking at an entry gives out, learns and queues what the traversal sees at it with the rules
that hold for it. -/
theorem lookAt_sees
    (hlist : ∀ path entries, (fs.list path).run = .ok entries → IsListing entries) {w : Walk}
    (hroot : w.root.IsRooted) (hsound : w.sieve.Sound) {item : Candidate}
    (hn : ∀ part ∈ item.names, Path.IsEntryName part)
    (hreal : ∃ real, (fs.realPath (w.pathOf [])).run = .ok real) :
    w.Sees item.names ((w.traversal fs).sight (w.rulesAt item.names) item)
      (w.lookAt fs item).run := by
  have hstays : w.Stays (w.resolve fs item).run.2 := resolve_stays fs w item
  have hresolve := resolve_eq fs w item
  unfold lookAt Traversal.sight
  simp only [Id.run_bind, ← hresolve]
  generalize (w.resolve fs item).run = resolved at hstays ⊢
  obtain ⟨found, w₁⟩ := resolved
  have hdirectory : ∀ stats real, w.Sees item.names
      ((w.traversal fs).sightOfDirectory (w.rulesAt item.names) item stats real)
      (w₁.lookAtDirectory fs item stats real).run := by
    intro stats real
    have hlooked :=
      lookAtDirectory_sees fs hlist (hstays.root ▸ hroot) (hstays.sound hsound) hn stats real
    rw [hstays.traversal_eq, hstays.rulesAt] at hlooked
    exact hstays.sees hlooked
  simp only
  split
  · cases found.target with
    | some real => exact hdirectory found.stats real
    | none =>
      simp only [Id.run_bind, realPathOf_eq, hstays.traversal_eq]
      cases hown : (w.traversal fs).realPathOf item with
      | ok real => exact hdirectory found.stats real
      | error e =>
        -- only the real path of the root is asked for, and the root has one
        exfalso
        obtain ⟨real, hreal⟩ := hreal
        rw [Traversal.realPathOf] at hown
        split at hown
        · rename_i hdepth
          have hroot : (w.traversal fs).pathOf item.names = w.pathOf [] := by
            rw [List.length_eq_zero_iff.mp hdepth]
            rfl
          rw [hroot, show (w.traversal fs).files = fs from rfl, hreal] at hown
          cases hown
        · cases hown
  · have hoffer := offer_sees fs w₁ item found.stats false
    rw [hstays.traversal_eq, hstays.rulesAt] at hoffer
    exact hstays.sees hoffer

/-- Without an entry limit, a step looks at the entry that is first in the queue if it is not too
deep. -/
theorem advance_eq_lookAt {m : Type → Type} [Monad m] (fs : FileSystem m) {w : Walk}
    (hentries : w.options.maxEntries = none) {item : Candidate} {rest : List Candidate}
    (hqueue : w.queue = item :: rest)
    (hdepth : ∀ depth, w.options.maxDepth = some depth → item.depth ≤ depth) :
    w.advance fs = (w.popped rest).lookAt fs item := by
  have hfull : w.isFull = false := by rw [isFull, hentries]; rfl
  have hdeep : w.isTooDeep item.depth = false := by
    rw [isTooDeep]
    cases hmax : w.options.maxDepth with
    | none => rfl
    | some depth => simpa using hdepth depth hmax
  rw [advance, hqueue]
  simp only [hfull, hdeep]
  rfl

/-- **A step sees what there is to see.** If the files do not change, no entry limit is set and the
entry is not too deep, a step gives out, learns and queues what the rules that hold for the entry
tell. -/
theorem advance_sees
    (hlist : ∀ path entries, (fs.list path).run = .ok entries → IsListing entries) {w : Walk}
    (hroot : w.root.IsRooted) (hsound : w.sieve.Sound) (hentries : w.options.maxEntries = none)
    (hreal : ∃ real, (fs.realPath (w.pathOf [])).run = .ok real) {item : Candidate}
    {rest : List Candidate} (hqueue : w.queue = item :: rest)
    (hn : ∀ part ∈ item.names, Path.IsEntryName part)
    (hdepth : ∀ depth, w.options.maxDepth = some depth → item.depth ≤ depth) :
    (w.popped rest).Sees item.names ((w.traversal fs).sight (w.rulesAt item.names) item)
      (w.advance fs).run := by
  have hlooked := lookAt_sees fs hlist (w := w.popped rest) hroot hsound hn hreal
  rw [advance_eq_lookAt fs hentries hqueue hdepth]
  exact hlooked

end Walk

end TreeSieve

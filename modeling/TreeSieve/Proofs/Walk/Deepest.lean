import Mathlib.Data.List.DropRight
import TreeSieve.Proofs.Walk.Budget

/-!
# Entries at the depth limit

A directory at the depth limit is not listed, so that what waits there is all that a walk still
looks at, and no more rules become known.

* `Walk.AtDepthLimit` holds of a walk whose queue lies at its depth limit, and
  `Walk.AtDepthLimit.step` says that a step looks at the first entry and leaves the others waiting.
* `Walk.AtDepthLimit.visit` says what is given out of the queue, as far as the entry limit allows,
  and that the walk is cut short if something waits when the limit has been reached.
* `Walk.step_lists` says that a walk of depth one has its queue at the depth limit once it has
  looked at its root: these are the entries of the root, `FileSystem.seenIn`.
-/

namespace TreeSieve

/-- The entries of a directory that can be looked at, in the order of the listing. -/
def FileSystem.seenIn (fs : FileSystem Id) (directory : Path) : List Entry :=
  match (fs.list directory.toText).run with
  | .error _ => []
  | .ok entries => entries.filterMap fun listed =>
      let path := (directory.descend [listed.name]).toText
      match (fs.lstat path).run with
      | .error _ => none
      | .ok stats => some ⟨[listed.name], path, stats⟩

namespace Walk

/-- The entry that is given out for one of the queue: its names, its path and what is known of it.
-/
def entryOf (w : Walk) (item : Candidate) : Entry := ⟨item.names, w.pathOf item.names, item.stats⟩

/-- The entries that are given out for those in the queue, if the rules keep them. -/
def waiting (w : Walk) : List Entry := w.queue.map w.entryOf

/-- Whether the rules of the walk keep an entry, which they do not ignore then. -/
def keeps (w : Walk) (e : Entry) : Bool := !w.sieve.isIgnored e.fullPath e.stats.isDirectory

/-- The first of the given entries, as many as the entry limit still allows, or all without a limit.
-/
def allowed (w : Walk) (found : List Entry) : List Entry :=
  match w.options.maxEntries with
  | none => found
  | some limit => found.take (limit - w.yielded)

/-- A walk under way that follows no links, and whose queue lies at its depth limit. -/
structure AtDepthLimit (w : Walk) : Prop where
  phase : w.phase = .running
  links : w.options.followLinks = false
  depth : ∀ item ∈ w.queue, item.depth ≠ 0 ∧ w.options.maxDepth = some item.depth

/-- What a step comes to that takes the first entry off a queue at the depth limit: the entry is
given out if the rules keep it, the others still wait, and the limits and the rules stay. -/
structure Passes (w : Walk) (e : Entry) (rest : List Entry) (result : StepOutcome × Walk) :
    Prop where
  given : result.1.given = some ([e].filter w.keeps)
  atLimit : result.2.AtDepthLimit
  waiting : result.2.waiting = rest
  keeps : result.2.keeps = w.keeps
  options : result.2.options = w.options
  yielded : result.2.yielded = w.yielded + ([e].filter w.keeps).length
  truncated : result.2.truncated = w.truncated

variable {fs : FileSystem Id} {w : Walk}

/-! ### Steps -/

/-- If no links are followed then every entry, a link included, is what its own look-up says, and no
more is asked about it. -/
theorem resolve_of_unlinked (hlinks : w.options.followLinks = false) (item : Candidate) :
    w.resolve fs item = pure (⟨item.stats, none⟩, w) := by
  unfold resolve
  simp only [hlinks, Bool.and_false, Bool.not_false, if_true]

/-- A directory at the depth limit is not listed. Like any other entry there, it is given out unless
it is ignored, and that is all. -/
theorem lookAt_deepest {item : Candidate} (hlinks : w.options.followLinks = false)
    (hne : item.depth ≠ 0) (hdepth : w.options.maxDepth = some item.depth) :
    (w.lookAt fs item).run = w.offer item item.stats item.stats.isDirectory := by
  have hreal : ∃ real, (w.realPathOf fs item).run = .ok real := by
    unfold realPathOf
    rw [if_neg hne]
    exact ⟨_, rfl⟩
  have hdeepest : w.isDeepest item.depth = true := by
    rw [isDeepest, hdepth]
    exact beq_self_eq_true _
  have hqueued : ∀ real, w.enqueue fs item real = pure (.mayHaveChildren, w) := by
    intro real
    unfold enqueue
    rw [if_pos hdeepest]
  obtain ⟨real, hreal⟩ := hreal
  unfold lookAt
  rw [resolve_of_unlinked hlinks]
  simp only [Id.run_bind, Id.run_pure]
  cases hdirectory : item.stats.isDirectory with
  | true =>
    simp only [if_true, Id.run_bind, hreal]
    unfold lookAtDirectory
    simp only [hqueued, Id.run_bind, Id.run_pure, hdeepest, if_true]
  | false =>
    simp only [Bool.false_eq_true, if_false]
    rfl

/-- At the depth limit, with room under the entry limit, a step takes the first entry off the queue
and gives it out if the rules keep it. -/
theorem AtDepthLimit.step (h : w.AtDepthLimit) {e : Entry} {rest : List Entry}
    (hwaiting : w.waiting = e :: rest) (hroom : w.isFull = false) :
    w.Passes e rest (w.step fs).run := by
  obtain ⟨item, items, hqueue, rfl, rfl⟩ := List.map_eq_cons_iff.mp hwaiting
  obtain ⟨hne, hdepth⟩ := h.depth item (hqueue ▸ List.mem_cons_self)
  have hdeep : w.isTooDeep item.depth = false := by
    rw [isTooDeep, hdepth]
    exact decide_eq_false (Nat.lt_irrefl _)
  have hstep : (w.step fs).run
      = (w.popped items).offer item item.stats item.stats.isDirectory := by
    rw [Walk.step, h.phase]
    show (w.advance fs).run = _
    rw [advance, hqueue]
    simp only [hroom, hdeep, Bool.false_eq_true, if_false]
    exact lookAt_deepest h.links hne hdepth
  have hlast : ∀ other ∈ items, other.depth ≠ 0 ∧ w.options.maxDepth = some other.depth :=
    fun other ho => h.depth other (hqueue ▸ List.mem_cons_of_mem item ho)
  have hbelow : decide (item.depth = 0) = false := decide_eq_false hne
  rw [hstep, offer]
  simp only [hbelow, Bool.or_false]
  split
  · rename_i hignored
    have hkeeps : w.keeps (w.entryOf item) = false := congrArg Bool.not hignored
    have hnone : [w.entryOf item].filter w.keeps = [] := by simp [hkeeps]
    exact ⟨by rw [hnone]; rfl, ⟨h.phase, h.links, hlast⟩, rfl, rfl, rfl, by rw [hnone]; rfl, rfl⟩
  · rename_i hkept
    have hkeeps : w.keeps (w.entryOf item) = true :=
      congrArg Bool.not (Bool.eq_false_iff.mpr hkept)
    have hall : [w.entryOf item].filter w.keeps = [w.entryOf item] := by simp [hkeeps]
    exact ⟨by rw [hall]; rfl, ⟨h.phase, h.links, hlast⟩, rfl, rfl, rfl, by rw [hall]; rfl, rfl⟩

/-- If something is left in the queue when the entry limit has been reached then the next step ends
the walk, cut short. -/
theorem step_of_full (hphase : w.phase = .running) (hqueue : w.queue ≠ [])
    (hfull : w.isFull = true) : (w.step fs).run = (.finished, w.truncate.finish) := by
  obtain ⟨item, rest, hqueue⟩ := List.exists_cons_of_ne_nil hqueue
  rw [Walk.step, hphase]
  show (w.advance fs).run = _
  rw [advance, hqueue]
  simp only [hfull, if_true]
  rfl

/-! ### Runs -/

/-- Nothing is allowed once the limit has been reached. -/
theorem allowed_of_full (hfull : w.isFull = true) (found : List Entry) : w.allowed found = [] := by
  rw [isFull, Option.any_eq_true] at hfull
  obtain ⟨limit, hlimit, hle⟩ := hfull
  rw [allowed, hlimit]
  show found.take (limit - w.yielded) = []
  rw [Nat.sub_eq_zero_of_le (of_decide_eq_true hle), List.take_zero]

/-- Under the entry limit, what a step gives out may be given out, and after it as much as the limit
allows behind the step. -/
theorem Passes.allowed_eq {e : Entry} {rest : List Entry} {result : StepOutcome × Walk}
    (h : w.Passes e rest result) (hroom : w.isFull = false) (more : List Entry) :
    w.allowed ([e].filter w.keeps ++ more) = [e].filter w.keeps ++ result.2.allowed more := by
  have hone : ([e].filter w.keeps).length ≤ 1 := List.length_filter_le _ _
  rw [allowed, allowed, h.options, h.yielded]
  cases hlimit : w.options.maxEntries with
  | none => rfl
  | some limit =>
    rw [isFull, hlimit, Option.any_some, decide_eq_false_iff_not] at hroom
    simp only
    rw [List.take_append, List.take_of_length_le (by omega), Nat.sub_sub]

/-- What a walk at its depth limit comes to: it has given out the waiting entries that the rules
keep, up to the entry limit, and is cut short if that limit was reached in front of the last one. -/
structure GoesThrough (w : Walk) (acc : List Entry)
    (result : Except FileError (List Entry) × Walk) : Prop where
  answer : result.1 = .ok ((w.allowed (w.waiting.filter w.keeps)).reverse ++ acc)
  truncated : result.2.truncated = true ↔ w.waiting ≠ [] ∧
    w.options.maxEntries.any (· ≤ w.yielded + (w.waiting.dropLast.filter w.keeps).length) = true

/-- A walk has gone through its queue if a step has passed the first entry and the walk behind it
goes through the others. -/
theorem Passes.goesThrough {e : Entry} {rest : List Entry} {passed : StepOutcome × Walk}
    (h : w.Passes e rest passed) (hwaiting : w.waiting = e :: rest) (hroom : w.isFull = false)
    {acc : List Entry} {result : Except FileError (List Entry) × Walk}
    (hrest : passed.2.GoesThrough (([e].filter w.keeps).reverse ++ acc) result) :
    w.GoesThrough acc result := by
  obtain ⟨hanswer, htruncated⟩ := hrest
  rw [h.waiting, h.keeps] at hanswer htruncated
  have hall : (e :: rest).filter w.keeps = [e].filter w.keeps ++ rest.filter w.keeps := by
    rw [← List.filter_append, List.singleton_append]
  refine ⟨?_, ?_⟩
  · rw [hanswer, hwaiting, hall, h.allowed_eq hroom, List.reverse_append, List.append_assoc]
  · rw [htruncated, hwaiting, h.options, h.yielded]
    rcases eq_or_ne rest [] with rfl | hne
    · -- the walk ends behind the last entry whether or not the limit has been reached
      have hnot : w.options.maxEntries.any (· ≤ w.yielded) = false := hroom
      simp [hnot]
    · have hfront : (e :: rest).dropLast.filter w.keeps
          = [e].filter w.keeps ++ rest.dropLast.filter w.keeps := by
        rw [List.dropLast_cons_of_ne_nil hne, ← List.filter_append, List.singleton_append]
      rw [hfront, List.length_append, Nat.add_assoc]
      simp [hne]

/-- **A walk at its depth limit gives out the waiting entries that the rules keep**, as many as its
entry limit allows. It is cut short if the entries in front of the last one use up the limit. The
induction is on the steps, each of which takes one entry from the queue. -/
theorem AtDepthLimit.visit (fs : FileSystem Id) (steps : Nat) : ∀ {w : Walk} (acc : List Entry),
    w.AtDepthLimit → w.truncated = false → w.waiting.length < steps →
    w.GoesThrough acc (visit fs (fun entry acc => .yield (entry :: acc)) steps acc w).run := by
  induction steps with
  | zero => exact fun acc _ _ hsteps => absurd hsteps (Nat.not_lt_zero _)
  | succ steps ih =>
    intro w acc h huncut hsteps
    cases hwaiting : w.waiting with
    | nil =>
      have hqueue : w.queue = [] := List.map_eq_nil_iff.mp hwaiting
      have hallowed : w.allowed [] = [] := by
        rw [allowed]
        cases w.options.maxEntries with
        | none => rfl
        | some limit => exact List.take_nil
      rw [Walk.visit, step_of_queue_nil h.phase hqueue]
      refine ⟨?_, ?_⟩
      · rw [hwaiting, List.filter_nil, hallowed]
        rfl
      · show w.truncated = true ↔ _
        simp [huncut, hwaiting]
    | cons e rest =>
      by_cases hfull : w.isFull = true
      · have hqueue : w.queue ≠ [] := fun hnil => by simp [waiting, hnil] at hwaiting
        rw [Walk.visit]
        simp only [Id.run_bind, step_of_full h.phase hqueue hfull]
        refine ⟨?_, ?_⟩
        · rw [allowed_of_full hfull]
          rfl
        · show true = true ↔ _
          have hreached : ∀ n, w.options.maxEntries.any (· ≤ w.yielded + n) = true := by
            intro n
            rw [isFull, Option.any_eq_true] at hfull
            obtain ⟨limit, hlimit, hle⟩ := hfull
            rw [hlimit]
            exact decide_eq_true ((of_decide_eq_true hle).trans (Nat.le_add_right _ n))
          simp [hwaiting, hreached]
      · have hroom : w.isFull = false := Bool.eq_false_iff.mpr hfull
        have hpasses : w.Passes e rest (w.step fs).run := h.step hwaiting hroom
        rw [visit_of_given steps acc hpasses.given]
        apply hpasses.goesThrough hwaiting hroom
        apply ih _ hpasses.atLimit (hpasses.truncated.trans huncut)
        rw [hpasses.waiting]
        rw [hwaiting, List.length_cons] at hsteps
        omega

/-! ### The root -/

/-- A rule does not cover the directory that is its scope. -/
theorem not_covers_scope {rule : Rule} {t : Text} (h : rule.scope = canonical t)
    (isDirectory : Bool) : rule.covers (canonical t) isDirectory = false := by
  have hlength : (canonical t).length ≤ (scopeStem (canonical t)).length + 1 := by
    simp only [canonical]
    split
    · rename_i hshort
      exact hshort.trans (Nat.le_add_left 1 _)
    · rw [scopeStem, Text.dropEndWhile, Text.dropEndWhile, List.reverse_reverse,
        List.dropWhile_idempotent]
      exact Nat.le_succ _
  have hnone : (canonical t).drop ((scopeStem (canonical t)).length + 1) = [] :=
    List.drop_of_length_le hlength
  rw [Rule.covers, h, relativePath?, hnone]
  split
  · rfl
  · rfl
  · rename_i heq
    split at heq
    · cases heq
    · cases heq

/-- The rule for the repository data, which a walk begins with, does not prune the root. -/
theorem begin_enters (hrules : w.sieve.rulebook = Rulebook.empty) :
    (w.begin.sieve.enteringAfter (w.begin.sieve.verdict w.rootText true) w.rootText).enters
      = true := by
  have hnone : (w.begin.sieve.verdict w.rootText true).deciding = none := by
    rw [Sieve.verdict, Verdict.deciding_eq_none_iff]
    intro entry hentry
    rw [Sieve.rulesFor, Rulebook.mem_rulesFor] at hentry
    obtain ⟨b, hb, -, hentry⟩ := hentry
    obtain ⟨f, hread, hscope, hblocks⟩ : ∃ f : IgnoreFile, f.IsRead ∧ f.scope = w.rootText ∧
        w.begin.sieve.rulebook.blocks = w.sieve.rulebook.blocks
          ++ [w.sieve.rulebook.nextBlock f.scope f.rules f.source] :=
      ⟨(IgnoreFile.parse w.sieve.cache w.rootText (.text metadataRule) none).1,
        IgnoreFile.parse_isRead _ _ _ _, rfl, rfl⟩
    rw [hblocks, hrules] at hb
    have hrule : entry.2 ∈ f.rules := by
      have hmem := RuleBlock.mem_of_mem_numbered hentry
      rwa [List.mem_singleton.mp hb] at hmem
    obtain ⟨_, _, -, -, -, -, hruleScope⟩ := (hread entry.2 hrule).exists_read
    exact not_covers_scope (hscope ▸ hruleScope) true
  rw [Sieve.enteringAfter, hnone]
  rfl

/-- What is gathered from the listing of a directory is what the traversal makes of it, whatever
ignore files there are; the walk is changed in its sieve and its notes only. -/
theorem gather_eq (fs : FileSystem Id) (item : Candidate) (real : Text)
    (entries : List ListedEntry) : ∀ w : Walk,
    (gather fs item real w entries).run.1 = (w.traversal fs).children item real entries ∧
      ∃ sieve log, (gather fs item real w entries).run.2
        = { w with sieve := sieve, log := log } := by
  induction entries with
  | nil => exact fun w => ⟨rfl, w.sieve, w.log, rfl⟩
  | cons entry rest ih =>
    intro w
    have hpath : (w.traversal fs).pathOf = w.pathOf := rfl
    have hfiles : (w.traversal fs).files = fs := rfl
    unfold gather Traversal.children
    rw [List.filterMap_cons]
    simp only [Id.run_bind, hpath, hfiles]
    cases (fs.lstat (w.pathOf (item.names ++ [entry.name]))).run with
    | error e => exact ih (w.note _)
    | ok stats =>
      simp only
      split
      · obtain ⟨hitems, sieve, log, hafter⟩ :=
          ih (w.takeIn fs (w.pathOf (item.names ++ [entry.name]))).run
        simp only [Id.run_bind]
        exact ⟨congrArg _ hitems, sieve, log, hafter⟩
      · obtain ⟨hitems, sieve, log, hafter⟩ := ih w
        simp only [Id.run_bind, Id.run_pure]
        exact ⟨congrArg _ hitems, sieve, log, hafter⟩

/-- The entries of a directory that can be looked up, as they are queued; none if it cannot be
listed. -/
def found (w : Walk) (fs : FileSystem Id) (item : Candidate) (real : Text) : List Candidate :=
  match (fs.list (w.pathOf item.names)).run with
  | .error _ => []
  | .ok entries => (w.traversal fs).children item real entries

/-- If a directory above the depth limit is entered then its entries are added at the end of the
queue, and the walk is changed in its sieve and its notes only. -/
theorem enqueue_eq (fs : FileSystem Id) {item : Candidate} (real : Text)
    (hdeepest : w.isDeepest item.depth = false)
    (henters : (w.sieve.enteringAfter (w.sieve.verdict (w.pathOf item.names) true)
      (w.pathOf item.names)).enters = true) :
    ∃ sieve log, (w.enqueue fs item real).run.2
      = { w with queue := w.queue ++ w.found fs item real, sieve := sieve, log := log } := by
  unfold enqueue found
  simp only [hdeepest, henters, Bool.false_eq_true, Bool.not_true, if_false, Id.run_bind]
  cases (fs.list (w.pathOf item.names)).run with
  | error e =>
    simp only [List.append_nil]
    exact ⟨_, _, rfl⟩
  | ok entries =>
    cases entries with
    | nil =>
      simp only [Traversal.children, List.filterMap_nil, List.append_nil]
      exact ⟨_, _, rfl⟩
    | cons entry entries =>
      generalize hnoted : w.note _ = w'
      obtain ⟨hitems, sieve, log, hafter⟩ := gather_eq fs item real (entry :: entries) w'
      subst hnoted
      refine ⟨sieve, log, ?_⟩
      simp only [Id.run_bind, Id.run_pure, hafter, hitems]
      rfl

/-- The entries that are queued for the root are those in it that can be looked up, in the order of
the listing. -/
theorem found_root {item : Candidate} (real : Text) (hnames : item.names = []) :
    (w.found fs item real).map w.entryOf = fs.seenIn w.root := by
  rw [found, FileSystem.seenIn, pathOf, hnames, Path.descend_nil]
  cases (fs.list w.root.toText).run with
  | error e => rfl
  | ok entries =>
    simp only [Traversal.children, List.map_filterMap, hnames]
    apply congrArg (List.filterMap · entries)
    funext entry
    show Option.map _ (match (fs.lstat (w.pathOf [entry.name])).run with
        | .error _ => none
        | .ok stats => _)
      = match (fs.lstat (w.pathOf [entry.name])).run with
        | .error _ => none
        | .ok stats => _
    cases (fs.lstat (w.pathOf [entry.name])).run with
    | error e => rfl
    | ok stats => rfl

/-- The entries that are queued for the root have the depth one. -/
theorem depth_of_mem_found {item other : Candidate} {real : Text} (hnames : item.names = [])
    (h : other ∈ w.found fs item real) : other.depth = 1 := by
  unfold found at h
  split at h
  · cases h
  · rw [Traversal.children, List.mem_filterMap] at h
    obtain ⟨entry, -, hchild⟩ := h
    split at hchild
    · cases hchild
    · rw [← Option.some.inj hchild, hnames]
      rfl

/-- If directories without children do not count then a directory above the depth limit that is
entered is not given out; its entries are queued. -/
theorem lookAtDirectory_quiet {item : Candidate} (stats : FileStats) (real : Text)
    (hempty : w.options.includeEmpty = false) (hdeepest : w.isDeepest item.depth = false)
    (henters : (w.sieve.enteringAfter (w.sieve.verdict (w.pathOf item.names) true)
      (w.pathOf item.names)).enters = true) :
    (w.lookAtDirectory fs item stats real).run
      = (.quiet, (w.enqueue fs item real).run.2) := by
  obtain ⟨sieve, log, hafter⟩ := enqueue_eq fs real hdeepest henters
  unfold lookAtDirectory
  simp only [Id.run_bind]
  generalize (w.enqueue fs item real).run = queued at hafter ⊢
  obtain ⟨outcome, w'⟩ := queued
  obtain rfl : w' = _ := hafter
  have hdeepest' : ∀ queue sieve log,
      isDeepest { w with queue := queue, sieve := sieve, log := log } item.depth = false :=
    fun _ _ _ => hdeepest
  cases outcome with
  | unlistable => rfl
  | childless =>
    simp only [hempty, hdeepest', Bool.or_self, Bool.false_eq_true, if_false]
    rfl
  | mayHaveChildren =>
    simp only [hdeepest', Bool.false_eq_true, if_false]
    rfl

/-- A walk that has listed its root, and has looked at nothing else. -/
structure HasListed (options : Options) (seen : List Entry) (w : Walk) : Prop where
  atLimit : w.AtDepthLimit
  waiting : w.waiting = seen
  options : w.options = options
  yielded : w.yielded = 0
  truncated : w.truncated = false

/-- **A walk of depth one lists its root with its first step**: everything in it that can be looked
at is queued, and lies at the depth limit. -/
theorem step_lists {root : Path} {options : Options} (hentries : options.maxEntries = none)
    (hlinks : options.followLinks = false) (hdepth : options.maxDepth = some 1)
    (hempty : options.includeEmpty = false) {w₀ : Walk}
    (hstart : ((Walk.new root options).start fs).run = (.ok (), w₀)) {real : Text}
    (hreal : (fs.realPath root.toText).run = .ok real) :
    ∃ w₁, (w₀.step fs).run = (.quiet, w₁) ∧ w₁.HasListed options (fs.seenIn root) := by
  obtain ⟨stats, -, haccepted⟩ := start_accepted hstart
  obtain ⟨hyielded, huncut, -⟩ := start_withLimit hstart none
  have hoptions : (w₀.begin.popped []).options = options := haccepted.options
  have hroot : (w₀.begin.popped []).root = root := haccepted.root
  have hstep := step_of_start hentries hstart
  obtain ⟨item, hitem⟩ : ∃ item : Candidate, item = ⟨[], w₀.rootStats, [], []⟩ := ⟨_, rfl⟩
  have hnames : item.names = [] := by rw [hitem]
  have hdeepest : (w₀.begin.popped []).isDeepest item.depth = false := by
    rw [isDeepest, hoptions, hdepth, Candidate.depth, hnames]
    rfl
  have henters : ((w₀.begin.popped []).sieve.enteringAfter
      ((w₀.begin.popped []).sieve.verdict ((w₀.begin.popped []).pathOf item.names) true)
      ((w₀.begin.popped []).pathOf item.names)).enters = true := by
    rw [pathOf, hnames, Path.descend_nil]
    exact begin_enters haccepted.rulebook_eq
  obtain ⟨sieve, log, hafter⟩ := enqueue_eq fs (canonical real) hdeepest henters
  refine ⟨((w₀.begin.popped []).enqueue fs item (canonical real)).run.2, ?_, ?_⟩
  · have hreal' : (fs.realPath (w₀.begin.popped []).rootText).run = .ok real := by
      rw [rootText, hroot]
      exact hreal
    rw [hstep, ← hitem, lookAt_root hnames (hitem ▸ isDirectory_of_start hstart), hreal']
    exact lookAtDirectory_quiet _ _ (hoptions ▸ hempty) hdeepest henters
  · rw [hafter]
    refine ⟨⟨rfl, hoptions ▸ hlinks, fun other hother => ?_⟩, ?_, hoptions, hyielded, huncut⟩
    · rw [depth_of_mem_found hnames hother]
      exact ⟨Nat.one_ne_zero, hoptions ▸ hdepth⟩
    · show ((w₀.begin.popped []).found fs item (canonical real)).map
        (w₀.begin.popped []).entryOf = _
      rw [found_root _ hnames, hroot]

end Walk

end TreeSieve

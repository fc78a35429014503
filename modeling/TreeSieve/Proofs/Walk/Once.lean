import TreeSieve.Proofs.Walk.Calling
import TreeSieve.Proofs.Walk.Finality

/-!
# Everything once

A run of a walk is told by its steps and by what each of them asked.

* `Stride` is the account of one step, and `Walk.strides` makes a number of steps and keeps their
  accounts.
* `Orderly` holds of a run that queues, gives out, lists and takes in nothing twice, and that asks
  about nothing but what stands in directories that it has opened before.
* `Walk.History` is the invariant that carries it from step to step: what was looked at is left
  behind for good, and what waits stands in directories that have been opened.
* `Walk.strides_orderly` says that all runs on all file systems are orderly.
-/

namespace TreeSieve

/-- The account of one step: the walk whose queue it looked at, what it came to, the calls that it
made, first one first, and the walk that it left. -/
structure Stride where
  walk : Walk
  outcome : StepOutcome
  calls : List Exchange
  next : Walk

namespace Stride

/-- The entry that was taken from the queue, unless the walk had come to its end. -/
def looked? (s : Stride) : Option Candidate :=
  if s.outcome = .finished then none else s.walk.queue.head?

/-- The entries that a step has added at the end of the queue. -/
def queued (s : Stride) : List Candidate :=
  if s.outcome = .finished then [] else s.next.queue.drop (s.walk.queue.length - 1)

/-- The entry that a step has given out, if it has given out one. -/
def given? (s : Stride) : Option Entry :=
  match s.outcome with
  | .yielded entry => some entry
  | _ => none

/-- A step that opens the directory that `directory` leads to and finds `name` in it: it takes it
from the queue as a directory above the depth limit, the rules that are known do not prune it, and
it is listed, which does not fail. -/
structure Opens (s : Stride) (directory : List Text) (name : Text) : Prop where
  looked : ∃ item, s.looked? = some item ∧ item.names = directory ∧
    s.walk.FoundDirectory item s.calls
  shallow : ∀ limit, s.walk.options.maxDepth = some limit → directory.length < limit
  entered : (s.walk.sieve.entering (s.walk.pathOf directory)).enters = true
  listed : ∃ entries, Exchange.list (s.walk.pathOf directory) (.ok entries) ∈ s.calls ∧
    name ∈ entries.map (·.name)

/-- A step whose calls are made on paths below `root` for whose directories `before` has steps that
open them; the calls that the step has made before count as well. -/
def Reaches (root : Path) (before : List Stride) (s : Stride) : Prop :=
  ∀ made call later, s.calls = made ++ call :: later →
    ∃ names, (∀ part ∈ names, Path.IsEntryName part) ∧ call.path = (root.descend names).toText ∧
      ∀ directory name, directory ++ [name] <+: names →
        ∃ opening ∈ before ++ [{ s with calls := made }], opening.Opens directory name

end Stride

/-- A run that does nothing twice: the paths that it queues are different, and so are those that it
gives out, none of them the root, those whose listing it asks for and those that it takes in as
ignore files. Whatever it asks about stands in directories that it has opened before, by an earlier
step or by an earlier call of the same one. -/
structure Orderly (root : Path) (run : List Stride) (last : Walk) : Prop where
  queued : ([] :: (run.flatMap (·.queued)).map (·.names)).Nodup
  given : ((run.filterMap (·.given?)).map (·.path)).Nodup
  below : ∀ entry ∈ run.filterMap (·.given?), entry.names ≠ []
  listed : ((run.flatMap (·.calls)).filterMap (·.listed?)).Nodup
  registered : (last.sieve.rulebook.blocks.filterMap (·.source)).Nodup
  reached : ∀ before stride after, run = before ++ stride :: after → stride.Reaches root before

namespace Walk

/-- Makes a number of steps and keeps their accounts. -/
def strides {m : Type → Type} [Monad m] (fs : FileSystem m) :
    Nat → Walk → m (List Stride × Walk)
  | 0, w => return ([], w)
  | steps + 1, w => do
    let ((outcome, next), calls) ← (w.step fs.noted).run []
    let (run, last) ← strides fs steps next
    return (⟨w.looking, outcome, calls, next⟩ :: run, last)

/-! ### What a step adds -/

/-- The names of the entries that a run has taken from the queue. -/
def lookedNames (run : List Stride) : List (List Text) :=
  (run.filterMap (·.looked?)).map (·.names)

/-- What is known of a run so far. Each path that it has given out, listed or taken in goes back to
an entry that it has looked at. -/
structure History (top : Path) (run : List Stride) (w : Walk) : Prop where
  root : w.root = top
  names : ∀ names ∈ lookedNames run, ∀ part ∈ names, Path.IsEntryName part
  looked : (lookedNames run).Nodup
  queued : ([] :: (run.flatMap (·.queued)).map (·.names)).Nodup
  given : ((run.filterMap (·.given?)).map (·.names)).Sublist (lookedNames run)
  below : ∀ entry ∈ run.filterMap (·.given?), entry.names ≠ []
  listed : ((run.flatMap (·.calls)).filterMap (·.listed?)).Sublist ((lookedNames run).map w.pathOf)
  registered : (w.sieve.rulebook.blocks.filterMap (·.source)).Nodup
  sources : ∀ source ∈ w.sieve.rulebook.blocks.filterMap (·.source), ∃ directory ∈ lookedNames run,
    ∃ name, Path.IsEntryName name ∧ source = w.pathOf (directory ++ [name])
  reached : ∀ before stride after, run = before ++ stride :: after → stride.Reaches w.root before

/-- What is known of a walk under way: nothing that waits leads to what has been looked at, all that
was ever queued waits or has been looked at, and what waits stands in directories that have been
opened. -/
structure Going (run : List Stride) (w : Walk) : Prop where
  front : w.Front
  left : ∀ names ∈ lookedNames run, w.LeftBehind names
  queued : [] :: (run.flatMap (·.queued)).map (·.names)
    = lookedNames run ++ w.queue.map (·.names)
  opened : ∀ item ∈ w.queue, ∀ directory name, directory ++ [name] <+: item.names →
    ∃ opening ∈ run, opening.Opens directory name

/-- What a step adds to a run that looks at `item` and finds the names `found` in it, none if it is
not listed. -/
structure Adds (w : Walk) (item : Candidate) (found : List Text) (stride : Stride) : Prop where
  looked : stride.looked? = some item
  given : ∀ entry, stride.given? = some entry → entry.names = item.names ∧ item.names ≠ []
  listed : (stride.calls.filterMap (·.listed?)).Sublist [w.pathOf item.names]
  nodup : found.Nodup
  names : ∀ name ∈ found, Path.IsEntryName name
  opens : ∀ name ∈ found, stride.Opens item.names name
  queued : (stride.queued.map (·.names)).Sublist (found.map (item.names ++ [·]))
  queue : stride.next.phase = .running → stride.next.queue = w.queue.tail ++ stride.queued
  root : stride.next.root = w.root
  sources : ∃ more, stride.next.sieve.rulebook.blocks = w.sieve.rulebook.blocks ++ more ∧
    (more.map (·.source)).Sublist (found.map fun name => some (w.pathOf (item.names ++ [name])))
  asked : ∀ made call later, stride.calls = made ++ call :: later →
    call.path = w.pathOf item.names ∨
      ∃ name ∈ found, call.path = w.pathOf (item.names ++ [name]) ∧
        { stride with calls := made }.Opens item.names name

/-- A call of a list in two parts stands in the first part, or in the second one with all of the
first part in front of it. -/
theorem mem_or_of_append_eq {α : Type} {front back made later : List α} {call : α}
    (h : front ++ back = made ++ call :: later) :
    call ∈ front ∨ ∃ between, made = front ++ between ∧ back = between ++ call :: later := by
  rcases List.append_eq_append_iff.mp h with ⟨between, hmade, hback⟩ | ⟨between, hfront, hcall⟩
  · exact .inr ⟨between, hmade, hback⟩
  · cases between with
    | nil => exact .inr ⟨[], by rw [hfront, List.append_nil, List.append_nil], hcall.symm⟩
    | cons first rest =>
      obtain ⟨rfl, -⟩ := List.cons.inj hcall
      exact .inl (hfront ▸ List.mem_append_right made List.mem_cons_self)

/-- A depth that is neither too deep nor the last one is less than the limit. -/
theorem lt_limit {w : Walk} {depth limit : Nat} (hdeep : w.isTooDeep depth = false)
    (hlast : w.isDeepest depth = false) (hlimit : w.options.maxDepth = some limit) :
    depth < limit := by
  have hle : depth ≤ limit := by simpa [isTooDeep, hlimit] using hdeep
  have hne : limit ≠ depth := by simpa [isDeepest, hlimit] using hlast
  omega

/-- Calls that ask for no listing list nothing. -/
theorem filterMap_listed?_eq_nil {calls : List Exchange}
    (h : ∀ call ∈ calls, call.operation ≠ .list) : calls.filterMap (·.listed?) = [] := by
  refine List.filterMap_eq_nil_iff.mpr fun call hcall => ?_
  cases call with
  | list _ _ => exact absurd rfl (h _ hcall)
  | read _ _ => rfl
  | lstat _ _ => rfl
  | stat _ _ => rfl
  | realPath _ _ => rfl

section Attending

variable {w next : Walk} {item : Candidate} {rest : List Candidate} {outcome : StepOutcome}
  (hqueue : w.queue = item :: rest) (hgoing : outcome ≠ .finished)

include hqueue hgoing

theorem looked?_of_going (calls : List Exchange) :
    Stride.looked? ⟨w, outcome, calls, next⟩ = some item := by
  rw [Stride.looked?, if_neg hgoing, hqueue, List.head?_cons]

theorem queued_of_going (calls : List Exchange) :
    Stride.queued ⟨w, outcome, calls, next⟩ = next.queue.drop rest.length := by
  rw [Stride.queued, if_neg hgoing, hqueue, List.length_cons, Nat.add_sub_cancel]

omit hqueue hgoing in
/-- If a step gives out nothing but an entry with the given names then what it has given out has
them, and is not the root. -/
theorem names_of_given? (hgiven : outcome.GivesOnly item.names) {calls : List Exchange}
    {entry : Entry} (hentry : Stride.given? ⟨w, outcome, calls, next⟩ = some entry) :
    entry.names = item.names ∧ item.names ≠ [] := by
  rw [Stride.given?] at hentry
  split at hentry
  · exact hgiven entry (Option.some.inj hentry ▸ ‹_›)
  · cases hentry

variable (hgiven : outcome.GivesOnly item.names) {own : List Exchange}
  (hown : ∀ call ∈ own, (w.popped rest).Concerns item.names call)

include hgiven hown

omit hqueue hgoing hgiven in
theorem Concerns.filterMap_listed? : own.filterMap (·.listed?) = [] :=
  filterMap_listed?_eq_nil fun call hcall hlist => (hown call hcall).not_listed (.inl hlist)

/-- A step that lists nothing adds the entry it has looked at, with no names found in it. -/
theorem Rests.adds (rests : (w.popped rest).Rests next) :
    w.Adds item [] ⟨w, outcome, own, next⟩ := by
  refine ⟨looked?_of_going hqueue hgoing _, fun _ => names_of_given? hgiven, ?_, List.nodup_nil,
    List.forall_mem_nil _, List.forall_mem_nil _, ?_, ?_, rests.root,
    ⟨[], ?_, List.Sublist.refl _⟩, ?_⟩
  · rw [Concerns.filterMap_listed? hown]
    exact List.nil_sublist _
  · rw [queued_of_going hqueue hgoing]
    rcases rests.queue with hsame | ⟨-, hempty⟩
    · rw [hsame, popped, List.drop_length]
      exact List.Sublist.refl _
    · rw [hempty, List.drop_nil]
      exact List.Sublist.refl _
  · intro hrunning
    rcases rests.queue with hsame | ⟨hended, -⟩
    · rw [queued_of_going hqueue hgoing, hsame, hqueue]
      show rest = rest ++ rest.drop rest.length
      rw [List.drop_length, List.append_nil]
    · exact absurd (hended.symm.trans hrunning) (by decide)
  · rw [rests.rulebook, List.append_nil]
    rfl
  · intro made call later hcalls
    obtain rfl : own = made ++ call :: later := hcalls
    exact .inl (hown call (List.mem_append_right made List.mem_cons_self)).path

variable {answer : Except FileError (List ListedEntry)} {below : List Exchange}
  {items : List Candidate} (shallow : (w.popped rest).isDeepest item.names.length = false)
  (entered : ((w.popped rest).sieve.entering ((w.popped rest).pathOf item.names)).enters = true)
  (hfound : (w.popped rest).FoundDirectory item own) (hdepth : w.isTooDeep item.depth = false)

include shallow entered hfound hdepth

omit hgiven hown in
/-- Calls that hold what was asked about a directory, and its listing, open it for each name of the
listing. -/
theorem opens_of_listed {made : List Exchange} (hsub : own ⊆ made)
    (hmem : .list (w.pathOf item.names) answer ∈ made) {name : Text}
    (hname : name ∈ (answer.toOption.getD []).map (·.name)) :
    Stride.Opens ⟨w, outcome, made, next⟩ item.names name := by
  refine ⟨⟨item, looked?_of_going hqueue hgoing made, rfl, hfound.mono hsub⟩, ?_, entered, ?_⟩
  · exact fun limit hlimit => lt_limit hdepth shallow hlimit
  · cases answer with
    | error e => exact absurd hname List.not_mem_nil
    | ok entries => exact ⟨entries, hmem, hname⟩

/-- A step that lists a directory adds it, with the names of the listing found in it. -/
theorem Gathers.adds (hlisting : IsListing (answer.toOption.getD []))
    (gathers : (w.popped rest).Gathers item.names (answer.toOption.getD []) below items next)
    (queue : next.queue = (w.popped rest).queue ++ items) :
    w.Adds item ((answer.toOption.getD []).map (·.name))
      ⟨w, outcome, own ++ .list (w.pathOf item.names) answer :: below, next⟩ := by
  have hbelow : below.filterMap (·.listed?) = [] := by
    refine filterMap_listed?_eq_nil fun call hcall hlist => ?_
    rcases gathers.operation call hcall with hop | ⟨hop, -⟩
    · exact absurd (hlist.symm.trans hop) (by decide)
    · exact absurd (hlist.symm.trans hop) (by decide)
  have hopens : ∀ between, ∀ name ∈ (answer.toOption.getD []).map (·.name), Stride.Opens
      ⟨w, outcome, own ++ .list (w.pathOf item.names) answer :: between, next⟩ item.names name :=
    fun between _ hname => opens_of_listed hqueue hgoing shallow entered hfound hdepth
      (List.subset_append_left own _) (List.mem_append_right own List.mem_cons_self) hname
  refine ⟨looked?_of_going hqueue hgoing _, fun _ => names_of_given? hgiven, ?_, hlisting.nodup,
    List.forall_mem_map.mpr hlisting.names, hopens below, ?_, ?_, gathers.root, ?_, ?_⟩
  · rw [List.filterMap_append, Concerns.filterMap_listed? hown, List.nil_append,
      List.filterMap_cons, hbelow]
    exact List.Sublist.refl _
  · rw [queued_of_going hqueue hgoing, queue, popped, List.drop_left, List.map_map]
    exact gathers.names
  · intro _
    rw [queued_of_going hqueue hgoing, queue, hqueue]
    show rest ++ items = rest ++ (rest ++ items).drop rest.length
    rw [List.drop_left]
  · obtain ⟨more, hmore, hsub⟩ := gathers.sources
    refine ⟨more, hmore, ?_⟩
    rw [List.map_map]
    exact hsub
  · intro made call later hcalls
    rcases mem_or_of_append_eq hcalls with hmem | ⟨between, rfl, hbetween⟩
    · exact .inl (hown call hmem).path
    · cases between with
      | nil =>
        obtain ⟨rfl, -⟩ := List.cons.inj hbetween
        exact .inl rfl
      | cons first between =>
        obtain ⟨rfl, hrest⟩ := List.cons.inj hbetween
        have hcall : call ∈ below := hrest ▸ List.mem_append_right between List.mem_cons_self
        obtain ⟨entry, hentry, hpath⟩ := gathers.path call hcall
        have hname := List.mem_map_of_mem (f := (·.name)) hentry
        exact .inr ⟨entry.name, hname, hpath, hopens between entry.name hname⟩

end Attending

/-- A step that looks at an entry adds the entry, with the names that are found in it, if it is
listed. -/
theorem Attends.adds {w next : Walk} {item : Candidate} {rest : List Candidate}
    {outcome : StepOutcome} {calls : List Exchange}
    (h : (w.popped rest).Attends item outcome calls next) (hqueue : w.queue = item :: rest)
    (hdepth : w.isTooDeep item.depth = false) (hlists : ∀ call ∈ calls, call.ListsNames) :
    ∃ found, w.Adds item found ⟨w, outcome, calls, next⟩ := by
  obtain ⟨hgoing, hgiven, own, below, rfl, hown, hfound, henqueues⟩ := h
  cases henqueues with
  | leaves rests =>
    rw [List.append_nil]
    exact ⟨[], rests.adds hqueue hgoing hgiven hown⟩
  | @lists answer below items w' shallow entered gathers queue =>
    have hlisting : IsListing (answer.toOption.getD []) := by
      cases answer with
      | error e => exact ⟨List.nodup_nil, List.forall_mem_nil _⟩
      | ok entries => exact hlists _ (List.mem_append_right own List.mem_cons_self) _ entries rfl
    exact ⟨_, Gathers.adds hqueue hgoing hgiven hown shallow entered
      (hfound (List.cons_ne_nil _ _)) hdepth hlisting gathers queue⟩

/-! ### What a step keeps -/

theorem lookedNames_concat {run : List Stride} {stride : Stride} {item : Candidate}
    (h : stride.looked? = some item) :
    lookedNames (run ++ [stride]) = lookedNames run ++ [item.names] := by
  simp [lookedNames, h]

/-- If a property of a step and those before it holds for all steps of a run, and for one more step
behind the run, then it holds for all steps of the longer run. -/
theorem forall_split_concat {run : List Stride} {stride : Stride}
    {P : List Stride → Stride → Prop}
    (h : ∀ before other after, run = before ++ other :: after → P before other)
    (hlast : P run stride) :
    ∀ before other after, run ++ [stride] = before ++ other :: after → P before other := by
  intro before other after hsplit
  rcases List.eq_nil_or_concat after with rfl | ⟨front, last, rfl⟩
  · obtain ⟨rfl, hsame⟩ := List.append_inj' hsplit rfl
    exact List.singleton_inj.mp hsame ▸ hlast
  · rw [List.concat_eq_append, ← List.cons_append, ← List.append_assoc] at hsplit
    exact h before other front (List.append_inj' hsplit rfl).1

/-- A step that makes no calls and ends the walk keeps the history of a run. -/
theorem History.idle {top : Path} {run : List Stride} {w : Walk} (h : History top run w)
    {stride : Stride} (hfinished : stride.outcome = .finished) (hcalls : stride.calls = [])
    {w' : Walk} (hroot : w'.root = w.root) (hrulebook : w'.sieve.rulebook = w.sieve.rulebook) :
    History top (run ++ [stride]) w' := by
  have hlooked : lookedNames (run ++ [stride]) = lookedNames run := by
    simp [lookedNames, Stride.looked?, hfinished]
  have hqueued : (run ++ [stride]).flatMap (·.queued) = run.flatMap (·.queued) := by
    simp [Stride.queued, hfinished]
  have hgiven : (run ++ [stride]).filterMap (·.given?) = run.filterMap (·.given?) := by
    simp [Stride.given?, hfinished]
  have hlisted : (run ++ [stride]).flatMap (·.calls) = run.flatMap (·.calls) := by
    simp [hcalls]
  have hpath : w'.pathOf = w.pathOf := by
    funext names
    rw [pathOf, pathOf, hroot]
  refine ⟨hroot.trans h.root, hlooked ▸ h.names, hlooked ▸ h.looked, hqueued ▸ h.queued, ?_,
    hgiven ▸ h.below, ?_,
    hrulebook ▸ h.registered, ?_, ?_⟩
  · rw [hgiven, hlooked]
    exact h.given
  · rw [hlisted, hlooked, hpath]
    exact h.listed
  · rw [hrulebook, hlooked, hpath]
    exact h.sources
  · rw [hroot]
    refine forall_split_concat h.reached fun made call later hmade => ?_
    rw [hcalls] at hmade
    simp at hmade

section Adding

variable {top : Path} {run : List Stride} {w : Walk} {item : Candidate} {rest : List Candidate}
  {found : List Text} {stride : Stride}

/-- The paths that a step queues are different from each other, from the root and from all that were
queued before. -/
theorem Going.nodup_queued (hg : Going run w) (hqueue : w.queue = item :: rest)
    (hnodup : ([] :: (run.flatMap (·.queued)).map (·.names)).Nodup)
    (ha : w.Adds item found stride) :
    ([] :: ((run ++ [stride]).flatMap (·.queued)).map (·.names)).Nodup := by
  have hitem : item ∈ w.queue := hqueue ▸ List.mem_cons_self
  have hnew : (stride.queued.map (·.names)).Nodup :=
    ha.queued.nodup (ha.nodup.map fun a b hab => by simpa using hab)
  have hsplit : [] :: ((run ++ [stride]).flatMap (·.queued)).map (·.names)
      = ([] :: (run.flatMap (·.queued)).map (·.names)) ++ stride.queued.map (·.names) := by
    simp
  rw [hsplit, List.nodup_append]
  refine ⟨hnodup, hnew, ?_⟩
  rw [hg.queued]
  rintro old hold new hmem rfl
  obtain ⟨name, -, hname⟩ := List.mem_map.mp (ha.queued.subset hmem)
  have hbelow : item.names <+: old := hname ▸ List.prefix_append item.names [name]
  rcases List.mem_append.mp hold with hold | hold
  · exact hg.left old hold item hitem hbelow
  · obtain ⟨other, hother, rfl⟩ := List.mem_map.mp hold
    rw [hqueue] at hother
    have hapart := hg.front.apart
    rw [hqueue, List.pairwise_cons] at hapart
    rcases List.mem_cons.mp hother with rfl | hother
    · simpa using congrArg List.length hname
    · exact (hapart.1 other hother).1 hbelow

/-- The ignore files that a step takes in are among the names found, each once and in their order.
-/
theorem Adds.exists_sources (ha : w.Adds item found stride) :
    ∃ added, stride.next.sieve.rulebook.blocks.filterMap (·.source)
        = w.sieve.rulebook.blocks.filterMap (·.source) ++ added ∧
      added.Sublist (found.map fun name => w.pathOf (item.names ++ [name])) := by
  obtain ⟨more, hblocks, hmore⟩ := ha.sources
  refine ⟨more.filterMap (·.source), by rw [hblocks, List.filterMap_append], ?_⟩
  have hsub := hmore.filterMap id
  rw [List.filterMap_map, List.filterMap_map] at hsub
  simpa [Function.comp_def] using hsub

/-- The calls of a step are made on paths below the root, and for each directory on the way some
step opens it, an earlier one or the same one before the call. -/
theorem Going.reaches (hg : Going run w) (hitem : item ∈ w.queue)
    (ha : w.Adds item found stride) : stride.Reaches w.root run := by
  have hnames := hg.front.names item hitem
  intro made call later hcalls
  rcases ha.asked made call later hcalls with hown | ⟨name, hname, hbelow, hopens⟩
  · refine ⟨item.names, hnames, hown, fun directory name hprefix => ?_⟩
    obtain ⟨opening, hmem, hopening⟩ := hg.opened item hitem directory name hprefix
    exact ⟨opening, List.mem_append_left _ hmem, hopening⟩
  · refine ⟨item.names ++ [name], Path.isEntryName_concat hnames (ha.names name hname), hbelow,
      fun directory other hprefix => ?_⟩
    rcases List.prefix_concat_iff.mp hprefix with heq | hprefix
    · obtain ⟨rfl, hsame⟩ := List.append_inj' heq rfl
      obtain rfl := List.singleton_inj.mp hsame
      exact ⟨_, List.mem_append_right _ (List.mem_singleton_self _), hopens⟩
    · obtain ⟨opening, hmem, hopening⟩ := hg.opened item hitem directory other hprefix
      exact ⟨opening, List.mem_append_left _ hmem, hopening⟩

/-- The ignore files that a step takes in are different from each other and from all that were taken
in before. -/
theorem History.nodup_sources (h : History top run w) (hg : Going run w)
    (hqueue : w.queue = item :: rest) (ha : w.Adds item found stride) :
    (stride.next.sieve.rulebook.blocks.filterMap (·.source)).Nodup := by
  have hitem : item ∈ w.queue := hqueue ▸ List.mem_cons_self
  have hnames := hg.front.names item hitem
  have hinj : ∀ {a b : List Text}, (∀ part ∈ a, Path.IsEntryName part) →
      (∀ part ∈ b, Path.IsEntryName part) → w.pathOf a = w.pathOf b → a = b :=
    fun hn ho htext => hg.front.root.descend_inj hn ho htext
  obtain ⟨added, hsources, hadded⟩ := ha.exists_sources
  rw [hsources, List.nodup_append]
  refine ⟨h.registered, hadded.nodup (ha.nodup.map_on ?_), ?_⟩
  · intro a hmem b hmem' hab
    have heq := hinj (Path.isEntryName_concat hnames (ha.names a hmem))
      (Path.isEntryName_concat hnames (ha.names b hmem')) hab
    simpa using heq
  · -- an earlier ignore file stands in a directory that has been looked at before
    rintro old hold new hmem rfl
    obtain ⟨directory, hdirectory, other, hother, rfl⟩ := h.sources old hold
    obtain ⟨name, hname, hsame⟩ := List.mem_map.mp (hadded.subset hmem)
    have heq := hinj (Path.isEntryName_concat hnames (ha.names name hname))
      (Path.isEntryName_concat (h.names directory hdirectory) hother) hsame
    rw [← (List.append_inj' heq rfl).1] at hdirectory
    exact hg.left item.names hdirectory item hitem (List.prefix_refl _)

/-- A step that looks at the first entry of the queue keeps the history of a run. -/
theorem History.adds (h : History top run w) (hg : Going run w) (hqueue : w.queue = item :: rest)
    (ha : w.Adds item found stride) : History top (run ++ [stride]) stride.next := by
  have hitem : item ∈ w.queue := hqueue ▸ List.mem_cons_self
  have hnames := hg.front.names item hitem
  have hlooked : lookedNames (run ++ [stride]) = lookedNames run ++ [item.names] :=
    lookedNames_concat ha.looked
  have hpath : stride.next.pathOf = w.pathOf := by
    funext names
    rw [pathOf, pathOf, ha.root]
  have hfresh : item.names ∉ lookedNames run :=
    fun hmem => hg.left item.names hmem item hitem (List.prefix_refl _)
  obtain ⟨added, hsources, hadded⟩ := ha.exists_sources
  refine ⟨ha.root.trans h.root, ?_, ?_, hg.nodup_queued hqueue h.queued ha, ?_, ?_, ?_,
    h.nodup_sources hg hqueue ha, ?_, ?_⟩
  · rw [hlooked]
    exact List.forall_mem_append.mpr ⟨h.names, List.forall_mem_singleton.mpr hnames⟩
  · rw [hlooked]
    exact List.nodup_append.mpr ⟨h.looked, List.nodup_singleton _, fun a ha b hb => by
      rintro rfl
      exact hfresh (List.mem_singleton.mp hb ▸ ha)⟩
  · rw [hlooked, List.filterMap_append, List.map_append]
    refine h.given.append ?_
    cases hgiven : stride.given? with
    | none => simp [hgiven]
    | some entry => simp [hgiven, (ha.given entry hgiven).1]
  · rw [List.filterMap_append]
    refine List.forall_mem_append.mpr ⟨h.below, fun entry hmem => ?_⟩
    have hentry : stride.given? = some entry := by simpa using hmem
    obtain ⟨hsame, hne⟩ := ha.given entry hentry
    exact hsame ▸ hne
  · rw [hlooked, hpath, List.flatMap_append, List.filterMap_append, List.map_append]
    refine h.listed.append ?_
    simpa using ha.listed
  · rw [hsources, hlooked, hpath]
    refine List.forall_mem_append.mpr ⟨fun source hmem => ?_, fun source hmem => ?_⟩
    · obtain ⟨directory, hdirectory, hname⟩ := h.sources source hmem
      exact ⟨directory, List.mem_append_left _ hdirectory, hname⟩
    · obtain ⟨name, hname, rfl⟩ := List.mem_map.mp (hadded.subset hmem)
      exact ⟨item.names, by simp, name, ha.names name hname, rfl⟩
  · rw [ha.root]
    exact forall_split_concat h.reached (hg.reaches hitem ha)

/-- If a step looks at the first entry of the queue and leaves the walk under way then what is known
of a walk under way holds behind it. -/
theorem Going.adds (hg : Going run w) (hqueue : w.queue = item :: rest)
    (ha : w.Adds item found stride) (hphase : stride.next.phase = .running)
    (hfront : stride.next.Front) : Going (run ++ [stride]) stride.next := by
  have hitem : item ∈ w.queue := hqueue ▸ List.mem_cons_self
  have hnext := ha.queue hphase
  rw [hqueue, List.tail_cons] at hnext
  have hlooked : lookedNames (run ++ [stride]) = lookedNames run ++ [item.names] :=
    lookedNames_concat ha.looked
  have hchild : ∀ child ∈ stride.queued, ∃ name ∈ found, child.names = item.names ++ [name] := by
    intro child hmem
    obtain ⟨name, hname, heq⟩ :=
      List.mem_map.mp (ha.queued.subset (List.mem_map_of_mem (f := (·.names)) hmem))
    exact ⟨name, hname, heq.symm⟩
  refine ⟨hfront, ?_, ?_, ?_⟩
  · intro names hmem other hother hprefix
    rw [hlooked] at hmem
    rw [hnext] at hother
    rcases List.mem_append.mp hother with hother | hother
    · rcases List.mem_append.mp hmem with hmem | hmem
      · exact hg.left names hmem other (hqueue ▸ List.mem_cons_of_mem item hother) hprefix
      · exact (hg.front.popped hqueue).2 other hother (List.mem_singleton.mp hmem ▸ hprefix)
    · obtain ⟨name, -, heq⟩ := hchild other hother
      rw [heq] at hprefix
      rcases List.mem_append.mp hmem with hmem | hmem
      · exact hg.left names hmem item hitem ((List.prefix_append _ _).trans hprefix)
      · have hlen := (List.mem_singleton.mp hmem ▸ hprefix).length_le
        rw [List.length_append, List.length_singleton] at hlen
        omega
  · have hsplit := hg.queued
    rw [hqueue] at hsplit
    rw [hlooked, hnext, List.flatMap_append, List.map_append, ← List.cons_append, hsplit]
    simp
  · intro other hother directory name hprefix
    rw [hnext] at hother
    have hold : ∀ {before}, before ∈ w.queue → directory ++ [name] <+: before.names →
        ∃ opening ∈ run ++ [stride], opening.Opens directory name := by
      intro before hmem hp
      obtain ⟨opening, hrun, hopening⟩ := hg.opened before hmem directory name hp
      exact ⟨opening, List.mem_append_left _ hrun, hopening⟩
    rcases List.mem_append.mp hother with hother | hother
    · exact hold (hqueue ▸ List.mem_cons_of_mem item hother) hprefix
    · obtain ⟨last, hlast, heq⟩ := hchild other hother
      rw [heq] at hprefix
      rcases List.prefix_concat_iff.mp hprefix with hsame | hprefix
      · obtain ⟨rfl, hname⟩ := List.append_inj' hsame rfl
        obtain rfl := List.singleton_inj.mp hname
        exact ⟨stride, by simp, ha.opens name hlast⟩
      · exact hold hitem hprefix

end Adding

/-- A step of a walk under way keeps the history of a run, and what is known of a walk under way if
it still is. -/
theorem History.step {top : Path} {run : List Stride} {w next : Walk} {outcome : StepOutcome}
    {calls : List Exchange} (h : History top run w) (hg : Going run w)
    (hmoves : w.Moves outcome next) (haccounts : w.Accounts outcome calls next)
    (hlists : ∀ call ∈ calls, call.ListsNames) :
    History top (run ++ [⟨w, outcome, calls, next⟩]) next ∧
      (next.phase = .running → Going (run ++ [⟨w, outcome, calls, next⟩]) next) := by
  cases haccounts with
  | finishes rests ended =>
    exact ⟨h.idle rfl rfl rests.root rests.rulebook,
      fun hrunning => absurd (ended.symm.trans hrunning) (by decide)⟩
  | looks queue shallow attends =>
    obtain ⟨found, hadds⟩ := attends.adds queue shallow hlists
    refine ⟨h.adds hg queue hadds, fun hrunning => hg.adds queue hadds hrunning ?_⟩
    rcases hmoves.front hg.front with hended | hfront
    · exact absurd (hended.symm.trans hrunning) (by decide)
    · exact hfront

/-- A run with a history is orderly. -/
theorem History.orderly {top : Path} {run : List Stride} {w : Walk} (h : History top run w)
    (hroot : w.root.IsRooted) : Orderly top run w := by
  refine ⟨h.queued, ?_, h.below, ?_, h.registered, h.root ▸ h.reached⟩
  · have hnodup : ((run.filterMap (·.given?)).map (·.names)).Nodup := h.given.nodup h.looked
    have hpaths : (run.filterMap (·.given?)).map (·.path)
        = ((run.filterMap (·.given?)).map (·.names)).map (Text.joinWith '/') := by
      rw [List.map_map]
      rfl
    rw [hpaths]
    refine hnodup.map_on fun a ha b hb hab => ?_
    have hname : ∀ names ∈ (run.filterMap (·.given?)).map (·.names),
        ∀ part ∈ names, Path.IsName part :=
      fun names hmem part hp => (h.names names (h.given.subset hmem) part hp).1
    rw [← Path.partsOf_joinWith (hname a ha), hab, Path.partsOf_joinWith (hname b hb)]
  · refine h.listed.nodup (h.looked.map_on fun a ha b hb hab => ?_)
    exact hroot.descend_inj (h.names a ha) (h.names b hb) hab

/-! ### Whole runs -/

/-- A walk that begins takes in no ignore file: the block that is added has no source. -/
theorem looking_sources (w : Walk) : w.looking.sieve.rulebook.blocks.filterMap (·.source)
    = w.sieve.rulebook.blocks.filterMap (·.source) := by
  unfold looking
  split
  · show (w.sieve.rulebook.blocks ++ [_]).filterMap _ = _
    rw [List.filterMap_append]
    exact List.append_nil _
  · rfl

/-- A run without steps has a history if the walk has been started, and nothing waits but the root.
-/
theorem Starts.history {top : Path} {options : Walk.Options} {asked : List Exchange} {w : Walk}
    (h : Starts top options asked w) (htop : top.IsRooted) :
    History top [] w.looking ∧ (w.looking.phase = .running → Going [] w.looking) := by
  have hblocks : w.looking.sieve.rulebook.blocks.filterMap (·.source) = [] := by
    rw [looking_sources, h.rulebook]
    rfl
  refine ⟨⟨(looking_root w).trans h.root, fun _ hmem => (nomatch hmem), List.nodup_nil,
    List.nodup_singleton [], List.Sublist.refl _, fun _ hmem => (nomatch hmem), List.nil_sublist _,
    ?_, ?_, ?_⟩, ?_⟩
  · rw [hblocks]
    exact List.nodup_nil
  · rw [hblocks]
    exact fun _ hmem => nomatch hmem
  · intro before stride after hsplit
    simp at hsplit
  · intro hrunning
    rw [looking, if_pos (h.phase_eq hrunning)]
    have hfront := begin_front (w := w) (h.root.symm ▸ htop) h.rulebook
    refine ⟨hfront, fun _ hmem => (nomatch hmem), rfl, ?_⟩
    intro item hitem directory name hprefix
    rw [List.mem_singleton.mp hitem] at hprefix
    simp at hprefix

section Runs

variable {σ : Type} {fs : FileSystem (StateM σ)} (hfs : fs.ListsNames)

include hfs

/-- A step of a walk keeps the history of a run, whatever state its files are in. -/
theorem step_history {top : Path} {run : List Stride} {w next : Walk} {outcome : StepOutcome}
    {calls : List Exchange} {s s' : σ} (h : History top run w.looking)
    (hg : w.looking.phase = .running → Going run w.looking)
    (hstep : ((w.step fs.noted).run []).run s = (((outcome, next), calls), s')) :
    History top (run ++ [⟨w.looking, outcome, calls, next⟩]) next.looking ∧
      (next.looking.phase = .running →
        Going (run ++ [⟨w.looking, outcome, calls, next⟩]) next.looking) := by
  have hnotes := step_notes hfs.answers (fun _ h => h.entryNames)
    (fun hrunning => ⟨(hg hrunning).front.root, (hg hrunning).front.names⟩) [] s
  rw [hstep] at hnotes
  obtain ⟨_, rfl, hlists, hidle, haccounts⟩ := hnotes
  by_cases hrunning : w.looking.phase = .running
  · have hgoing := hg hrunning
    have hmoves := advance_moves fs.noted hfs.noted hgoing.front.root hgoing.front.names [] s
    rw [← step_of_running fs.noted hrunning, hstep] at hmoves
    rw [(haccounts hrunning).looking_eq hrunning]
    exact h.step hgoing hmoves (haccounts hrunning) hlists
  · obtain ⟨rfl, hresult⟩ := hidle hrunning
    obtain ⟨rfl, rfl⟩ := Prod.mk.inj hresult
    exact ⟨h.idle rfl rfl rfl rfl, fun hphase => absurd hphase hrunning⟩

/-- Any number of steps of a walk keep the history of a run, whatever state its files are in. -/
theorem strides_history {top : Path} (steps : Nat) : ∀ {run : List Stride} {w : Walk},
    History top run w.looking →
    (w.looking.phase = .running → Going run w.looking) → ∀ s : σ,
      History top (run ++ ((strides fs steps w).run s).1.1)
        ((strides fs steps w).run s).1.2.looking := by
  induction steps with
  | zero =>
    intro run w h _ s
    show History top (run ++ []) w.looking
    rw [List.append_nil]
    exact h
  | succ steps ih =>
    intro run w h hg s
    rw [strides, StateT.run_bind]
    generalize hstep : ((w.step fs.noted).run []).run s = result
    obtain ⟨⟨⟨outcome, next⟩, calls⟩, s'⟩ := result
    obtain ⟨hnext, hgoing⟩ := step_history hfs h hg hstep
    have hall := ih hnext hgoing s'
    rw [List.append_assoc] at hall
    exact hall

end Runs

/-- **Nothing is visited twice, and nothing is asked about that was not opened.** On any file system
whose listings are made of distinct names, whatever else it answers and however its answers change
with the state `σ` from call to call, any number of steps of any walk make an orderly run: the paths
that are queued are different, the entries given out have different paths and are not the root, no
directory is listed twice, no ignore file is taken in twice, and each call of a step is made on a
path below the root for which each directory on the way was taken from the queue above the depth
limit, was not pruned, and was listed with the next name of the path. Starting the walk asks about
the root only. -/
theorem strides_orderly {σ : Type} (fs : FileSystem (StateM σ))
    (hlist : ∀ path s entries, ((fs.list path).run s).1 = .ok entries → IsListing entries)
    {current : Path} (habs : current.isAbsolute)
    (hcur : ∀ part ∈ current.parts, Path.IsName part) (root : Text) (options : Walk.Options)
    (s : σ) (steps : Nat) :
    let top := Path.absolute current root
    let started := (((Walk.new top options).start fs.noted).run []).run s
    let made := ((strides fs steps started.1.1.2).run started.2).1
    (∀ call ∈ started.1.2, call.path = top.toText) ∧ Orderly top made.1 made.2 := by
  intro top started made
  have hfs : fs.ListsNames := fun path s entries h => hlist path s entries h
  have htop : top.IsRooted := Path.absolute_isRooted habs hcur root
  obtain ⟨asked, hasked, -, hstarts⟩ := start_notes hfs.answers top options [] s
  obtain rfl : started.1.2 = asked := hasked
  obtain ⟨hhistory, hgoing⟩ := hstarts.history htop
  have hlast := strides_history hfs steps hhistory hgoing started.2
  rw [List.nil_append] at hlast
  have horderly := hlast.orderly (hlast.root.symm ▸ htop)
  exact ⟨hstarts.path, horderly.queued, horderly.given, horderly.below, horderly.listed,
    looking_sources made.2 ▸ horderly.registered, horderly.reached⟩

/-- A run of three steps looks at the root and at the two files in it. -/
theorem strides_orderly_fadingFiles :
    let top := Path.absolute Path.rootDirectory (Text.lit "/r")
    let started := (((Walk.new top .plain).start fadingFiles.noted).run []).run true
    let made := ((strides fadingFiles 3 started.1.1.2).run started.2).1
    lookedNames made.1 = [[], [Text.lit ".gitignore"], [Text.lit "a"]] ∧
      (∀ call ∈ started.1.2, call.path = top.toText) ∧ Orderly top made.1 made.2 :=
  ⟨by decide +kernel, strides_orderly fadingFiles fadingFiles_isListing rfl
    (by simp [Path.rootDirectory]) (Text.lit "/r") .plain true 3⟩

end Walk

end TreeSieve

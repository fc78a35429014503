import TreeSieve.Proofs.Walk.Refinement
import TreeSieve.Proofs.Walk.Tour

/-!
# Counting steps

A step counts the entry that it looks at and the entry that it gives out, so that a walk through the
places of a tour has counted all of them when its queue is empty.

* `Walk.Counts` says what a step counts, and `Walk.lookAt_counts` that it does, whatever the file
  system answers.
* `Walk.Empties` holds of a walk that comes to the end of its queue; `Walk.Follows.tours` says that
  it does so by a tour through the places of the queue.
* `Walk.Tours` is what is known of a walk that has made a tour from its root, and `Walk.start_tours`
  says that a walk does so if there is such a tour.
* `Walk.Ends` holds of a walk that comes to its end, and `Walk.start_tours_of_gather` says that a
  walk makes a tour, and so comes to its end, where recursion does.
-/

namespace TreeSieve

/-- The place that a traversal begins with does not depend on the files. -/
theorem Traversal.rootPlace_eq (fs fs' : FileSystem Id) (root : Path) (options : Walk.Options)
    (stats : FileStats) :
    Traversal.rootPlace ⟨fs', root, options⟩ stats
      = Traversal.rootPlace ⟨fs, root, options⟩ stats := by
  rw [rootPlace, rootPlace, firstRules, firstRules]

namespace Walk

section Steps

variable {m : Type → Type} [Monad m] [AlwaysMonad m]

/-- Another walk that has looked at as many entries, has given out as many and is cut short if the
first one is. -/
structure KeepsCounts (w w' : Walk) : Prop where
  visited : w'.visited = w.visited
  yielded : w'.yielded = w.yielded
  truncated : w'.truncated = w.truncated

/-- What a step has counted by looking at an entry: what it gives out, if anything, and nothing
else. -/
structure Counts (w : Walk) (result : StepOutcome × Walk) : Prop where
  visited : result.2.visited = w.visited
  yielded : result.2.yielded = w.yielded + (result.1.given.getD []).length
  truncated : result.2.truncated = w.truncated

theorem KeepsCounts.refl (w : Walk) : w.KeepsCounts w := ⟨rfl, rfl, rfl⟩

theorem KeepsCounts.note (w : Walk) (records : List LogRecord) : w.KeepsCounts (w.note records) :=
  ⟨rfl, rfl, rfl⟩

theorem KeepsCounts.trans {w w' w'' : Walk} (h : w.KeepsCounts w') (h' : w'.KeepsCounts w'') :
    w.KeepsCounts w'' :=
  ⟨h'.visited.trans h.visited, h'.yielded.trans h.yielded, h'.truncated.trans h.truncated⟩

theorem KeepsCounts.counts {w w' : Walk} (h : w.KeepsCounts w') {result : StepOutcome × Walk}
    (h' : w'.Counts result) : w.Counts result :=
  ⟨h'.visited.trans h.visited, by rw [h'.yielded, h.yielded], h'.truncated.trans h.truncated⟩

theorem KeepsCounts.counts_quiet {w w' : Walk} (h : w.KeepsCounts w') : w.Counts (.quiet, w') :=
  h.counts ⟨rfl, rfl, rfl⟩

theorem resolve_keepsCounts (fs : FileSystem m) (w : Walk) (item : Candidate) :
    Always (w.resolve fs item) fun result => w.KeepsCounts result.2 := by
  unfold resolve
  simp only
  split
  · exact always_pure (KeepsCounts.refl w)
  · refine always_bind_any fun answer => ?_
    cases answer with
    | error e => exact always_pure (KeepsCounts.note w _)
    | ok stats =>
      simp only
      split
      · exact always_pure (KeepsCounts.refl w)
      · refine always_bind_any fun real => ?_
        cases real with
        | error e => exact always_pure (KeepsCounts.note w _)
        | ok real =>
          simp only
          split
          · exact always_pure (KeepsCounts.note w _)
          · exact always_pure (KeepsCounts.refl w)

theorem takeIn_keepsCounts (fs : FileSystem m) (w : Walk) (path : Text) :
    Always (w.takeIn fs path) fun w' => w.KeepsCounts w' := by
  unfold takeIn
  exact always_bind_any fun _ => always_pure ⟨rfl, rfl, rfl⟩

theorem gather_keepsCounts (fs : FileSystem m) (item : Candidate) (real : Text)
    (entries : List ListedEntry) :
    ∀ w : Walk, Always (gather fs item real w entries) fun result => w.KeepsCounts result.2 := by
  induction entries with
  | nil =>
    intro w
    unfold gather
    exact always_pure (KeepsCounts.refl w)
  | cons entry rest ih =>
    intro w
    have hstep : ∀ w₁ : Walk, w.KeepsCounts w₁ →
        Always (gather fs item real w₁ rest) fun result => w.KeepsCounts result.2 :=
      fun w₁ h₁ => always_mono (ih w₁) fun result h => h₁.trans h
    unfold gather
    refine always_bind_any fun answer => ?_
    cases answer with
    | error e => exact always_mono (ih _) fun result h => (KeepsCounts.note w _).trans h
    | ok stats =>
      simp only
      split
      · refine always_bind_of (takeIn_keepsCounts fs w _) fun w₁ h₁ => ?_
        exact always_bind_of (hstep w₁ h₁) fun result h => always_pure h
      · refine always_bind_of (always_pure (KeepsCounts.refl w)) fun w₁ h₁ => ?_
        exact always_bind_of (hstep w₁ h₁) fun result h => always_pure h

theorem enqueue_keepsCounts (fs : FileSystem m) (w : Walk) (item : Candidate) (real : Text) :
    Always (w.enqueue fs item real) fun result => w.KeepsCounts result.2 := by
  unfold enqueue
  split
  · exact always_pure (KeepsCounts.refl w)
  · simp only
    split
    · exact always_pure (KeepsCounts.note w _)
    · refine always_bind_any fun answer => ?_
      cases answer with
      | error e => exact always_pure ((KeepsCounts.note w _).trans (KeepsCounts.note _ _))
      | ok entries =>
        cases entries with
        | nil => exact always_pure (KeepsCounts.note w _)
        | cons entry entries =>
          refine always_bind_of (gather_keepsCounts fs item real _ _) fun result h => ?_
          exact always_pure ⟨h.visited, h.yielded, h.truncated⟩

theorem offer_counts (w : Walk) (item : Candidate) (stats : FileStats) (isDirectory : Bool) :
    w.Counts (w.offer item stats isDirectory) := by
  unfold offer
  simp only
  split
  · exact ⟨rfl, rfl, rfl⟩
  · exact ⟨rfl, rfl, rfl⟩

theorem lookAtDirectory_counts (fs : FileSystem m) (w : Walk) (item : Candidate)
    (stats : FileStats) (real : Text) :
    Always (w.lookAtDirectory fs item stats real) fun result => w.Counts result := by
  unfold lookAtDirectory
  refine always_bind_of (enqueue_keepsCounts fs w item real) ?_
  rintro ⟨outcome, w'⟩ hkeeps
  cases outcome with
  | unlistable => exact always_pure hkeeps.counts_quiet
  | childless =>
    simp only
    split
    · exact always_pure (hkeeps.counts (offer_counts w' item stats true))
    · exact always_pure hkeeps.counts_quiet
  | mayHaveChildren =>
    simp only
    split
    · exact always_pure (hkeeps.counts (offer_counts w' item stats true))
    · exact always_pure hkeeps.counts_quiet

/-- A step counts what it gives out, whatever the file system answers. -/
theorem lookAt_counts (fs : FileSystem m) (w : Walk) (item : Candidate) :
    Always (w.lookAt fs item) fun result => w.Counts result := by
  unfold lookAt
  refine always_bind_of (resolve_keepsCounts fs w item) ?_
  rintro ⟨found, w'⟩ hkeeps
  have hdirectory : ∀ real, Always (w'.lookAtDirectory fs item found.stats real)
      fun result => w.Counts result :=
    fun real => always_mono (lookAtDirectory_counts fs w' item found.stats real)
      fun result h => hkeeps.counts h
  simp only
  split
  · split
    · exact hdirectory _
    · refine always_bind_any fun answer => ?_
      cases answer with
      | error e => exact always_pure (hkeeps.counts ⟨rfl, rfl, rfl⟩)
      | ok real => exact hdirectory real
  · exact always_pure (hkeeps.counts (offer_counts w' item found.stats false))

end Steps

/-! ### Runs -/

section Runs

variable {fs : FileSystem Id}

theorem runFor_succ (steps : Nat) (w : Walk) :
    (runFor fs (steps + 1) w).run = (runFor fs steps (w.step fs).run.2).run := rfl

theorem runFor_add (steps more : Nat) (w : Walk) :
    (runFor fs (steps + more) w).run = (runFor fs more (runFor fs steps w).run).run := by
  induction steps generalizing w with
  | zero => rw [Nat.zero_add]; rfl
  | succ steps ih => rw [Nat.succ_add, runFor_succ, ih, runFor_succ]

/-- A walk that has ended stays as it is. -/
theorem runFor_of_ended {w : Walk} (h : w.phase = .ended) (steps : Nat) :
    (runFor fs steps w).run = w := by
  induction steps with
  | zero => rfl
  | succ steps ih =>
    have hstep : (w.step fs).run.2 = w := by
      rw [step, h]
      rfl
    rw [runFor_succ, hstep, ih]

/-- Steps of a walk whose root has been accepted are steps of the walk that has begun. -/
theorem runFor_of_ready {w : Walk} (h : w.phase = .ready) (steps : Nat) :
    (runFor fs (steps + 1) w).run = (runFor fs (steps + 1) w.begin).run := by
  have hstep : w.step fs = w.begin.step fs := by
    rw [step, step, h]
    rfl
  rw [runFor_succ, runFor_succ, hstep]

/-- A walk under way whose queue is empty after a number of steps, and not before, in which it has
given out entries and has counted them. -/
structure Empties (fs : FileSystem Id) (w : Walk) (seen : Nat) (given : List Entry) (last : Walk) :
    Prop where
  phase : last.phase = .running
  queue : last.queue = []
  visited : last.visited = w.visited + seen
  yielded : last.yielded = w.yielded + given.length
  run : (runFor fs seen w).run = last
  after : ∀ acc more,
    (visit fs (fun entry acc => .yield (entry :: acc)) (seen + 1 + more) acc w).run
      = (.ok (given.reverse ++ acc), last.finish)
  before : ∀ acc steps, steps ≤ seen →
    (visit fs (fun entry acc => .yield (entry :: acc)) steps acc w).run.2.phase = .running

theorem Empties.refl {w : Walk} (hphase : w.phase = .running) (hqueue : w.queue = []) :
    Empties fs w 0 [] w := by
  refine ⟨hphase, hqueue, rfl, rfl, rfl, fun acc more => ?_, fun acc steps hsteps => ?_⟩
  · rw [Nat.zero_add, Nat.add_comm, visit, step_of_queue_nil hphase hqueue]
    rfl
  · rw [Nat.le_zero.mp hsteps]
    exact hphase

/-- If a step looks at one entry and counts what it gives out, and the walk behind it empties its
queue, then the walk does so with one more entry looked at, and with the entries of both. -/
theorem Empties.of_step {w last : Walk} {seen : Nat} {given more : List Entry}
    (h : Empties fs (w.step fs).run.2 seen more last) (hphase : w.phase = .running)
    (hgiven : (w.step fs).run.1.given = some given)
    (hvisited : (w.step fs).run.2.visited = w.visited + 1)
    (hyielded : (w.step fs).run.2.yielded = w.yielded + given.length) :
    Empties fs w (seen + 1) (given ++ more) last := by
  refine ⟨h.phase, h.queue, ?_, ?_, ?_, fun acc rest => ?_, fun acc steps hsteps => ?_⟩
  · rw [h.visited, hvisited]
    omega
  · rw [h.yielded, hyielded, List.length_append]
    omega
  · rw [runFor_succ, h.run]
  · rw [show seen + 1 + 1 + rest = seen + 1 + rest + 1 by omega, visit_of_given _ acc hgiven,
      h.after, List.reverse_append, List.append_assoc]
  · cases steps with
    | zero => exact hphase
    | succ steps =>
      rw [visit_of_given _ acc hgiven]
      exact h.before _ steps (by omega)

/-- A step counts the entry that it looks at, and what it gives out. -/
theorem Follows.step_counts {t : Traversal} {w : Walk} (h : Follows fs t w) {place : Place}
    {queue : List Place} (hplaces : w.places = place :: queue) :
    (w.step fs).run.2.visited = w.visited + 1 ∧
      (w.step fs).run.2.yielded = w.yielded + ((w.step fs).run.1.given.getD []).length := by
  obtain ⟨item, rest, hqueue, -, -⟩ := List.map_eq_cons_iff.mp hplaces
  have hstep : w.step fs = w.advance fs := by rw [Walk.step, h.phase]
  rw [hstep, advance_eq_lookAt fs h.maxEntries hqueue (h.depth item (hqueue ▸ List.mem_cons_self))]
  have hcounts := lookAt_counts fs (w.popped rest) item
  exact ⟨hcounts.visited, hcounts.yielded⟩

/-- A walk that makes a traversal empties its queue if a tour from the places in it comes to an end:
it looks at as many entries as the tour has places, and gives out what is seen at them. -/
theorem Follows.tours {t : Traversal}
    (hlist : ∀ path entries, (fs.list path).run = .ok entries → IsListing entries)
    {places seen : List Place} (h : Drains (tour t.look) places seen) : ∀ {w : Walk},
    Follows fs t w → w.places = places →
    ∃ last, Empties fs w seen.length (seen.flatMap fun place => (t.look place).1) last := by
  induction h with
  | done =>
    intro w hw hplaces
    exact ⟨w, Empties.refl hw.phase (List.map_eq_nil_iff.mp hplaces)⟩
  | @next place queue seen _ ih =>
    intro w hw hplaces
    obtain ⟨hgiven, hnext, hqueue⟩ := hw.step hlist hplaces
    obtain ⟨hvisited, hyielded⟩ := hw.step_counts hplaces
    obtain ⟨last, hlast⟩ := ih hnext hqueue
    simp only [tour_fst, List.singleton_append, List.length_cons, List.flatMap_cons]
    rw [hgiven] at hyielded
    exact ⟨last, hlast.of_step hw.phase hgiven hvisited hyielded⟩

/-- A walk whose root has been accepted, which goes through a number of places, gives out entries
and then has nothing left. -/
structure Tours (fs : FileSystem Id) (w : Walk) (seen : Nat) (given : List Entry) (last : Walk) :
    Prop where
  phase : last.phase = .running
  queue : last.queue = []
  visited : last.visited = seen
  yielded : last.yielded = given.length
  run : (runFor fs seen w).run = last
  after : ∀ more, (runFor fs (seen + 1 + more) w).run = last.finish
  entries : ∀ more, (w.entries fs (seen + 1 + more)).run = (.ok given, last.finish)
  before : ∀ steps, steps ≤ seen → (w.entries fs steps).run.2.phase ≠ .ended

/-- A walk that comes to its end after some number of steps: whenever it has, it has given out the
same entries and is in the same state. -/
structure Ends (fs : FileSystem Id) (w : Walk) (given : List Entry) (last : Walk) : Prop where
  ended : ∃ steps, (w.entries fs steps).run.2.phase = .ended
  entries : ∀ steps, (w.entries fs steps).run.2.phase = .ended →
    (w.entries fs steps).run = (.ok given, last)

/-- The paths that a walk has given out when it comes to its end are those that are read off the
entries after any number of steps in which it has ended. -/
theorem Ends.paths_eq {w last : Walk} {given : List Entry} (h : Ends fs w given last) (steps : Nat)
    (hend : (w.entries fs steps).run.2.phase = .ended) {paths : List Text}
    (hpaths : (w.entries fs steps).run.1.map (List.map Entry.path) = .ok paths) :
    given.map Entry.path = paths := by
  rw [h.entries steps hend] at hpaths
  exact Except.ok.inj hpaths

/-- A walk that has made a tour comes to its end. -/
theorem Tours.ends {w last : Walk} {seen : Nat} {given : List Entry}
    (h : Tours fs w seen given last) : Ends fs w given last.finish := by
  refine ⟨⟨seen + 1 + 0, ?_⟩, fun steps hend => ?_⟩
  · rw [h.entries 0]
    rfl
  · by_cases hsteps : steps ≤ seen
    · exact absurd hend (h.before steps hsteps)
    · have hmore := h.entries (steps - (seen + 1))
      rwa [show seen + 1 + (steps - (seen + 1)) = steps by omega] at hmore

/-- Let a root be accepted and have a real path, and let a tour from it come to an end. Then the
walk looks at as many entries as the tour has places, gives out what is seen at them and has nothing
left. -/
theorem start_tours
    (hlist : ∀ path entries, (fs.list path).run = .ok entries → IsListing entries) {root : Path}
    (hroot : root.IsRooted) {options : Walk.Options} (hlimit : options.maxEntries = none)
    {w : Walk} (hstart : ((Walk.new root options).start fs).run = (.ok (), w))
    (hreal : ∃ real, (fs.realPath root.toText).run = .ok real) {seen : List Place}
    (h : Drains (tour (Traversal.look ⟨fs, root, options⟩))
      [Traversal.rootPlace ⟨fs, root, options⟩ w.rootStats] seen) :
    ∃ last, Tours fs w seen.length
      (seen.flatMap fun place => (Traversal.look ⟨fs, root, options⟩ place).1) last := by
  obtain ⟨stats, -, haccepted⟩ := start_accepted hstart
  have hcounts : (Walk.new root options).KeepsCounts w := by
    obtain ⟨_, -, rfl⟩ := start_eq_of_ok hstart
    exact ⟨rfl, rfl, rfl⟩
  obtain ⟨hfollows, hplaces⟩ := start_follows hroot hlimit hstart hreal
  obtain ⟨last, hlast⟩ := hfollows.tours hlist h hplaces
  have hvisited : w.begin.visited = 0 := hcounts.visited
  have hyielded : w.begin.yielded = 0 := hcounts.yielded
  have hone := h.length_le
  rw [List.length_singleton] at hone
  obtain ⟨count, hcount⟩ : ∃ count, seen.length = count + 1 := ⟨seen.length - 1, by omega⟩
  have hran : (runFor fs seen.length w).run = last := by
    rw [hcount, runFor_of_ready haccepted.phase, ← hcount, hlast.run]
  refine ⟨last, hlast.phase, hlast.queue, ?_, ?_, hran, fun more => ?_, fun more => ?_, ?_⟩
  · rw [hlast.visited, hvisited, Nat.zero_add]
  · rw [hlast.yielded, hyielded, Nat.zero_add]
  · rw [Nat.add_assoc, runFor_add, hran, Nat.add_comm, runFor_succ,
      step_of_queue_nil hlast.phase hlast.queue]
    exact runFor_of_ended rfl more
  · rw [show seen.length + 1 + more = seen.length + more + 1 by omega,
      entries_of_ready fs haccepted.phase, show seen.length + more + 1 = seen.length + 1 + more by
        omega, hlast.after, List.append_nil]
    refine congrArg (·, last.finish) ?_
    exact congrArg Except.ok (List.reverse_reverse _)
  · intro steps hsteps
    cases steps with
    | zero =>
      show w.phase ≠ .ended
      rw [haccepted.phase]
      decide
    | succ steps =>
      rw [entries_of_ready fs haccepted.phase]
      show (visit fs _ (steps + 1) [] w.begin).run.2.phase ≠ .ended
      rw [hlast.before [] (steps + 1) hsteps]
      decide

/-- Let a root be accepted and have a real path, and let recursion come to an end there. Then the
walk has nothing left after it has looked at as many entries as recursion finds places: it makes a
tour of them, in another order. -/
theorem start_tours_of_gather
    (hlist : ∀ path entries, (fs.list path).run = .ok entries → IsListing entries) {root : Path}
    (hroot : root.IsRooted) {options : Walk.Options} (hlimit : options.maxEntries = none)
    {w : Walk} (hstart : ((Walk.new root options).start fs).run = (.ok (), w))
    (hreal : ∃ real, (fs.realPath root.toText).run = .ok real) {fuel : Nat} {found : List Place}
    (h : TreeSieve.gather (tour (Traversal.look ⟨fs, root, options⟩)) fuel
      (Traversal.rootPlace ⟨fs, root, options⟩ w.rootStats) = some found) :
    ∃ seen last, seen.Perm found ∧
      Drains (tour (Traversal.look ⟨fs, root, options⟩))
        [Traversal.rootPlace ⟨fs, root, options⟩ w.rootStats] seen ∧
      Tours fs w seen.length
        (seen.flatMap fun place => (Traversal.look ⟨fs, root, options⟩ place).1) last := by
  have hqueue : concatAll (TreeSieve.gather (tour (Traversal.look ⟨fs, root, options⟩)) fuel)
      [Traversal.rootPlace ⟨fs, root, options⟩ w.rootStats] = some (found ++ []) :=
    concatAll_cons_eq_some.mpr ⟨found, [], h, rfl, rfl⟩
  rw [List.append_nil] at hqueue
  obtain ⟨seen, hseen, hperm⟩ := exists_drains_of_gather _ fuel _ found rfl hqueue
  obtain ⟨last, htours⟩ := start_tours hlist hroot hlimit hstart hreal hseen
  exact ⟨seen, last, hperm, hseen, htours⟩

end Runs

end Walk

end TreeSieve

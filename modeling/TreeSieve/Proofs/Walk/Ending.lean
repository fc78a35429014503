import TreeSieve.Proofs.Walk.Counts

/-!
# How a walk ends

A walk may come to its end with a failure: the real path of its root is asked for, and only that.

* `Walk.Closes` holds of a walk that comes to its end with an answer, and `Walk.Closes.of_ended`
  says that it is enough to have seen the end once.
* `Walk.step_of_unreal` says that a walk fails with its first step if its root has no real path, and
  `Walk.closes_of_unreal` that this is its end.
* `Walk.closes_of_gather` and `Walk.Closes.exists_gather` say that otherwise a walk comes to its end
  where recursion does, with what recursion finds.
-/

namespace TreeSieve

namespace Walk

variable {fs : FileSystem Id}

/-! ### More steps -/

/-- For a walk that has come to its end, more steps give out the same and leave the walk the same.
-/
theorem visit_add_of_ended (steps more : Nat) : ∀ (acc : List Entry) (w : Walk),
    (visit fs (fun entry acc => .yield (entry :: acc)) steps acc w).run.2.phase = .ended →
    (visit fs (fun entry acc => .yield (entry :: acc)) (steps + more) acc w).run
      = (visit fs (fun entry acc => .yield (entry :: acc)) steps acc w).run := by
  induction steps with
  | zero =>
    intro acc w hend
    have hended : w.phase = .ended := hend
    have hstep : w.step fs = pure (.finished, w) := by rw [step, hended]
    cases more with
    | zero => rfl
    | succ more =>
      rw [Nat.zero_add, visit, visit, hstep]
      rfl
  | succ steps ih =>
    intro acc w hend
    rw [Nat.succ_add, visit, visit]
    rw [visit] at hend
    simp only [Id.run_bind] at hend ⊢
    generalize (w.step fs).run = result at hend ⊢
    obtain ⟨outcome, w'⟩ := result
    cases outcome with
    | yielded entry => exact ih (entry :: acc) w' hend
    | withheld names isDirectory => exact ih acc w' hend
    | quiet => exact ih acc w' hend
    | finished => rfl
    | failed e => rfl

theorem entries_add_of_ended {w : Walk} {steps : Nat}
    (h : (w.entries fs steps).run.2.phase = .ended) (more : Nat) :
    (w.entries fs (steps + more)).run = (w.entries fs steps).run := by
  have hvisit := visit_add_of_ended steps more [] w h
  unfold entries
  simp only [Id.run_bind, hvisit]

/-- Any two numbers of steps in which a walk comes to its end give out the same and leave it the
same. -/
theorem entries_eq_of_ended {w : Walk} {steps steps' : Nat}
    (h : (w.entries fs steps).run.2.phase = .ended)
    (h' : (w.entries fs steps').run.2.phase = .ended) :
    (w.entries fs steps).run = (w.entries fs steps').run := by
  rw [← entries_add_of_ended h' steps, Nat.add_comm, entries_add_of_ended h steps']

/-- A walk that comes to its end with an answer, the entries that it has given out or a failure, in
whatever number of steps it does so. -/
structure Closes (fs : FileSystem Id) (w : Walk) (answer : Except FileError (List Entry))
    (last : Walk) : Prop where
  ended : ∃ steps, (w.entries fs steps).run.2.phase = .ended
  entries : ∀ steps, (w.entries fs steps).run.2.phase = .ended →
    (w.entries fs steps).run = (answer, last)

/-- A walk that has ended after a number of steps comes to its end with what it has given out by
then. -/
theorem Closes.of_ended {w : Walk} {steps : Nat} (h : (w.entries fs steps).run.2.phase = .ended) :
    Closes fs w (w.entries fs steps).run.1 (w.entries fs steps).run.2 :=
  ⟨⟨steps, h⟩, fun _ h' => entries_eq_of_ended h' h⟩

/-- A walk that has ended after a number of steps without failing comes to its end with entries,
whose paths are those that it has given out by then. -/
theorem Closes.exists_of_paths {w : Walk} {steps : Nat} {paths : List Text}
    (hend : (w.entries fs steps).run.2.phase = .ended)
    (hpaths : (w.entries fs steps).run.1.map (List.map Entry.path) = .ok paths) :
    ∃ given last, Closes fs w (.ok given) last ∧ given.map Entry.path = paths := by
  have hcloses := Closes.of_ended hend
  cases hanswer : (w.entries fs steps).run.1 with
  | error e =>
    rw [hanswer] at hpaths
    cases hpaths
  | ok given =>
    rw [hanswer] at hpaths hcloses
    exact ⟨given, _, hcloses, Except.ok.inj hpaths⟩

theorem Ends.closes {w last : Walk} {given : List Entry} (h : Ends fs w given last) :
    Closes fs w (.ok given) last :=
  ⟨h.ended, h.entries⟩

/-- The answer with which a walk comes to its end is unique, and so is the walk that is left. -/
theorem Closes.unique {w last last' : Walk} {answer answer' : Except FileError (List Entry)}
    (h : Closes fs w answer last) (h' : Closes fs w answer' last') :
    answer = answer' ∧ last = last' := by
  obtain ⟨steps, hend⟩ := h.ended
  exact Prod.mk.inj ((h.entries steps hend).symm.trans (h'.entries steps hend))

/-! ### A root without a real path -/

/-- What is known of a root that was looked at without failing is that it is a directory. -/
theorem isDirectory_of_lookAtRoot {root : Text} {stats : FileStats}
    (h : (lookAtRoot fs root).run = .ok stats) : stats.isDirectory = true := by
  unfold lookAtRoot at h
  simp only [Id.run_bind] at h
  cases hlstat : (fs.lstat root).run with
  | error e =>
    rw [hlstat] at h
    cases h
  | ok found =>
    simp only [hlstat] at h
    split at h
    · simp only [Id.run_bind] at h
      cases hstat : (fs.stat root).run with
      | error e =>
        rw [hstat] at h
        cases h
      | ok target =>
        simp only [hstat, Id.run_pure] at h
        split at h
        · rename_i hdirectory
          rwa [← Except.ok.inj h]
        · cases h
    · simp only [Id.run_pure] at h
      split at h
      · rename_i hdirectory
        rwa [← Except.ok.inj h]
      · cases h

/-- An entry that is known as a directory is not known as a link. -/
theorem isSymlink_of_isDirectory {stats : FileStats} (h : stats.isDirectory = true) :
    stats.isSymlink = false := by
  rw [FileStats.isDirectory, beq_iff_eq] at h
  rw [FileStats.isSymlink, h]
  rfl

/-- Nothing more is asked about an entry that is known as a directory: it is that, and no link was
followed to it. -/
theorem resolve_of_isDirectory {w : Walk} {item : Candidate}
    (h : item.stats.isDirectory = true) : w.resolve fs item = pure (⟨item.stats, none⟩, w) := by
  unfold resolve
  simp only [isSymlink_of_isDirectory h, Bool.false_and, Bool.not_false, if_true]

/-- Looking at the root asks for its real path; without one the walk fails, and otherwise the root
is looked at as a directory. -/
theorem lookAt_root {w : Walk} {item : Candidate} (hnames : item.names = [])
    (hdirectory : item.stats.isDirectory = true) :
    (w.lookAt fs item).run = match (fs.realPath w.rootText).run with
      | .error e => (.failed e, { w with phase := .ended })
      | .ok real => (w.lookAtDirectory fs item item.stats (canonical real)).run := by
  have hpath : w.pathOf item.names = w.rootText := by
    rw [pathOf, hnames, Path.descend_nil]
    rfl
  have hdepth : item.depth = 0 := by
    rw [Candidate.depth, hnames]
    rfl
  unfold lookAt realPathOf
  simp only [resolve_of_isDirectory hdirectory, hdirectory, hdepth, hpath, if_true, Id.run_bind,
    Id.run_pure]
  cases (fs.realPath w.rootText).run with
  | error e => rfl
  | ok real => rfl

variable {root : Path} {options : Walk.Options} {w₀ : Walk}

/-- What is known of the root of a walk that has been started is that it is a directory. -/
theorem isDirectory_of_start (hstart : ((Walk.new root options).start fs).run = (.ok (), w₀)) :
    w₀.rootStats.isDirectory = true := by
  obtain ⟨stats, hlook, haccepted⟩ := start_accepted hstart
  rw [haccepted.rootStats]
  exact isDirectory_of_lookAtRoot hlook

/-- Looking at a root that has no real path fails. -/
theorem lookAt_of_unreal (hstart : ((Walk.new root options).start fs).run = (.ok (), w₀))
    {e : FileError} (hreal : (fs.realPath root.toText).run = .error e) :
    (lookAt fs (w₀.begin.popped []) ⟨[], w₀.rootStats, [], []⟩).run
      = (.failed e, { w₀.begin.popped [] with phase := .ended }) := by
  obtain ⟨stats, -, haccepted⟩ := start_accepted hstart
  have hroot : (w₀.begin.popped []).rootText = root.toText := congrArg Path.toText haccepted.root
  have hnames : (⟨[], w₀.rootStats, [], []⟩ : Candidate).names = [] := rfl
  rw [lookAt_root hnames (isDirectory_of_start hstart), hroot, hreal]

/-- A walk gives out nothing if its root has no real path. -/
theorem eq_nil_of_unreal (hstart : ((Walk.new root options).start fs).run = (.ok (), w₀))
    {e : FileError} (hreal : (fs.realPath root.toText).run = .error e) {steps : Nat}
    {given : List Entry} {last : Walk} (h : (w₀.entries fs steps).run = (.ok given, last)) :
    given = [] := by
  obtain ⟨_, -, haccepted⟩ := start_accepted hstart
  cases steps with
  | zero => exact (Except.ok.inj (Prod.mk.inj h).1).symm
  | succ steps =>
    have hstep : (w₀.begin.step fs).run.1 = .finished ∨
        (w₀.begin.step fs).run.1 = .failed e := by
      have hqueue : w₀.begin.queue = [⟨[], w₀.rootStats, [], []⟩] := rfl
      have hlook := lookAt_of_unreal hstart hreal
      rw [popped] at hlook
      rw [show w₀.begin.step fs = w₀.begin.advance fs from rfl, advance, hqueue]
      simp only
      split
      · exact Or.inl rfl
      · split
        · exact Or.inl rfl
        · exact Or.inr (congrArg Prod.fst hlook)
    rw [entries_of_ready fs haccepted.phase, visit] at h
    simp only [Id.run_bind] at h
    generalize (w₀.begin.step fs).run = result at hstep h
    obtain ⟨outcome, w'⟩ := result
    rcases hstep with rfl | rfl
    · exact (Except.ok.inj (Prod.mk.inj h).1).symm
    · cases (Prod.mk.inj h).1

/-- Without an entry limit, the first step of a walk looks at its root. -/
theorem step_of_start (hlimit : options.maxEntries = none)
    (hstart : ((Walk.new root options).start fs).run = (.ok (), w₀)) :
    (w₀.step fs).run = (lookAt fs (w₀.begin.popped []) ⟨[], w₀.rootStats, [], []⟩).run := by
  obtain ⟨stats, -, haccepted⟩ := start_accepted hstart
  have hlimit' : w₀.begin.options.maxEntries = none := by
    show w₀.options.maxEntries = none
    rw [haccepted.options]
    exact hlimit
  have hqueue : w₀.begin.queue = [⟨[], w₀.rootStats, [], []⟩] := rfl
  rw [step, haccepted.phase]
  show (w₀.begin.advance fs).run = _
  rw [advance_eq_lookAt fs hlimit' hqueue fun depth _ => Nat.zero_le depth]

/-- The first step of a walk fails if its root has no real path. -/
theorem step_of_unreal (hlimit : options.maxEntries = none)
    (hstart : ((Walk.new root options).start fs).run = (.ok (), w₀)) {e : FileError}
    (hreal : (fs.realPath root.toText).run = .error e) :
    (w₀.step fs).run = (.failed e, { w₀.begin.popped [] with phase := .ended }) := by
  rw [step_of_start hlimit hstart, lookAt_of_unreal hstart hreal]

/-- A walk that has not failed with its first step has a root with a real path. -/
theorem exists_real_of_visit (hlimit : options.maxEntries = none)
    (hstart : ((Walk.new root options).start fs).run = (.ok (), w₀)) {β : Type}
    {f : Entry → β → ForInStep β} {steps : Nat} {acc found : β}
    (h : (visit fs f steps acc w₀).run.1 = .ok found) (hsteps : steps ≠ 0) :
    ∃ real, (fs.realPath root.toText).run = .ok real := by
  obtain ⟨steps, rfl⟩ := Nat.exists_eq_succ_of_ne_zero hsteps
  cases hreal : (fs.realPath root.toText).run with
  | ok real => exact ⟨real, rfl⟩
  | error e =>
    rw [visit] at h
    simp only [Id.run_bind, step_of_unreal hlimit hstart hreal] at h
    cases h

/-- A walk fails if its root has no real path. -/
theorem closes_of_unreal (hlimit : options.maxEntries = none)
    (hstart : ((Walk.new root options).start fs).run = (.ok (), w₀)) {e : FileError}
    (hreal : (fs.realPath root.toText).run = .error e) : ∃ last, Closes fs w₀ (.error e) last := by
  have hone : (w₀.entries fs 1).run = (.error e, { w₀.begin.popped [] with phase := .ended }) := by
    unfold entries
    rw [visit]
    simp only [Id.run_bind, step_of_unreal hlimit hstart hreal]
    rfl
  have hend : (w₀.entries fs 1).run.2.phase = .ended := by rw [hone]
  exact ⟨_, hone ▸ Closes.of_ended hend⟩

/-! ### Recursion -/

section Recursion

variable
  (hlist : ∀ path entries, (fs.list path).run = .ok entries → IsListing entries)
  (hroot : root.IsRooted) (hlimit : options.maxEntries = none)
  (hstart : ((Walk.new root options).start fs).run = (.ok (), w₀))
  (hreal : ∃ real, (fs.realPath root.toText).run = .ok real)

include hlist hroot hlimit hstart hreal

/-- A walk comes to its end where recursion does, with what recursion finds, sorted by depth. -/
theorem closes_of_gather {fuel : Nat} {found : List Entry}
    (h : TreeSieve.gather (Traversal.look ⟨fs, root, options⟩) fuel
      (Traversal.rootPlace ⟨fs, root, options⟩ w₀.rootStats) = some found) :
    ∃ last, Closes fs w₀ (.ok (found.mergeSort (keyLe Entry.depth))) last := by
  obtain ⟨places, hplaces⟩ := exists_gather_tour h
  obtain ⟨seen, last, -, hdrains, htours⟩ :=
    start_tours_of_gather hlist hroot hlimit hstart hreal hplaces
  obtain ⟨fuel', found', hfound', hsorted⟩ := hdrains.of_tour.exists_gather
    (Traversal.depth_given ⟨fs, root, options⟩) (Traversal.depth_below ⟨fs, root, options⟩)
  rw [gather_unique h hfound', ← hsorted]
  exact ⟨last.finish, htours.ends.closes⟩

/-- Recursion comes to its end where a walk does, and the walk has given out what it finds. -/
theorem Closes.exists_gather {answer : Except FileError (List Entry)} {last : Walk}
    (h : Closes fs w₀ answer last) :
    ∃ fuel found, TreeSieve.gather (Traversal.look ⟨fs, root, options⟩) fuel
        (Traversal.rootPlace ⟨fs, root, options⟩ w₀.rootStats) = some found ∧
      answer = .ok (found.mergeSort (keyLe Entry.depth)) := by
  obtain ⟨steps, hend⟩ := h.ended
  obtain ⟨out, hdrains, hout⟩ := entries_drains hlist hroot hlimit hstart hreal hend
  obtain ⟨fuel, found, hfound, hsorted⟩ := hdrains.exists_gather
    (Traversal.depth_given ⟨fs, root, options⟩) (Traversal.depth_below ⟨fs, root, options⟩)
  rw [h.entries steps hend] at hout
  exact ⟨fuel, found, hfound, hsorted ▸ hout⟩

/-- A walk that comes to its end makes a tour, and gives out what there is to see at its places. -/
theorem Closes.exists_tours {answer : Except FileError (List Entry)} {last : Walk}
    (h : Closes fs w₀ answer last) :
    ∃ seen final, Drains (tour (Traversal.look ⟨fs, root, options⟩))
        [Traversal.rootPlace ⟨fs, root, options⟩ w₀.rootStats] seen ∧
      Tours fs w₀ seen.length
        (seen.flatMap fun place => (Traversal.look ⟨fs, root, options⟩ place).1) final ∧
      answer = .ok (seen.flatMap fun place => (Traversal.look ⟨fs, root, options⟩ place).1) ∧
      last = final.finish := by
  obtain ⟨fuel, found, hfound, -⟩ := h.exists_gather hlist hroot hlimit hstart hreal
  obtain ⟨places, hplaces⟩ := exists_gather_tour hfound
  obtain ⟨seen, final, -, hdrains, htours⟩ :=
    start_tours_of_gather hlist hroot hlimit hstart hreal hplaces
  exact ⟨seen, final, hdrains, htours, h.unique htours.ends.closes⟩

end Recursion

end Walk

end TreeSieve

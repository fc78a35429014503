import Mathlib.Data.List.Nodup
import TreeSieve.Proofs.Sieve.Built
import TreeSieve.Walk.Step

/-!
# What a step of a walk can do

* `Walk.Moves` lists what a step can come to, with what it leaves alone.
* `Walk.advance_moves` says that a step does nothing else, whatever the file system answers.
* `Sieve.load_adds` says that taking in an ignore file adds one block of rules, for the directory
  of the file.
-/

namespace TreeSieve

variable {m : Type → Type} [Monad m] [AlwaysMonad m]

/-- Taking in an ignore file adds one block, for the directory of the file. -/
theorem Sieve.load_adds (fs : FileSystem m) (s : Sieve) (path : Text) :
    Always (s.load fs path) fun result => ∃ block,
      result.2.rulebook.blocks = s.rulebook.blocks ++ [block] ∧
      block.scope = canonical (Path.ofText path).parent.toText := by
  unfold Sieve.load
  refine always_bind_of (IgnoreFile.load_reads fs s.cache path) ?_
  rintro ⟨f, cache⟩ ⟨-, hscope⟩
  exact always_pure ⟨_, rfl, congrArg canonical hscope⟩

namespace Walk

/-- A walk with the same root, options, phase, queue and rules; counters and notes may have changed.
-/
structure Stays (w w' : Walk) : Prop where
  root : w'.root = w.root
  options : w'.options = w.options
  phase : w'.phase = w.phase
  queue : w'.queue = w.queue
  rulebook : w'.sieve.rulebook = w.sieve.rulebook

/-- A walk with the same root, options and phase, and with more rules behind the others, all of them
for one directory. -/
structure Learns (w : Walk) (scope : Text) (w' : Walk) : Prop where
  root : w'.root = w.root
  options : w'.options = w.options
  phase : w'.phase = w.phase
  blocks : ∃ more, w'.sieve.rulebook.blocks = w.sieve.rulebook.blocks ++ more ∧
    ∀ b ∈ more, b.scope = scope

theorem Stays.refl (w : Walk) : w.Stays w := ⟨rfl, rfl, rfl, rfl, rfl⟩

theorem Stays.note (w : Walk) (records : List LogRecord) : w.Stays (w.note records) :=
  ⟨rfl, rfl, rfl, rfl, rfl⟩

theorem Stays.trans {w w' w'' : Walk} (h : w.Stays w') (h' : w'.Stays w'') : w.Stays w'' :=
  ⟨h'.root.trans h.root, h'.options.trans h.options, h'.phase.trans h.phase,
    h'.queue.trans h.queue, h'.rulebook.trans h.rulebook⟩

theorem Stays.learns {w w' : Walk} (h : w.Stays w') (scope : Text) : w.Learns scope w' :=
  ⟨h.root, h.options, h.phase, [], by rw [h.rulebook, List.append_nil], by simp⟩

theorem Learns.trans {w w' w'' : Walk} {scope : Text} (h : w.Learns scope w')
    (h' : w'.Learns scope w'') : w.Learns scope w'' := by
  obtain ⟨more, hmore, hscope⟩ := h.blocks
  obtain ⟨more', hmore', hscope'⟩ := h'.blocks
  refine ⟨h'.root.trans h.root, h'.options.trans h.options, h'.phase.trans h.phase, more ++ more',
    by rw [hmore', hmore, List.append_assoc], ?_⟩
  intro b hb
  rcases List.mem_append.mp hb with hb | hb
  · exact hscope b hb
  · exact hscope' b hb

theorem Stays.pathOf {w w' : Walk} (h : w.Stays w') : w'.pathOf = w.pathOf := by
  funext names
  rw [Walk.pathOf, Walk.pathOf, h.root]

/-- The walk without the first entry of its queue, which is looked at next. -/
def popped (w : Walk) (rest : List Candidate) : Walk :=
  { w with queue := rest, visited := w.visited + 1 }

/-- Entries that stand in the directory with the given names, no two of them under the same name. -/
structure AreBelow (names : List Text) (items : List Candidate) : Prop where
  nodup : (items.map (·.names)).Nodup
  names : ∀ item ∈ items, ∃ name, Path.IsEntryName name ∧ item.names = names ++ [name]

/-- A walk that has listed the directory that `names` lead to. -/
structure Opens (w : Walk) (names : List Text) (w' : Walk) : Prop
    extends w.Learns (canonical (w.pathOf names)) w' where
  queue : ∃ items, w'.queue = w.queue ++ items ∧ AreBelow names items

/-- What a step of a walk under way can come to. -/
inductive Moves (w : Walk) : StepOutcome → Walk → Prop
  | finishes {w' : Walk} (root : w'.root = w.root) (phase : w'.phase = .ended)
      (rulebook : w'.sieve.rulebook = w.sieve.rulebook) : Moves w .finished w'
  | breaks {w' : Walk} {e : FileError} (root : w'.root = w.root) (phase : w'.phase = .ended)
      (rulebook : w'.sieve.rulebook = w.sieve.rulebook) : Moves w (.failed e) w'
  | passes {w' : Walk} {item : Candidate} {rest : List Candidate} (queue : w.queue = item :: rest)
      (stays : (w.popped rest).Stays w') : Moves w .quiet w'
  | opens {w' : Walk} {item : Candidate} {rest : List Candidate} (queue : w.queue = item :: rest)
      (opens : (w.popped rest).Opens item.names w') : Moves w .quiet w'
  | gives {w' : Walk} {item : Candidate} {rest : List Candidate} {entry : Entry}
      (queue : w.queue = item :: rest) (stays : (w.popped rest).Stays w')
      (names : entry.names = item.names)
      (kept : w'.sieve.isIgnored (w.pathOf item.names) entry.stats.isDirectory = false) :
      Moves w (.yielded entry) w'
  | withholds {w' : Walk} {item : Candidate} {rest : List Candidate} {isDirectory : Bool}
      (queue : w.queue = item :: rest) (stays : (w.popped rest).Stays w')
      (ignored : item.names ≠ [] → w'.sieve.isIgnored (w.pathOf item.names) isDirectory = true) :
      Moves w (.withheld item.names isDirectory) w'

/-! ### The parts of a step -/

theorem resolve_stays (fs : FileSystem m) (w : Walk) (item : Candidate) :
    Always (w.resolve fs item) fun result => w.Stays result.2 := by
  unfold resolve
  simp only
  split
  · exact always_pure (Stays.refl w)
  · refine always_bind_any fun answer => ?_
    cases answer with
    | error e => exact always_pure (Stays.note w _)
    | ok stats =>
      simp only
      split
      · exact always_pure (Stays.refl w)
      · refine always_bind_any fun real => ?_
        cases real with
        | error e => exact always_pure (Stays.note w _)
        | ok real =>
          simp only
          split
          · exact always_pure (Stays.note w _)
          · exact always_pure (Stays.refl w)

theorem takeIn_learns (fs : FileSystem m) (w : Walk) (path : Text) :
    Always (w.takeIn fs path) fun w' =>
      w.Learns (canonical (Path.ofText path).parent.toText) w' ∧ w'.queue = w.queue := by
  unfold takeIn
  refine always_bind_of (Sieve.load_adds fs w.sieve path) ?_
  rintro ⟨f, sieve⟩ ⟨block, hblocks, hscope⟩
  refine always_pure ⟨⟨rfl, rfl, rfl, [block], hblocks, ?_⟩, rfl⟩
  intro b hb
  rw [List.mem_singleton.mp hb, hscope]

/-- The directory part of the path of an entry is the path of its directory. -/
theorem parent_pathOf {w : Walk} (hroot : w.root.IsRooted) {names : List Text} {name : Text}
    (hn : ∀ part ∈ names, Path.IsEntryName part) (hname : Path.IsEntryName name) :
    (Path.ofText (w.pathOf (names ++ [name]))).parent.toText = w.pathOf names := by
  have hall := Path.isEntryName_concat hn hname
  rw [pathOf, (hroot.descend hall).ofText_toText, pathOf, Path.parent, Path.descend_append]
  congr 1
  rw [Path.descend, Path.mk.injEq]
  exact ⟨rfl, List.dropLast_concat⟩

theorem gather_learns (fs : FileSystem m) (item : Candidate) (real : Text)
    (hn : ∀ part ∈ item.names, Path.IsEntryName part) (entries : List ListedEntry) :
    ∀ w : Walk, w.root.IsRooted → (∀ entry ∈ entries, Path.IsEntryName entry.name) →
      Always (gather fs item real w entries) fun result =>
        w.Learns (canonical (w.pathOf item.names)) result.2 ∧ result.2.queue = w.queue ∧
        (result.1.map (·.names)).Sublist (entries.map fun entry => item.names ++ [entry.name]) := by
  induction entries with
  | nil =>
    intro w _ _
    unfold gather
    exact always_pure ⟨(Stays.refl w).learns _, rfl, List.Sublist.refl _⟩
  | cons entry rest ih =>
    intro w hroot hnames
    have hrest : ∀ e ∈ rest, Path.IsEntryName e.name :=
      fun e he => hnames e (List.mem_cons_of_mem entry he)
    unfold gather
    refine always_bind_any fun answer => ?_
    cases answer with
    | error e =>
      refine always_mono (ih (w.note _) hroot hrest) ?_
      rintro ⟨items, w'⟩ ⟨hlearn, hqueue, hsub⟩
      exact ⟨((Stays.note w _).learns _).trans hlearn, hqueue, hsub.cons _⟩
    | ok stats =>
      have hstep : ∀ w₁ : Walk, w.Learns (canonical (w.pathOf item.names)) w₁ →
          w₁.queue = w.queue → Always (gather fs item real w₁ rest) fun result =>
            w.Learns (canonical (w.pathOf item.names)) result.2 ∧ result.2.queue = w.queue ∧
            (result.1.map (·.names)).Sublist (rest.map fun e => item.names ++ [e.name]) := by
        intro w₁ hlearn hqueue
        refine always_mono (ih w₁ (hlearn.root ▸ hroot) hrest) ?_
        rintro ⟨items, w'⟩ ⟨hlearn', hqueue', hsub⟩
        rw [pathOf, hlearn.root, ← pathOf] at hlearn'
        exact ⟨hlearn.trans hlearn', hqueue'.trans hqueue, hsub⟩
      simp only
      split
      · refine always_bind_of (takeIn_learns fs w _) ?_
        rintro w₁ ⟨hlearn, hqueue⟩
        rw [parent_pathOf hroot hn (hnames entry List.mem_cons_self)] at hlearn
        refine always_bind_of (hstep w₁ hlearn hqueue) ?_
        rintro ⟨items, w'⟩ ⟨hlearn', hqueue', hsub⟩
        exact always_pure ⟨hlearn', hqueue', hsub.cons_cons _⟩
      · refine always_bind_of (always_pure (p := fun w₁ => w₁ = w) rfl) ?_
        rintro w₁ rfl
        refine always_bind_of (hstep w₁ ((Stays.refl w₁).learns _) rfl) ?_
        rintro ⟨items, w'⟩ ⟨hlearn', hqueue', hsub⟩
        exact always_pure ⟨hlearn', hqueue', hsub.cons_cons _⟩

/-- A directory is opened only above the depth limit; otherwise its entries are left alone. -/
theorem enqueue_opens (fs : FileSystem m) (hfs : fs.ListsNames) {w : Walk} {item : Candidate}
    (hroot : w.root.IsRooted) (hn : ∀ part ∈ item.names, Path.IsEntryName part) (real : Text) :
    Always (w.enqueue fs item real) fun result =>
      w.Stays result.2 ∨
        (result.1 = .mayHaveChildren ∧ w.isDeepest item.depth = false ∧
          w.Opens item.names result.2) := by
  unfold enqueue
  split
  · exact always_pure (Or.inl (Stays.refl w))
  · rename_i hdeep
    simp only
    split
    · exact always_pure (Or.inl (Stays.note w _))
    · refine always_bind_of (hfs _) ?_
      intro answer hlisting
      cases answer with
      | error e => exact always_pure (Or.inl ((Stays.note w _).trans (Stays.note _ _)))
      | ok entries =>
        have hentries := hlisting entries rfl
        cases entries with
        | nil => exact always_pure (Or.inl (Stays.note w _))
        | cons entry entries =>
          refine always_bind_of
            (gather_learns fs item real hn (entry :: entries) _ hroot hentries.names) ?_
          rintro ⟨items, w'⟩ ⟨hlearn, hqueue, hsub⟩
          refine always_pure (Or.inr ⟨rfl, by simpa using hdeep, ?_⟩)
          refine ⟨⟨hlearn.root, hlearn.options, hlearn.phase, hlearn.blocks⟩, items, ?_, ?_, ?_⟩
          · rw [hqueue]
            rfl
          · -- names below one directory differ as their last components do
            have hmap : (entry :: entries).map (fun e => item.names ++ [e.name])
                = ((entry :: entries).map (·.name)).map (item.names ++ [·]) := by
              rw [List.map_map]
              rfl
            refine hsub.nodup (hmap ▸ hentries.nodup.map ?_)
            intro a b hab
            simpa using hab
          · intro child hchild
            have hmem := hsub.subset (List.mem_map_of_mem hchild)
            obtain ⟨e, he, heq⟩ := List.mem_map.mp hmem
            exact ⟨e.name, hentries.names e he, heq.symm⟩

/-- A step that takes the first entry off the queue and offers it is one that `Moves` lists: the
entry is given out and not ignored, or it is withheld and is ignored or the root. -/
theorem offer_moves {w w' : Walk} {item : Candidate} {rest : List Candidate}
    (hqueue : w.queue = item :: rest) (hstays : (w.popped rest).Stays w') (stats : FileStats) :
    w.Moves (w'.offer item stats stats.isDirectory).1
      (w'.offer item stats stats.isDirectory).2 := by
  have hpath : w'.pathOf = w.pathOf := hstays.pathOf
  unfold offer
  simp only
  split
  · rename_i hwithheld
    refine Moves.withholds hqueue (hstays.trans (Stays.note w' _)) ?_
    intro hne
    rw [Bool.or_eq_true, decide_eq_true_eq, Candidate.depth, List.length_eq_zero_iff] at hwithheld
    rw [← hpath]
    exact hwithheld.resolve_right hne
  · rename_i hgiven
    rw [Bool.or_eq_true, not_or, Bool.not_eq_true] at hgiven
    refine Moves.gives hqueue
      ⟨hstays.root, hstays.options, hstays.phase, hstays.queue, hstays.rulebook⟩ rfl ?_
    rw [← hpath]
    exact hgiven.1

theorem lookAtDirectory_moves (fs : FileSystem m) (hfs : fs.ListsNames) {w w' : Walk}
    {item : Candidate} {rest : List Candidate} (hroot : w.root.IsRooted)
    (hn : ∀ part ∈ item.names, Path.IsEntryName part) (hqueue : w.queue = item :: rest)
    (hstays : (w.popped rest).Stays w') {stats : FileStats} (hdir : stats.isDirectory = true)
    (real : Text) :
    Always (w'.lookAtDirectory fs item stats real) fun result => w.Moves result.1 result.2 := by
  have hoffer : ∀ w₂ : Walk, (w.popped rest).Stays w₂ →
      w.Moves (w₂.offer item stats true).1 (w₂.offer item stats true).2 := by
    intro w₂ h₂
    rw [← hdir]
    exact offer_moves hqueue h₂ stats
  have hroot' : w'.root.IsRooted := hstays.root.symm ▸ hroot
  unfold lookAtDirectory
  refine always_bind_of (enqueue_opens fs hfs hroot' hn real) ?_
  rintro ⟨outcome, w₂⟩ (hstays₂ | ⟨rfl, hdeep, hopens⟩)
  · have h₂ := hstays.trans hstays₂
    cases outcome with
    | unlistable => exact always_pure (Moves.passes hqueue h₂)
    | childless =>
      simp only
      split
      · exact always_pure (hoffer w₂ h₂)
      · exact always_pure (Moves.passes hqueue h₂)
    | mayHaveChildren =>
      simp only
      split
      · exact always_pure (hoffer w₂ h₂)
      · exact always_pure (Moves.passes hqueue h₂)
  · simp only
    split
    · rename_i hdeepest
      rw [isDeepest, hopens.options, ← isDeepest, hdeep] at hdeepest
      exact Bool.noConfusion hdeepest
    · refine always_pure (Moves.opens hqueue ?_)
      obtain ⟨⟨hr, ho, hp, hb⟩, items, hq, hbelow⟩ := hopens
      rw [hstays.rulebook, hstays.pathOf] at hb
      exact ⟨⟨hr.trans hstays.root, ho.trans hstays.options, hp.trans hstays.phase, hb⟩, items,
        hq.trans (congrArg (· ++ items) hstays.queue), hbelow⟩

theorem lookAt_moves (fs : FileSystem m) (hfs : fs.ListsNames) {w : Walk} {item : Candidate}
    {rest : List Candidate} (hroot : w.root.IsRooted)
    (hn : ∀ part ∈ item.names, Path.IsEntryName part) (hqueue : w.queue = item :: rest) :
    Always (lookAt fs (w.popped rest) item) fun result => w.Moves result.1 result.2 := by
  unfold lookAt
  refine always_bind_of (resolve_stays fs _ item) ?_
  rintro ⟨found, w'⟩ hstays
  simp only
  split
  · rename_i hdir
    split
    · exact lookAtDirectory_moves fs hfs hroot hn hqueue hstays hdir _
    · unfold realPathOf
      refine always_bind_any fun answer => ?_
      cases answer with
      | error e => exact always_pure (Moves.breaks hstays.root rfl hstays.rulebook)
      | ok real => exact lookAtDirectory_moves fs hfs hroot hn hqueue hstays hdir real
  · rename_i hdir
    rw [Bool.not_eq_true] at hdir
    have hoffer := offer_moves hqueue hstays found.stats
    rw [hdir] at hoffer
    exact always_pure hoffer

/-- A step does what `Moves` lists, whatever the file system answers. -/
theorem advance_moves (fs : FileSystem m) (hfs : fs.ListsNames) {w : Walk}
    (hroot : w.root.IsRooted)
    (hn : ∀ item ∈ w.queue, ∀ part ∈ item.names, Path.IsEntryName part) :
    Always (w.advance fs) fun result => w.Moves result.1 result.2 := by
  unfold advance
  split
  · exact always_pure (Moves.finishes rfl rfl rfl)
  · rename_i item rest hqueue
    split
    · exact always_pure (Moves.finishes rfl rfl rfl)
    · split
      · exact always_pure (Moves.finishes rfl rfl rfl)
      · exact lookAt_moves fs hfs hroot (hn item (hqueue ▸ List.mem_cons_self)) hqueue

end Walk

end TreeSieve

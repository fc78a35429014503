import TreeSieve.Proofs.Files.Noting
import TreeSieve.Proofs.Walk.Step
import TreeSieve.Walk.Start

/-!
# What a walk asks

A step of a walk looks at one entry. It may ask what the entry is, it may then list it, and only
then does it ask about what was listed.

* `Walk.Concerns` and `Walk.Gathers` say what is asked about an entry itself and about the entries
  of a directory.
* `Walk.Enqueues` says what comes of a directory: it is left alone, or it is listed above the depth
  limit and unpruned, and all that is queued or taken in was listed there.
* `Walk.Accounts` puts them together for one step, and `Walk.advance_notes` says that a step does
  nothing else, whatever the file system answers.
-/

namespace TreeSieve

section Taking

variable {m : Type → Type} [Monad m] [AlwaysMonad m] {A : Exchange → Prop} {fs : FileSystem m}
  (hfs : fs.Answers A)

include hfs

/-- Reading an ignore file asks about its path only, which is noted as its source. -/
theorem IgnoreFile.load_notes (cache : MatcherCache) (path : Text) :
    Notes A (IgnoreFile.load fs.noted cache path) fun calls result =>
      (∀ call ∈ calls, call.path = (Path.ofText path).toText ∧
        (call.operation = .lstat ∨ call.operation = .read)) ∧
      result.1.source = some (Path.ofText path).toText := by
  unfold IgnoreFile.load
  refine Notes.bind (.call (hfs.lstat _)) ?_
  rintro - answer ⟨rfl, -⟩
  have hfirst : ∀ call ∈ [Exchange.lstat (Path.ofText path).toText answer],
      call.path = (Path.ofText path).toText ∧
        (call.operation = .lstat ∨ call.operation = .read) :=
    List.forall_mem_singleton.mpr ⟨rfl, .inl rfl⟩
  cases answer with
  | error e => exact .pure ⟨hfirst, rfl⟩
  | ok stats =>
    simp only
    split
    · exact .pure ⟨hfirst, rfl⟩
    · refine Notes.bind (.call (hfs.read _)) ?_
      rintro - bytes ⟨rfl, -⟩
      have hboth : ∀ call ∈ [Exchange.lstat (Path.ofText path).toText (.ok stats)]
            ++ [Exchange.read (Path.ofText path).toText bytes],
          call.path = (Path.ofText path).toText ∧
            (call.operation = .lstat ∨ call.operation = .read) :=
        List.forall_mem_append.mpr ⟨hfirst, List.forall_mem_singleton.mpr ⟨rfl, .inr rfl⟩⟩
      cases bytes with
      | error e => exact .pure ⟨hboth, rfl⟩
      | ok bytes => exact .pure ⟨hboth, rfl⟩

/-- Taking in an ignore file asks no more than reading it, and adds one block. -/
theorem Sieve.load_notes (s : Sieve) (path : Text) :
    Notes A (s.load fs.noted path) fun calls result =>
      (∀ call ∈ calls, call.path = (Path.ofText path).toText ∧
        (call.operation = .lstat ∨ call.operation = .read)) ∧
      ∃ block, result.2.rulebook.blocks = s.rulebook.blocks ++ [block] ∧
        block.source = some (Path.ofText path).toText := by
  unfold Sieve.load
  refine Notes.bind (IgnoreFile.load_notes hfs s.cache path) ?_
  rintro calls ⟨f, cache⟩ ⟨hcalls, hsource⟩
  refine .pure ⟨?_, _, rfl, hsource⟩
  rw [List.append_nil]
  exact hcalls

end Taking

/-- An outcome that gives out nothing, or an entry with the given names, which is not the root then.
-/
def StepOutcome.GivesOnly (names : List Text) (outcome : StepOutcome) : Prop :=
  ∀ entry, outcome = .yielded entry → entry.names = names ∧ names ≠ []

namespace Walk

/-! ### What is asked -/

/-- Looking at an entry has not ended the walk, unless the entry was the root and its real path was
asked for in vain. -/
def Survives (w : Walk) (item : Candidate) (outcome : StepOutcome) (calls : List Exchange)
    (w' : Walk) : Prop :=
  ((∀ e, outcome ≠ .failed e) ∧ w'.phase = w.phase) ∨
    ∃ e, outcome = .failed e ∧ item.names = [] ∧
      Exchange.realPath (w.pathOf item.names) (.error e) ∈ calls

/-- A call that asks what an entry is, or where it leads. -/
structure Concerns (w : Walk) (names : List Text) (call : Exchange) : Prop where
  path : call.path = w.pathOf names
  operation : call.operation = .stat ∨ call.operation = .realPath

/-- An entry that was seen to be a directory: its look-up said so, or it is a link that is to be
followed and a call for what it leads to has said so. -/
def FoundDirectory (w : Walk) (item : Candidate) (calls : List Exchange) : Prop :=
  item.stats.isDirectory = true ∨
    (w.options.followLinks = true ∧ item.stats.isSymlink = true ∧
      ∃ stats, Exchange.stat (w.pathOf item.names) (.ok stats) ∈ calls ∧ stats.isDirectory = true)

/-- What has become of a walk by one entry of a listing: one more ignore file has been taken in, the
one at the path of that entry, or none; the queue stays. -/
structure Takes (w : Walk) (path : Text) (w' : Walk) : Prop where
  root : w'.root = w.root
  options : w'.options = w.options
  phase : w'.phase = w.phase
  queue : w'.queue = w.queue
  sources : ∃ more, w'.sieve.rulebook.blocks = w.sieve.rulebook.blocks ++ more ∧
    (more.map (·.source)).Sublist [some path]

/-- What comes of the entries that a directory was listed with. Each is looked up by itself, and
read only after it was found to be a regular file; what is queued or taken in is among them. -/
structure Gathers (w : Walk) (directory : List Text) (entries : List ListedEntry)
    (calls : List Exchange) (items : List Candidate) (w' : Walk) : Prop where
  root : w'.root = w.root
  options : w'.options = w.options
  phase : w'.phase = w.phase
  path : ∀ call ∈ calls, ∃ entry ∈ entries, call.path = w.pathOf (directory ++ [entry.name])
  operation : ∀ call ∈ calls, call.operation = .lstat ∨ (call.operation = .read ∧
    ∃ stats, Exchange.lstat call.path (.ok stats) ∈ calls ∧ stats.isFile = true)
  names : (items.map (·.names)).Sublist (entries.map fun entry => directory ++ [entry.name])
  known : ∀ child ∈ items, Exchange.lstat (w.pathOf child.names) (.ok child.stats) ∈ calls
  sources : ∃ more, w'.sieve.rulebook.blocks = w.sieve.rulebook.blocks ++ more ∧
    (more.map (·.source)).Sublist
      (entries.map fun entry => some (w.pathOf (directory ++ [entry.name])))

/-- A walk that has queued nothing and taken in nothing; it may have ended, and nothing waits any
longer if it came to its end. -/
structure Rests (w w' : Walk) : Prop where
  root : w'.root = w.root
  options : w'.options = w.options
  rulebook : w'.sieve.rulebook = w.sieve.rulebook
  phase : w'.phase = .ended ∨ w'.phase = w.phase
  queue : w'.queue = w.queue ∨ (w'.phase = .ended ∧ w'.queue = [])

/-- What comes of a directory: it is left alone, or it is listed above the depth limit, and what was
listed there is looked up and queued. A listing that fails is as good as an empty one. -/
inductive Enqueues (w : Walk) (names : List Text) : List Exchange → Walk → Prop
  | leaves {w' : Walk} (rests : w.Rests w') : Enqueues w names [] w'
  | lists {answer : Except FileError (List ListedEntry)} {below : List Exchange}
      {items : List Candidate} {w' : Walk} (shallow : w.isDeepest names.length = false)
      (entered : (w.sieve.entering (w.pathOf names)).enters = true)
      (gathers : w.Gathers names (answer.toOption.getD []) below items w')
      (queue : w'.queue = w.queue ++ items) :
      Enqueues w names (.list (w.pathOf names) answer :: below) w'

/-- What comes of an entry that is looked at, and the calls for it: first it is asked what the entry
is and where it leads, and only if that is a directory may it be listed, and what is in it looked
up. -/
structure Attends (w : Walk) (item : Candidate) (outcome : StepOutcome) (calls : List Exchange)
    (w' : Walk) : Prop where
  going : outcome ≠ .finished
  given : outcome.GivesOnly item.names
  asked : ∃ own rest, calls = own ++ rest ∧ (∀ call ∈ own, w.Concerns item.names call) ∧
    (rest ≠ [] → w.FoundDirectory item own) ∧ w.Enqueues item.names rest w'

/-- What a step of a walk under way comes to, with the calls that it makes. -/
inductive Accounts (w : Walk) : StepOutcome → List Exchange → Walk → Prop
  | finishes {w' : Walk} (rests : w.Rests w') (phase : w'.phase = .ended) :
      Accounts w .finished [] w'
  | looks {item : Candidate} {rest : List Candidate} {outcome : StepOutcome}
      {calls : List Exchange} {w' : Walk} (queue : w.queue = item :: rest)
      (shallow : w.isTooDeep item.depth = false)
      (attends : (w.popped rest).Attends item outcome calls w') : Accounts w outcome calls w'

/-- What comes of the start of a walk: only the root is asked about, and it is accepted if the
answer was that it is a directory or leads to one. -/
structure Starts (top : Path) (asked : Walk.Options) (calls : List Exchange) (w : Walk) :
    Prop where
  root : w.root = top
  options : w.options = asked
  rulebook : w.sieve.rulebook = Rulebook.empty
  path : ∀ call ∈ calls, call.path = top.toText
  operation : ∀ call ∈ calls, call.operation = .lstat ∨ call.operation = .stat
  phase : w.phase = .refused ∨ (w.phase = .ready ∧ ∃ stats, stats.isDirectory = true ∧
    (Exchange.lstat top.toText (.ok stats) ∈ calls ∨
      Exchange.stat top.toText (.ok stats) ∈ calls))

/-- What is asked about an entry itself lists and reads nothing. -/
theorem Concerns.not_listed {w : Walk} {names : List Text} {call : Exchange}
    (h : w.Concerns names call) : ¬(call.operation = .list ∨ call.operation = .read) := by
  rcases h.operation with hasked | hasked
  · rw [hasked]
    decide
  · rw [hasked]
    decide

theorem FoundDirectory.mono {w : Walk} {item : Candidate} {calls more : List Exchange}
    (h : w.FoundDirectory item calls) (hsub : calls ⊆ more) : w.FoundDirectory item more :=
  h.imp_right fun ⟨hfollows, hlink, stats, hmem, hdirectory⟩ =>
    ⟨hfollows, hlink, stats, hsub hmem, hdirectory⟩

/-! ### Walks that stay -/

theorem Stays.rests {w w' : Walk} (h : w.Stays w') : w.Rests w' :=
  ⟨h.root, h.options, h.rulebook, .inr h.phase, .inl h.queue⟩

theorem Stays.rests_trans {w w' w'' : Walk} (h : w.Stays w') (h' : w'.Rests w'') : w.Rests w'' :=
  ⟨h'.root.trans h.root, h'.options.trans h.options, h'.rulebook.trans h.rulebook,
    h'.phase.imp_right (·.trans h.phase), h'.queue.imp_left (·.trans h.queue)⟩

theorem Rests.trans_stays {w w' w'' : Walk} (h : w.Rests w') (h' : w'.Stays w'') : w.Rests w'' :=
  ⟨h'.root.trans h.root, h'.options.trans h.options, h'.rulebook.trans h.rulebook,
    h.phase.imp h'.phase.trans h'.phase.trans,
    h.queue.imp h'.queue.trans fun hend => ⟨h'.phase.trans hend.1, h'.queue.trans hend.2⟩⟩

/-- Whether a directory is entered depends on the rulebook of a sieve only, not on its counters. -/
theorem entering_congr {w w' : Walk} (h : w'.sieve.rulebook = w.sieve.rulebook) (path : Text) :
    w'.sieve.entering path = w.sieve.entering path := by
  unfold Sieve.entering Sieve.enteringAfter Sieve.verdict Sieve.rulesFor
  rw [h]

theorem Stays.gathers {w w' w'' : Walk} {names : List Text} {entries : List ListedEntry}
    {calls : List Exchange} {items : List Candidate} (h : w.Stays w')
    (hg : w'.Gathers names entries calls items w'') : w.Gathers names entries calls items w'' := by
  obtain ⟨root, options, phase, path, operation, hnames, known, sources⟩ := hg
  rw [h.pathOf] at path known sources
  rw [h.rulebook] at sources
  exact ⟨root.trans h.root, options.trans h.options, phase.trans h.phase, path, operation, hnames,
    known, sources⟩

theorem Stays.enqueues {w w' w'' : Walk} {names : List Text} {calls : List Exchange}
    (h : w.Stays w') (he : w'.Enqueues names calls w'') : w.Enqueues names calls w'' := by
  cases he with
  | leaves rests => exact .leaves (h.rests_trans rests)
  | lists shallow entered gathers queue =>
    rw [entering_congr h.rulebook] at entered
    rw [isDeepest, h.options] at shallow
    rw [h.pathOf] at entered ⊢
    exact .lists shallow entered (h.gathers gathers) (by rw [queue, h.queue])

theorem Enqueues.trans_stays {w w' w'' : Walk} {names : List Text} {calls : List Exchange}
    (he : w.Enqueues names calls w') (h : w'.Stays w'') : w.Enqueues names calls w'' := by
  cases he with
  | leaves rests => exact .leaves (rests.trans_stays h)
  | lists shallow entered gathers queue =>
    obtain ⟨root, options, phase, path, operation, hnames, known, sources⟩ := gathers
    rw [← h.rulebook] at sources
    exact .lists shallow entered ⟨h.root.trans root, h.options.trans options, h.phase.trans phase,
      path, operation, hnames, known, sources⟩ (h.queue.trans queue)

theorem Stays.takes {w w' : Walk} (h : w.Stays w') (path : Text) : w.Takes path w' :=
  ⟨h.root, h.options, h.phase, h.queue,
    [], by rw [h.rulebook, List.append_nil], List.nil_sublist _⟩

/-- If a directory was listed with no entries then no calls are made for it and nothing is queued.
-/
theorem Gathers.nil (w : Walk) (directory : List Text) : w.Gathers directory [] [] [] w :=
  ⟨rfl, rfl, rfl, fun _ hmem => (nomatch hmem), fun _ hmem => (nomatch hmem),
    List.Sublist.refl _, fun _ hmem => (nomatch hmem),
    [], (List.append_nil _).symm, List.Sublist.refl _⟩

/-- What comes of one entry: it is looked up, which may be followed by other calls for it, and is to
be queued if that did not fail. -/
theorem Gathers.single {w w₁ : Walk} {directory : List Text} {entry : ListedEntry}
    {answer : Except FileError FileStats} {taken : List Exchange} {first : List Candidate}
    (htakes : w.Takes (w.pathOf (directory ++ [entry.name])) w₁)
    (htaken : ∀ call ∈ taken, call.path = w.pathOf (directory ++ [entry.name]) ∧
      (call.operation = .lstat ∨
        (call.operation = .read ∧ ∃ stats, answer = .ok stats ∧ stats.isFile = true)))
    (hfirst : ∀ child ∈ first, child.names = directory ++ [entry.name] ∧ answer = .ok child.stats)
    (hsub : (first.map (·.names)).Sublist [directory ++ [entry.name]]) :
    w.Gathers directory [entry] (.lstat (w.pathOf (directory ++ [entry.name])) answer :: taken)
      first w₁ := by
  refine ⟨htakes.root, htakes.options, htakes.phase, ?_, ?_, hsub, ?_, htakes.sources⟩
  · intro call hcall
    refine ⟨entry, List.mem_singleton_self entry, ?_⟩
    rcases List.mem_cons.mp hcall with rfl | hcall
    · rfl
    · exact (htaken call hcall).1
  · intro call hcall
    rcases List.mem_cons.mp hcall with rfl | hcall
    · exact .inl rfl
    · obtain ⟨heq, hop⟩ := htaken call hcall
      rw [heq]
      refine hop.imp_right ?_
      rintro ⟨hread, stats, rfl, hfile⟩
      exact ⟨hread, stats, List.mem_cons_self, hfile⟩
  · intro child hchild
    obtain ⟨hnames, hok⟩ := hfirst child hchild
    rw [hnames, ← hok]
    exact List.mem_cons_self

/-- What comes of some entries, and then of others of the same directory, comes of all of them. -/
theorem Gathers.append {w w₁ w' : Walk} {directory : List Text} {entries more : List ListedEntry}
    {calls later : List Exchange} {items others : List Candidate}
    (h : w.Gathers directory entries calls items w₁)
    (h' : w₁.Gathers directory more later others w') :
    w.Gathers directory (entries ++ more) (calls ++ later) (items ++ others) w' := by
  have hpath : w₁.pathOf = w.pathOf := by
    funext names
    rw [pathOf, pathOf, h.root]
  obtain ⟨blocks, hblocks, hsources⟩ := h.sources
  obtain ⟨root, options, phase, path, operation, names, known, added, hadded, hmore⟩ := h'
  rw [hpath] at path known hmore
  refine ⟨root.trans h.root, options.trans h.options, phase.trans h.phase, ?_, ?_, ?_, ?_,
    blocks ++ added, ?_, ?_⟩
  · intro call hcall
    rcases List.mem_append.mp hcall with hcall | hcall
    · obtain ⟨entry, hentry, heq⟩ := h.path call hcall
      exact ⟨entry, List.mem_append_left more hentry, heq⟩
    · obtain ⟨entry, hentry, heq⟩ := path call hcall
      exact ⟨entry, List.mem_append_right entries hentry, heq⟩
  · intro call hcall
    rcases List.mem_append.mp hcall with hcall | hcall
    · refine (h.operation call hcall).imp_right ?_
      rintro ⟨hread, stats, hmem, hfile⟩
      exact ⟨hread, stats, List.mem_append_left later hmem, hfile⟩
    · refine (operation call hcall).imp_right ?_
      rintro ⟨hread, stats, hmem, hfile⟩
      exact ⟨hread, stats, List.mem_append_right calls hmem, hfile⟩
  · rw [List.map_append, List.map_append]
    exact h.names.append names
  · intro child hchild
    rcases List.mem_append.mp hchild with hchild | hchild
    · exact List.mem_append_left later (h.known child hchild)
    · exact List.mem_append_right calls (known child hchild)
  · rw [hadded, hblocks, List.append_assoc]
  · rw [List.map_append, List.map_append]
    exact hsources.append hmore

/-! ### Walks that are looked at -/

/-- The walk that the next step looks at: itself, but for one whose root has been accepted, which
begins first. -/
def looking (w : Walk) : Walk := if w.phase = .ready then w.begin else w

theorem looking_root (w : Walk) : w.looking.root = w.root := by
  unfold looking
  split
  · rfl
  · rfl

theorem step_of_running {m : Type → Type} [Monad m] (fs : FileSystem m) {w : Walk}
    (h : w.looking.phase = .running) : w.step fs = w.looking.advance fs := by
  unfold looking at h ⊢
  unfold step
  split at h
  · rename_i hready
    rw [if_pos hready, hready]
  · rename_i hready
    rw [if_neg hready, h]

theorem step_of_not_running {m : Type → Type} [Monad m] (fs : FileSystem m) {w : Walk}
    (h : w.looking.phase ≠ .running) : w.looking = w ∧ w.step fs = pure (.finished, w) := by
  unfold looking at h ⊢
  unfold step
  split at h
  · exact absurd rfl h
  · rename_i hready
    refine ⟨if_neg hready, ?_⟩
    cases hphase : w.phase with
    | unstarted => rfl
    | refused => rfl
    | ready => exact absurd hphase hready
    | running => exact absurd hphase h
    | ended => rfl

theorem looking_of_phase {w : Walk} (h : w.phase ≠ .ready) : w.looking = w := if_neg h

theorem Starts.phase_eq {top : Path} {options : Walk.Options} {calls : List Exchange} {w : Walk}
    (h : Starts top options calls w) : w.looking.phase = .running → w.phase = .ready := by
  intro hrunning
  rcases h.phase with hphase | ⟨hphase, -⟩
  · rw [looking_of_phase (by rw [hphase]; decide), hphase] at hrunning
    cases hrunning
  · exact hphase

/-- A step that does not end a walk leaves its phase as it was. -/
theorem Accounts.phase_eq {w w' : Walk} {outcome : StepOutcome} {calls : List Exchange}
    (h : w.Accounts outcome calls w') : w'.phase = .ended ∨ w'.phase = w.phase := by
  cases h with
  | finishes _ phase => exact .inl phase
  | looks queue _ attends =>
    obtain ⟨-, -, own, rest, -, -, -, henqueues⟩ := attends
    cases henqueues with
    | leaves rests => exact rests.phase
    | lists _ _ gathers _ => exact .inr gathers.phase

/-- After a step of a walk under way, the next step looks at the walk as it is: nothing is to be
begun. -/
theorem Accounts.looking_eq {w w' : Walk} {outcome : StepOutcome} {calls : List Exchange}
    (h : w.Accounts outcome calls w') (hrunning : w.phase = .running) : w'.looking = w' := by
  refine looking_of_phase ?_
  rcases h.phase_eq with hphase | hphase
  · rw [hphase]
    decide
  · rw [hphase, hrunning]
    decide

/-! ### The parts of a step -/

/-- An offer makes no calls; it leaves the queue and the rules, does not end the walk and gives out
nothing but the entry. -/
theorem offer_stays (w : Walk) (item : Candidate) (stats : FileStats) (isDirectory : Bool) :
    w.Stays (w.offer item stats isDirectory).2 ∧
      (w.offer item stats isDirectory).1 ≠ .finished ∧
      (∀ e, (w.offer item stats isDirectory).1 ≠ .failed e) ∧
      (w.offer item stats isDirectory).1.GivesOnly item.names := by
  unfold offer
  simp only
  split
  · exact ⟨Stays.note w _, by simp, by simp, fun entry h => by cases h⟩
  · rename_i hgiven
    rw [Bool.or_eq_true, not_or, decide_eq_true_eq, Candidate.depth, List.length_eq_zero_iff]
      at hgiven
    exact ⟨⟨rfl, rfl, rfl, rfl, rfl⟩, by simp, by simp,
      fun entry h => ⟨StepOutcome.yielded.inj h ▸ rfl, hgiven.2⟩⟩

section Parts

variable {m : Type → Type} [Monad m] [AlwaysMonad m] {A : Exchange → Prop} {fs : FileSystem m}
  (hfs : fs.Answers A)

include hfs

/-- Taking in the ignore file at a path asks about that path only, which is its source. -/
theorem takeIn_notes (w : Walk) {path : Text} (hpath : (Path.ofText path).toText = path) :
    Notes A (w.takeIn fs.noted path) fun calls w' => w.Takes path w' ∧
      ∀ call ∈ calls, call.path = path ∧ (call.operation = .lstat ∨ call.operation = .read) := by
  unfold takeIn
  refine Notes.bind (Sieve.load_notes hfs w.sieve path) ?_
  rw [hpath]
  rintro calls ⟨f, sieve⟩ ⟨hcalls, block, hblocks, hsource⟩
  refine .pure ⟨⟨rfl, rfl, rfl, rfl, [block], hblocks, ?_⟩, ?_⟩
  · rw [List.map_singleton, hsource]
  · rw [List.append_nil]
    exact hcalls

/-- Each call made to find out what an entry is asks about its own path; the walk stays, and if the
result is a directory then the look-up or one of the calls has said so. -/
theorem resolve_notes (w : Walk) (item : Candidate) :
    Notes A (w.resolve fs.noted item) fun calls result =>
      (∀ call ∈ calls, w.Concerns item.names call) ∧ w.Stays result.2 ∧
        (result.1.stats.isDirectory = true → w.FoundDirectory item calls) := by
  unfold resolve
  simp only
  split
  · exact .pure ⟨fun _ hmem => (nomatch hmem), Stays.refl w, .inl⟩
  · rename_i hfollow
    simp only [Bool.not_eq_true', Bool.not_eq_false, Bool.and_eq_true] at hfollow
    refine Notes.bind (.call (hfs.stat _)) ?_
    rintro - answer ⟨rfl, -⟩
    have hfirst : ∀ call ∈ [Exchange.stat (w.pathOf item.names) answer],
        w.Concerns item.names call :=
      List.forall_mem_singleton.mpr ⟨rfl, .inl rfl⟩
    cases answer with
    | error e => exact .pure ⟨hfirst, Stays.note w _, .inl⟩
    | ok stats =>
      simp only
      split
      · rename_i hdirectory
        rw [Bool.not_eq_true'] at hdirectory
        exact .pure ⟨hfirst, Stays.refl w, fun h => absurd (hdirectory.symm.trans h) (by decide)⟩
      · refine Notes.bind (.call (hfs.realPath _)) ?_
        rintro - real ⟨rfl, -⟩
        have hboth : ∀ call ∈ [Exchange.stat (w.pathOf item.names) (.ok stats)]
            ++ [Exchange.realPath (w.pathOf item.names) real], w.Concerns item.names call :=
          List.forall_mem_append.mpr ⟨hfirst, List.forall_mem_singleton.mpr ⟨rfl, .inr rfl⟩⟩
        cases real with
        | error e => exact .pure ⟨hboth, Stays.note w _, .inl⟩
        | ok real =>
          simp only
          split
          · exact .pure ⟨hboth, Stays.note w _, .inl⟩
          · exact .pure ⟨hboth, Stays.refl w, fun h =>
              .inr ⟨hfollow.2, hfollow.1, stats, by simp, h⟩⟩

/-- The real path of a directory is asked for by its own path, if at all; only that of the root can
be asked for in vain. -/
theorem realPathOf_notes (w : Walk) (item : Candidate) :
    Notes A (w.realPathOf fs.noted item) fun calls answer =>
      (∀ call ∈ calls, w.Concerns item.names call) ∧ ∀ e, answer = .error e →
        item.names = [] ∧ Exchange.realPath (w.pathOf item.names) (.error e) ∈ calls := by
  unfold realPathOf
  split
  · rename_i hdepth
    refine Notes.bind (.call (hfs.realPath _)) ?_
    rintro - answer ⟨rfl, -⟩
    refine .pure ?_
    rw [List.append_nil]
    refine ⟨List.forall_mem_singleton.mpr ⟨rfl, .inr rfl⟩, fun e he => ?_⟩
    refine ⟨List.length_eq_zero_iff.mp hdepth, List.mem_singleton.mpr ?_⟩
    cases answer with
    | error e' => rw [Except.error.inj he]
    | ok real => exact nomatch he
  · exact .pure ⟨fun _ hmem => (nomatch hmem), fun _ h => nomatch h⟩

omit hfs in
/-- When one entry has been dealt with, what comes of the others comes of all of them. -/
theorem Gathers.gather_notes {w w₁ : Walk} {item : Candidate} {real : Text} {entry : ListedEntry}
    {rest : List ListedEntry} {own : List Exchange} {first : List Candidate}
    (hone : w.Gathers item.names [entry] own first w₁) (hkept : w₁.queue = w.queue)
    (hrest : Notes A (gather fs.noted item real w₁ rest) fun calls result =>
      w₁.Gathers item.names rest calls result.1 result.2 ∧ result.2.queue = w₁.queue) :
    Notes A (gather fs.noted item real w₁ rest) fun calls result =>
      w.Gathers item.names (entry :: rest) (own ++ calls) (first ++ result.1) result.2 ∧
        result.2.queue = w.queue := by
  refine hrest.mono fun calls result hresult => ?_
  exact ⟨hone.append hresult.1, hresult.2.trans hkept⟩

/-- The entries of a directory are looked up one after the other. -/
theorem gather_notes (item : Candidate) (real : Text)
    (hn : ∀ part ∈ item.names, Path.IsEntryName part) (entries : List ListedEntry) :
    ∀ w : Walk, w.root.IsRooted → (∀ entry ∈ entries, Path.IsEntryName entry.name) →
      Notes A (gather fs.noted item real w entries) fun calls result =>
        w.Gathers item.names entries calls result.1 result.2 ∧ result.2.queue = w.queue := by
  induction entries with
  | nil =>
    intro w _ _
    unfold gather
    exact .pure ⟨Gathers.nil w item.names, rfl⟩
  | cons entry rest ih =>
    intro w hroot hnames
    have hrest : ∀ e ∈ rest, Path.IsEntryName e.name :=
      fun e he => hnames e (List.mem_cons_of_mem entry he)
    have hpath : (Path.ofText (w.pathOf (item.names ++ [entry.name]))).toText
        = w.pathOf (item.names ++ [entry.name]) := by
      have hall := Path.isEntryName_concat hn (hnames entry List.mem_cons_self)
      rw [pathOf, (hroot.descend hall).ofText_toText]
    unfold gather
    refine Notes.bind (.call (hfs.lstat _)) ?_
    rintro - answer ⟨rfl, -⟩
    cases answer with
    | error e =>
      have hstays := Stays.note w [failureLog "Error accessing path"
        (w.pathOf (item.names ++ [entry.name])) e]
      exact (Gathers.single (hstays.takes _) (List.forall_mem_nil _) (List.forall_mem_nil _)
        (List.nil_sublist _)).gather_notes hstays.queue (ih _ (hstays.root.symm ▸ hroot) hrest)
    | ok stats =>
      have hchild : ∀ child ∈ [(⟨item.names ++ [entry.name], stats, real,
            real :: item.visited⟩ : Candidate)],
          child.names = item.names ++ [entry.name] ∧
            (.ok stats : Except FileError FileStats) = .ok child.stats :=
        List.forall_mem_singleton.mpr ⟨rfl, rfl⟩
      simp only
      split
      · rename_i htaken
        rw [Bool.and_eq_true] at htaken
        refine Notes.bind (takeIn_notes hfs w hpath) ?_
        rintro taken w₁ ⟨htakes, hcalls⟩
        have hone := Gathers.single htakes (fun call hcall => ⟨(hcalls call hcall).1,
          (hcalls call hcall).2.imp_right fun hread => ⟨hread, stats, rfl, htaken.1⟩⟩) hchild
          (List.Sublist.refl _)
        refine Notes.bind (hone.gather_notes htakes.queue
          (ih w₁ (htakes.root.symm ▸ hroot) hrest)) ?_
        intro calls result hgathers
        refine .pure ?_
        rw [List.append_nil]
        exact hgathers
      · have hone : w.Gathers item.names [entry]
            [.lstat (w.pathOf (item.names ++ [entry.name])) (.ok stats)]
            [⟨item.names ++ [entry.name], stats, real, real :: item.visited⟩] w :=
          Gathers.single ((Stays.refl w).takes _) (List.forall_mem_nil _) hchild
            (List.Sublist.refl _)
        refine Notes.bind (.pure (P := fun calls w₁ => calls = [] ∧ w₁ = w) ⟨rfl, rfl⟩) ?_
        rintro calls w₁ ⟨rfl, rfl⟩
        refine Notes.bind (hone.gather_notes rfl (ih w₁ hroot hrest)) ?_
        intro calls result hgathers
        refine .pure ?_
        rw [List.append_nil]
        exact hgathers

/-- A root is asked for by its own path, and accepted only if one of the answers was that it is a
directory. -/
theorem lookAtRoot_notes (root : Text) :
    Notes A (lookAtRoot fs.noted root) fun calls result =>
      (∀ call ∈ calls, call.path = root ∧ (call.operation = .lstat ∨ call.operation = .stat)) ∧
      ∀ stats, result = .ok stats → stats.isDirectory = true ∧
        (Exchange.lstat root (.ok stats) ∈ calls ∨ Exchange.stat root (.ok stats) ∈ calls) := by
  unfold lookAtRoot
  refine Notes.bind (.call (hfs.lstat _)) ?_
  rintro - answer ⟨rfl, -⟩
  have hfirst : ∀ call ∈ [Exchange.lstat root answer],
      call.path = root ∧ (call.operation = .lstat ∨ call.operation = .stat) :=
    List.forall_mem_singleton.mpr ⟨rfl, .inl rfl⟩
  cases answer with
  | error e => exact .pure ⟨hfirst, fun _ h => nomatch h⟩
  | ok stats =>
    simp only
    split
    · refine Notes.bind (.call (hfs.stat _)) ?_
      rintro - target ⟨rfl, -⟩
      have hboth : ∀ call ∈ [Exchange.lstat root (.ok stats)] ++ [Exchange.stat root target],
          call.path = root ∧ (call.operation = .lstat ∨ call.operation = .stat) :=
        List.forall_mem_append.mpr ⟨hfirst, List.forall_mem_singleton.mpr ⟨rfl, .inr rfl⟩⟩
      cases target with
      | error e => exact .pure ⟨hboth, fun _ h => nomatch h⟩
      | ok target =>
        refine .pure ⟨hboth, fun found h => ?_⟩
        split at h
        · rename_i hdirectory
          rw [← Except.ok.inj h]
          exact ⟨hdirectory, .inr (by simp)⟩
        · cases h
    · refine .pure ⟨hfirst, fun found h => ?_⟩
      split at h
      · rename_i hdirectory
        rw [← Except.ok.inj h]
        exact ⟨hdirectory, .inl (by simp)⟩
      · cases h

theorem start_notes (root : Path) (options : Walk.Options) :
    Notes A ((Walk.new root options).start fs.noted) fun calls result =>
      Starts root options calls result.2 := by
  unfold start
  refine Notes.bind (lookAtRoot_notes hfs _) ?_
  rintro calls answer ⟨hcalls, hfound⟩
  have hpath : ∀ call ∈ calls ++ [], call.path = root.toText := by
    rw [List.append_nil]
    exact fun call hcall => (hcalls call hcall).1
  have hoperation : ∀ call ∈ calls ++ [], call.operation = .lstat ∨ call.operation = .stat := by
    rw [List.append_nil]
    exact fun call hcall => (hcalls call hcall).2
  cases answer with
  | error fault => exact .pure ⟨rfl, rfl, rfl, hpath, hoperation, .inl rfl⟩
  | ok stats =>
    obtain ⟨hdirectory, hmem⟩ := hfound stats rfl
    refine .pure ⟨rfl, rfl, rfl, hpath, hoperation, .inr ⟨rfl, stats, hdirectory, ?_⟩⟩
    rw [List.append_nil]
    exact hmem

variable (hlist : ∀ call, A call → call.ListsEntryNames)

include hlist

/-- A directory is listed at most once, and only then is anything in it looked up. -/
theorem enqueue_notes {w : Walk} {item : Candidate} (hroot : w.root.IsRooted)
    (hn : ∀ part ∈ item.names, Path.IsEntryName part) (real : Text) :
    Notes A (w.enqueue fs.noted item real) fun calls result =>
      w.Enqueues item.names calls result.2 ∧ result.2.phase = w.phase := by
  unfold enqueue
  split
  · exact .pure ⟨.leaves (Stays.refl w).rests, rfl⟩
  · rename_i hdeep
    have hshallow : w.isDeepest item.names.length = false := Bool.eq_false_iff.mpr hdeep
    simp only
    split
    · exact .pure ⟨.leaves (Stays.note w _).rests, rfl⟩
    · rename_i henters
      rw [Bool.not_eq_true', Bool.not_eq_false, ← Sieve.entering] at henters
      refine Notes.bind (.call (hfs.list _)) ?_
      rintro - answer ⟨rfl, hanswer⟩
      cases answer with
      | error e =>
        exact .pure ⟨.lists hshallow henters
          (((Stays.note w _).trans (Stays.note _ _)).gathers (Gathers.nil _ _))
          (List.append_nil _).symm, rfl⟩
      | ok entries =>
        cases entries with
        | nil =>
          exact .pure ⟨.lists hshallow henters ((Stays.note w _).gathers (Gathers.nil _ _))
            (List.append_nil _).symm, rfl⟩
        | cons entry entries =>
          have hnames := hlist _ hanswer _ _ rfl
          refine Notes.bind (gather_notes hfs item real hn (entry :: entries) _ hroot hnames) ?_
          rintro calls ⟨items, w'⟩ ⟨hgathers, hqueue⟩
          have hg := (Stays.note w _).gathers hgathers
          have hlisted : w.Gathers item.names
              ((.ok (entry :: entries) : Except FileError (List ListedEntry)).toOption.getD [])
              calls items { w' with queue := w'.queue ++ items } :=
            ⟨hg.root, hg.options, hg.phase, hg.path, hg.operation, hg.names, hg.known, hg.sources⟩
          refine .pure ?_
          rw [List.append_nil]
          exact ⟨.lists hshallow henters hlisted (congrArg (· ++ items) hqueue), hg.phase⟩

/-- Looking at a directory makes the calls that `Enqueues` lists and no others; it does not fail,
does not end the walk and gives out nothing but the directory. -/
theorem lookAtDirectory_notes {w : Walk} {item : Candidate} (hroot : w.root.IsRooted)
    (hn : ∀ part ∈ item.names, Path.IsEntryName part) (stats : FileStats) (real : Text) :
    Notes A (w.lookAtDirectory fs.noted item stats real) fun calls result =>
      result.1 ≠ .finished ∧ (∀ e, result.1 ≠ .failed e) ∧ result.1.GivesOnly item.names ∧
        w.Enqueues item.names calls result.2 ∧ result.2.phase = w.phase := by
  have hquiet : ∀ {calls w₁}, w.Enqueues item.names calls w₁ ∧ w₁.phase = w.phase →
      StepOutcome.quiet ≠ .finished ∧ (∀ e, StepOutcome.quiet ≠ .failed e) ∧
        StepOutcome.quiet.GivesOnly item.names ∧
        w.Enqueues item.names (calls ++ []) w₁ ∧ w₁.phase = w.phase := by
    intro calls w₁ h
    rw [List.append_nil]
    exact ⟨nofun, nofun, nofun, h⟩
  have hoffer : ∀ {calls w₁}, w.Enqueues item.names calls w₁ ∧ w₁.phase = w.phase →
      (w₁.offer item stats true).1 ≠ .finished ∧
        (∀ e, (w₁.offer item stats true).1 ≠ .failed e) ∧
        (w₁.offer item stats true).1.GivesOnly item.names ∧
        w.Enqueues item.names (calls ++ []) (w₁.offer item stats true).2 ∧
        (w₁.offer item stats true).2.phase = w.phase := by
    rintro calls w₁ ⟨h, hphase⟩
    obtain ⟨hstays, hgoing, halive, hgiven⟩ := offer_stays w₁ item stats true
    rw [List.append_nil]
    exact ⟨hgoing, halive, hgiven, h.trans_stays hstays, hstays.phase.trans hphase⟩
  unfold lookAtDirectory
  refine Notes.bind (enqueue_notes hfs hlist hroot hn real) ?_
  rintro calls ⟨queued, w₁⟩ h
  cases queued with
  | unlistable => exact .pure (hquiet h)
  | childless =>
    simp only
    split
    · exact .pure (hoffer h)
    · exact .pure (hquiet h)
  | mayHaveChildren =>
    simp only
    split
    · exact .pure (hoffer h)
    · exact .pure (hquiet h)

/-- Looking at an entry does what `Attends` lists, and keeps the walk under way. -/
theorem lookAt_notes {w : Walk} {item : Candidate} (hroot : w.root.IsRooted)
    (hn : ∀ part ∈ item.names, Path.IsEntryName part) :
    Notes A (w.lookAt fs.noted item) fun calls result =>
      w.Attends item result.1 calls result.2 ∧ w.Survives item result.1 calls result.2 := by
  unfold lookAt
  refine Notes.bind (resolve_notes hfs w item) ?_
  rintro own ⟨found, w₁⟩ ⟨hown, hstays, hfound⟩
  have hroot₁ : w₁.root.IsRooted := hstays.root.symm ▸ hroot
  simp only
  split
  · rename_i hdirectory
    split
    · refine (lookAtDirectory_notes hfs hlist hroot₁ hn found.stats _).mono ?_
      rintro rest result ⟨hgoing, halive, hgiven, hqueues, hphase⟩
      exact ⟨⟨hgoing, hgiven, own, rest, rfl, hown, fun _ => hfound hdirectory,
        hstays.enqueues hqueues⟩, .inl ⟨halive, hphase.trans hstays.phase⟩⟩
    · refine Notes.bind (realPathOf_notes hfs w₁ item) ?_
      rintro asked answer ⟨hasked, hvain⟩
      have hall : ∀ call ∈ own ++ asked, w.Concerns item.names call := by
        refine List.forall_mem_append.mpr ⟨hown, fun call hcall => ?_⟩
        obtain ⟨hpath, hop⟩ := hasked call hcall
        exact ⟨hstays.pathOf ▸ hpath, hop⟩
      cases answer with
      | error e =>
        obtain ⟨hnames, hmem⟩ := hvain e rfl
        rw [hstays.pathOf] at hmem
        refine .pure ⟨⟨nofun, nofun, own ++ asked, [], ?_, hall, fun h => absurd rfl h,
          .leaves ⟨hstays.root, hstays.options, hstays.rulebook, .inl rfl, .inl hstays.queue⟩⟩,
          .inr ⟨e, rfl, hnames, List.mem_append_right own (List.mem_append_left [] hmem)⟩⟩
        simp only [List.append_nil]
      | ok real =>
        refine (lookAtDirectory_notes hfs hlist hroot₁ hn found.stats real).mono ?_
        rintro rest result ⟨hgoing, halive, hgiven, hqueues, hphase⟩
        exact ⟨⟨hgoing, hgiven, own ++ asked, rest, (List.append_assoc ..).symm, hall,
          fun _ => (hfound hdirectory).mono (List.subset_append_left own asked),
          hstays.enqueues hqueues⟩, .inl ⟨halive, hphase.trans hstays.phase⟩⟩
  · obtain ⟨hoffered, hgoing, halive, hgiven⟩ := offer_stays w₁ item found.stats false
    have hboth := hstays.trans hoffered
    exact .pure ⟨⟨hgoing, hgiven, own, [], rfl, hown, fun h => absurd rfl h,
      .leaves hboth.rests⟩, .inl ⟨halive, hboth.phase⟩⟩

/-- **A step asks only what `Accounts` lists**, whatever the file system answers. -/
theorem advance_notes {w : Walk} (hroot : w.root.IsRooted)
    (hn : ∀ item ∈ w.queue, ∀ part ∈ item.names, Path.IsEntryName part) :
    Notes A (w.advance fs.noted) fun calls result => w.Accounts result.1 calls result.2 := by
  unfold advance
  split
  · exact .pure (.finishes ⟨rfl, rfl, rfl, .inl rfl, .inr ⟨rfl, rfl⟩⟩ rfl)
  · rename_i item rest hqueue
    split
    · exact .pure (.finishes ⟨rfl, rfl, rfl, .inl rfl, .inr ⟨rfl, rfl⟩⟩ rfl)
    · split
      · exact .pure (.finishes ⟨rfl, rfl, rfl, .inl rfl, .inr ⟨rfl, rfl⟩⟩ rfl)
      · rename_i hdepth
        refine (lookAt_notes hfs hlist (w := w.popped rest) hroot
          (hn item (hqueue ▸ List.mem_cons_self))).mono ?_
        exact fun calls result h => .looks hqueue (Bool.eq_false_iff.mpr hdepth) h.1

/-- The calls that a step makes are those that `Accounts` lists for the walk that it looks at. A
walk that is not under way makes none and stays as it is. -/
theorem step_notes {w : Walk}
    (hw : w.looking.phase = .running → w.looking.root.IsRooted ∧
      ∀ item ∈ w.looking.queue, ∀ part ∈ item.names, Path.IsEntryName part) :
    Notes A (w.step fs.noted) fun calls result =>
      (w.looking.phase ≠ .running → calls = [] ∧ result = (.finished, w)) ∧
      (w.looking.phase = .running → w.looking.Accounts result.1 calls result.2) := by
  by_cases hrunning : w.looking.phase = .running
  · obtain ⟨hroot, hn⟩ := hw hrunning
    rw [step_of_running fs.noted hrunning]
    refine (advance_notes hfs hlist hroot hn).mono ?_
    exact fun calls result h => ⟨fun hidle => absurd hrunning hidle, fun _ => h⟩
  · rw [(step_of_not_running fs.noted hrunning).2]
    exact .pure ⟨fun _ => ⟨rfl, rfl⟩, fun h => absurd h hrunning⟩

end Parts

end Walk

end TreeSieve

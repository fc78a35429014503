import TreeSieve.Proofs.Walk.Alike
import TreeSieve.Proofs.Walk.Once

/-!
# Nothing aborts a walk

Any call of a file system may fail. One of them matters: a walk has to know where its root leads,
and asks for it in its first step. After that, a call that fails costs the entry that it was made
for and nothing else.

* `Stride.GoesOn` and `Stride.Ends` are what a step may come to, and `Walk.step_proceeds` says that
  it comes to nothing else unless the real path of the root was asked for in vain.
* `Walk.IsPastRoot` is the invariant: the walk has ended, or only entries below the root wait.
* `Walk.started_unbroken` says that all steps of a walk, and whatever is made of its entries, come
  to a result.
-/

namespace TreeSieve

/-! ### File systems whose calls are noted -/

/-- A computation that keeps an account of its calls is like one with the same result that does
not. -/
def Exchange.unnoted (σ : Type) : Likeness (StateT (List Exchange) (StateM σ)) (StateM σ) where
  Alike x y := ∀ noted s, y.run s = (((x.run noted).run s).1.1, ((x.run noted).run s).2)
  pure _ _ _ := rfl
  bind {α β x y f g} hx hf := by
    intro noted s
    rw [StateT.run_bind, hx noted s, StateT.run_bind, StateT.run_bind]
    exact hf _ _ _

theorem FileSystem.noted_alike {σ : Type} (fs : FileSystem (StateM σ)) :
    fs.noted.Alike (Exchange.unnoted σ) fs :=
  ⟨fun _ _ _ => rfl, fun _ _ _ => rfl, fun _ _ _ => rfl, fun _ _ _ => rfl, fun _ _ _ => rfl⟩

/-! ### What a step comes to -/

namespace Stride

/-- A step that goes on. It has looked at the entry that waited first and gives out no other; the
walk is under way, and the entries of the directory, if it was one, wait behind all others. -/
structure GoesOn (s : Stride) (item : Candidate) : Prop where
  phase : s.next.phase = .running
  root : s.next.root = s.walk.root
  going : s.outcome ≠ .finished
  alive : ∀ e, s.outcome ≠ .failed e
  queue : ∃ rest found, s.walk.queue = item :: rest ∧ s.next.queue = rest ++ found ∧
    ∀ child ∈ found, ∃ name, Path.IsEntryName name ∧ child.names = item.names ++ [name]
  given : ∀ entry, s.outcome = .yielded entry →
    entry.names = item.names ∧ item.names ≠ [] ∧ ∀ part ∈ item.names, Path.IsEntryName part

/-- A step that comes to the end of the walk: it has ended before, nothing waits, all entries asked
for have been given out, or what waits is too deep. -/
structure Ends (s : Stride) : Prop where
  outcome : s.outcome = .finished
  phase : s.next.phase = .ended
  reason : s.walk.phase = .ended ∨ s.walk.queue = [] ∨ s.walk.isFull = true ∨
    ∃ item, s.walk.queue.head? = some item ∧ s.walk.isTooDeep item.depth = true

/-- A step that goes on or comes to the end. -/
def Proceeds (s : Stride) : Prop := (∃ item, s.GoesOn item) ∨ s.Ends

end Stride

namespace Walk

/-- A walk that is under way, with a rooted root and names of entries in its queue, and with the
root, if at all, at the front of the queue only. -/
structure IsPoised (w : Walk) : Prop where
  phase : w.phase = .running
  root : w.root.IsRooted
  names : ∀ item ∈ w.queue, ∀ part ∈ item.names, Path.IsEntryName part
  below : ∀ item ∈ w.queue.tail, item.names ≠ []

/-- A walk that has got past its root: it has ended, or only entries below the root wait. -/
def IsPastRoot (w : Walk) : Prop :=
  w.phase = .ended ∨ (w.IsPoised ∧ ∀ item ∈ w.queue, item.names ≠ [])

theorem IsPoised.looking {w : Walk} (h : w.IsPoised) : w.looking = w :=
  looking_of_phase (by rw [h.phase]; decide)

theorem begin_isPoised {w : Walk} (hroot : w.root.IsRooted) : w.begin.IsPoised := by
  refine ⟨rfl, hroot, fun item hitem part hpart => ?_, fun item hitem => ?_⟩
  · rw [List.mem_singleton.mp hitem] at hpart
    exact absurd hpart List.not_mem_nil
  · exact absurd hitem List.not_mem_nil

/-- After a step that goes on, all that waits lies below the root. -/
theorem IsPoised.isPastRoot {s : Stride} {item : Candidate} (h : s.walk.IsPoised)
    (hgoes : s.GoesOn item) : s.next.IsPastRoot := by
  obtain ⟨rest, found, hqueue, hnext, hfound⟩ := hgoes.queue
  have hitem := h.names item (hqueue ▸ List.mem_cons_self)
  have hrest : ∀ other ∈ rest, other.names ≠ [] := by
    intro other hother
    refine h.below other ?_
    rw [hqueue]
    exact hother
  have hall : ∀ other ∈ s.next.queue, other.names ≠ [] := by
    intro other hother
    rw [hnext] at hother
    rcases List.mem_append.mp hother with hother | hother
    · exact hrest other hother
    · obtain ⟨name, -, hnames⟩ := hfound other hother
      rw [hnames]
      simp
  refine .inr ⟨⟨hgoes.phase, hgoes.root ▸ h.root, fun other hother => ?_, fun other hother => ?_⟩,
    hall⟩
  · rw [hnext] at hother
    rcases List.mem_append.mp hother with hother | hother
    · exact h.names other (hqueue ▸ List.mem_cons_of_mem item hother)
    · obtain ⟨name, hname, hnames⟩ := hfound other hother
      rw [hnames]
      exact Path.isEntryName_concat hitem hname
  · exact hall other (List.mem_of_mem_tail hother)

/-- What comes of a directory adds entries of it at the end of the queue, and takes nothing from the
queue. -/
theorem Enqueues.exists_found {w w' : Walk} {names : List Text} {calls : List Exchange}
    (h : w.Enqueues names calls w') (hlists : ∀ call ∈ calls, call.ListsEntryNames)
    (hphase : w'.phase = .running) :
    w'.root = w.root ∧ ∃ found, w'.queue = w.queue ++ found ∧
      ∀ child ∈ found, ∃ name, Path.IsEntryName name ∧ child.names = names ++ [name] := by
  cases h with
  | leaves rests =>
    refine ⟨rests.root, [], ?_, fun _ hmem => absurd hmem List.not_mem_nil⟩
    rw [List.append_nil]
    rcases rests.queue with hqueue | ⟨hended, -⟩
    · exact hqueue
    · exact absurd (hended.symm.trans hphase) (by decide)
  | @lists answer below items _ shallow entered gathers queue =>
    refine ⟨gathers.root, items, queue, fun child hchild => ?_⟩
    have hmem := gathers.names.subset (List.mem_map_of_mem hchild)
    obtain ⟨entry, hentry, hnames⟩ := List.mem_map.mp hmem
    refine ⟨entry.name, ?_, hnames.symm⟩
    cases answer with
    | error e => exact absurd hentry List.not_mem_nil
    | ok entries => exact hlists _ List.mem_cons_self _ entries rfl entry hentry

section Steps

variable {m : Type → Type} [Monad m] [AlwaysMonad m] {fs : FileSystem m}
  (hfs : fs.Answers Exchange.ListsEntryNames)

include hfs

/-- A step of a walk under way proceeds, unless it asks in vain where the root leads. -/
theorem advance_proceeds {w : Walk} (h : w.IsPoised) :
    Notes Exchange.ListsEntryNames (w.advance fs.noted) fun calls result =>
      (∀ e item, w.queue.head? = some item → item.names = [] →
        Exchange.realPath (w.pathOf item.names) (.error e) ∉ calls) →
      Stride.Proceeds ⟨w, result.1, calls, result.2⟩ := by
  unfold advance
  split
  · rename_i hqueue
    exact .pure fun _ => .inr ⟨rfl, rfl, .inr (.inl hqueue)⟩
  · rename_i item rest hqueue
    have hhead : w.queue.head? = some item := by rw [hqueue]; rfl
    split
    · rename_i hfull
      exact .pure fun _ => .inr ⟨rfl, rfl, .inr (.inr (.inl hfull))⟩
    · split
      · rename_i hdeep
        exact .pure fun _ => .inr ⟨rfl, rfl, .inr (.inr (.inr ⟨item, hhead, hdeep⟩))⟩
      · have hn := h.names item (hqueue ▸ List.mem_cons_self)
        have hlooks :=
          (lookAt_notes hfs (fun _ hcall => hcall) (w := w.popped rest) h.root hn).answered
        refine hlooks.mono ?_
        rintro calls ⟨outcome, next⟩ ⟨hlists, hattends, hsurvives⟩ hreal
        rcases hsurvives with ⟨halive, hphase⟩ | ⟨e, -, hnames, hcall⟩
        · obtain ⟨hgoing, hgiven, own, below, rfl, -, -, henqueues⟩ := hattends
          have hrunning : next.phase = .running := hphase.trans h.phase
          obtain ⟨hroot, found, hfound, hchildren⟩ := henqueues.exists_found
            (fun call hcall => hlists call (List.mem_append_right own hcall)) hrunning
          refine .inl ⟨item, hrunning, hroot, hgoing, halive,
            ⟨rest, found, hqueue, hfound, hchildren⟩, fun entry hentry => ?_⟩
          exact ⟨(hgiven entry hentry).1, (hgiven entry hentry).2, hn⟩
        · exact absurd hcall (hreal e item hhead hnames)

/-- A step of a walk that is under way once it has begun proceeds and gets past the root, unless it
asks in vain for the real path of the root. -/
theorem step_proceeds {w : Walk} (h : w.looking.IsPoised) :
    Notes Exchange.ListsEntryNames (w.step fs.noted) fun calls result =>
      (∀ e item, w.looking.queue.head? = some item → item.names = [] →
        Exchange.realPath (w.looking.pathOf item.names) (.error e) ∉ calls) →
      Stride.Proceeds ⟨w.looking, result.1, calls, result.2⟩ ∧ result.2.IsPastRoot := by
  rw [step_of_running fs.noted h.phase]
  refine (advance_proceeds hfs h).mono fun calls result hstep hreal => ?_
  have hproceeds := hstep hreal
  refine ⟨hproceeds, ?_⟩
  rcases hproceeds with ⟨item, hgoes⟩ | hends
  · exact h.isPastRoot hgoes
  · exact .inl hends.phase

/-- A step of a walk that has got past its root proceeds, and stays past the root. -/
theorem IsPastRoot.step {w : Walk} (h : w.IsPastRoot) :
    Notes Exchange.ListsEntryNames (w.step fs.noted) fun calls result =>
      Stride.Proceeds ⟨w.looking, result.1, calls, result.2⟩ ∧ result.2.IsPastRoot := by
  rcases h with hended | ⟨hpoised, hbelow⟩
  · have hidle : w.looking.phase ≠ .running := by
      rw [looking_of_phase (by rw [hended]; decide), hended]
      decide
    obtain ⟨hlooking, hstep⟩ := step_of_not_running fs.noted hidle
    rw [hstep, hlooking]
    exact .pure ⟨.inr ⟨rfl, hended, .inl hended⟩, .inl hended⟩
  · refine (step_proceeds hfs (hpoised.looking.symm ▸ hpoised)).mono fun calls result hstep => ?_
    refine hstep fun e item hhead hnames => ?_
    rw [hpoised.looking] at hhead
    exact absurd hnames (hbelow item (List.mem_of_head? hhead))

end Steps

/-! ### All steps -/

section Runs

variable {σ : Type}

/-- A walk whose next step proceeds and gets past the root. -/
def Clears (fs : FileSystem (StateM σ)) (w : Walk) (s : σ) : Prop :=
  let made := ((w.step fs.noted).run []).run s
  Stride.Proceeds ⟨w.looking, made.1.1.1, made.1.2, made.1.1.2⟩ ∧ made.1.1.2.IsPastRoot

/-- A step comes to the same, in the same state of the files, whether its calls are noted or not. -/
theorem step_run (fs : FileSystem (StateM σ)) (w : Walk) (s : σ) : (w.step fs).run s
    = ((((w.step fs.noted).run []).run s).1.1, (((w.step fs.noted).run []).run s).2) :=
  step_alike fs.noted_alike w [] s

variable {fs : FileSystem (StateM σ)} (hfs : fs.Answers Exchange.ListsEntryNames)

include hfs

theorem IsPastRoot.clears {w : Walk} (h : w.IsPastRoot) (s : σ) : w.Clears fs s := by
  obtain ⟨calls, hcalls, -, hstep⟩ := h.step hfs [] s
  rw [List.nil_append] at hcalls
  rw [← hcalls] at hstep
  exact hstep

/-- If the next step of a walk proceeds and gets past the root then so do all further steps,
whatever the file system answers. -/
theorem Clears.strides (steps : Nat) : ∀ {w : Walk} {s : σ}, w.Clears fs s →
    let made := (Walk.strides fs steps w).run s
    (∀ stride ∈ made.1.1, stride.Proceeds) ∧ made.1.2.Clears fs made.2 := by
  induction steps with
  | zero => exact fun h => ⟨fun _ hmem => absurd hmem List.not_mem_nil, h⟩
  | succ steps ih =>
    intro w s h
    obtain ⟨hproceeds, hnext⟩ := h
    obtain ⟨hrest, hlast⟩ := ih (hnext.clears hfs (((w.step fs.noted).run []).run s).2)
    exact ⟨List.forall_mem_cons.mpr ⟨hproceeds, hrest⟩, hlast⟩

/-- If the next step of a walk proceeds and gets past the root then a loop over its entries does not
fail, in any number of steps. -/
theorem Clears.visit {β : Type} (f : Entry → β → ForInStep β) (steps : Nat) :
    ∀ {w : Walk} {s : σ}, w.Clears fs s → ∀ acc : β,
      ∃ result, ((Walk.visit fs f steps acc w).run s).1.1 = .ok result := by
  induction steps with
  | zero => exact fun _ acc => ⟨acc, rfl⟩
  | succ steps ih =>
    intro w s h acc
    rw [Walk.visit, StateT.run_bind, step_run]
    obtain ⟨hproceeds, hnext⟩ := h
    generalize ((w.step fs.noted).run []).run s = made at hproceeds hnext ⊢
    obtain ⟨⟨⟨outcome, next⟩, calls⟩, s'⟩ := made
    have hmore := fun acc => ih (hnext.clears hfs s') acc
    cases outcome with
    | yielded entry =>
      dsimp only [bind]
      cases f entry acc with
      | done acc => exact ⟨acc, rfl⟩
      | yield acc => exact hmore acc
    | withheld names isDirectory => exact hmore acc
    | quiet => exact hmore acc
    | finished => exact ⟨acc, rfl⟩
    | failed e =>
      rcases hproceeds with ⟨item, hgoes⟩ | hends
      · exact absurd rfl (hgoes.alive e)
      · exact absurd hends.outcome (by simp)

/-- The first step of a walk whose root has been accepted proceeds and gets past the root, unless it
asks in vain for the real path of the root. -/
theorem clears_of_ready {w : Walk} (hphase : w.phase = .ready) (hroot : w.root.IsRooted) {s : σ}
    (hreal : ∀ e, Exchange.realPath w.rootText (.error e)
      ∉ (((w.step fs.noted).run []).run s).1.2) : w.Clears fs s := by
  have hlooking : w.looking = w.begin := if_pos hphase
  have hpoised : w.looking.IsPoised := hlooking.symm ▸ begin_isPoised hroot
  obtain ⟨calls, hcalls, -, hstep⟩ := step_proceeds hfs hpoised [] s
  rw [List.nil_append] at hcalls
  rw [← hcalls] at hstep
  refine hstep fun e item _ hnames => ?_
  rw [hnames, pathOf, Path.descend_nil, looking_root]
  exact hreal e

end Runs

/-- **Nothing aborts a walk.** Let a walk be started on any file system that lists nothing but names
of one component; its calls may fail at any time, and its answers may change with the state `σ` from
call to call. If the first step does not ask in vain where the root leads, then all steps proceed:
each looks at the entry that waits first and keeps the others, or comes to the end for one of four
reasons. Going through the entries always comes to a result, from the start and after any number of
steps, whatever is made of the entries. -/
theorem started_unbroken {σ : Type} (fs : FileSystem (StateM σ))
    (hlist : ∀ path s entries, ((fs.list path).run s).1 = .ok entries →
      ∀ entry ∈ entries, Path.IsEntryName entry.name)
    {current : Path} (habs : current.isAbsolute)
    (hcur : ∀ part ∈ current.parts, Path.IsName part) (root : Text) (options : Walk.Options)
    {s s₀ : σ} {w : Walk}
    (hstart : ((Walk.new (Path.absolute current root) options).start fs).run s
      = ((.ok (), w), s₀))
    (hreal : ∀ e, Exchange.realPath w.rootText (.error e)
      ∉ (((w.step fs.noted).run []).run s₀).1.2) (steps : Nat) :
    let made := (strides fs steps w).run s₀
    (∀ stride ∈ made.1.1, stride.Proceeds) ∧
      ∀ {β : Type} (f : Entry → β → ForInStep β) (more : Nat) (acc : β),
        ∃ result, ((visit fs f more acc made.1.2).run made.2).1.1 = .ok result := by
  intro made
  have hfs : fs.Answers Exchange.ListsEntryNames := by
    refine FileSystem.answers_of_list (fun path s => ?_) ?_
    · intro _ entries heq
      exact hlist path s entries (Exchange.list.inj heq).2
    · rintro exchange hne path entries rfl
      exact absurd rfl hne
  have hready := start_ready fs (Path.absolute current root) options s
  rw [hstart] at hready
  obtain ⟨hphase, hroot, -⟩ := hready rfl
  have hrooted : w.root.IsRooted := hroot.symm ▸ Path.absolute_isRooted habs hcur root
  obtain ⟨hall, hlast⟩ := (clears_of_ready hfs hphase hrooted hreal).strides hfs steps
  exact ⟨hall, fun f more acc => hlast.visit hfs f more acc⟩

/-- Whether the real path of something was asked for in vain. -/
def isVain : Exchange → Bool
  | .realPath _ (.error _) => true
  | _ => false

/-- Fading files, one of which cannot be looked up, and the other not be read. -/
def brokenFiles : FileSystem (StateM Bool) :=
  fadingFiles.failing fun operation path =>
    if operation = .read ∨ path = Text.lit "/r/a" then some .inputOutput else none

theorem brokenFiles_names : ∀ path s entries, ((brokenFiles.list path).run s).1 = .ok entries →
    ∀ entry ∈ entries, Path.IsEntryName entry.name := by
  intro path s entries h
  by_cases hpath : path = Text.lit "/r/a"
  · simp [brokenFiles, FileSystem.failing, FileSystem.failing.guarded, hpath] at h
  · have hlist : brokenFiles.list path = fadingFiles.list path := by
      simp [brokenFiles, FileSystem.failing, FileSystem.failing.guarded, hpath]
    rw [hlist] at h
    exact (fadingFiles_isListing path s entries h).names

/-- The ignore file that cannot be read is given out all the same, and the walk ends. -/
theorem started_unbroken_brokenFiles :
    let started := ((Walk.new (Path.absolute Path.rootDirectory (Text.lit "/r")) .plain).start
      brokenFiles).run true
    let made := (strides brokenFiles 3 started.1.2).run started.2
    lookedNames made.1.1 = [[], [Text.lit ".gitignore"]] ∧
      made.1.1.getLast?.map (·.outcome) = some .finished ∧
      ∀ stride ∈ made.1.1, stride.Proceeds := by
  intro started made
  have hparts : ∀ {α β γ : Type} (x : (α × β) × γ), x = ((x.1.1, x.1.2), x.2) := fun _ => rfl
  have hstart := hparts started
  have hok : started.1.1 = .ok () := by decide +kernel
  rw [hok] at hstart
  have hnone : (((started.1.2.step brokenFiles.noted).run []).run started.2).1.2.any isVain
      = false := by decide +kernel
  have hreal : ∀ e, Exchange.realPath started.1.2.rootText (.error e)
      ∉ (((started.1.2.step brokenFiles.noted).run []).run started.2).1.2 := by
    intro e hmem
    rw [List.any_eq_false] at hnone
    exact hnone _ hmem rfl
  obtain ⟨hall, -⟩ := started_unbroken brokenFiles brokenFiles_names rfl
    (by simp [Path.rootDirectory]) (Text.lit "/r") .plain hstart hreal 3
  refine ⟨by decide +kernel, by decide +kernel, ?_⟩
  rw [show made = (strides brokenFiles 3 started.1.2).run started.2 from rfl]
  exact hall

end Walk

end TreeSieve

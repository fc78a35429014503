import TreeSieve.Proofs.Walk.Step

/-!
# The front of a walk

The entries that wait to be looked at are the front of a walk: none of them leads to another, and
no ignore file from below any of them has been taken in.

* `Walk.Front` is this invariant, `Walk.Moves.front` says that a step keeps it, and
  `Walk.begin_front` that a walk begins with it.
* `Walk.LeftBehind` holds of a path that nothing in the queue leads to;
  `Walk.Moves.leftBehind` says that this stays so, and `Walk.Moves.verdict_eq` that the rules that
  hold for such a path stay the same.
* `Walk.runFor` makes a number of steps.
-/

namespace TreeSieve

namespace Walk

variable {m : Type → Type} [Monad m]

/-- The invariant of a walk under way. -/
structure Front (w : Walk) : Prop where
  root : w.root.IsRooted
  names : ∀ item ∈ w.queue, ∀ part ∈ item.names, Path.IsEntryName part
  apart : w.queue.Pairwise fun a b => ¬a.names <+: b.names ∧ ¬b.names <+: a.names
  scopes : ∀ b ∈ w.sieve.rulebook.blocks, ∃ names, (∀ part ∈ names, Path.IsEntryName part) ∧
    b.scope = canonical (w.pathOf names) ∧ ∀ item ∈ w.queue, item.names <+: names → names = []

/-- Nothing in the queue leads to the given names. -/
def LeftBehind (w : Walk) (names : List Text) : Prop :=
  ∀ item ∈ w.queue, ¬item.names <+: names

/-- A path lies in the scope of a directory if its names begin with those of the directory. -/
theorem inScope_pathOf {w : Walk} (hroot : w.root.IsRooted) {names scope : List Text}
    (hn : ∀ part ∈ names, Path.IsEntryName part) (hs : ∀ part ∈ scope, Path.IsEntryName part) :
    inScope (canonical (w.pathOf names)) (canonical (w.pathOf scope)) = true ↔ scope <+: names := by
  rw [pathOf, pathOf, Path.inScope_canonical (hroot.descend hn) (hroot.descend hs) rfl]
  exact List.prefix_append_right_inj w.root.parts

theorem Front.popped {w : Walk} (h : w.Front) {item : Candidate} {rest : List Candidate}
    (hqueue : w.queue = item :: rest) :
    (w.popped rest).Front ∧ (w.popped rest).LeftBehind item.names := by
  have hsub : ∀ other ∈ rest, other ∈ w.queue :=
    fun other ho => hqueue ▸ List.mem_cons_of_mem item ho
  have hapart := h.apart
  rw [hqueue, List.pairwise_cons] at hapart
  refine ⟨⟨h.root, fun other ho => h.names other (hsub other ho), hapart.2, ?_⟩, ?_⟩
  · intro b hb
    obtain ⟨names, hn, hscope, hout⟩ := h.scopes b hb
    exact ⟨names, hn, hscope, fun other ho => hout other (hsub other ho)⟩
  · exact fun other ho => (hapart.1 other ho).2

theorem Stays.front {w w' : Walk} (hs : w.Stays w') (h : w.Front) : w'.Front := by
  refine ⟨hs.root ▸ h.root, hs.queue ▸ h.names, hs.queue ▸ h.apart, ?_⟩
  rw [hs.rulebook, hs.queue, hs.pathOf]
  exact h.scopes

/-- What is below a directory leads to nothing that the directory does not lead to. -/
theorem AreBelow.prefix_of_prefix {names other : List Text} {items : List Candidate}
    (h : AreBelow names items) {item : Candidate} (hi : item ∈ items)
    (hp : item.names <+: other) : names <+: other := by
  obtain ⟨name, -, heq⟩ := h.names item hi
  exact (heq ▸ List.prefix_append names [name]).trans hp

/-- A directory that is opened is replaced in the front by its entries. -/
theorem Opens.front {w w' : Walk} {names : List Text} (ho : w.Opens names w') (h : w.Front)
    (hn : ∀ part ∈ names, Path.IsEntryName part) (hleft : w.LeftBehind names)
    (hnot : ∀ item ∈ w.queue, ¬names <+: item.names)
    (hscopes : ∀ b ∈ w.sieve.rulebook.blocks, ∀ scope : List Text,
      (∀ part ∈ scope, Path.IsEntryName part) → b.scope = canonical (w.pathOf scope) →
        names <+: scope → scope = []) : w'.Front := by
  obtain ⟨⟨hroot, hoptions, hphase, more, hblocks, hmore⟩, items, hqueue, hbelow⟩ := ho
  have hpath : w'.pathOf = w.pathOf := by
    funext parts
    rw [Walk.pathOf, Walk.pathOf, hroot]
  refine ⟨hroot ▸ h.root, ?_, ?_, ?_⟩
  · intro item hi
    rw [hqueue] at hi
    rcases List.mem_append.mp hi with hi | hi
    · exact h.names item hi
    · obtain ⟨name, hname, heq⟩ := hbelow.names item hi
      exact heq ▸ Path.isEntryName_concat hn hname
  · rw [hqueue, List.pairwise_append]
    refine ⟨h.apart, ?_, ?_⟩
    · -- entries of one directory have names of one length, so that only equal ones could lead on
      have hpair : items.Pairwise fun a b => a.names ≠ b.names := List.pairwise_map.mp hbelow.nodup
      refine List.Pairwise.imp_of_mem ?_ hpair
      intro a b ha hb hne
      obtain ⟨aname, -, haeq⟩ := hbelow.names a ha
      obtain ⟨bname, -, hbeq⟩ := hbelow.names b hb
      have hlen : a.names.length = b.names.length := by rw [haeq, hbeq]; simp
      exact ⟨fun hp => hne (hp.eq_of_length hlen),
        fun hp => hne (hp.eq_of_length hlen.symm).symm⟩
    · intro old ho child hc
      obtain ⟨name, -, heq⟩ := hbelow.names child hc
      refine ⟨?_, fun hp => hnot old ho (hbelow.prefix_of_prefix hc hp)⟩
      intro hp
      rw [heq] at hp
      rcases List.prefix_concat_iff.mp hp with hp | hp
      · exact hnot old ho (hp ▸ List.prefix_append names [name])
      · exact hleft old ho hp
  · intro b hb
    rw [hblocks] at hb
    rw [hpath, hqueue]
    rcases List.mem_append.mp hb with hb | hb
    · obtain ⟨scope, hs, hscope, hout⟩ := h.scopes b hb
      refine ⟨scope, hs, hscope, ?_⟩
      intro item hi hp
      rcases List.mem_append.mp hi with hi | hi
      · exact hout item hi hp
      · exact hscopes b hb scope hs hscope (hbelow.prefix_of_prefix hi hp)
    · refine ⟨names, hn, hmore b hb, ?_⟩
      intro item hi hp
      exfalso
      rcases List.mem_append.mp hi with hi | hi
      · exact hleft item hi hp
      · obtain ⟨name, -, heq⟩ := hbelow.names item hi
        have hlen := hp.length_le
        rw [heq, List.length_append, List.length_singleton] at hlen
        omega

/-- The names of a scope are told by its text. -/
theorem eq_of_canonical_pathOf {w : Walk} (hroot : w.root.IsRooted) {names other : List Text}
    (hn : ∀ part ∈ names, Path.IsEntryName part) (ho : ∀ part ∈ other, Path.IsEntryName part)
    (h : canonical (w.pathOf names) = canonical (w.pathOf other)) : names = other := by
  have hforth := (inScope_pathOf hroot hn hn).mpr (List.prefix_refl names)
  have hback := hforth
  rw [h] at hforth
  have hno : names <+: other := (inScope_pathOf hroot ho hn).mp (h.symm ▸ hforth)
  have hon : other <+: names := (inScope_pathOf hroot hn ho).mp (h ▸ hback)
  exact hno.eq_of_length (le_antisymm hno.length_le hon.length_le)

/-- A step keeps the invariant, unless it ends the walk. -/
theorem Moves.front {w w' : Walk} {outcome : StepOutcome} (hm : w.Moves outcome w') (h : w.Front) :
    w'.phase = .ended ∨ w'.Front := by
  cases hm with
  | finishes _ phase _ => exact Or.inl phase
  | breaks _ phase _ => exact Or.inl phase
  | passes queue stays => exact Or.inr (stays.front (h.popped queue).1)
  | gives queue stays _ _ => exact Or.inr (stays.front (h.popped queue).1)
  | withholds queue stays _ => exact Or.inr (stays.front (h.popped queue).1)
  | opens queue opens =>
    rename_i item rest
    right
    obtain ⟨hfront, hleft⟩ := h.popped queue
    have hitem : item ∈ w.queue := queue ▸ List.mem_cons_self
    have hapart := h.apart
    rw [queue, List.pairwise_cons] at hapart
    refine opens.front hfront (h.names item hitem) hleft (fun other ho => (hapart.1 other ho).1) ?_
    intro b hb scope hs hscope hp
    obtain ⟨names, hn, hnames, hout⟩ := h.scopes b hb
    have heq : names = scope := eq_of_canonical_pathOf h.root hn hs (hnames.symm.trans hscope)
    exact heq ▸ hout item hitem (heq.symm ▸ hp)

/-! ### Paths left behind -/

/-- What is added for other directories does not hold for a path left behind. -/
theorem outside_of_leftBehind {w : Walk} (hroot : w.root.IsRooted) {names scope : List Text}
    (hn : ∀ part ∈ names, Path.IsEntryName part) (hs : ∀ part ∈ scope, Path.IsEntryName part)
    (h : ¬scope <+: names) :
    inScope (canonical (w.pathOf names)) (canonical (w.pathOf scope)) = false := by
  rw [← Bool.not_eq_true, inScope_pathOf hroot hn hs]
  exact h

/-- A path left behind stays so. -/
theorem Moves.leftBehind {w w' : Walk} {outcome : StepOutcome} (hm : w.Moves outcome w')
    {names : List Text} (h : w.LeftBehind names) : w'.phase = .ended ∨ w'.LeftBehind names := by
  have hstays : ∀ {item : Candidate} {rest : List Candidate}, w.queue = item :: rest →
      (w.popped rest).Stays w' → w'.LeftBehind names := by
    intro item rest queue stays other ho
    rw [stays.queue] at ho
    exact h other (queue ▸ List.mem_cons_of_mem item ho)
  cases hm with
  | finishes _ phase _ => exact Or.inl phase
  | breaks _ phase _ => exact Or.inl phase
  | passes queue stays => exact Or.inr (hstays queue stays)
  | gives queue stays _ _ => exact Or.inr (hstays queue stays)
  | withholds queue stays _ => exact Or.inr (hstays queue stays)
  | opens queue opens =>
    rename_i item rest
    right
    obtain ⟨items, hqueue, hbelow⟩ := opens.queue
    intro other ho hp
    rw [hqueue] at ho
    rcases List.mem_append.mp ho with ho | ho
    · exact h other (queue ▸ List.mem_cons_of_mem item ho) hp
    · exact h item (queue ▸ List.mem_cons_self) (hbelow.prefix_of_prefix ho hp)

/-- A step leaves the root where it is. -/
theorem Moves.root_eq {w w' : Walk} {outcome : StepOutcome} (hm : w.Moves outcome w') :
    w'.root = w.root := by
  cases hm with
  | finishes root _ _ => exact root
  | breaks root _ _ => exact root
  | passes _ stays => exact stays.root
  | gives _ stays _ _ => exact stays.root
  | withholds _ stays _ => exact stays.root
  | opens _ opens => exact opens.root

/-- The rules for a path left behind do not change any more. -/
theorem Moves.rulesFor_eq {w w' : Walk} {outcome : StepOutcome} (hm : w.Moves outcome w')
    (hf : w.Front) {names : List Text} (hn : ∀ part ∈ names, Path.IsEntryName part)
    (h : w.LeftBehind names) :
    w'.sieve.rulesFor (w.pathOf names) = w.sieve.rulesFor (w.pathOf names) := by
  have hsame : ∀ {r : Rulebook}, w'.sieve.rulebook = r → r = w.sieve.rulebook →
      w'.sieve.rulesFor (w.pathOf names) = w.sieve.rulesFor (w.pathOf names) := by
    intro r hr hr'
    rw [Sieve.rulesFor, Sieve.rulesFor, hr, hr']
  cases hm with
  | finishes _ _ rulebook => exact hsame rulebook rfl
  | breaks _ _ rulebook => exact hsame rulebook rfl
  | passes _ stays => exact hsame stays.rulebook rfl
  | gives _ stays _ _ => exact hsame stays.rulebook rfl
  | withholds _ stays _ => exact hsame stays.rulebook rfl
  | opens queue opens =>
    rename_i item rest
    obtain ⟨more, hblocks, hscope⟩ := opens.blocks
    have hitem : item ∈ w.queue := queue ▸ List.mem_cons_self
    refine Rulebook.rulesFor_of_outside hblocks ?_
    intro b hb
    rw [RuleBlock.appliesTo, hscope b hb]
    exact outside_of_leftBehind hf.root hn (hf.names item hitem) (h item hitem)

theorem Moves.verdict_eq {w w' : Walk} {outcome : StepOutcome} (hm : w.Moves outcome w')
    (hf : w.Front) {names : List Text} (hn : ∀ part ∈ names, Path.IsEntryName part)
    (h : w.LeftBehind names) (isDirectory : Bool) :
    w'.sieve.verdict (w.pathOf names) isDirectory
      = w.sieve.verdict (w.pathOf names) isDirectory := by
  rw [Sieve.verdict, Sieve.verdict, hm.rulesFor_eq hf hn h]

/-! ### Whole runs -/

/-- A walk that has been started: its root has been accepted, or it keeps the invariant, or it has
ended. -/
inductive Started (w : Walk) : Prop
  | ready (phase : w.phase = .ready) (root : w.root.IsRooted)
      (rulebook : w.sieve.rulebook = Rulebook.empty) : Started w
  | running (phase : w.phase = .running) (front : w.Front) : Started w
  | ended (phase : w.phase = .ended) : Started w

/-- A walk begins with the invariant: its root leads to everything, and the only rule is one for
the root. -/
theorem begin_front {w : Walk} (hroot : w.root.IsRooted)
    (hrules : w.sieve.rulebook = Rulebook.empty) : w.begin.Front := by
  have hblocks : ∀ b ∈ w.begin.sieve.rulebook.blocks, b.scope = canonical (w.pathOf []) := by
    intro b hb
    simp only [begin, Sieve.insert, Sieve.register, IgnoreFile.parse, IgnoreFile.ofReadings, note,
      Rulebook.add, Rulebook.nextBlock, hrules, Rulebook.empty, List.nil_append,
      List.mem_singleton] at hb
    rw [hb, rootText, pathOf, Path.descend_nil]
  refine ⟨hroot, ?_, List.pairwise_singleton _ _, ?_⟩
  · intro item hi part hp
    rw [List.mem_singleton.mp hi] at hp
    exact absurd hp List.not_mem_nil
  · exact fun b hb => ⟨[], by simp, hblocks b hb, fun _ _ _ => rfl⟩

/-- Makes a number of steps. -/
def runFor (fs : FileSystem m) : Nat → Walk → m Walk
  | 0, w => pure w
  | steps + 1, w => do
    let (_, w) ← w.step fs
    runFor fs steps w

variable [AlwaysMonad m]

/-- The walk that the next step looks at: one whose root has just been accepted begins first. -/
inductive Looks (w : Walk) : Walk → Prop
  | first (phase : w.phase = .ready) : Looks w w.begin
  | later (phase : w.phase = .running) : Looks w w

theorem Looks.root_eq {w w₀ : Walk} (h : w.Looks w₀) : w₀.root = w.root := by
  cases h with
  | first _ => rfl
  | later _ => rfl

/-- A step of a started walk moves it on, unless it has ended. -/
theorem step_moves (fs : FileSystem m) (hfs : fs.ListsNames) {w : Walk} (hw : w.Started) :
    Always (w.step fs) fun result =>
      (w.phase = .ended ∧ result = (.finished, w)) ∨
        ∃ w₀, w.Looks w₀ ∧ w₀.phase = .running ∧ w₀.Front ∧ w₀.Moves result.1 result.2 := by
  cases hw with
  | ready phase root rulebook =>
    have hfront := begin_front root rulebook
    unfold step
    rw [phase]
    refine always_mono (advance_moves fs hfs hfront.root hfront.names) ?_
    exact fun result hm => Or.inr ⟨w.begin, .first phase, rfl, hfront, hm⟩
  | running phase front =>
    unfold step
    rw [phase]
    refine always_mono (advance_moves fs hfs front.root front.names) ?_
    exact fun result hm => Or.inr ⟨w, .later phase, phase, front, hm⟩
  | ended phase =>
    unfold step
    rw [phase]
    exact always_pure (Or.inl ⟨rfl, rfl⟩)

theorem Moves.phase_eq {w w' : Walk} {outcome : StepOutcome} (hm : w.Moves outcome w') :
    w'.phase = .ended ∨ w'.phase = w.phase := by
  cases hm with
  | finishes _ phase _ => exact Or.inl phase
  | breaks _ phase _ => exact Or.inl phase
  | passes _ stays => exact Or.inr stays.phase
  | gives _ stays _ _ => exact Or.inr stays.phase
  | withholds _ stays _ => exact Or.inr stays.phase
  | opens _ opens => exact Or.inr opens.phase

/-- A step of a walk that keeps the invariant leads to one that does, or to the end. -/
theorem Moves.started {w w' : Walk} {outcome : StepOutcome} (hm : w.Moves outcome w')
    (hf : w.Front) (hr : w.phase = .running) : w'.Started := by
  rcases hm.phase_eq with hp | hp
  · exact .ended hp
  · rcases hm.front hf with he | hf'
    · exact .ended he
    · exact .running (hp.trans hr) hf'

theorem step_started (fs : FileSystem m) (hfs : fs.ListsNames) {w : Walk} (hw : w.Started) :
    Always (w.step fs) fun result => result.2.Started ∧ result.2.root = w.root := by
  refine always_mono (step_moves fs hfs hw) ?_
  rintro ⟨outcome, w'⟩ (⟨-, heq⟩ | ⟨w₀, hlooks, hr, hf, hm⟩)
  · rw [heq]
    exact ⟨hw, rfl⟩
  · exact ⟨hm.started hf hr, hm.root_eq.trans hlooks.root_eq⟩

theorem runFor_started (fs : FileSystem m) (hfs : fs.ListsNames) (steps : Nat) :
    ∀ {w : Walk}, w.Started → Always (runFor fs steps w) fun w' =>
      w'.Started ∧ w'.root = w.root := by
  induction steps with
  | zero => exact fun hw => always_pure ⟨hw, rfl⟩
  | succ steps ih =>
    intro w hw
    refine always_bind_of (step_started fs hfs hw) ?_
    rintro ⟨outcome, w'⟩ ⟨hw', hroot⟩
    exact always_mono (ih hw') fun w'' h => ⟨h.1, h.2.trans hroot⟩

/-- **Verdicts are final.** The verdict on a path that nothing in the queue leads to is the same
after any number of steps. -/
theorem runFor_verdict (fs : FileSystem m) (hfs : fs.ListsNames) {names : List Text}
    (hn : ∀ part ∈ names, Path.IsEntryName part) (isDirectory : Bool) (steps : Nat) :
    ∀ {w : Walk}, w.phase = .ended ∨ (w.phase = .running ∧ w.Front ∧ w.LeftBehind names) →
      Always (runFor fs steps w) fun w' =>
        w'.sieve.verdict (w.pathOf names) isDirectory
          = w.sieve.verdict (w.pathOf names) isDirectory := by
  induction steps with
  | zero => exact fun _ => always_pure rfl
  | succ steps ih =>
    intro w hw
    have hstarted : w.Started := by
      rcases hw with hend | ⟨hrun, hf, -⟩
      · exact .ended hend
      · exact .running hrun hf
    refine always_bind_of (step_moves fs hfs hstarted) ?_
    rintro ⟨outcome, w'⟩ (⟨hend, heq⟩ | ⟨w₀, hlooks, hr, hf, hm⟩)
    · obtain ⟨-, rfl⟩ := Prod.mk.inj heq
      exact ih (Or.inl hend)
    · cases hlooks with
      | first hready =>
        rcases hw with hw | ⟨hw, -⟩ <;> exact absurd (hready.symm.trans hw) (by decide)
      | later hrun =>
        rcases hw with hend | ⟨-, -, hleft⟩
        · exact absurd (hrun.symm.trans hend) (by decide)
        · have hnext : w'.phase = .ended ∨
              (w'.phase = .running ∧ w'.Front ∧ w'.LeftBehind names) := by
            rcases hm.phase_eq with hp | hp
            · exact Or.inl hp
            · rcases hm.front hf with he | hf'
              · exact Or.inl he
              · rcases hm.leftBehind hleft with he | hl'
                · exact Or.inl he
                · exact Or.inr ⟨hp.trans hr, hf', hl'⟩
          have hpath : w'.pathOf names = w.pathOf names := by rw [pathOf, pathOf, hm.root_eq]
          refine always_mono (ih hnext) ?_
          intro w'' hv
          rw [← hpath, hv, hpath]
          exact hm.verdict_eq hf hn hleft isDirectory

end Walk

end TreeSieve

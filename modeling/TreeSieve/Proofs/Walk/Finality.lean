import TreeSieve.Proofs.Walk.Front
import TreeSieve.Walk.Start

/-!
# Decisions are final

An entry is considered once, and the rules that are known by then are all that will ever hold for
it: what is listed later leads elsewhere.

* `StepOutcome.considered` tells which path a step has asked for a verdict on.
* `Walk.considered_verdict_final` says that this verdict is the same after any number of further
  steps, on a file system that may fail and change between any two calls.
-/

namespace TreeSieve

/-- The names that a step has asked for a verdict on, and whether as those of a directory. -/
def StepOutcome.considered : StepOutcome → Option (List Text × Bool)
  | yielded entry => some (entry.names, entry.stats.isDirectory)
  | withheld names isDirectory => some (names, isDirectory)
  | _ => none

namespace Walk

section Start

variable {m : Type → Type} [Monad m] [AlwaysMonad m]

/-- A walk whose root is accepted has seen nothing else yet. -/
theorem start_ready (fs : FileSystem m) (top : Path) (options : Walk.Options) :
    Always ((Walk.new top options).start fs) fun result => result.1 = .ok () →
      result.2.phase = .ready ∧ result.2.root = top ∧
        result.2.sieve.rulebook = Rulebook.empty := by
  unfold start
  refine always_bind_any fun answer => ?_
  cases answer with
  | error fault => exact always_pure fun h => nomatch h
  | ok stats => exact always_pure fun _ => ⟨rfl, rfl, rfl⟩

theorem start_started (fs : FileSystem m) {current : Path} (habs : current.isAbsolute)
    (hcur : ∀ part ∈ current.parts, Path.IsName part) (root : Text) (options : Walk.Options) :
    Always ((Walk.new (Path.absolute current root) options).start fs) fun result =>
      result.1 = .ok () → result.2.Started := by
  refine always_mono (start_ready fs (Path.absolute current root) options) fun result h hok => ?_
  obtain ⟨hphase, hroot, hrules⟩ := h hok
  exact .ready hphase (hroot.symm ▸ Path.absolute_isRooted habs hcur root) hrules

end Start

/-- A step that considers an entry leaves it behind, and has decided by the rules known then. -/
theorem Moves.leftBehind_of_considered {w w' : Walk} {outcome : StepOutcome} {names : List Text}
    {isDirectory : Bool} (hm : w.Moves outcome w') (hf : w.Front)
    (hc : outcome.considered = some (names, isDirectory)) :
    (w'.phase = w.phase ∧ w'.Front ∧ w'.LeftBehind names) ∧
      w'.sieve.rulebook = w.sieve.rulebook ∧ (∀ part ∈ names, Path.IsEntryName part) ∧
      (∀ entry, outcome = .yielded entry →
        w'.sieve.isIgnored (w.pathOf names) isDirectory = false) ∧
      (outcome = .withheld names isDirectory → names ≠ [] →
        w'.sieve.isIgnored (w.pathOf names) isDirectory = true) := by
  have hafter : ∀ {item : Candidate} {rest : List Candidate}, w.queue = item :: rest →
      (w.popped rest).Stays w' →
      (w'.phase = w.phase ∧ w'.Front ∧ w'.LeftBehind item.names) ∧
        w'.sieve.rulebook = w.sieve.rulebook ∧ ∀ part ∈ item.names, Path.IsEntryName part := by
    intro item rest queue stays
    obtain ⟨hfront, hleft⟩ := hf.popped queue
    refine ⟨⟨stays.phase, stays.front hfront, ?_⟩, stays.rulebook,
      hf.names item (queue ▸ List.mem_cons_self)⟩
    rw [LeftBehind, stays.queue]
    exact hleft
  cases hm with
  | finishes _ _ _ => cases hc
  | breaks _ _ _ => cases hc
  | passes _ _ => cases hc
  | opens _ _ => cases hc
  | gives queue stays hnames kept =>
    rw [StepOutcome.considered, Option.some.injEq, Prod.mk.injEq] at hc
    obtain ⟨rfl, rfl⟩ := hc
    rw [hnames]
    obtain ⟨hwalk, hrules, hn⟩ := hafter queue stays
    exact ⟨hwalk, hrules, hn, fun _ _ => kept, fun h => nomatch h⟩
  | withholds queue stays ignored =>
    rw [StepOutcome.considered, Option.some.injEq, Prod.mk.injEq] at hc
    obtain ⟨rfl, rfl⟩ := hc
    obtain ⟨hwalk, hrules, hn⟩ := hafter queue stays
    exact ⟨hwalk, hrules, hn, fun _ h => (nomatch h), fun _ => ignored⟩

/-- **Decisions are final.** Let a walk be started on any file system, whose calls may fail and
whose answers may change with the state `σ` from call to call, as long as listings are made of
distinct names. If some step considers an entry, then the verdict on it, with the deciding rule and
its number, is the same after any number of further steps, and was so when the step was taken unless
that step began the walk: an entry that has been given out is never ignored, and one below the root
that has been withheld always is. -/
theorem considered_verdict_final {σ : Type} (fs : FileSystem (StateM σ))
    (hlist : ∀ path s entries, ((fs.list path).run s).1 = .ok entries → IsListing entries)
    {current : Path} (habs : current.isAbsolute)
    (hcur : ∀ part ∈ current.parts, Path.IsName part) (root : Text) (options : Walk.Options)
    {s s₀ s₁ s₂ : σ} {w₀ w w' : Walk} {outcome : StepOutcome} {names : List Text}
    {isDirectory : Bool}
    (hstart : ((Walk.new (Path.absolute current root) options).start fs).run s
      = ((.ok (), w₀), s₀))
    (before : Nat) (hbefore : (runFor fs before w₀).run s₀ = (w, s₁))
    (hstep : (w.step fs).run s₁ = ((outcome, w'), s₂))
    (hconsidered : outcome.considered = some (names, isDirectory)) (after : Nat) :
    let final := ((runFor fs after w').run s₂).1
    final.sieve.verdict (w.pathOf names) isDirectory
        = w'.sieve.verdict (w.pathOf names) isDirectory ∧
      (w.phase = .running → w'.sieve.verdict (w.pathOf names) isDirectory
        = w.sieve.verdict (w.pathOf names) isDirectory) ∧
      (∀ entry, outcome = .yielded entry →
        final.sieve.isIgnored (w.pathOf names) isDirectory = false) ∧
      (outcome = .withheld names isDirectory → names ≠ [] →
        final.sieve.isIgnored (w.pathOf names) isDirectory = true) := by
  have hfs : fs.ListsNames := fun path s entries h => hlist path s entries h
  have hw₀ : w₀.Started := by
    have h := start_started fs habs hcur root options s
    rw [hstart] at h
    exact h rfl
  have hw : w.Started := by
    have h := runFor_started fs hfs before hw₀ s₀
    rw [hbefore] at h
    exact h.1
  have hmoves := step_moves fs hfs hw s₁
  rw [hstep] at hmoves
  rcases hmoves with ⟨-, heq⟩ | ⟨w₁, hlooks, hrun, hfront, hm⟩
  · rw [(Prod.mk.inj heq).1] at hconsidered
    cases hconsidered
  · obtain ⟨⟨hphase, hf, hleft⟩, hrules, hn, hgiven, hwithheld⟩ :=
      hm.leftBehind_of_considered hfront hconsidered
    have hpath₁ : w₁.pathOf names = w.pathOf names := by rw [pathOf, pathOf, hlooks.root_eq]
    have hpath : w'.pathOf names = w.pathOf names := by
      rw [← hpath₁, pathOf, pathOf, hm.root_eq]
    have hfinal := runFor_verdict fs hfs hn isDirectory after
      (Or.inr ⟨hphase.trans hrun, hf, hleft⟩) s₂
    rw [hpath] at hfinal
    rw [hpath₁] at hgiven hwithheld
    refine ⟨hfinal, fun hrunning => ?_, fun entry he => ?_, fun ho hne => ?_⟩
    · cases hlooks with
      | first hready => exact absurd (hready.symm.trans hrunning) (by decide)
      | later _ => rw [Sieve.verdict, Sieve.verdict, Sieve.rulesFor, Sieve.rulesFor, hrules]
    · rw [Sieve.isIgnored, hfinal]
      exact hgiven entry he
    · rw [Sieve.isIgnored, hfinal]
      exact hwithheld ho hne

/-- A directory with an ignore file that names the file beside it, until it has been read once. -/
def fadingFiles : FileSystem (StateM Bool) where
  list _ := pure (.ok [⟨Text.lit ".gitignore", .file⟩, ⟨Text.lit "a", .file⟩])
  read _ := fun unread => (.ok (if unread then [97] else []), false)
  lstat path := pure (.ok (.ofMode (if path = Text.lit "/r" then 0o40755 else 0o100644) 1))
  stat _ := pure (.ok (.ofMode 0o40755 1))
  realPath path := pure (.ok path)

theorem fadingFiles_isListing : ∀ path s entries,
    ((fadingFiles.list path).run s).1 = .ok entries → IsListing entries := by
  rintro path s entries h
  obtain rfl : [⟨Text.lit ".gitignore", .file⟩, ⟨Text.lit "a", .file⟩] = entries :=
    Except.ok.inj h
  refine ⟨by decide, ?_⟩
  simp [Path.IsEntryName, Path.IsName, Path.dot, Path.dotDot, Text.lit]

/-- The file is still withheld when its name has gone from the ignore file. -/
theorem considered_verdict_final_fadingFiles :
    let started := ((Walk.new (Path.absolute Path.rootDirectory (Text.lit "/r")) .plain).start
      fadingFiles).run true
    let opened := (runFor fadingFiles 2 started.1.2).run started.2
    let considered := (opened.1.step fadingFiles).run opened.2
    considered.1.1 = .withheld [Text.lit "a"] false ∧
      ((runFor fadingFiles 3 considered.1.2).run considered.2).1.sieve.isIgnored
        (opened.1.pathOf [Text.lit "a"]) false = true := by
  intro started opened considered
  have hconsidered : considered.1.1 = .withheld [Text.lit "a"] false := by decide +kernel
  refine ⟨hconsidered, ?_⟩
  have hparts : ∀ {α β γ : Type} (x : (α × β) × γ), x = ((x.1.1, x.1.2), x.2) := fun _ => rfl
  have hok : started.1.1 = .ok () := rfl
  have hstart := hparts started
  rw [hok] at hstart
  have hnames : considered.1.1.considered = some ([Text.lit "a"], false) := by
    rw [hconsidered]
    rfl
  obtain ⟨-, -, -, hwithheld⟩ := considered_verdict_final fadingFiles fadingFiles_isListing rfl
    (by simp [Path.rootDirectory]) (Text.lit "/r") .plain hstart 2 (Prod.eta opened).symm
    (hparts considered) hnames 3
  exact hwithheld hconsidered (by decide)

end Walk

end TreeSieve

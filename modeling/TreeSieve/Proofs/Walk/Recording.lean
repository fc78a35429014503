import TreeSieve.Proofs.Walk.Counts
import TreeSieve.Proofs.Walk.Reaching

/-!
# The calls of a walk

Noting the calls of a walk does not change what it comes to, and tells which directories are listed.

* `Asks` holds of a recorded computation with a result, which asks for certain listings only.
* `Traversal.Lists` holds of an entry whose listing is asked for, and `Walk.lookAt_asks` says that
  looking at an entry asks for no other listing.
* `Walk.exists_lists_of_call` says that each directory that a walk lists is a place of its
  traversal.
-/

namespace TreeSieve

/-- A recorded computation that comes to the result `a`, and whose listings are all of paths with
the property `P`. -/
def Asks {α : Type} (P : Text → Prop) (x : StateT (List FileCall) Id α) (a : α) : Prop :=
  ∀ calls, ∃ more, (x.run calls).run = (a, more ++ calls) ∧
    ∀ path, ⟨.list, path⟩ ∈ more → P path

/-! ### Recorded computations -/

section Rules

variable {α β : Type} {P : Text → Prop}

theorem Asks.pure (a : α) : Asks P (pure a) a :=
  fun _ => ⟨[], rfl, fun _ h => absurd h List.not_mem_nil⟩

theorem Asks.bind {x : StateT (List FileCall) Id α} {f : α → StateT (List FileCall) Id β} {a : α}
    {b : β} (hx : Asks P x a) (hf : Asks P (f a) b) : Asks P (x >>= f) b := by
  intro calls
  obtain ⟨more, hrun, hmore⟩ := hx calls
  obtain ⟨later, hrun', hlater⟩ := hf (more ++ calls)
  refine ⟨later ++ more, ?_, fun path h => ?_⟩
  · rw [StateT.run_bind, Id.run_bind, hrun, hrun', List.append_assoc]
  · rcases List.mem_append.mp h with h | h
    · exact hlater path h
    · exact hmore path h

/-- A recorded call comes to what the call comes to, and is the only one; if it is a listing then
the path has to have the property. -/
theorem Asks.call {operation : FileOperation} {call : Text → Id α} {path : Text}
    (h : operation = .list → P path) :
    Asks P (FileSystem.note operation call path) (call path).run := by
  intro calls
  refine ⟨[⟨operation, path⟩], rfl, fun other hother => ?_⟩
  obtain ⟨hlist, rfl⟩ := FileCall.mk.inj (List.mem_singleton.mp hother)
  exact h hlist.symm

/-- A recorded call that is no listing comes to what the call comes to, and no listing is recorded.
-/
theorem Asks.call_of_ne {operation : FileOperation} (hne : operation ≠ .list)
    {call : Text → Id α} {path : Text} :
    Asks P (FileSystem.note operation call path) (call path).run :=
  .call fun hlist => absurd hlist hne

end Rules

/-- An entry whose listing is asked for: a directory above the depth limit that is not pruned. -/
structure Traversal.Lists (t : Traversal) (rules : List Rule) (item : Candidate) : Prop where
  directory : (t.resolve item).stats.isDirectory = true
  shallow : t.options.maxDepth ≠ some item.depth
  entered : listPrunes rules (canonical (t.pathOf item.names)) = false

section Parts

variable (fs : FileSystem Id) {P : Text → Prop}

/-- Reading an ignore file comes to the same when it is recorded, and no listing is. -/
theorem IgnoreFile.load_asks (cache : MatcherCache) (path : Text) :
    Asks P (IgnoreFile.load fs.recorded cache path) (IgnoreFile.load fs cache path).run := by
  unfold IgnoreFile.load
  refine Asks.bind (.call_of_ne (by decide)) ?_
  simp only [Id.run_bind]
  cases (fs.lstat (Path.ofText path).toText).run with
  | error e => exact .pure _
  | ok stats =>
    simp only
    split
    · exact .pure _
    · refine Asks.bind (.call_of_ne (by decide)) ?_
      simp only [Id.run_bind]
      cases (fs.read (Path.ofText path).toText).run with
      | error e => exact .pure _
      | ok bytes => exact .pure _

namespace Walk

variable (w : Walk) (item : Candidate)

theorem resolve_asks : Asks P (w.resolve fs.recorded item) (w.resolve fs item).run := by
  unfold resolve
  simp only
  split
  · exact .pure _
  · refine Asks.bind (.call_of_ne (by decide)) ?_
    simp only [Id.run_bind]
    cases (fs.stat (w.pathOf item.names)).run with
    | error e => exact .pure _
    | ok stats =>
      simp only
      split
      · exact .pure _
      · refine Asks.bind (.call_of_ne (by decide)) ?_
        simp only [Id.run_bind]
        cases (fs.realPath (w.pathOf item.names)).run with
        | error e => exact .pure _
        | ok real =>
          simp only
          split
          · exact .pure _
          · exact .pure _

theorem realPathOf_asks : Asks P (w.realPathOf fs.recorded item) (w.realPathOf fs item).run := by
  unfold realPathOf
  split
  · exact Asks.bind (.call_of_ne (by decide)) (.pure _)
  · exact .pure _

theorem takeIn_asks (path : Text) :
    Asks P (w.takeIn fs.recorded path) (w.takeIn fs path).run :=
  Asks.bind (Asks.bind (IgnoreFile.load_asks fs w.sieve.cache path) (.pure _)) (.pure _)

theorem gather_asks (real : Text) (entries : List ListedEntry) : ∀ w : Walk,
    Asks P (gather fs.recorded item real w entries) (gather fs item real w entries).run := by
  induction entries with
  | nil => exact fun w => .pure _
  | cons entry rest ih =>
    intro w
    unfold gather
    refine Asks.bind (.call_of_ne (by decide)) ?_
    simp only [Id.run_bind]
    cases (fs.lstat (w.pathOf (item.names ++ [entry.name]))).run with
    | error e => exact ih _
    | ok stats =>
      simp only
      split
      · exact Asks.bind (takeIn_asks fs w _) (Asks.bind (ih _) (.pure _))
      · exact Asks.bind (.pure w) (Asks.bind (ih w) (.pure _))

variable {w item}

/-- Queueing the entries of a directory comes to the same when it is recorded, and no listing is but
that of the directory, if it lies above the depth limit and is entered. -/
theorem enqueue_asks (real : Text)
    (h : w.isDeepest item.depth = false → (w.sieve.entering (w.pathOf item.names)).enters = true →
      P (w.pathOf item.names)) :
    Asks P (w.enqueue fs.recorded item real) (w.enqueue fs item real).run := by
  unfold enqueue
  split
  · exact .pure _
  · rename_i hdeep
    simp only
    split
    · exact .pure _
    · rename_i henters
      rw [Bool.not_eq_true', Bool.not_eq_false, ← Sieve.entering] at henters
      refine Asks.bind (.call fun _ => h (Bool.eq_false_iff.mpr hdeep) henters) ?_
      simp only [Id.run_bind]
      cases (fs.list (w.pathOf item.names)).run with
      | error e => exact .pure _
      | ok entries =>
        cases entries with
        | nil => exact .pure _
        | cons entry entries => exact Asks.bind (gather_asks fs item real _ _) (.pure _)

theorem lookAtDirectory_asks (stats : FileStats) (real : Text)
    (h : w.isDeepest item.depth = false → (w.sieve.entering (w.pathOf item.names)).enters = true →
      P (w.pathOf item.names)) :
    Asks P (w.lookAtDirectory fs.recorded item stats real)
      (w.lookAtDirectory fs item stats real).run := by
  unfold lookAtDirectory
  refine Asks.bind (enqueue_asks fs real h) ?_
  simp only [Id.run_bind]
  generalize (w.enqueue fs item real).run = queued
  obtain ⟨outcome, w'⟩ := queued
  cases outcome with
  | unlistable => exact .pure _
  | childless =>
    simp only
    split
    · exact .pure _
    · exact .pure _
  | mayHaveChildren =>
    simp only
    split
    · exact .pure _
    · exact .pure _

/-- Looking at an entry comes to the same when it is recorded, and no listing is but that of the
entry, if the traversal would list it with the rules that hold for it. -/
theorem lookAt_asks (hsound : w.sieve.Sound)
    (h : (w.traversal fs).Lists (w.rulesAt item.names) item → P (w.pathOf item.names)) :
    Asks P (w.lookAt fs.recorded item) (w.lookAt fs item).run := by
  have hresolve := resolve_eq fs w item
  have hstays : w.Stays (w.resolve fs item).run.2 := resolve_stays fs w item
  unfold lookAt
  refine Asks.bind (resolve_asks fs w item) ?_
  simp only [Id.run_bind]
  generalize (w.resolve fs item).run = resolved at hresolve hstays ⊢
  obtain ⟨found, w'⟩ := resolved
  simp only
  split
  · rename_i hdirectory
    have hlists : w'.isDeepest item.depth = false →
        (w'.sieve.entering (w'.pathOf item.names)).enters = true → P (w'.pathOf item.names) := by
      intro hdeep henters
      rw [hstays.pathOf]
      refine h ⟨hresolve ▸ hdirectory, ?_, ?_⟩
      · rw [isDeepest, hstays.options] at hdeep
        exact beq_eq_false_iff_ne.mp hdeep
      · have hprunes := listPrunes_eq (hstays.sound hsound).numbered (w'.pathOf item.names)
        rw [henters] at hprunes
        rw [← hstays.rulesAt]
        show listPrunes (w'.rulesAt item.names) (canonical (w.pathOf item.names)) = false
        rw [← hstays.pathOf]
        exact hprunes
    split
    · exact lookAtDirectory_asks fs found.stats _ hlists
    · refine Asks.bind (realPathOf_asks fs w' item) ?_
      simp only [Id.run_bind]
      cases (w'.realPathOf fs item).run with
      | error e => exact .pure _
      | ok real => exact lookAtDirectory_asks fs found.stats real hlists
  · exact .pure _

end Walk

end Parts

/-! ### Whole runs -/

namespace Walk

section Runs

variable {fs : FileSystem Id}
  (hlist : ∀ path entries, (fs.list path).run = .ok entries → IsListing entries)

include hlist

/-- A walk that makes a traversal comes to the same when it is recorded, and all listings are of
places of the traversal that it lists. -/
theorem visit_asks {t : Traversal} {first : Place} (steps : Nat) : ∀ {w : Walk} (acc : List Entry),
    Follows fs t w → (∀ place ∈ w.places, Reaches t.look first place) →
    Asks (fun path => ∃ place, Reaches t.look first place ∧ t.Lists place.rules place.item ∧
        path = t.pathOf place.item.names)
      (visit fs.recorded (fun entry acc => .yield (entry :: acc)) steps acc w)
      (visit fs (fun entry acc => .yield (entry :: acc)) steps acc w).run := by
  induction steps with
  | zero => exact fun acc _ _ => .pure _
  | succ steps ih =>
    intro w acc hw hplaces
    cases hqueue : w.queue with
    | nil =>
      rw [visit, visit, step_of_queue_nil hw.phase hqueue, step_of_queue_nil hw.phase hqueue]
      exact Asks.bind (.pure _) (.pure _)
    | cons item rest =>
      have hfirst : w.places = ⟨w.rulesAt item.names, item⟩
          :: rest.map fun other => ⟨w.rulesAt other.names, other⟩ := by
        rw [places, hqueue, List.map_cons]
      have hreach := hplaces _ (hfirst ▸ List.mem_cons_self)
      have hdepth := hw.depth item (hqueue ▸ List.mem_cons_self)
      have hlooked : Asks (fun path => ∃ place, Reaches t.look first place ∧
          t.Lists place.rules place.item ∧ path = t.pathOf place.item.names)
          (w.step fs.recorded) (w.step fs).run := by
        have hstep : ∀ {m : Type → Type} [Monad m] (fs : FileSystem m),
            w.step fs = (w.popped rest).lookAt fs item := by
          intro m _ fs
          rw [step, hw.phase]
          exact advance_eq_lookAt fs hw.maxEntries hqueue hdepth
        rw [hstep, hstep]
        refine lookAt_asks fs (w := w.popped rest) hw.sound fun hlists => ?_
        have htraversal : (w.popped rest).traversal fs = t := hw.traversal
        rw [htraversal] at hlists
        exact ⟨⟨w.rulesAt item.names, item⟩, hreach, hlists, hw.traversal ▸ rfl⟩
      obtain ⟨hgiven, hnext, hbehind⟩ := hw.step hlist hfirst
      have hplaces' : ∀ place ∈ (w.step fs).run.2.places, Reaches t.look first place := by
        rw [hbehind]
        intro place hmem
        rcases List.mem_append.mp hmem with hmem | hmem
        · exact hplaces place (hfirst ▸ List.mem_cons_of_mem _ hmem)
        · exact hreach.tail hmem
      have hrest := fun acc => ih acc hnext hplaces'
      rw [visit, visit]
      refine Asks.bind hlooked ?_
      simp only [Id.run_bind]
      generalize (w.step fs).run = result at hgiven hrest ⊢
      obtain ⟨outcome, w'⟩ := result
      cases outcome with
      | yielded entry => exact hrest (entry :: acc)
      | withheld names isDirectory => exact hrest acc
      | quiet => exact hrest acc
      | finished => cases hgiven
      | failed e => cases hgiven

/-- A directory that a walk lists is a place of its traversal whose listing is asked for. -/
theorem exists_lists_of_call {root : Path} (hroot : root.IsRooted) {options : Walk.Options}
    (hlimit : options.maxEntries = none) {w₀ : Walk}
    (hstart : ((Walk.new root options).start fs).run = (.ok (), w₀))
    (hreal : ∃ real, (fs.realPath root.toText).run = .ok real) {steps : Nat} {path : Text}
    (hcall : ⟨.list, path⟩ ∈ ((w₀.entries fs.recorded steps).run []).run.2) :
    ∃ place, Reaches (Traversal.look ⟨fs, root, options⟩)
        (Traversal.rootPlace ⟨fs, root, options⟩ w₀.rootStats) place ∧
      Traversal.Lists ⟨fs, root, options⟩ place.rules place.item ∧
      path = (root.descend place.item.names).toText := by
  obtain ⟨stats, -, haccepted⟩ := start_accepted hstart
  obtain ⟨hfollows, hplaces⟩ := start_follows hroot hlimit hstart hreal
  cases steps with
  | zero => exact absurd hcall List.not_mem_nil
  | succ steps =>
    have hfirst : ∀ place ∈ w₀.begin.places, Reaches (Traversal.look ⟨fs, root, options⟩)
        (Traversal.rootPlace ⟨fs, root, options⟩ w₀.rootStats) place := by
      rw [hplaces]
      exact List.forall_mem_singleton.mpr .refl
    obtain ⟨more, hrun, hmore⟩ := visit_asks hlist (steps + 1) [] hfollows hfirst []
    rw [entries, visit_of_ready fs.recorded _ haccepted.phase] at hcall
    have hcalled : ⟨.list, path⟩ ∈ ((visit fs.recorded (fun entry acc => .yield (entry :: acc))
        (steps + 1) [] w₀.begin).run []).run.2 := hcall
    rw [hrun, List.append_nil] at hcalled
    exact hmore path hcalled

end Runs

end Walk

end TreeSieve

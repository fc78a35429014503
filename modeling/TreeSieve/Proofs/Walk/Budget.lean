import TreeSieve.Proofs.Walk.Ending

/-!
# Entry limits

A walk with an entry limit goes as the walk without one does until it has given out as many entries.
Nothing but the limit itself and the notes differ up to there.

* `Walk.withLimit` is a walk with another limit and other notes, and `Walk.Mirrors` holds of results
  that differ in these only.
* `Walk.lookAt_mirrors` says that looking at an entry asks for no limit, and `Walk.step_mirrors`
  that a step does so only if the limit has been reached.
* `Walk.entries_take` says what a walk with a limit gives out, and what it reports.
-/

namespace TreeSieve

namespace Walk

variable {fs : FileSystem Id}

/-- A walk with another entry limit and other notes. -/
def withLimit (w : Walk) (limit : Option Nat) (log : List LogRecord) : Walk :=
  { w with options := { w.options with maxEntries := limit }, log := log }

/-- Two results of which the second one differs in the entry limit of the walk and in its notes. -/
def Mirrors {α : Type} (limit : Option Nat) (result result' : α × Walk) : Prop :=
  ∃ log, result' = (result.1, result.2.withLimit limit log)

theorem note_withLimit (w : Walk) (limit : Option Nat) (log records : List LogRecord) :
    (w.withLimit limit log).note records
      = (w.note records).withLimit limit (records.reverse ++ log) := rfl

/-! ### What asks for no limit -/

section Parts

variable (fs) (w : Walk) (limit : Option Nat) (log : List LogRecord) (item : Candidate)

theorem resolve_mirrors :
    Mirrors limit (w.resolve fs item).run ((w.withLimit limit log).resolve fs item).run := by
  have hpath : (w.withLimit limit log).pathOf item.names = w.pathOf item.names := rfl
  have hfollow : (w.withLimit limit log).options.followLinks = w.options.followLinks := rfl
  unfold resolve
  simp only [hpath, hfollow]
  split
  · exact ⟨log, rfl⟩
  · simp only [Id.run_bind]
    cases (fs.stat (w.pathOf item.names)).run with
    | error e => exact ⟨_, rfl⟩
    | ok stats =>
      simp only
      split
      · exact ⟨log, rfl⟩
      · simp only [Id.run_bind]
        cases (fs.realPath (w.pathOf item.names)).run with
        | error e => exact ⟨_, rfl⟩
        | ok real =>
          simp only
          split
          · exact ⟨_, rfl⟩
          · exact ⟨log, rfl⟩

theorem takeIn_withLimit (path : Text) :
    ∃ log', ((w.withLimit limit log).takeIn fs path).run
      = (w.takeIn fs path).run.withLimit limit log' :=
  ⟨_, rfl⟩

theorem gather_mirrors (real : Text) (entries : List ListedEntry) : ∀ (w : Walk) log,
    Mirrors limit (gather fs item real w entries).run
      (gather fs item real (w.withLimit limit log) entries).run := by
  induction entries with
  | nil => exact fun w log => ⟨log, rfl⟩
  | cons entry rest ih =>
    intro w log
    have hpath : (w.withLimit limit log).pathOf = w.pathOf := rfl
    have hnames : (w.withLimit limit log).options.ignoreNames = w.options.ignoreNames := rfl
    unfold gather
    simp only [hpath, hnames, Id.run_bind]
    cases (fs.lstat (w.pathOf (item.names ++ [entry.name]))).run with
    | error e => exact ih (w.note _) _
    | ok stats =>
      simp only
      split
      · obtain ⟨log₁, hfirst⟩ := takeIn_withLimit fs w limit log
          (w.pathOf (item.names ++ [entry.name]))
        obtain ⟨log₂, hrest⟩ := ih (w.takeIn fs (w.pathOf (item.names ++ [entry.name]))).run log₁
        simp only [Id.run_bind, hfirst, hrest]
        exact ⟨log₂, rfl⟩
      · obtain ⟨log₂, hrest⟩ := ih w log
        simp only [Id.run_bind, Id.run_pure, hrest]
        exact ⟨log₂, rfl⟩

theorem enqueue_mirrors (real : Text) :
    Mirrors limit (w.enqueue fs item real).run
      ((w.withLimit limit log).enqueue fs item real).run := by
  have hpath : (w.withLimit limit log).pathOf = w.pathOf := rfl
  have hsieve : (w.withLimit limit log).sieve = w.sieve := rfl
  have hdeep : (w.withLimit limit log).isDeepest item.depth = w.isDeepest item.depth := rfl
  unfold enqueue
  simp only [hpath, hsieve, hdeep, note_withLimit]
  split
  · exact ⟨log, rfl⟩
  · split
    · exact ⟨_, rfl⟩
    · simp only [Id.run_bind]
      cases (fs.list (w.pathOf item.names)).run with
      | error e => exact ⟨_, rfl⟩
      | ok entries =>
        cases entries with
        | nil => exact ⟨_, rfl⟩
        | cons entry entries =>
          generalize w.note _ = w', _ ++ log = log'
          obtain ⟨log₂, hgathered⟩ :=
            gather_mirrors fs limit item real (entry :: entries) w' log'
          simp only [Id.run_bind, hgathered]
          exact ⟨log₂, rfl⟩

theorem offer_mirrors (stats : FileStats) (isDirectory : Bool) :
    Mirrors limit (w.offer item stats isDirectory)
      ((w.withLimit limit log).offer item stats isDirectory) := by
  have hpath : (w.withLimit limit log).pathOf = w.pathOf := rfl
  have hsieve : (w.withLimit limit log).sieve = w.sieve := rfl
  unfold offer
  simp only [hpath, hsieve]
  split
  · exact ⟨_, rfl⟩
  · exact ⟨_, rfl⟩

theorem lookAtDirectory_mirrors (stats : FileStats) (real : Text) :
    Mirrors limit (w.lookAtDirectory fs item stats real).run
      ((w.withLimit limit log).lookAtDirectory fs item stats real).run := by
  obtain ⟨log', hqueued⟩ := enqueue_mirrors fs w limit log item real
  unfold lookAtDirectory
  simp only [Id.run_bind, hqueued]
  generalize (w.enqueue fs item real).run = queued
  obtain ⟨outcome, w'⟩ := queued
  have hempty : (w'.withLimit limit log').options.includeEmpty = w'.options.includeEmpty := rfl
  have hdeep : (w'.withLimit limit log').isDeepest item.depth = w'.isDeepest item.depth := rfl
  cases outcome with
  | unlistable => exact ⟨log', rfl⟩
  | childless =>
    simp only [hempty, hdeep]
    split
    · exact offer_mirrors w' limit log' item stats true
    · exact ⟨log', rfl⟩
  | mayHaveChildren =>
    simp only [hdeep]
    split
    · exact offer_mirrors w' limit log' item stats true
    · exact ⟨log', rfl⟩

/-- Looking at an entry has the same outcome and leads to the same walk, but for the notes, whatever
the entry limit is. -/
theorem lookAt_mirrors :
    Mirrors limit (w.lookAt fs item).run ((w.withLimit limit log).lookAt fs item).run := by
  obtain ⟨log', hresolved⟩ := resolve_mirrors fs w limit log item
  unfold lookAt
  simp only [Id.run_bind, hresolved]
  generalize (w.resolve fs item).run = resolved
  obtain ⟨found, w'⟩ := resolved
  simp only
  split
  · split
    · exact lookAtDirectory_mirrors fs w' limit log' item found.stats _
    · have hown : (w'.withLimit limit log').realPathOf fs item = w'.realPathOf fs item := rfl
      simp only [Id.run_bind, hown]
      cases (w'.realPathOf fs item).run with
      | error e => exact ⟨log', rfl⟩
      | ok real => exact lookAtDirectory_mirrors fs w' limit log' item found.stats real
  · exact offer_mirrors w' limit log' item found.stats false

/-- Looking at an entry leaves the entry limit as it is. -/
theorem lookAt_maxEntries :
    (w.lookAt fs item).run.2.options.maxEntries = w.options.maxEntries := by
  obtain ⟨log', hsame⟩ := lookAt_mirrors fs w w.options.maxEntries w.log item
  exact congrArg (fun result : StepOutcome × Walk => result.2.options.maxEntries) hsame

end Parts

/-! ### Steps -/

/-- A step that gives out nothing and ends the walk, cut short, since the limit has been reached. -/
structure StopsAt (limit : Nat) (w : Walk) (result : StepOutcome × Walk) : Prop where
  full : limit ≤ w.yielded
  outcome : result.1 = .finished
  phase : result.2.phase = .ended
  yielded : result.2.yielded = w.yielded
  truncated : result.2.truncated = true

section Steps

variable (fs) {w : Walk} (hnone : w.options.maxEntries = none)

include hnone

/-- A walk with an entry limit goes on as the one without, and the limit has not been reached if
something is left to be looked at; or it stops at the limit. -/
theorem advance_mirrors (limit : Nat) (log : List LogRecord) :
    (Mirrors (some limit) (w.advance fs).run ((w.withLimit (some limit) log).advance fs).run ∧
        ((w.advance fs).run.1.given = none ∨ w.yielded < limit)) ∨
      w.StopsAt limit ((w.withLimit (some limit) log).advance fs).run := by
  have hqueue : (w.withLimit (some limit) log).queue = w.queue := rfl
  have hfull : w.isFull = false := by rw [isFull, hnone]; rfl
  unfold advance
  rw [hqueue]
  cases w.queue with
  | nil => exact Or.inl ⟨⟨_, rfl⟩, Or.inl rfl⟩
  | cons item rest =>
    have hdeep : (w.withLimit (some limit) log).isTooDeep item.depth = w.isTooDeep item.depth := rfl
    simp only [hfull, hdeep, Bool.false_eq_true, if_false]
    by_cases hstop : limit ≤ w.yielded
    · have hreached : (w.withLimit (some limit) log).isFull = true := decide_eq_true hstop
      rw [if_pos hreached]
      exact Or.inr ⟨hstop, rfl, rfl, rfl, rfl⟩
    · have hreached : ¬(w.withLimit (some limit) log).isFull = true :=
        fun hfull => hstop (of_decide_eq_true hfull)
      rw [if_neg hreached]
      refine Or.inl ⟨?_, Or.inr (Nat.lt_of_not_le hstop)⟩
      split
      · exact ⟨_, rfl⟩
      · exact lookAt_mirrors fs _ (some limit) log item

theorem step_mirrors (limit : Nat) (log : List LogRecord) :
    (Mirrors (some limit) (w.step fs).run ((w.withLimit (some limit) log).step fs).run ∧
        ((w.step fs).run.1.given = none ∨ w.yielded < limit)) ∨
      w.StopsAt limit ((w.withLimit (some limit) log).step fs).run := by
  have hphase : (w.withLimit (some limit) log).phase = w.phase := rfl
  unfold step
  rw [hphase]
  cases w.phase with
  | ready =>
    rcases advance_mirrors fs (w := w.begin) hnone limit _ with h | h
    · exact Or.inl h
    · exact Or.inr ⟨h.full, h.outcome, h.phase, h.yielded, h.truncated⟩
  | running => exact advance_mirrors fs hnone limit log
  | unstarted => exact Or.inl ⟨⟨log, rfl⟩, Or.inl rfl⟩
  | refused => exact Or.inl ⟨⟨log, rfl⟩, Or.inl rfl⟩
  | ended => exact Or.inl ⟨⟨log, rfl⟩, Or.inl rfl⟩

/-- A step without an entry limit counts what it gives out, and is not cut short. -/
theorem advance_unlimited :
    (w.advance fs).run.2.options.maxEntries = none ∧
      (w.advance fs).run.2.yielded
        = w.yielded + ((w.advance fs).run.1.given.getD []).length ∧
      (w.advance fs).run.2.truncated = w.truncated := by
  have hfull : w.isFull = false := by rw [isFull, hnone]; rfl
  unfold advance
  cases w.queue with
  | nil => exact ⟨hnone, rfl, rfl⟩
  | cons item rest =>
    simp only [hfull, Bool.false_eq_true, if_false]
    split
    · exact ⟨hnone, rfl, rfl⟩
    · have hcounts : (w.popped rest).Counts ((w.popped rest).lookAt fs item).run :=
        lookAt_counts fs _ item
      exact ⟨(lookAt_maxEntries fs (w.popped rest) item).trans hnone, hcounts.yielded,
        hcounts.truncated⟩

theorem step_unlimited :
    (w.step fs).run.2.options.maxEntries = none ∧
      (w.step fs).run.2.yielded = w.yielded + ((w.step fs).run.1.given.getD []).length ∧
      (w.step fs).run.2.truncated = w.truncated := by
  unfold step
  cases w.phase with
  | ready => exact advance_unlimited fs (w := w.begin) hnone
  | running => exact advance_unlimited fs hnone
  | unstarted => exact ⟨hnone, rfl, rfl⟩
  | refused => exact ⟨hnone, rfl, rfl⟩
  | ended => exact ⟨hnone, rfl, rfl⟩

end Steps

/-! ### Runs -/

/-- What a walk collects is put in front of what had been collected before. -/
theorem exists_of_visit (steps : Nat) : ∀ (acc out : List Entry) (w last : Walk),
    (visit fs (fun entry acc => .yield (entry :: acc)) steps acc w).run = (.ok out, last) →
    ∃ given : List Entry, out = given.reverse ++ acc := by
  induction steps with
  | zero => exact fun acc out w last h => ⟨[], (Except.ok.inj (Prod.mk.inj h).1).symm⟩
  | succ steps ih =>
    intro acc out w last h
    rcases visit_of_ok h with ⟨given, -, hrest⟩ | ⟨-, rfl⟩
    · obtain ⟨more, rfl⟩ := ih _ out _ last hrest
      exact ⟨given ++ more, by rw [List.reverse_append, List.append_assoc]⟩
    · exact ⟨[], rfl⟩

/-- What a walk with an entry limit has come to, where `given` would be given out without one. -/
structure CutsAt (limit : Nat) (w : Walk) (acc given : List Entry)
    (result : Except FileError (List Entry) × Walk) : Prop where
  answer : result.1 = .ok ((given.take (limit - w.yielded)).reverse ++ acc)
  phase : result.2.phase = .ended
  yielded : result.2.yielded = w.yielded + (given.take (limit - w.yielded)).length
  full : result.2.truncated = true → limit ≤ w.yielded + given.length
  whole : result.2.truncated = false → w.yielded + given.length ≤ limit

/-- A walk that ends without giving out anything more, and is not cut short, agrees with one that
would give out nothing. -/
theorem CutsAt.refl {limit : Nat} {w last : Walk} (acc : List Entry) (hle : w.yielded ≤ limit)
    (hphase : last.phase = .ended) (hyielded : last.yielded = w.yielded)
    (htruncated : last.truncated = false) : CutsAt limit w acc [] (.ok acc, last) := by
  refine ⟨?_, hphase, ?_, fun h => ?_, fun _ => hle⟩
  · rw [List.take_nil]
    rfl
  · rw [List.take_nil]
    exact hyielded
  · rw [htruncated] at h
    cases h

/-- A walk that stops at its limit agrees with any one that would give out more: none of that is
allowed. -/
theorem StopsAt.cutsAt {limit : Nat} {w : Walk} {result : StepOutcome × Walk}
    (h : w.StopsAt limit result) (acc given : List Entry) :
    CutsAt limit w acc given (.ok acc, result.2) := by
  have hnone : limit - w.yielded = 0 := Nat.sub_eq_zero_of_le h.full
  refine ⟨?_, h.phase, ?_, fun _ => h.full.trans (Nat.le_add_right _ _), fun hwhole => ?_⟩
  · rw [hnone]
    rfl
  · rw [hnone]
    exact h.yielded
  · rw [h.truncated] at hwhole
    cases hwhole

theorem CutsAt.of_yielded_eq {limit : Nat} {w w' : Walk} {acc given : List Entry}
    {result : Except FileError (List Entry) × Walk} (h : CutsAt limit w' acc given result)
    (hsame : w'.yielded = w.yielded) : CutsAt limit w acc given result :=
  ⟨hsame ▸ h.answer, h.phase, hsame ▸ h.yielded, hsame ▸ h.full, hsame ▸ h.whole⟩

/-- If a walk is cut as it should be behind an entry then it is so in front of the entry, which is
one more of those that the limit allows. -/
theorem CutsAt.cons {limit : Nat} {w w' : Walk} {acc given : List Entry} {entry : Entry}
    {result : Except FileError (List Entry) × Walk}
    (h : CutsAt limit w' (entry :: acc) given result) (hless : w.yielded < limit)
    (hyielded : w'.yielded = w.yielded + 1) : CutsAt limit w acc (entry :: given) result := by
  have htake : (entry :: given).take (limit - w.yielded)
      = entry :: given.take (limit - w'.yielded) := by
    rw [show limit - w.yielded = (limit - w'.yielded) + 1 by omega, List.take_succ_cons]
  have hlength : (entry :: given).length = given.length + 1 := List.length_cons
  refine ⟨?_, h.phase, ?_, fun hfull => ?_, fun hwhole => ?_⟩
  · rw [htake, h.answer]
    simp
  · rw [htake, h.yielded, List.length_cons]
    omega
  · have hreached := h.full hfull
    omega
  · have hrest := h.whole hwhole
    omega

/-- A walk with an entry limit gives out what the one without does, up to the limit. The induction
is on the steps of the walk without; the other one makes no more. -/
theorem visit_cutsAt (limit steps : Nat) : ∀ {w : Walk} (log : List LogRecord)
    (acc : List Entry) {out : List Entry}, w.options.maxEntries = none → w.truncated = false →
    w.yielded ≤ limit →
    (visit fs (fun entry acc => .yield (entry :: acc)) steps acc w).run.1 = .ok out →
    (visit fs (fun entry acc => .yield (entry :: acc)) steps acc w).run.2.phase = .ended →
    ∃ given, out = given.reverse ++ acc ∧ CutsAt limit w acc given
      (visit fs (fun entry acc => .yield (entry :: acc)) steps acc
        (w.withLimit (some limit) log)).run := by
  induction steps with
  | zero =>
    intro w log acc out _ htruncated hle hout hend
    exact ⟨[], (Except.ok.inj hout).symm, .refl acc hle hend rfl htruncated⟩
  | succ steps ih =>
    intro w log acc out hnone htruncated hle hout hend
    obtain ⟨given, hgiven⟩ := exists_of_visit (steps + 1) acc out w _ (Prod.ext hout rfl)
    rcases step_mirrors fs hnone limit log with ⟨⟨log', hmirrors⟩, hbefore⟩ | hstops
    · obtain ⟨hnone', hyielded, hcut⟩ := step_unlimited fs hnone
      rw [visit] at hout hend ⊢
      simp only [Id.run_bind, hmirrors] at hout hend ⊢
      generalize (w.step fs).run = result at *
      obtain ⟨outcome, w'⟩ := result
      cases outcome with
      | yielded entry =>
        have hless : w.yielded < limit := hbefore.resolve_left (by simp [StepOutcome.given])
        obtain ⟨more, hmore, hcuts⟩ := ih log' (entry :: acc) hnone' (hcut.trans htruncated)
          (by rw [hyielded]; exact hless) hout hend
        exact ⟨entry :: more, by simpa using hmore, hcuts.cons hless hyielded⟩
      | withheld names isDirectory =>
        obtain ⟨more, hmore, hcuts⟩ := ih log' acc hnone' (hcut.trans htruncated)
          (by rw [hyielded]; exact hle) hout hend
        exact ⟨more, hmore, hcuts.of_yielded_eq hyielded⟩
      | quiet =>
        obtain ⟨more, hmore, hcuts⟩ := ih log' acc hnone' (hcut.trans htruncated)
          (by rw [hyielded]; exact hle) hout hend
        exact ⟨more, hmore, hcuts.of_yielded_eq hyielded⟩
      | finished =>
        exact ⟨[], (Except.ok.inj hout).symm, .refl acc hle hend hyielded (hcut.trans htruncated)⟩
      | failed e => cases hout
    · refine ⟨given, hgiven, ?_⟩
      have hcuts := hstops.cutsAt acc given
      rw [visit]
      simp only [Id.run_bind]
      generalize ((w.withLimit (some limit) log).step fs).run = result at hstops hcuts ⊢
      obtain ⟨outcome, w'⟩ := result
      obtain rfl : outcome = .finished := hstops.outcome
      exact hcuts

/-- A root is accepted whatever the entry limit is; nothing has been given out then, and the walk
has not been cut short. -/
theorem start_withLimit {root : Path} {options : Walk.Options} {w₀ : Walk}
    (hstart : ((Walk.new root options).start fs).run = (.ok (), w₀)) (limit : Option Nat) :
    w₀.yielded = 0 ∧ w₀.truncated = false ∧
      ∃ log, ((Walk.new root { options with maxEntries := limit }).start fs).run
        = (.ok (), w₀.withLimit limit log) := by
  obtain ⟨stats, hlook, rfl⟩ := start_eq_of_ok hstart
  exact ⟨rfl, rfl, _, start_of_lookAtRoot hlook { options with maxEntries := limit }⟩

/-- **An entry limit cuts off what would be given out.** Let the files not change, and let a walk
without an entry limit come to its end without failing. With any entry limit the root is accepted as
well and the walk comes to its end; it has given out the first entries of the other walk, as many as
the limit allows, and has counted them. If it reports that it was cut short then it has given out
exactly as many entries as the limit says, and if it does not then it has given out all of them. -/
theorem entries_take (fs : FileSystem Id) (root : Path) {options : Walk.Options}
    (hnone : options.maxEntries = none) {w₀ : Walk}
    (hstart : ((Walk.new root options).start fs).run = (.ok (), w₀)) {given : List Entry}
    {last : Walk} (hcloses : Closes fs w₀ (.ok given) last) (limit : Nat) :
    ∃ w₁ last', ((Walk.new root { options with maxEntries := some limit }).start fs).run
        = (.ok (), w₁) ∧
      Closes fs w₁ (.ok (given.take limit)) last' ∧
      last'.yielded = (given.take limit).length ∧
      (last'.truncated = true → (given.take limit).length = limit) ∧
      (last'.truncated = false → given.take limit = given) := by
  obtain ⟨hzero, huncut, log, hlimited⟩ := start_withLimit hstart (some limit)
  obtain ⟨stats, -, haccepted⟩ := start_accepted hstart
  have hnone₀ : w₀.options.maxEntries = none := by
    rw [haccepted.options]
    exact hnone
  obtain ⟨steps, hend⟩ := hcloses.ended
  obtain ⟨out, hout, hgiven⟩ : ∃ out,
      (visit fs (fun entry acc => .yield (entry :: acc)) steps [] w₀).run.1 = .ok out ∧
        out.reverse = given := by
    have hanswer : (visit fs (fun entry acc => .yield (entry :: acc)) steps [] w₀).run.1.map
        List.reverse = .ok given := (Prod.mk.inj (hcloses.entries steps hend)).1
    cases hvisit : (visit fs (fun entry acc => .yield (entry :: acc)) steps [] w₀).run.1 with
    | error e =>
      rw [hvisit] at hanswer
      cases hanswer
    | ok out =>
      rw [hvisit] at hanswer
      exact ⟨out, rfl, Except.ok.inj hanswer⟩
  obtain ⟨more, hmore, hcuts⟩ :=
    visit_cutsAt limit steps log [] hnone₀ huncut (hzero ▸ Nat.zero_le limit) hout hend
  obtain rfl : more = given := by
    rw [← hgiven, hmore, List.append_nil, List.reverse_reverse]
  obtain ⟨hanswer, hphase, hyielded, hfull, hwhole⟩ := hcuts
  rw [hzero, Nat.sub_zero, List.append_nil] at hanswer
  rw [hzero, Nat.sub_zero, Nat.zero_add] at hyielded
  rw [hzero, Nat.zero_add] at hfull hwhole
  have hclosed : Closes fs (w₀.withLimit (some limit) log) _ _ := Closes.of_ended hphase
  have hlimited' : ((w₀.withLimit (some limit) log).entries fs steps).run.1
      = .ok (more.take limit) := by
    unfold entries
    simp only [Id.run_bind, Id.run_pure, hanswer]
    exact congrArg Except.ok (List.reverse_reverse _)
  rw [hlimited'] at hclosed
  refine ⟨_, _, hlimited, hclosed, hyielded, fun hcut => ?_, fun huncut => ?_⟩
  · exact List.length_take_of_le (hfull hcut)
  · exact List.take_of_length_le (hwhole huncut)

/-- A walk through two directories that stops in the middle of the second one. -/
theorem entries_take_nestedFiles :
    let options : Walk.Options := { Walk.Options.plain with maxEntries := some 2 }
    let started := ((Walk.new (Path.absolute Path.rootDirectory (Text.lit "/r")) options).start
      nestedFiles).run
    ∃ given last, started.1 = .ok () ∧ Closes nestedFiles started.2 (.ok given) last ∧
      given.map Entry.path = [".gitignore", "d/.gitignore"].map Text.lit ∧ last.yielded = 2 := by
  intro options started
  let w₀ := ((Walk.new (Path.absolute Path.rootDirectory (Text.lit "/r")) .plain).start
    nestedFiles).run.2
  have hstart : ((Walk.new (Path.absolute Path.rootDirectory (Text.lit "/r")) .plain).start
      nestedFiles).run = (.ok (), w₀) := rfl
  have hend : (w₀.entries nestedFiles 8).run.2.phase = .ended := by decide +kernel
  have hpaths : (w₀.entries nestedFiles 8).run.1.map (List.map Entry.path)
      = .ok ([".gitignore", "d/.gitignore", "d/a", "d/b"].map Text.lit) := by decide +kernel
  obtain ⟨given, last, hcloses, hall⟩ := Closes.exists_of_paths hend hpaths
  obtain ⟨w₁, last', hlimited, hclosed, hyielded, -⟩ :=
    entries_take nestedFiles _ rfl hstart hcloses 2
  obtain rfl : w₁ = started.2 := (congrArg Prod.snd hlimited).symm
  have htake : (given.take 2).map Entry.path = [".gitignore", "d/.gitignore"].map Text.lit := by
    rw [List.map_take, hall]
    rfl
  refine ⟨given.take 2, last', congrArg Prod.fst hlimited, hclosed, htake, ?_⟩
  rw [hyielded, ← List.length_map Entry.path, htake]
  rfl

end Walk

end TreeSieve

import TreeSieve.Files.Tree
import TreeSieve.Listing.Directory
import TreeSieve.Proofs.Walk.Deepest

/-!
# Limited listings

A listing looks at the entries of a directory one after the other until it has as many as the limit
allows. If an entry waits then, the listing is reported as limited, whether or not the rules keep
that entry.

* `DirectoryListing.ofSeen` is a listing of given entries, and `DirectoryListing.isLimited_ofSeen`
  says when it is limited.
* `listChildren_ofSeen` says that listings are made in this way whatever the limit is, unless the
  directory has no real path; `listChildren_zero` says what comes of a limit that allows nothing.
* `listChildren_isLimited` compares a listing with the one that has no limit.
-/

namespace TreeSieve

/-! ### Entries that are seen -/

namespace DirectoryListing

/-- The listing of entries that are seen one after the other. It is limited if as many as the limit
allows are kept in front of the last one. -/
def ofSeen (keeps : Entry → Bool) (seen : List Entry) : Option Nat → DirectoryListing
  | none => ⟨seen.filter keeps, false⟩
  | some limit => ⟨(seen.filter keeps).take limit,
      !seen.isEmpty && decide (limit ≤ (seen.dropLast.filter keeps).length)⟩

/-- A listing is limited if more entries are kept than the limit allows, or as many while the last
one that is seen is not kept. -/
theorem isLimited_ofSeen (keeps : Entry → Bool) (seen : List Entry) {limit : Nat}
    (hlimit : limit ≠ 0) :
    (ofSeen keeps seen (some limit)).isLimited = true ↔ limit < (seen.filter keeps).length ∨
      limit = (seen.filter keeps).length ∧ (seen.filter keeps).getLast? ≠ seen.getLast? := by
  rcases List.eq_nil_or_concat seen with rfl | ⟨front, last, rfl⟩
  · simp [ofSeen, hlimit]
  · have hfront : (ofSeen keeps (front.concat last) (some limit)).isLimited = true
        ↔ limit ≤ (front.filter keeps).length := by
      simp [ofSeen]
    -- the two counts differ exactly if the last entry is kept
    rw [hfront, List.concat_eq_append, List.filter_append, List.getLast?_concat]
    cases hkeeps : keeps last with
    | true =>
      have hlast : [last].filter keeps = [last] := by simp [hkeeps]
      rw [hlast, List.getLast?_concat, List.length_append]
      simp only [List.length_singleton, ne_eq, not_true_eq_false, and_false, or_false]
      exact Nat.lt_succ_iff.symm
    | false =>
      have hlast : [last].filter keeps = [] := by simp [hkeeps]
      have hother : (front.filter keeps).getLast? ≠ some last := by
        intro heq
        have hmem := List.mem_filter.mp (List.mem_of_getLast? heq)
        exact absurd (hmem.2.symm.trans hkeeps) (by decide)
      rw [hlast, List.append_nil, and_iff_left hother]
      exact Nat.le_iff_lt_or_eq

end DirectoryListing

/-- The options of the walk that makes a listing. -/
def listingOptions (limit : Option Nat) : Walk.Options :=
  { Walk.Options.plain with maxDepth := some 1, maxEntries := limit }

variable {fs : FileSystem Id} {target : Path} {limit : Option Nat}

namespace Walk

/-- A walk whose queue holds the entries of its root gives out the listing of those that its rules
keep, in reverse, and is cut short exactly if that listing is limited. -/
theorem HasListed.visit_eq (fs : FileSystem Id) {w : Walk} {seen : List Entry}
    (h : w.HasListed (listingOptions limit) seen) {steps : Nat} (hsteps : seen.length < steps) :
    (visit fs (fun entry acc => .yield (entry :: acc)) steps [] w).run.1
        = .ok (DirectoryListing.ofSeen w.keeps seen limit).entries.reverse ∧
      (visit fs (fun entry acc => .yield (entry :: acc)) steps [] w).run.2.truncated
        = (DirectoryListing.ofSeen w.keeps seen limit).isLimited := by
  obtain ⟨hanswer, htruncated⟩ :=
    h.atLimit.visit fs steps [] h.truncated (h.waiting ▸ hsteps)
  rw [h.waiting, h.options] at htruncated
  rw [h.waiting, allowed, h.options, h.yielded, List.append_nil] at hanswer
  rw [h.yielded] at htruncated
  cases limit with
  | none =>
    refine ⟨hanswer, Bool.eq_false_iff.mpr fun hcut => ?_⟩
    exact absurd (htruncated.mp hcut).2 Bool.false_ne_true
  | some limit =>
    refine ⟨hanswer, Bool.eq_iff_iff.mpr (htruncated.trans ?_)⟩
    simp [DirectoryListing.ofSeen, listingOptions]

/-- A directory that is accepted without a limit is accepted with any, and the walk differs in its
limit and its notes only. -/
theorem start_listing {w₀ : Walk}
    (hstart : ((Walk.new target (listingOptions none)).start fs).run = (.ok (), w₀))
    (limit : Option Nat) : ∃ log, ((Walk.new target (listingOptions limit)).start fs).run
      = (.ok (), w₀.withLimit limit log) := by
  obtain ⟨-, -, hlimited⟩ := start_withLimit hstart limit
  exact hlimited

/-- The first steps of the walks of a listing, with a limit that allows something and without one,
come to the same but for the limit and the notes. -/
theorem step_listing {w₀ w : Walk}
    (hstart : ((Walk.new target (listingOptions none)).start fs).run = (.ok (), w₀))
    (hlimited : ((Walk.new target (listingOptions limit)).start fs).run = (.ok (), w))
    (hlimit : limit ≠ some 0) : Mirrors limit (w₀.step fs).run (w.step fs).run := by
  obtain ⟨_, -, haccepted⟩ := start_accepted hstart
  have hnone : w₀.options.maxEntries = none := by
    rw [haccepted.options]
    rfl
  cases limit with
  | none =>
    obtain rfl : w = w₀ := (Prod.mk.inj (hlimited.symm.trans hstart)).2
    obtain ⟨hafter, -, -⟩ := step_unlimited fs hnone
    have hsame : (w.step fs).run.2.withLimit none (w.step fs).run.2.log = (w.step fs).run.2 := by
      rw [withLimit, ← hafter]
    exact ⟨(w.step fs).run.2.log, by rw [hsame]⟩
  | some limit =>
    obtain ⟨hyielded, -, -⟩ := start_withLimit hstart (some limit)
    obtain ⟨log, hsame⟩ := start_listing hstart (some limit)
    obtain rfl : w = w₀.withLimit (some limit) log :=
      (Prod.mk.inj (hlimited.symm.trans hsame)).2
    rcases step_mirrors fs hnone limit log with ⟨hmirrors, -⟩ | hstops
    · exact hmirrors
    · have hfull := hstops.full
      rw [hyielded, Nat.le_zero] at hfull
      exact absurd (congrArg some hfull) hlimit

/-- A walk that has listed its root without a limit has done so with any other one. -/
theorem HasListed.withLimit {w : Walk} {seen : List Entry}
    (h : w.HasListed (listingOptions none) seen) (limit : Option Nat) (log : List LogRecord) :
    (w.withLimit limit log).HasListed (listingOptions limit) seen := by
  refine ⟨⟨h.atLimit.phase, h.atLimit.links, h.atLimit.depth⟩, h.waiting, ?_, h.yielded,
    h.truncated⟩
  rw [Walk.withLimit, h.options]
  rfl

/-- A walk that may give out nothing is cut short before it looks at its root. -/
theorem visit_zero {w : Walk}
    (hstart : ((Walk.new target (listingOptions (some 0))).start fs).run = (.ok (), w))
    {steps : Nat} (hsteps : steps ≠ 0) :
    (visit fs (fun entry acc => .yield (entry :: acc)) steps [] w).run
      = (.ok [], w.begin.truncate.finish) := by
  obtain ⟨steps, rfl⟩ := Nat.exists_eq_succ_of_ne_zero hsteps
  obtain ⟨_, -, haccepted⟩ := start_accepted hstart
  have hqueue : w.begin.queue ≠ [] := List.cons_ne_nil _ _
  have hfull : w.begin.isFull = true := by
    have hoptions : w.begin.options = listingOptions (some 0) := haccepted.options
    rw [isFull, hoptions]
    show decide (0 ≤ w.begin.yielded) = true
    exact decide_eq_true (Nat.zero_le _)
  have hphase : w.begin.phase = .running := rfl
  rw [visit_of_ready fs _ haccepted.phase, visit]
  simp only [Id.run_bind, step_of_full hphase hqueue hfull]
  rfl

end Walk

/-! ### Listings -/

/-- The options of a listing pass the check with every limit that is not negative. -/
theorem check_listing (limit : Option Nat) :
    ({ Walk.Request.plain with
      maxDepth := some 1, maxEntries := limit.map Int.ofNat } : Walk.Request).check
        = .ok (listingOptions limit) := by
  cases limit with
  | none => rfl
  | some limit => rfl

section Listings

variable {steps : Nat} {current : Path} {base : Text} {name : Option Text}
  (htarget : Path.resolveWithin current base name = .ok target)

include htarget

/-- If a directory is accepted then its listing has the entries that its walk gives out, or fails as
the walk does; it is limited exactly if the walk is cut short. -/
theorem listChildren_of_start {w : Walk}
    (hstart : ((Walk.new target (listingOptions limit)).start fs).run = (.ok (), w)) :
    (listChildren fs steps current base name (limit.map Int.ofNat)).run.answer
      = ((w.visit fs (fun entry acc => .yield (entry :: acc)) steps []).run.1.mapError
          ListingError.file).map fun entries => ⟨entries.reverse,
            (w.visit fs (fun entry acc => .yield (entry :: acc)) steps []).run.2.truncated⟩ := by
  unfold listChildren walkThrough
  simp only [htarget, check_listing, Id.run_bind, hstart]
  rfl

/-- If a directory has been listed, with any limit, then it is accepted as the root of a walk
without one. -/
theorem exists_start_of_listChildren (limit : Option Nat) {listing : DirectoryListing}
    (h : (listChildren fs steps current base name (limit.map Int.ofNat)).run.answer = .ok listing) :
    ∃ w₀, ((Walk.new target (listingOptions none)).start fs).run = (.ok (), w₀) := by
  cases hlimited : ((Walk.new target (listingOptions limit)).start fs).run with
  | mk accepted w =>
    cases accepted with
    | ok _ =>
      obtain ⟨stats, hlook, -⟩ := Walk.start_eq_of_ok hlimited
      exact ⟨_, Walk.start_of_lookAtRoot hlook (listingOptions none)⟩
    | error e =>
      unfold listChildren walkThrough at h
      simp only [htarget, check_listing, Id.run_bind, hlimited] at h
      cases h

section Started

variable {w₀ : Walk}
  (hstart : ((Walk.new target (listingOptions none)).start fs).run = (.ok (), w₀))

include hstart

/-- A listing that allows nothing is empty and limited. -/
theorem listChildren_zero (hsteps : steps ≠ 0) :
    (listChildren fs steps current base name (some 0)).run.answer = .ok ⟨[], true⟩ := by
  obtain ⟨log, hlimited⟩ := Walk.start_listing hstart (some 0)
  have hanswer : (listChildren fs steps current base name (some 0)).run.answer = _ :=
    listChildren_of_start htarget hlimited
  rw [hanswer, Walk.visit_zero hlimited hsteps]
  rfl

/-- A listing that allows something fails if the directory has no real path. -/
theorem listChildren_of_unreal {e : FileError} (hreal : (fs.realPath target.toText).run = .error e)
    (hlimit : limit ≠ some 0) (hsteps : steps ≠ 0) :
    (listChildren fs steps current base name (limit.map Int.ofNat)).run.answer
      = .error (.file e) := by
  obtain ⟨steps, rfl⟩ := Nat.exists_eq_succ_of_ne_zero hsteps
  obtain ⟨log, hlimited⟩ := Walk.start_listing hstart limit
  obtain ⟨log', hstep⟩ := Walk.step_listing hstart hlimited hlimit
  rw [Walk.step_of_unreal rfl hstart hreal] at hstep
  rw [listChildren_of_start htarget hlimited, Walk.visit]
  simp only [Id.run_bind, hstep]
  rfl

/-- Whatever the limit is, if it allows something, the listing of a directory with a real path is
that of the entries seen there, with the same ones kept. -/
theorem listChildren_ofSeen {real : Text} (hreal : (fs.realPath target.toText).run = .ok real)
    (hsteps : (fs.seenIn target).length + 2 ≤ steps) :
    ∃ keeps, ∀ limit : Option Nat, limit ≠ some 0 →
      (listChildren fs steps current base name (limit.map Int.ofNat)).run.answer
        = .ok (.ofSeen keeps (fs.seenIn target) limit) := by
  have hne : steps ≠ 0 := by omega
  obtain ⟨steps, rfl⟩ := Nat.exists_eq_succ_of_ne_zero hne
  have hroom : (fs.seenIn target).length < steps := by omega
  obtain ⟨w₁, hfirst, hlisted⟩ := Walk.step_lists rfl rfl rfl rfl hstart hreal
  refine ⟨w₁.keeps, fun limit hlimit => ?_⟩
  obtain ⟨log, hlimited⟩ := Walk.start_listing hstart limit
  obtain ⟨log', hstep⟩ := Walk.step_listing hstart hlimited hlimit
  rw [hfirst] at hstep
  obtain ⟨hanswer, htruncated⟩ := (hlisted.withLimit limit log').visit_eq fs hroom
  rw [listChildren_of_start htarget hlimited, Walk.visit]
  simp only [Id.run_bind, hstep, hanswer, htruncated]
  show Except.ok (DirectoryListing.mk _ _) = _
  rw [List.reverse_reverse]
  rfl

end Started

end Listings

/-- **A listing has the first of the entries that the listing without a limit has**, as many as the
limit allows; and unless the limit allows nothing there is such a listing. It is reported as limited
exactly when the other one has more entries, or when it has as many as the limit allows and there is
nothing that the limit allows or the last entry seen in the directory is not among them. -/
theorem listChildren_isLimited {steps : Nat} {current : Path} {base : Text} {name : Option Text}
    (htarget : Path.resolveWithin current base name = .ok target)
    (hsteps : (fs.seenIn target).length + 2 ≤ steps) {limit : Nat} {listing : DirectoryListing}
    (h : (listChildren fs steps current base name (some limit)).run.answer = .ok listing) :
    (limit ≠ 0 →
        ∃ all, (listChildren fs steps current base name none).run.answer = .ok all) ∧
      ∀ all, (listChildren fs steps current base name none).run.answer = .ok all →
        all.isLimited = false ∧ all.entries.Sublist (fs.seenIn target) ∧
          listing.entries = all.entries.take limit ∧
          (listing.isLimited = true ↔ limit < all.entries.length ∨
            limit = all.entries.length ∧
              (limit = 0 ∨ all.entries.getLast? ≠ (fs.seenIn target).getLast?)) := by
  have hne : steps ≠ 0 := by omega
  have hsome : (none : Option Nat) ≠ some 0 := by decide
  obtain ⟨w₀, hstart⟩ := exists_start_of_listChildren htarget (some limit) h
  cases hreal : (fs.realPath target.toText).run with
  | error e =>
    have hall := listChildren_of_unreal htarget hstart hreal hsome hne
    refine ⟨fun hlimit => ?_, fun all hanswer => ?_⟩
    · have hlimited : some limit ≠ some 0 := fun heq => hlimit (Option.some.inj heq)
      cases h.symm.trans (listChildren_of_unreal htarget hstart hreal hlimited hne)
    · cases hanswer.symm.trans hall
  | ok real =>
    obtain ⟨keeps, hseen⟩ := listChildren_ofSeen htarget hstart hreal hsteps
    refine ⟨fun _ => ⟨_, hseen none hsome⟩, fun all hanswer => ?_⟩
    obtain rfl := Except.ok.inj (hanswer.symm.trans (hseen none hsome))
    refine ⟨rfl, List.filter_sublist, ?_⟩
    by_cases hlimit : limit = 0
    · subst hlimit
      obtain rfl := Except.ok.inj (h.symm.trans (listChildren_zero htarget hstart hne))
      refine ⟨List.take_zero.symm, ?_⟩
      rw [eq_self_iff_true, true_iff]
      exact (Nat.eq_zero_or_pos _).symm.imp_right fun hnone => ⟨hnone.symm, Or.inl rfl⟩
    · have hlimited : some limit ≠ some 0 := fun heq => hlimit (Option.some.inj heq)
      obtain rfl := Except.ok.inj (h.symm.trans (hseen (some limit) hlimited))
      refine ⟨rfl, (DirectoryListing.isLimited_ofSeen keeps _ hlimit).trans ?_⟩
      simp [DirectoryListing.ofSeen, hlimit]

/-- A directory with an ignore file, a file, and a file that is ignored. -/
def maskedTree : Node :=
  .directory 0o755 0 [
    (Text.lit "b", .directory 0o755 0 [
      (Text.lit ".gitignore", .file .file 0o644 2 [122, 10]),
      (Text.lit "a", .file .file 0o644 1 [49]),
      (Text.lit "z", .file .file 0o644 1 [49])])]

/-- One of the two entries that are kept is listed, and the other one is cut off. -/
theorem listChildren_isLimited_maskedTree :
    let fs : FileSystem Id := maskedTree.fileSystem
    let answer (limit : Option Int) :=
      (listChildren fs 5 .rootDirectory (Text.lit "/b") none limit).run.answer
    ∃ listing all, answer (some 1) = .ok listing ∧ answer none = .ok all ∧
      all.entries.map (·.path) = [Text.lit ".gitignore", Text.lit "a"] ∧
      listing.entries = all.entries.take 1 ∧ listing.isLimited = true := by
  intro fs answer
  have htarget : Path.resolveWithin .rootDirectory (Text.lit "/b") none
      = .ok (Path.ofText (Text.lit "/b")) := by decide
  have hsteps : (fs.seenIn (Path.ofText (Text.lit "/b"))).length + 2 ≤ 5 := by decide +kernel
  have hone : (answer (some 1)).map (·.entries.length) = .ok 1 := by decide +kernel
  have hpaths : (answer none).map (·.entries.map (·.path))
      = .ok [Text.lit ".gitignore", Text.lit "a"] := by decide +kernel
  cases hlisting : answer (some 1) with
  | error e =>
    rw [hlisting] at hone
    cases hone
  | ok listing =>
    obtain ⟨hall, hcut⟩ := listChildren_isLimited htarget hsteps hlisting
    obtain ⟨all, hanswer⟩ := hall Nat.one_ne_zero
    obtain ⟨-, -, hentries, hlimited⟩ := hcut all hanswer
    rw [show answer none = .ok all from hanswer] at hpaths
    have htwo : all.entries.map (·.path) = [Text.lit ".gitignore", Text.lit "a"] :=
      Except.ok.inj hpaths
    have hlength : all.entries.length = 2 := by
      rw [← List.length_map, htwo]
      rfl
    refine ⟨listing, all, rfl, hanswer, htwo, hentries, hlimited.mpr (Or.inl ?_)⟩
    rw [hlength]
    exact Nat.one_lt_two

/-- As many entries are kept as the limit allows, and the listing is reported as limited. -/
theorem listing_nothingCut :
    let fs : FileSystem Id := maskedTree.fileSystem
    let answer (limit : Option Int) :=
      (listChildren fs 5 .rootDirectory (Text.lit "/b") none limit).run.answer.toOption
    (answer none).map (·.entries) = (answer (some 2)).map (·.entries) ∧
      (answer none).map (·.entries.length) = some 2 ∧
      (answer none).map (·.isLimited) = some false ∧
      (answer (some 2)).map (·.isLimited) = some true :=
  ⟨by decide +kernel, by decide +kernel, by decide +kernel, by decide +kernel⟩

end TreeSieve

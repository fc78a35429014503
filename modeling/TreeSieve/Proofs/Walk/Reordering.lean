import TreeSieve.Proofs.Walk.Termination

/-!
# The order of listings

If there is one name for ignore files, then the order in which directories are listed changes the
order of what a walk gives out, and nothing else. With two names it would: the rules of the file
that is listed later come behind those of the other one.

* `FileSystem.Reorders` holds of two file systems that list directories in different orders.
* `FileSystem.Reorders.look_reorders` says that the same is seen at a place, in another order.
* `Walk.entries_reordered` says that two walks give out the same entries and count the same.
-/

namespace TreeSieve

/-- A file system that answers as another one does, but may list directories in other orders. -/
structure FileSystem.Reorders (fs fs' : FileSystem Id) : Prop where
  read : fs'.read = fs.read
  lstat : fs'.lstat = fs.lstat
  stat : fs'.stat = fs.stat
  realPath : fs'.realPath = fs.realPath
  listed : ∀ path entries, (fs.list path).run = .ok entries →
    ∃ entries', (fs'.list path).run = .ok entries' ∧ entries.Perm entries'
  unlisted : ∀ path e, (fs.list path).run = .error e → (fs'.list path).run = .error e

/-- A file system that lists in another order differs in nothing but its listings. -/
theorem FileSystem.Reorders.eq {fs fs' : FileSystem Id} (h : fs.Reorders fs') :
    fs' = { fs with list := fs'.list } := by
  obtain ⟨list, read, lstat, stat, realPath⟩ := fs'
  obtain ⟨rfl, rfl, rfl, rfl, -, -⟩ := h
  rfl

theorem FileSystem.Reorders.isListing {fs fs' : FileSystem Id} (h : fs.Reorders fs')
    (hlist : ∀ path entries, (fs.list path).run = .ok entries → IsListing entries) :
    ∀ path entries, (fs'.list path).run = .ok entries → IsListing entries := by
  intro path entries hentries
  cases hfirst : (fs.list path).run with
  | error e =>
    rw [h.unlisted path e hfirst] at hentries
    cases hentries
  | ok first =>
    obtain ⟨other, hother, hperm⟩ := h.listed path first hfirst
    obtain rfl := Except.ok.inj (hother.symm.trans hentries)
    have hlisting := hlist path first hfirst
    exact ⟨(hperm.map _).nodup_iff.mp hlisting.nodup, fun entry hentry =>
      hlisting.names entry (hperm.symm.subset hentry)⟩

/-- If a function gives something for the entry with one name only, then the order of the entries
does not matter for what it gives. -/
theorem flatMap_eq_of_perm {β : Type} (name : Text) {f : ListedEntry → List β}
    (hf : ∀ entry, entry.name ≠ name → f entry = []) {entries entries' : List ListedEntry}
    (hperm : entries.Perm entries') (hnodup : (entries.map (·.name)).Nodup) :
    entries.flatMap f = entries'.flatMap f := by
  induction hperm with
  | nil => rfl
  | cons entry _ ih =>
    rw [List.flatMap_cons, List.flatMap_cons, ih (List.nodup_cons.mp hnodup).2]
  | swap first second rest =>
    rw [List.map_cons, List.map_cons, List.nodup_cons] at hnodup
    have hne : second.name ≠ first.name := fun hsame => hnodup.1 (hsame ▸ List.mem_cons_self)
    simp only [List.flatMap_cons]
    -- at most one of two neighbours has the name
    by_cases hfirst : first.name = name
    · rw [hf second (hfirst ▸ hne), List.nil_append]
      rfl
    · rw [hf first hfirst, List.nil_append]
      rfl
  | trans hone _ ih ih' => rw [ih hnodup, ih' ((hone.map _).nodup_iff.mp hnodup)]

/-- Two sights with the same entries given out, with the same rules, and with the same entries to be
gone through in another order. -/
structure Sight.Reorders (s s' : Sight) : Prop where
  given : s'.given = s.given
  rules : s'.rules = s.rules
  entries : s.entries.Perm s'.entries

theorem Sight.Reorders.refl (s : Sight) : s.Reorders s := ⟨rfl, rfl, List.Perm.refl _⟩

namespace FileSystem.Reorders

variable {fs fs' : FileSystem Id} (h : fs.Reorders fs')
  (hlist : ∀ path entries, (fs.list path).run = .ok entries → IsListing entries)
  (root : Path) {options : Walk.Options} {name : Text} (hname : options.ignoreNames = [name])

include h

theorem resolve_eq (item : Candidate) :
    Traversal.resolve ⟨fs', root, options⟩ item = Traversal.resolve ⟨fs, root, options⟩ item := by
  rw [h.eq]
  rfl

theorem realPathOf_eq (item : Candidate) : Traversal.realPathOf ⟨fs', root, options⟩ item
    = Traversal.realPathOf ⟨fs, root, options⟩ item := by
  rw [h.eq]
  rfl

theorem children_perm (item : Candidate) (real : Text) {entries entries' : List ListedEntry}
    (hperm : entries.Perm entries') :
    (Traversal.children ⟨fs, root, options⟩ item real entries).Perm
      (Traversal.children ⟨fs', root, options⟩ item real entries') := by
  rw [h.eq]
  exact hperm.filterMap _

include hname in
theorem ownRules_eq (names : List Text) {entries entries' : List ListedEntry}
    (hperm : entries.Perm entries') (hentries : IsListing entries) :
    Traversal.ownRules ⟨fs', root, options⟩ names entries'
      = Traversal.ownRules ⟨fs, root, options⟩ names entries := by
  rw [h.eq]
  refine (flatMap_eq_of_perm name (fun entry hne => ?_) hperm hentries.nodup).symm
  have hnot : [name].contains entry.name = false := by simpa using hne
  simp only [hname, hnot, Bool.and_false]
  split
  · rfl
  · rfl

include hlist hname in
theorem sightOfDirectory_reorders (rules : List Rule) (item : Candidate) (stats : FileStats)
    (real : Text) :
    (Traversal.sightOfDirectory ⟨fs, root, options⟩ rules item stats real).Reorders
      (Traversal.sightOfDirectory ⟨fs', root, options⟩ rules item stats real) := by
  have hpath : Traversal.pathOf ⟨fs', root, options⟩ = Traversal.pathOf ⟨fs, root, options⟩ := rfl
  have hoffer : Traversal.offer ⟨fs', root, options⟩ = Traversal.offer ⟨fs, root, options⟩ := rfl
  unfold Traversal.sightOfDirectory
  simp only [hpath, hoffer]
  split
  · exact Sight.Reorders.refl _
  · split
    · exact Sight.Reorders.refl _
    · cases hfirst : (fs.list (Traversal.pathOf ⟨fs, root, options⟩ item.names)).run with
      | error e =>
        rw [h.unlisted _ e hfirst]
        exact Sight.Reorders.refl _
      | ok entries =>
        obtain ⟨entries', hsecond, hperm⟩ := h.listed _ entries hfirst
        rw [hsecond]
        cases entries with
        | nil =>
          rw [List.nil_perm.mp hperm]
          exact Sight.Reorders.refl _
        | cons entry entries =>
          cases entries' with
          | nil => exact absurd hperm.length_eq (by simp)
          | cons entry' entries' =>
            exact ⟨rfl, h.ownRules_eq root hname item.names hperm (hlist _ _ hfirst),
              h.children_perm root item real hperm⟩

include hlist hname in
/-- **The same is seen at an entry, in another order.** -/
theorem sight_reorders (rules : List Rule) (item : Candidate) :
    (Traversal.sight ⟨fs, root, options⟩ rules item).Reorders
      (Traversal.sight ⟨fs', root, options⟩ rules item) := by
  unfold Traversal.sight
  simp only [h.resolve_eq root, h.realPathOf_eq root]
  split
  · split
    · exact h.sightOfDirectory_reorders hlist root hname rules item _ _
    · split
      · exact Sight.Reorders.refl _
      · exact h.sightOfDirectory_reorders hlist root hname rules item _ _
  · exact Sight.Reorders.refl _

include hlist hname in
theorem look_reorders (place : Place) :
    (Traversal.look ⟨fs', root, options⟩ place).1 = (Traversal.look ⟨fs, root, options⟩ place).1 ∧
    (Traversal.look ⟨fs, root, options⟩ place).2.Perm
      (Traversal.look ⟨fs', root, options⟩ place).2 := by
  have hsight := h.sight_reorders hlist root hname place.rules place.item
  refine ⟨hsight.given, ?_⟩
  simp only [Traversal.look, hsight.rules]
  exact hsight.entries.map _

end FileSystem.Reorders

namespace Walk

/-- Starting a walk asks for no listing, so it comes to the same. -/
theorem start_reordered {fs fs' : FileSystem Id} (h : fs.Reorders fs') (w : Walk) :
    w.start fs' = w.start fs := by
  rw [h.eq]
  rfl

/-- **The order of listings does not matter.** Let two file systems answer alike, but list the
directories of a proper tree in different orders, and let there be one name for ignore files. If the
root is accepted then both walks come to their end, whatever links there are; they give out the same
entries, each the same number of times, and count the same. -/
theorem entries_reordered {fs fs' : FileSystem Id} (h : fs.Reorders fs') {files : Node}
    {place : Text → Option Address} (hlooks : fs.LooksUp files place) (hfiles : files.IsProper)
    {current : Path} (habs : current.isAbsolute) (hcur : ∀ part ∈ current.parts, Path.IsName part)
    (root : Text) {options : Walk.Options} {name : Text} (hname : options.ignoreNames = [name])
    (hlimit : options.maxEntries = none) {w₀ : Walk}
    (hstart : ((Walk.new (Path.absolute current root) options).start fs).run = (.ok (), w₀)) :
    ((Walk.new (Path.absolute current root) options).start fs').run = (.ok (), w₀) ∧
    ∃ given given' last last', Ends fs w₀ given last ∧ Ends fs' w₀ given' last' ∧
      given.Perm given' ∧ last'.yielded = last.yielded ∧ last'.visited = last.visited := by
  have hroot : (Path.absolute current root).IsRooted := Path.absolute_isRooted habs hcur root
  have hlist := hlooks.isListing hfiles
  have hstart' : ((Walk.new (Path.absolute current root) options).start fs').run
      = (.ok (), w₀) := by
    rw [start_reordered h, hstart]
  have hreal := hlooks.exists_realPath hstart
  have hreal' := hreal
  rw [← h.realPath] at hreal'
  have hlook := h.look_reorders hlist (Path.absolute current root) hname
  obtain ⟨found, hfound, -⟩ := hlooks.exists_gather
    (t := ⟨fs, Path.absolute current root, options⟩) hfiles hroot w₀.rootStats
  obtain ⟨found', hfound', hsame⟩ : ∃ found', TreeSieve.gather
      (tour (Traversal.look ⟨fs', Path.absolute current root, options⟩))
      ((files.count + 1) * (files.count + 1) + 1)
      (Traversal.rootPlace ⟨fs', Path.absolute current root, options⟩ w₀.rootStats) = some found' ∧
      found.Perm found' := by
    rw [Traversal.rootPlace_eq fs fs']
    exact gather_tour_perm (fun place => (hlook place).2) _ hfound
  obtain ⟨seen, last, hseen, -, htours⟩ :=
    start_tours_of_gather hlist hroot hlimit hstart hreal hfound
  obtain ⟨seen', last', hseen', -, htours'⟩ :=
    start_tours_of_gather (h.isListing hlist) hroot hlimit hstart' hreal' hfound'
  have hperm : seen.Perm seen' := (hseen.trans hsame).trans hseen'.symm
  have hgiven : (seen.flatMap fun place =>
        (Traversal.look ⟨fs, Path.absolute current root, options⟩ place).1).Perm
      (seen'.flatMap fun place =>
        (Traversal.look ⟨fs', Path.absolute current root, options⟩ place).1) := by
    simp only [fun place => (hlook place).1]
    exact hperm.flatMap_right _
  refine ⟨hstart', _, _, last.finish, last'.finish, htours.ends, htours'.ends, hgiven, ?_, ?_⟩
  · show last'.yielded = last.yielded
    rw [htours.yielded, htours'.yielded, hgiven.length_eq]
  · show last'.visited = last.visited
    rw [htours.visited, htours'.visited, hperm.length_eq]

/-- Files whose directories are listed backwards. -/
def backwards (fs : FileSystem Id) : FileSystem Id :=
  { fs with list := fun path => pure ((fs.list path).run.map List.reverse) }

theorem backwards_reorders (fs : FileSystem Id) : fs.Reorders (backwards fs) := by
  refine ⟨rfl, rfl, rfl, rfl, fun path entries hlist => ?_, fun path e hlist => ?_⟩
  · refine ⟨entries.reverse, ?_, (List.reverse_perm entries).symm⟩
    rw [backwards, Id.run_pure, hlist]
    rfl
  · rw [backwards, Id.run_pure, hlist]
    rfl

/-- A directory with an ignore file, another one in it that takes a name back, and a link that leads
from there to a third directory. -/
def linkedTree : Node :=
  .directory 0o755 0 [
    (Text.lit "r", .directory 0o755 0 [
      (Text.lit ".gitignore", .file .file 0o644 2 [98, 10]),
      (Text.lit "a", .file .file 0o644 0 []),
      (Text.lit "b", .file .file 0o644 0 []),
      (Text.lit "d", .directory 0o755 0 [
        (Text.lit ".gitignore", .file .file 0o644 3 [33, 98, 10]),
        (Text.lit "b", .file .file 0o644 0 []),
        (Text.lit "l", .link 0o777 0 (Text.lit "../e"))]),
      (Text.lit "e", .directory 0o755 0 [(Text.lit "b", .file .file 0o644 0 [])])])]

/-- Listed backwards, the same five entries are given out, each directory's in another order. -/
theorem entries_reordered_linkedTree :
    let fs : FileSystem Id := linkedTree.fileSystem
    let w₀ := ((Walk.new (Path.absolute Path.rootDirectory (Text.lit "/r")) .following).start
      fs).run.2
    ∃ given given' last last', Ends fs w₀ given last ∧ Ends (backwards fs) w₀ given' last' ∧
      given.map Entry.path = [".gitignore", "a", "d/.gitignore", "d/b", "d/l/b"].map Text.lit ∧
      given'.map Entry.path = ["a", ".gitignore", "d/b", "d/.gitignore", "d/l/b"].map Text.lit ∧
      given.Perm given' ∧ last'.yielded = last.yielded ∧ last'.visited = last.visited := by
  intro fs w₀
  have hproper : linkedTree.IsProper := by decide
  have hstart : ((Walk.new (Path.absolute Path.rootDirectory (Text.lit "/r")) .following).start
      fs).run = (.ok (), w₀) := rfl
  obtain ⟨-, given, given', last, last', hends, hends', hcounts⟩ :=
    entries_reordered (backwards_reorders fs) hproper.looksUp hproper rfl
      (by simp [Path.rootDirectory]) _ rfl rfl hstart
  refine ⟨given, given', last, last', hends, hends', ?_, ?_, hcounts⟩
  · exact hends.paths_eq 14 (by decide +kernel) (by decide +kernel)
  · exact hends'.paths_eq 14 (by decide +kernel) (by decide +kernel)

end Walk

end TreeSieve

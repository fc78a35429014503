import TreeSieve.Proofs.Walk.Termination

/-!
# Directories that are entered again

A walk that follows links keeps the real paths of the directories that lead to an entry. A link to
one of them is not followed, and neither is one that leads above the directory it stands in. A link
may lead above one of the other directories, though; from there this directory is entered again by
its name, beneath itself.

* `IsWay` holds of the addresses of directories that lead one to the other.
* `Walk.Queued` holds of a walk in whose queue all entries have a property; `Walk.Queued.runFor`
  says that this stays so if the entries of a directory have it whenever their directory does, and
  `Walk.forall_queue` that all entries have it then if the root does.
* `Walk.realPaths_nodup` says that no directory is entered beneath itself if none lies above another
  one that has led to it, and `Walk.reentered` shows one that is.
-/

namespace TreeSieve

open Node (addressText)

/-! ### Ways -/

/-- Addresses of directories, each of which is led to by the one behind it: as one of its entries,
or by a link in it that is followed. A link is not followed to an address that stands further
behind, nor to one above the directory that it stands in. -/
inductive IsWay : List Address → Prop
  | root (a : Address) : IsWay [a]
  | entry {a : Address} {way : List Address} (name : Text) (rest : IsWay (a :: way)) :
    IsWay ((a ++ [name]) :: a :: way)
  | link {a b : Address} {way : List Address} (unvisited : b ∉ a :: way) (outside : ¬b <+: a)
    (rest : IsWay (a :: way)) : IsWay (b :: a :: way)

/-- If no directory lies above another one that has led to it, then none is entered again: one that
is entered again by its name stands in a directory above it. -/
theorem IsWay.nodup {way : List Address} (h : IsWay way)
    (hnone : way.Pairwise fun target a => target <+: a → a = target) : way.Nodup := by
  induction h with
  | root a => exact List.nodup_singleton a
  | link unvisited outside rest ih =>
    exact List.nodup_cons.mpr ⟨unvisited, ih (List.pairwise_cons.mp hnone).2⟩
  | @entry a way name rest ih =>
    have htail := (List.pairwise_cons.mp hnone).2
    refine List.nodup_cons.mpr ⟨fun hmem => ?_, ih htail⟩
    have hne : a ++ [name] ≠ a := fun hsame => by simpa using congrArg List.length hsame
    rcases List.mem_cons.mp hmem with hsame | hmem
    · exact hne hsame
    · exact hne ((List.pairwise_cons.mp htail).1 _ hmem (List.prefix_append a [name]))

/-! ### The way to an entry -/

/-- An entry with the addresses of the directories that lead to it, its own directory first; their
texts are the real paths that the entry has for visited. -/
structure Traversal.Comes (t : Traversal) (place : Text → Option Address) (way : List Address)
    (item : Candidate) : Prop where
  names : ∀ a ∈ way, ∀ part ∈ a, Path.IsEntryName part
  visited : item.visited = way.map addressText
  stands : (item.names = [] ∧ way = []) ∨
    ∃ a rest, way = a :: rest ∧ IsWay way ∧ t.Stands place item a

section Ways

variable {t : Traversal} {files : Node} {place : Text → Option Address} {way : List Address}
  {item : Candidate}

theorem Traversal.Comes.found (h : t.Comes place way item) : t.Found place item := by
  rcases h.stands with ⟨names, -⟩ | ⟨a, rest, -, -, stands⟩
  · exact .root names
  · exact .below stands

/-- The address that an entry leads to may be put in front of the addresses of the directories that
lead to the entry. -/
theorem Traversal.Comes.isWay (h : t.Comes place way item) {b : Address}
    (hb : ∀ part ∈ b, Path.IsEntryName part) (hleads : t.Leads place item b) :
    IsWay (b :: way) := by
  rcases h.stands with ⟨hnone, rfl⟩ | ⟨a, rest, rfl, hway, stands⟩
  · exact .root b
  · cases hleads with
    | root names => exact absurd names stands.names_ne_nil
    | @entry a' directory name stands' names place address =>
      rw [address, ← stands.unique stands']
      exact .entry name hway
    | link follows symlink unvisited outside =>
      refine .link (fun hmem => unvisited ?_) (fun hpre => ?_) hway
      · rw [h.visited]
        exact List.mem_map_of_mem hmem
      · have ha := h.names a List.mem_cons_self
        rw [stands.parentReal, (Node.inScope_addressText ha hb).mpr hpre] at outside
        cases outside

/-- The entries of a directory are led to by the directory, and by those that lead to it. -/
theorem FileSystem.LooksUp.comes (hlooks : t.files.LooksUp files place) (hfiles : files.IsProper)
    (hroot : t.root.IsRooted) (h : t.Comes place way item) {rules : List Rule} {child : Candidate}
    (hchild : child ∈ (t.sight rules item).entries) : ∃ b, t.Comes place (b :: way) child := by
  obtain ⟨b, hplace, hleads, hstands, hvisited⟩ := hlooks.opens hfiles hroot h.found hchild
  have hb := hlooks.names hfiles hplace
  refine ⟨b, ?_, ?_, Or.inr ⟨b, way, rfl, h.isWay hb hleads, hstands⟩⟩
  · exact List.forall_mem_cons.mpr ⟨hb, h.names⟩
  · rw [hvisited, h.visited, List.map_cons]

end Ways

/-! ### What holds of all entries in the queue -/

namespace Walk

/-- A walk that has begun, of the same root and options as a traversal, in whose queue all entries
have the property `P`. -/
structure Queued (t : Traversal) (P : Candidate → Prop) (w : Walk) : Prop where
  root : w.root = t.root
  options : w.options = t.options
  phase : w.phase ≠ .ready
  sound : w.sieve.Sound
  queue : ∀ item ∈ w.queue, P item

section Queues

variable {t : Traversal} {P : Candidate → Prop}
  (hlist : ∀ path entries, (t.files.list path).run = .ok entries → IsListing entries)
  (hroot : t.root.IsRooted) (hreal : ∃ real, (t.files.realPath t.root.toText).run = .ok real)
  (hnames : ∀ item, P item → ∀ part ∈ item.names, Path.IsEntryName part)
  (hstep : ∀ rules item, P item → ∀ child ∈ (t.sight rules item).entries, P child)

omit hlist hroot hreal hnames hstep in
/-- A walk that has been ended keeps the property, since its queue is empty. -/
theorem Queued.finish {w : Walk} (h : w.Queued t P) : w.finish.Queued t P :=
  ⟨h.root, h.options, nofun, h.sound, nofun⟩

include hlist hroot hreal hnames

omit hstep in
/-- Looking at the first entry of the queue gives out, learns and queues what the traversal sees
there. -/
theorem Queued.sees {w : Walk} (h : w.Queued t P) {item : Candidate} {rest : List Candidate}
    (hqueue : w.queue = item :: rest) :
    (w.popped rest).Sees item.names (t.sight ((w.popped rest).rulesAt item.names) item)
      (lookAt t.files (w.popped rest) item).run := by
  have htraversal : (w.popped rest).traversal t.files = t := by
    show (⟨t.files, w.root, w.options⟩ : Traversal) = t
    rw [h.root, h.options]
  have hpath : (w.popped rest).pathOf [] = t.root.toText := by
    rw [pathOf, Path.descend_nil, show (w.popped rest).root = w.root from rfl, h.root]
  have hsees := lookAt_sees t.files hlist (w := w.popped rest) (h.root ▸ hroot) h.sound
    (hnames item (h.queue item (hqueue ▸ List.mem_cons_self))) (hpath ▸ hreal)
  rwa [htraversal] at hsees

omit hstep in
/-- If a step gives out an entry then it is one that had the property in the queue, as the traversal
finds it. -/
theorem Queued.exists_of_yielded {w : Walk} (h : w.Queued t P) {e : Entry}
    (hstep : (w.step t.files).run.1 = .yielded e) : ∃ item, P item ∧ e = t.found item := by
  rw [Walk.step] at hstep
  split at hstep
  · rename_i hphase
    exact absurd hphase h.phase
  · rw [Walk.advance] at hstep
    cases hqueue : w.queue with
    | nil =>
      rw [hqueue] at hstep
      cases hstep
    | cons item rest =>
      rw [hqueue] at hstep
      simp only at hstep
      split at hstep
      · cases hstep
      · split at hstep
        · cases hstep
        · have hgiven := (h.sees hlist hroot hreal hnames hqueue).given
          rw [popped, hstep] at hgiven
          refine ⟨item, h.queue item (hqueue ▸ List.mem_cons_self),
            t.eq_found_of_mem (Option.some.inj hgiven ▸ List.mem_singleton_self e)⟩
  · cases hstep

include hstep

/-- If a property of entries is passed on from directories to what is seen in them then a step keeps
it in the queue. -/
theorem Queued.advance {w : Walk} (h : w.Queued t P) : (w.advance t.files).run.2.Queued t P := by
  rw [Walk.advance]
  cases hqueue : w.queue with
  | nil => exact h.finish
  | cons item rest =>
    simp only
    split
    · exact Queued.finish (w := w.truncate) ⟨h.root, h.options, h.phase, h.sound, h.queue⟩
    · split
      · exact h.finish
      · have hsees := h.sees hlist hroot hreal hnames hqueue
        refine ⟨hsees.root.trans h.root, hsees.options.trans h.options, ?_, hsees.sound h.sound, ?_⟩
        · exact fun hready => h.phase (hsees.phase.symm.trans hready)
        · intro other hother
          rcases List.mem_append.mp (hsees.queue ▸ hother) with hother | hother
          · exact h.queue other (hqueue ▸ List.mem_cons_of_mem item hother)
          · exact hstep _ item (h.queue item (hqueue ▸ List.mem_cons_self)) other hother

theorem Queued.step {w : Walk} (h : w.Queued t P) : (w.step t.files).run.2.Queued t P := by
  rw [Walk.step]
  split
  · rename_i hphase
    exact absurd hphase h.phase
  · exact h.advance hlist hroot hreal hnames hstep
  · exact h

/-- If a property of entries is passed on from directories to what is seen in them then any number
of steps keep it in the queue. -/
theorem Queued.runFor (steps : Nat) :
    ∀ {w : Walk}, w.Queued t P → (Walk.runFor t.files steps w).run.Queued t P := by
  induction steps with
  | zero => exact fun h => h
  | succ steps ih =>
    intro w h
    rw [runFor_succ]
    exact ih (h.step hlist hroot hreal hnames hstep)

end Queues

/-- A property of the root holds in the queue of a walk that begins, which holds nothing else. -/
theorem begin_queued {fs : FileSystem Id} {root : Path} {options : Walk.Options} {w₀ : Walk}
    (hstart : ((Walk.new root options).start fs).run = (.ok (), w₀)) {P : Candidate → Prop}
    (hfirst : ∀ item, item.names = [] → item.visited = [] → P item) :
    w₀.begin.Queued ⟨fs, root, options⟩ P := by
  obtain ⟨stats, -, haccepted⟩ := start_accepted hstart
  refine ⟨haccepted.root, haccepted.options, nofun,
    haccepted.sound.insert w₀.rootText (.text metadataRule) none, fun first hqueued => ?_⟩
  rw [List.mem_singleton.mp hqueued]
  exact hfirst _ rfl rfl

/-- If the root has a property, and it is passed on from directories to what is seen in them, then
all entries in the queue have it, after any number of steps. -/
theorem forall_queue {fs : FileSystem Id} {files : Node} {place : Text → Option Address}
    (h : fs.LooksUp files place) (hfiles : files.IsProper) {root : Path} (hroot : root.IsRooted)
    {options : Walk.Options} {w₀ : Walk}
    (hstart : ((Walk.new root options).start fs).run = (.ok (), w₀)) {P : Candidate → Prop}
    (hfirst : ∀ item, item.names = [] → item.visited = [] → P item)
    (hnames : ∀ item, P item → ∀ part ∈ item.names, Path.IsEntryName part)
    (hstep : ∀ rules item, P item →
      ∀ child ∈ (Traversal.sight ⟨fs, root, options⟩ rules item).entries, P child)
    (steps : Nat) {item : Candidate} (hitem : item ∈ (runFor fs steps w₀).run.queue) : P item := by
  cases steps with
  | zero =>
    obtain ⟨_, -, rfl⟩ := start_eq_of_ok hstart
    exact absurd hitem List.not_mem_nil
  | succ steps =>
    obtain ⟨stats, -, haccepted⟩ := start_accepted hstart
    rw [runFor_of_ready haccepted.phase] at hitem
    exact ((begin_queued hstart hfirst).runFor (h.isListing hfiles) hroot (h.exists_realPath hstart)
      hnames hstep (steps + 1)).queue item hitem

/-! ### Real paths on the way -/

/-- After any number of steps, each entry in the queue is led to by directories that lead one to the
other, up to the root. -/
theorem exists_comes {fs : FileSystem Id} {files : Node} {place : Text → Option Address}
    (h : fs.LooksUp files place) (hfiles : files.IsProper) {root : Path} (hroot : root.IsRooted)
    {options : Walk.Options} {w₀ : Walk}
    (hstart : ((Walk.new root options).start fs).run = (.ok (), w₀)) (steps : Nat)
    {item : Candidate} (hitem : item ∈ (runFor fs steps w₀).run.queue) :
    ∃ way, Traversal.Comes ⟨fs, root, options⟩ place way item := by
  refine forall_queue h hfiles hroot hstart
    (P := fun item => ∃ way, Traversal.Comes ⟨fs, root, options⟩ place way item) ?_ ?_ ?_ steps
    hitem
  · intro first hnone hunvisited
    exact ⟨[], fun a ha => absurd ha List.not_mem_nil, hunvisited, Or.inl ⟨hnone, rfl⟩⟩
  · rintro other ⟨way, hway⟩
    exact hway.found.names
  · rintro rules other ⟨way, hway⟩ child hchild
    obtain ⟨b, hb⟩ := FileSystem.LooksUp.comes (t := ⟨fs, root, options⟩) h hfiles hroot hway
      hchild
    exact ⟨b :: way, hb⟩

/-- **When no directory is entered beneath itself.** Let paths be looked up in a proper tree, let
the root be accepted, and take any entry that a walk comes upon and that leads to a directory which
can be listed. If none of the real paths on the way there lies above the real path of another
directory that has led to it, then the real paths of the directory and of all directories that lead
to it, up to the root, are distinct. -/
theorem realPaths_nodup {fs : FileSystem Id} {files : Node} {place : Text → Option Address}
    (h : fs.LooksUp files place) (hfiles : files.IsProper) {current : Path}
    (habs : current.isAbsolute) (hcur : ∀ part ∈ current.parts, Path.IsName part) (root : Text)
    {options : Walk.Options} {w₀ : Walk}
    (hstart : ((Walk.new (Path.absolute current root) options).start fs).run = (.ok (), w₀))
    (steps : Nat) {item : Candidate} (hitem : item ∈ (runFor fs steps w₀).run.queue) {real : Text}
    (henters : (w₀.traversal fs).Enters item real) {entries : List ListedEntry}
    (hlist : (fs.list (w₀.pathOf item.names)).run = .ok entries)
    (hnone : (real :: item.visited).Pairwise fun target path =>
      inScope path target = true → path = target) : (real :: item.visited).Nodup := by
  have hroot : (Path.absolute current root).IsRooted := Path.absolute_isRooted habs hcur root
  obtain ⟨stats, -, haccepted⟩ := start_accepted hstart
  rw [haccepted.traversal_eq] at henters
  rw [haccepted.pathOf_eq] at hlist
  obtain ⟨way, hway⟩ := exists_comes h hfiles hroot hstart steps hitem
  obtain ⟨b, node, hplace, -⟩ := h.list _ entries hlist
  obtain ⟨rfl, hleads⟩ := FileSystem.LooksUp.leads
    (t := ⟨fs, Path.absolute current root, options⟩) h hfiles hroot hway.found hplace henters
  have hb := h.names hfiles hplace
  have hnames : ∀ a ∈ b :: way, ∀ part ∈ a, Path.IsEntryName part :=
    List.forall_mem_cons.mpr ⟨hb, hway.names⟩
  have hreals : addressText b :: item.visited = (b :: way).map addressText := by
    rw [hway.visited, List.map_cons]
  rw [hreals] at hnone ⊢
  refine List.Nodup.map_on (fun a ha c hc hsame =>
    Node.addressText_inj (hnames a ha) (hnames c hc) hsame) ?_
  refine (hway.isWay hb hleads).nodup ?_
  refine (List.pairwise_map.mp hnone).imp_of_mem fun {target a} htarget ha habove hpre => ?_
  exact Node.addressText_inj (hnames a ha) (hnames target htarget)
    (habove ((Node.inScope_addressText (hnames a ha) (hnames target htarget)).mpr hpre))

/-- A directory with a link out of it, to one with a directory of its own. -/
def leavingTree : Node :=
  .directory 0o755 0 [
    (Text.lit "c", .directory 0o755 0 [(Text.lit "d", .directory 0o755 0 [])]),
    (Text.lit "r", .directory 0o755 0 [(Text.lit "x", .link 0o777 0 (Text.lit "/c"))])]

/-- The directory behind the link is entered once. -/
theorem realPaths_nodup_leavingTree :
    let fs : FileSystem Id := leavingTree.fileSystem
    let w₀ := ((Walk.new (Path.absolute Path.rootDirectory (Text.lit "/r")) .following).start
      fs).run.2
    ∃ item ∈ (runFor fs 2 w₀).run.queue, item.names = [Text.lit "x", Text.lit "d"] ∧
      (w₀.traversal fs).Enters item (Text.lit "/c/d") ∧
      (Text.lit "/c/d" :: item.visited).Nodup := by
  intro fs w₀
  have hproper : leavingTree.IsProper := by decide
  have hstart : ((Walk.new (Path.absolute Path.rootDirectory (Text.lit "/r")) .following).start
      fs).run = (.ok (), w₀) := rfl
  let item : Candidate := ⟨[Text.lit "x", Text.lit "d"], .ofMode 0o40755 0, Text.lit "/c",
    [Text.lit "/c", Text.lit "/r"]⟩
  have hitem : item ∈ (runFor fs 2 w₀).run.queue := by decide +kernel
  have henters : (w₀.traversal fs).Enters item (Text.lit "/c/d") := .own (by decide) rfl
  have hlist : (fs.list (w₀.pathOf item.names)).run = .ok [] := rfl
  exact ⟨item, hitem, rfl, henters, realPaths_nodup hproper.looksUp hproper rfl
    (by simp [Path.rootDirectory]) _ hstart 2 hitem henters hlist (by decide)⟩

/-- A directory with a link out of it, to one with a link that leads above it. -/
def reenteredTree : Node :=
  .directory 0o755 0 [
    (Text.lit "a", .directory 0o755 0 [
      (Text.lit "b", .directory 0o755 0 [
        (Text.lit "f", .file .file 0o644 1 [49]), (Text.lit "x", .link 0o777 0 (Text.lit "/c"))])]),
    (Text.lit "c", .directory 0o755 0 [(Text.lit "y", .link 0o777 0 (Text.lit "/a"))])]

/-- The second link is followed, since it does not lead above the directory that it stands in; below
it the root is entered beneath itself, and its entries are queued again. -/
theorem reentered :
    let fs : FileSystem Id := reenteredTree.fileSystem
    let w₀ := ((Walk.new (Path.absolute Path.rootDirectory (Text.lit "/a/b")) .following).start
      fs).run.2
    (∃ item ∈ (runFor fs 4 w₀).run.queue, item.names = [Text.lit "x", Text.lit "y", Text.lit "b"] ∧
      (w₀.traversal fs).Enters item (Text.lit "/a/b") ∧
      (∃ entries, (fs.list (w₀.pathOf item.names)).run = .ok entries) ∧
      ¬(Text.lit "/a/b" :: item.visited).Nodup) ∧
    [Text.lit "x", Text.lit "y", Text.lit "b", Text.lit "f"]
      ∈ (runFor fs 5 w₀).run.queue.map (·.names) := by
  intro fs w₀
  refine ⟨⟨⟨[Text.lit "x", Text.lit "y", Text.lit "b"], .ofMode 0o40755 0, Text.lit "/a",
    [Text.lit "/a", Text.lit "/c", Text.lit "/a/b"]⟩, ?_, rfl, .own rfl rfl, ⟨_, rfl⟩, ?_⟩, ?_⟩
  · decide +kernel
  · decide
  · decide +kernel

end Walk

end TreeSieve

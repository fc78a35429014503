import TreeSieve.Proofs.Walk.Reentry

/-!
# Real paths without a look at the file system

A walk asks the file system for the real path of its root and of the links that it follows. The real
paths of all other directories it puts together from the one above them and a name. They are the
ones that the file system would tell all the same.

* `Traversal.Tracks` holds of an entry whose directory, and each directory above that, is known by
  its address; `FileSystem.LooksUp.tracks` says that it holds of the entries in a directory if it
  holds of the directory.
* `Walk.realPaths_told` is what this comes to for all entries in the queue of a walk.
-/

namespace TreeSieve

open Node (addressText)

/-- The beginnings of a list with one more name are the list itself and the beginnings of the list
without it. -/
theorem inits_concat (names : List Text) (name : Text) :
    (names ++ [name]).inits.reverse = (names ++ [name]) :: names.inits.reverse := by
  rw [List.inits_append]
  simp

/-- An entry whose `visited` directories are its own directory and all that lie above it by name, up
to the root, each by the address that its path leads to. -/
structure Traversal.Tracks (t : Traversal) (place : Text → Option Address) (item : Candidate) :
    Prop where
  found : t.Found place item
  visited : item.names = [] ∧ item.visited = [] ∨
    ∃ directory name way, item.names = directory ++ [name] ∧
      List.Forall₂ (fun above a => place (t.pathOf above) = some a) directory.inits.reverse way ∧
      item.visited = way.map addressText

section Tracking

variable {t : Traversal} {files : Node} {place : Text → Option Address} {item child : Candidate}
  (h : t.files.LooksUp files place)

include h

/-- If the visited directories of an entry are those above it then so are those of the entries in
it, with its own address in front. -/
theorem FileSystem.LooksUp.tracks (hfiles : files.IsProper) (hroot : t.root.IsRooted)
    (hitem : t.Tracks place item) {rules : List Rule}
    (hchild : child ∈ (t.sight rules item).entries) : t.Tracks place child := by
  obtain ⟨b, hplace, -, hstands, hvisited⟩ := h.opens hfiles hroot hitem.found hchild
  obtain ⟨-, _, -, entry, -, hnames⟩ := t.exists_of_mem_sight hchild
  refine ⟨.below hstands, Or.inr ⟨item.names, entry.name, ?_⟩⟩
  rcases hitem.visited with ⟨hnone, hunvisited⟩ | ⟨directory, name, way, hitemNames, hway, hsame⟩
  · refine ⟨[b], hnames, ?_, by rw [hvisited, hunvisited]; rfl⟩
    rw [hnone] at hplace ⊢
    exact .cons hplace .nil
  · refine ⟨b :: way, hnames, ?_, by rw [hvisited, hsame, List.map_cons]⟩
    rw [hitemNames, inits_concat, ← hitemNames]
    exact .cons hplace hway

/-- The real paths that are kept for an entry whose visited directories are those above it are those
that the file system tells of them. -/
theorem FileSystem.LooksUp.realPaths (hfiles : files.IsProper) {directory : List Text}
    {name : Text} (hnames : child.names = directory ++ [name]) (hchild : t.Tracks place child) :
    (t.files.realPath (t.pathOf directory)).run.map canonical = .ok child.parentReal ∧
      (directory.inits.reverse.map fun above =>
        (t.files.realPath (t.pathOf above)).run.map canonical) = child.visited.map .ok := by
  have hne : child.names ≠ [] := by
    rw [hnames]
    simp
  have htold : ∀ {above : List Text} {a : Address}, place (t.pathOf above) = some a →
      (t.files.realPath (t.pathOf above)).run.map canonical = .ok (addressText a) := by
    intro above a hplace
    rw [h.realPath _ a hplace, Except.map, Node.canonical_addressText (h.names hfiles hplace)]
  constructor
  · cases hchild.found with
    | root hnone => exact absurd hnone hne
    | @below a stands =>
      obtain ⟨directory', name', hnames', hplace⟩ := stands.place
      obtain ⟨rfl, -⟩ := List.append_inj' (hnames.symm.trans hnames') rfl
      rw [stands.parentReal, htold hplace]
  · rcases hchild.visited with ⟨hnone, -⟩ | ⟨directory', name', way, hnames', hway, hvisited⟩
    · exact absurd hnone hne
    · obtain ⟨rfl, -⟩ := List.append_inj' (hnames.symm.trans hnames') rfl
      rw [hvisited, List.map_map, ← List.forall₂_eq_eq_eq, List.forall₂_map_left_iff,
        List.forall₂_map_right_iff]
      exact hway.imp fun _ _ => htold

end Tracking

namespace Walk

/-- **The real paths are those of the file system.** Let paths be looked up in a proper tree, let
the root be accepted, and take any entry in the queue after any number of steps, with the names of
the directory that it was queued for. The real path that is kept of this directory is the one that
the file system tells of it; and the directories that have been visited are, the nearest one first,
this directory and all directories above it by name, up to the root, each by the real path that the
file system tells of it. -/
theorem realPaths_told {fs : FileSystem Id} {files : Node} {place : Text → Option Address}
    (h : fs.LooksUp files place) (hfiles : files.IsProper) {current : Path}
    (habs : current.isAbsolute) (hcur : ∀ part ∈ current.parts, Path.IsName part) (root : Text)
    {options : Walk.Options} {w₀ : Walk}
    (hstart : ((Walk.new (Path.absolute current root) options).start fs).run = (.ok (), w₀))
    (steps : Nat) {child : Candidate} (hchild : child ∈ (runFor fs steps w₀).run.queue)
    {directory : List Text} {name : Text} (hnames : child.names = directory ++ [name]) :
    (fs.realPath (w₀.pathOf directory)).run.map canonical = .ok child.parentReal ∧
      (directory.inits.reverse.map fun above =>
        (fs.realPath (w₀.pathOf above)).run.map canonical) = child.visited.map .ok := by
  have hroot : (Path.absolute current root).IsRooted := Path.absolute_isRooted habs hcur root
  obtain ⟨stats, -, haccepted⟩ := start_accepted hstart
  have hpath : w₀.pathOf = Traversal.pathOf ⟨fs, Path.absolute current root, options⟩ :=
    funext haccepted.pathOf_eq
  rw [hpath]
  refine FileSystem.LooksUp.realPaths (t := ⟨fs, Path.absolute current root, options⟩) h hfiles
    hnames
    (forall_queue h hfiles hroot hstart ?_ (fun _ hitem => hitem.found.names) ?_ steps hchild)
  · exact fun _ hnone hunvisited => ⟨.root hnone, Or.inl ⟨hnone, hunvisited⟩⟩
  · intro rules item hitem below hbelow
    exact FileSystem.LooksUp.tracks (t := ⟨fs, Path.absolute current root, options⟩) h hfiles hroot
      hitem hbelow

/-- An entry behind three links, the real paths of whose directories go back and forth. -/
theorem realPaths_told_tangledTree :
    let fs : FileSystem Id := tangledTree.fileSystem
    let w₀ := ((Walk.new (Path.absolute Path.rootDirectory (Text.lit "/r")) .following).start
      fs).run.2
    let directory := ["out", "back", "other"].map Text.lit
    ∃ child ∈ (runFor fs 12 w₀).run.queue, child.names = directory ++ [Text.lit "other"] ∧
      child.visited = ["/r/b", "/r/a", "/out", "/r"].map Text.lit ∧
      (fs.realPath (w₀.pathOf directory)).run.map canonical = .ok child.parentReal ∧
      (directory.inits.reverse.map fun above =>
        (fs.realPath (w₀.pathOf above)).run.map canonical) = child.visited.map .ok := by
  intro fs w₀ directory
  have hproper : tangledTree.IsProper := by decide
  have hstart : ((Walk.new (Path.absolute Path.rootDirectory (Text.lit "/r")) .following).start
      fs).run = (.ok (), w₀) := rfl
  let child : Candidate := ⟨directory ++ [Text.lit "other"], .ofMode 0o120777 0, Text.lit "/r/b",
    ["/r/b", "/r/a", "/out", "/r"].map Text.lit⟩
  have hchild : child ∈ (runFor fs 12 w₀).run.queue := by decide +kernel
  exact ⟨child, hchild, rfl, rfl, realPaths_told hproper.looksUp hproper rfl
    (by simp [Path.rootDirectory]) _ hstart 12 hchild rfl⟩

end Walk

end TreeSieve

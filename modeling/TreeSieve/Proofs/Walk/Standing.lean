import TreeSieve.Proofs.Files.Lookup
import TreeSieve.Proofs.Walk.Recursive

/-!
# Where an entry stands

A traversal of a tree comes upon entries that stand in directories of the tree, at the address that
the path before their names leads to. The real path that it keeps of a directory is this address.

* `Traversal.Stands` holds of an entry and the address of the directory that it stands in.
* `Traversal.Leads` says how an entry leads to the directory at an address: it is the root, or it is
  that directory, or it is a link there that may be followed.
* `FileSystem.LooksUp.opens` says that the entries that are seen in a directory stand in it.
-/

namespace TreeSieve

open Node (addressText)

/-- An entry below the root whose directory is at the given address: its path without the last name
leads there, the address is kept as the real path of its directory, and what is known of it is its
look-up. -/
structure Traversal.Stands (t : Traversal) (place : Text → Option Address) (item : Candidate)
    (a : Address) : Prop where
  place : ∃ directory name, item.names = directory ++ [name] ∧
    place (t.pathOf directory) = some a
  names : ∀ part ∈ item.names, Path.IsEntryName part
  parentReal : item.parentReal = addressText a
  stats : (t.files.lstat (t.pathOf item.names)).run = .ok item.stats

/-- An entry that is the root, or stands in some directory. -/
inductive Traversal.Found (t : Traversal) (place : Text → Option Address) (item : Candidate) : Prop
  | root (names : item.names = [])
  | below {a : Address} (stands : t.Stands place item a)

/-- How an entry leads to the directory at an address: it is the root, it stands under its name in
the directory above, or it is a link that is followed there, which neither has been visited nor lies
above its own directory. -/
inductive Traversal.Leads (t : Traversal) (place : Text → Option Address) (item : Candidate)
    (b : Address) : Prop
  | root (names : item.names = [])
  | entry {a : Address} {directory : List Text} {name : Text} (stands : t.Stands place item a)
      (names : item.names = directory ++ [name])
      (place : place (t.pathOf directory) = some a) (address : b = a ++ [name])
  | link (follows : t.options.followLinks = true) (symlink : item.stats.isSymlink = true)
      (unvisited : addressText b ∉ item.visited)
      (outside : inScope item.parentReal (addressText b) = false)

variable {files : Node} {place : Text → Option Address}

theorem Traversal.Found.names {t : Traversal} {item : Candidate} (h : t.Found place item) :
    ∀ part ∈ item.names, Path.IsEntryName part := by
  cases h with
  | root names =>
    rw [names]
    exact fun part hp => absurd hp List.not_mem_nil
  | below stands => exact stands.names

namespace FileSystem.LooksUp

/-- The address that a path leads to is made of names of entries. -/
theorem names {fs : FileSystem Id} (h : fs.LooksUp files place) (hfiles : files.IsProper)
    {path : Text} {a : Address} (hplace : place path = some a) :
    ∀ part ∈ a, Path.IsEntryName part := by
  obtain ⟨node, hat, -⟩ := h.directory path a hplace
  exact (hfiles.at? hat).1

/-- If a root is looked at without failing then its path leads to an address. -/
theorem lookAtRoot {fs : FileSystem Id} (h : fs.LooksUp files place) {root : Text}
    {stats : FileStats} (hlook : (Walk.lookAtRoot fs root).run = .ok stats) :
    ∃ a, place root = some a := by
  rw [Walk.lookAtRoot, Id.run_bind] at hlook
  cases hlstat : (fs.lstat root).run with
  | error e =>
    rw [hlstat] at hlook
    cases hlook
  | ok found =>
    simp only [hlstat] at hlook
    split at hlook
    · rw [Id.run_bind] at hlook
      cases hstat : (fs.stat root).run with
      | error e =>
        rw [hstat] at hlook
        cases hlook
      | ok target =>
        simp only [hstat, Id.run_pure] at hlook
        split at hlook
        · rename_i hdirectory
          exact h.stat root target hstat hdirectory
        · cases hlook
    · simp only [Id.run_pure] at hlook
      split at hlook
      · rename_i hdirectory
        exact h.lstat root found hlstat hdirectory
      · cases hlook

variable {t : Traversal} (h : t.files.LooksUp files place) (hfiles : files.IsProper)
  (hroot : t.root.IsRooted)

include h hroot in
/-- The path of an entry that is a directory by its look-up leads to its name behind the address of
its own directory. -/
theorem place_of_stands {item : Candidate} {a : Address} {directory : List Text} {name : Text}
    (hstands : t.Stands place item a) (hnames : item.names = directory ++ [name])
    (hplace : place (t.pathOf directory) = some a) (hdirectory : item.stats.isDirectory = true) :
    place (t.pathOf item.names) = some (a ++ [name]) := by
  have hall : ∀ part ∈ directory ++ [name], Path.IsEntryName part := hnames ▸ hstands.names
  have hrooted : (t.root.descend directory).IsRooted :=
    hroot.descend fun part hp => hall part (List.mem_append_left _ hp)
  have hname := hall name (List.mem_append_right _ (List.mem_singleton_self name))
  have hpath : t.pathOf item.names = ((t.root.descend directory).descend [name]).toText := by
    rw [hnames, Traversal.pathOf, Path.descend_append]
  have hstats := hstands.stats
  rw [hpath] at hstats ⊢
  exact h.entry _ name a item.stats hrooted hname hplace hstats hdirectory

include h hfiles hroot in
/-- The real path of a directory that is entered is the text of the address that its path leads to.
-/
theorem leads {item : Candidate} (hitem : t.Found place item) {b : Address} {real : Text}
    (hplace : place (t.pathOf item.names) = some b) (henters : t.Enters item real) :
    real = addressText b ∧ t.Leads place item b := by
  have hb := h.names hfiles hplace
  have htold := h.realPath _ b hplace
  cases henters with
  | followed follows link told canonical unvisited outside =>
    have hsame : real = addressText b := by
      rw [canonical, Except.ok.inj (told.symm.trans htold), Node.canonical_addressText hb]
    exact ⟨hsame, .link follows link (hsame ▸ unvisited) (hsame ▸ outside)⟩
  | own directory told =>
    rw [Traversal.realPathOf] at told
    cases hitem with
    | root names =>
      have hdepth : item.depth = 0 := by rw [Candidate.depth, names]; rfl
      rw [if_pos hdepth, htold] at told
      refine ⟨?_, .root names⟩
      rw [← Except.ok.inj told, Node.canonical_addressText hb]
    | @below a stands =>
      obtain ⟨names, name, hnames, hparent⟩ := stands.place
      have hdepth : item.depth ≠ 0 := by
        rw [Candidate.depth, hnames, List.length_append, List.length_singleton]
        omega
      have hentry := h.place_of_stands hroot stands hnames hparent directory
      obtain rfl := Option.some.inj (hplace.symm.trans hentry)
      rw [if_neg hdepth, stands.parentReal, Candidate.name, hnames, List.getLast?_concat,
        Option.getD_some] at told
      refine ⟨?_, .entry stands hnames hparent rfl⟩
      rw [← Except.ok.inj told, Node.addressText_concat (h.names hfiles hparent)]

include h hfiles hroot in
/-- **The entries that are seen in a directory stand in it**, at the address that their entry leads
to, and this address is added to those that have led to the entry. -/
theorem opens {rules : List Rule} {item child : Candidate} (hitem : t.Found place item)
    (hchild : child ∈ (t.sight rules item).entries) :
    ∃ b, place (t.pathOf item.names) = some b ∧ t.Leads place item b ∧ t.Stands place child b ∧
      child.visited = addressText b :: item.visited := by
  rcases t.sight_cases rules item with ⟨_, _, hs⟩ | hs | ⟨real, entries, hlist, -, henters, hs⟩
  · rw [hs] at hchild
    exact nomatch hchild
  · rw [hs] at hchild
    exact nomatch hchild
  · rw [hs] at hchild
    obtain ⟨b, node, hplace, -, -⟩ := h.list _ entries hlist
    obtain ⟨rfl, hleads⟩ := h.leads hfiles hroot hitem hplace henters
    obtain ⟨entry, hentry, hsome⟩ := List.mem_filterMap.mp hchild
    have hname := (h.isListing hfiles _ entries hlist).names entry hentry
    cases hlstat : (t.files.lstat (t.pathOf (item.names ++ [entry.name]))).run with
    | error e =>
      rw [hlstat] at hsome
      cases hsome
    | ok stats =>
      rw [hlstat] at hsome
      obtain rfl := Option.some.inj hsome
      exact ⟨b, hplace, hleads, ⟨⟨item.names, entry.name, rfl, hplace⟩,
        Path.isEntryName_concat hitem.names hname, rfl, hlstat⟩, rfl⟩

end FileSystem.LooksUp

end TreeSieve

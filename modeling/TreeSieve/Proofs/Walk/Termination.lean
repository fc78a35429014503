import Mathlib.Algebra.Order.BigOperators.Group.List
import Mathlib.Algebra.Order.Group.Nat
import TreeSieve.Proofs.Walk.Counts
import TreeSieve.Proofs.Walk.Standing

/-!
# Walks come to their end

Whatever links there are in a tree, a walk through it looks at finitely many entries. A plain
directory is entered without asking whether it is being walked already, and a link may lead to one
with any number of nodes. What decreases from an entry to those in it is the number of nodes of
the tree that have not led to it; where this number stays the same, a directory has been entered by
its name, and has fewer nodes than the one that it stands in.

* `Node.visitBound` is a number of steps that is told by the tree alone.
* `Traversal.Ranked` ranks the entries of a traversal; `FileSystem.LooksUp.exists_ranked` says that
  an entry of a directory is below it.
* `Walk.queue_empties` says that the queue of a walk is empty after at most that many steps.
-/

namespace TreeSieve

namespace Node

/-! ### The addresses of a tree -/

mutual

/-- The addresses of all nodes of a tree. -/
def addresses : Node → List Address
  | directory _ _ entries => [] :: addressesIn entries
  | _ => [[]]

/-- The addresses of the nodes of the given trees, under their names. -/
def addressesIn : List (Text × Node) → List Address
  | [] => []
  | (name, node) :: rest => node.addresses.map (name :: ·) ++ addressesIn rest

end

mutual

theorem length_addresses (tree : Node) : tree.addresses.length = tree.count := by
  match tree with
  | file _ _ _ _ => rfl
  | link _ _ _ => rfl
  | directory _ _ entries => rw [addresses, count, List.length_cons, length_addressesIn]

theorem length_addressesIn (entries : List (Text × Node)) :
    (addressesIn entries).length = countEntries entries := by
  match entries with
  | [] => rfl
  | (name, node) :: rest =>
    rw [addressesIn, countEntries, List.length_append, List.length_map, length_addresses,
      length_addressesIn]

end

theorem nil_mem_addresses (tree : Node) : [] ∈ tree.addresses := by
  cases tree with
  | file _ _ _ _ => exact List.mem_cons_self
  | link _ _ _ => exact List.mem_cons_self
  | directory _ _ entries =>
    rw [addresses]
    exact List.mem_cons_self

theorem mem_addressesIn {entries : List (Text × Node)} {name : Text} {child : Node} {a : Address}
    (hmem : (name, child) ∈ entries) (ha : a ∈ child.addresses) :
    name :: a ∈ addressesIn entries := by
  induction entries with
  | nil => exact nomatch hmem
  | cons entry rest ih =>
    rw [addressesIn, List.mem_append]
    rcases List.mem_cons.mp hmem with rfl | hmem
    · exact Or.inl (List.mem_map_of_mem ha)
    · exact Or.inr (ih hmem)

/-- If a node has an entry with a name then it is a directory that holds this entry under the name.
-/
theorem exists_of_entry? {node child : Node} {name : Text} (h : node.entry? name = some child) :
    ∃ permissions size entries, node = directory permissions size entries ∧
      (name, child) ∈ entries := by
  obtain ⟨before, after, hsplit, -⟩ := List.lookup_eq_some_iff.mp h
  cases node with
  | file _ _ _ _ => cases h
  | link _ _ _ => cases h
  | directory permissions size entries =>
    refine ⟨permissions, size, entries, rfl, ?_⟩
    rw [show entries = before ++ (name, child) :: after from hsplit]
    exact List.mem_append_right before List.mem_cons_self

/-- The address of a node is among those of the tree. -/
theorem mem_addresses {tree node : Node} {a : Address} (hat : tree.at? a = some node) :
    a ∈ tree.addresses := by
  induction a generalizing tree with
  | nil => exact tree.nil_mem_addresses
  | cons name a ih =>
    rw [at?_cons] at hat
    obtain ⟨child, hchild, hbelow⟩ := Option.bind_eq_some_iff.mp hat
    obtain ⟨permissions, size, entries, rfl, hmem⟩ := exists_of_entry? hchild
    rw [addresses]
    exact List.mem_cons_of_mem _ (mem_addressesIn hmem (ih hbelow))

/-! ### Numbers of nodes -/

theorem length_entries_lt (node : Node) : node.entries.length < node.count := by
  have hone : ∀ entries : List (Text × Node), entries.length ≤ countEntries entries := by
    intro entries
    induction entries with
    | nil => exact Nat.zero_le _
    | cons entry rest ih =>
      have h := one_le_count entry.2
      rw [countEntries, List.length_cons]
      omega
  have h := hone node.entries
  cases node with
  | file _ _ _ _ => simp [entries, count]
  | link _ _ _ => simp [entries, count]
  | directory _ _ entries =>
    rw [count]
    exact Nat.lt_succ_of_le h

/-- A node in a directory has fewer nodes, itself and those below it, than the directory. -/
theorem count_lt_of_entry? {node child : Node} {name : Text} (h : node.entry? name = some child) :
    child.count < node.count := by
  obtain ⟨permissions, size, entries, rfl, hmem⟩ := exists_of_entry? h
  rw [count, countEntries_eq]
  have hle : child.count ≤ (entries.map fun entry => entry.2.count).sum :=
    List.le_sum_of_mem (List.mem_map_of_mem (f := fun entry => entry.2.count) hmem)
  omega

theorem count_le_of_at? {tree node : Node} {a : Address} (h : tree.at? a = some node) :
    node.count ≤ tree.count := by
  induction a generalizing tree with
  | nil =>
    rw [at?_nil] at h
    rw [Option.some.inj h]
  | cons name a ih =>
    rw [at?_cons] at h
    obtain ⟨child, hchild, h⟩ := Option.bind_eq_some_iff.mp h
    have hless := count_lt_of_entry? hchild
    have hrest := ih h
    omega

theorem weight_le (tree : Node) (a : Address) : tree.weight a ≤ tree.count := by
  rw [weight]
  cases hat : tree.at? a with
  | none => exact Nat.zero_le _
  | some node => exact count_le_of_at? hat

theorem weight_concat_lt {tree node : Node} {a : Address} {name : Text}
    (h : tree.at? (a ++ [name]) = some node) : tree.weight (a ++ [name]) < tree.weight a := by
  obtain ⟨directory, hdirectory, hentry⟩ := exists_entry?_of_at? h
  rw [weight_of_at? h, weight_of_at? hdirectory]
  exact count_lt_of_entry? hentry

/-! ### Nodes that have not been visited -/

/-- The addresses of a tree that are not among those with the given texts. -/
def unvisited (tree : Node) (visited : List Text) : List Address :=
  tree.addresses.filter fun a => !visited.contains (addressText a)

theorem length_unvisited_le (tree : Node) (visited : List Text) :
    (tree.unvisited visited).length ≤ tree.count :=
  tree.length_addresses ▸ List.length_filter_le _ _

theorem unvisited_cons (tree : Node) (visited : List Text) (text : Text) :
    tree.unvisited (text :: visited)
      = (tree.unvisited visited).filter fun a => !(addressText a == text) := by
  rw [unvisited, unvisited, List.filter_filter]
  refine List.filter_congr fun a _ => ?_
  rw [List.contains_cons, Bool.not_or]

theorem length_unvisited_cons_le (tree : Node) (visited : List Text) (text : Text) :
    (tree.unvisited (text :: visited)).length ≤ (tree.unvisited visited).length := by
  rw [unvisited_cons]
  exact List.length_filter_le _ _

/-- An address of the tree that is visited for the first time leaves fewer that have not been
visited. -/
theorem length_unvisited_cons_lt {tree node : Node} {visited : List Text} {a : Address}
    (hat : tree.at? a = some node) (hnot : addressText a ∉ visited) :
    (tree.unvisited (addressText a :: visited)).length < (tree.unvisited visited).length := by
  rw [unvisited_cons, List.length_filter_lt_length_iff_exists]
  refine ⟨a, List.mem_filter.mpr ⟨mem_addresses hat, ?_⟩, by simp⟩
  simpa using hnot

/-- The most entries that a walk through a tree looks at. -/
def visitBound (tree : Node) : Nat :=
  spread tree.count ((tree.count + 1) * (tree.count + 1) + 1)

end Node

/-! ### The rank of an entry -/

open Node (addressText)

/-- The rank of an entry, which is largest for the root. For others it counts first the addresses of
the tree that have not led to the entry, and then the nodes at and below the directory that it
stands in. -/
inductive Traversal.Ranked (t : Traversal) (files : Node) (place : Text → Option Address)
    (item : Candidate) : Nat → Prop
  | root (names : item.names = []) :
    Ranked t files place item ((files.count + 1) * (files.count + 1))
  | below {a : Address} (stands : t.Stands place item a) :
    Ranked t files place item
      ((files.unvisited item.visited).length * (files.count + 1) + files.weight a)

section Ranks

variable {files : Node} {place : Text → Option Address} {t : Traversal}

theorem Traversal.Ranked.found {item : Candidate} {rank : Nat}
    (h : t.Ranked files place item rank) : t.Found place item := by
  cases h with
  | root names => exact .root names
  | below stands => exact .below stands

/-- An entry stands in the directory at one address only. -/
theorem Traversal.Stands.unique {item : Candidate} {a b : Address} (h : t.Stands place item a)
    (h' : t.Stands place item b) : a = b := by
  obtain ⟨directory, name, hnames, ha⟩ := h.place
  obtain ⟨directory', name', hnames', hb⟩ := h'.place
  obtain ⟨rfl, -⟩ := List.append_inj' (hnames.symm.trans hnames') rfl
  exact Option.some.inj (ha.symm.trans hb)

theorem Traversal.Stands.names_ne_nil {item : Candidate} {a : Address}
    (h : t.Stands place item a) : item.names ≠ [] := by
  obtain ⟨directory, name, hnames, -⟩ := h.place
  rw [hnames]
  simp

/-- A rank is lower if its first part is, as long as its second part is at most the number of nodes.
-/
theorem rank_lt {fewer more count weight : Nat} (h : fewer < more) (hweight : weight ≤ count)
    (rest : Nat) : fewer * (count + 1) + weight < more * (count + 1) + rest := by
  have hstep : (fewer + 1) * (count + 1) ≤ more * (count + 1) := Nat.mul_le_mul_right _ h
  rw [Nat.succ_mul] at hstep
  omega

/-- **An entry of a directory has a lower rank than the directory.** -/
theorem FileSystem.LooksUp.exists_ranked (h : t.files.LooksUp files place)
    (hfiles : files.IsProper) (hroot : t.root.IsRooted) {rules : List Rule}
    {item child : Candidate} {rank : Nat} (hrank : t.Ranked files place item rank)
    (hchild : child ∈ (t.sight rules item).entries) :
    ∃ less < rank, t.Ranked files place child less := by
  obtain ⟨b, hplace, hleads, hstands, hvisited⟩ := h.opens hfiles hroot hrank.found hchild
  obtain ⟨node, hat, -⟩ := h.directory _ b hplace
  refine ⟨_, ?_, .below hstands⟩
  have hweight := files.weight_le b
  cases hrank with
  | root names =>
    have hmost := files.length_unvisited_le child.visited
    exact rank_lt (Nat.lt_succ_of_le hmost) hweight 0
  | @below a stands =>
    rw [hvisited]
    cases hleads with
    | root names => exact absurd names stands.names_ne_nil
    | entry stands' names place address =>
      -- a directory that is entered by its name has fewer nodes than the one it stands in
      obtain rfl := stands.unique stands'
      have hless : files.weight b < files.weight a := by
        rw [address]
        exact Node.weight_concat_lt (address ▸ hat)
      have hmul := Nat.mul_le_mul_right (files.count + 1)
        (files.length_unvisited_cons_le item.visited (addressText b))
      omega
    | link follows symlink unvisited outside =>
      exact rank_lt (Node.length_unvisited_cons_lt hat unvisited) hweight _

/-- At an entry, no more entries are seen than the tree has nodes. -/
theorem FileSystem.LooksUp.length_sight_le (h : t.files.LooksUp files place) (rules : List Rule)
    (item : Candidate) : (t.sight rules item).entries.length ≤ files.count := by
  rcases t.sight_cases rules item with ⟨_, _, hs⟩ | hs | ⟨real, entries, hlist, -, -, hs⟩
  · rw [hs]
    exact Nat.zero_le _
  · rw [hs]
    exact Nat.zero_le _
  · obtain ⟨a, node, -, hat, hperm⟩ := h.list _ entries hlist
    have hchildren : (t.children item real entries).length ≤ entries.length :=
      List.length_filterMap_le _ _
    have hlength := hperm.length_eq
    rw [List.length_map, List.length_map] at hlength
    have hentries := node.length_entries_lt
    have hnode := Node.count_le_of_at? hat
    rw [hs]
    show (t.children item real entries).length ≤ files.count
    omega

/-- Recursion from the root of a proper tree comes to its end, however links lead, and finds at most
`visitBound` places. -/
theorem FileSystem.LooksUp.exists_gather (h : t.files.LooksUp files place)
    (hfiles : files.IsProper) (hroot : t.root.IsRooted) (stats : FileStats) : ∃ found,
      gather (tour t.look) ((files.count + 1) * (files.count + 1) + 1) (t.rootPlace stats)
        = some found ∧ found.length ≤ files.visitBound := by
  refine exists_gather_of_rank (fun x rank => t.Ranked files place x.item rank)
    (fun x rank _ => ?_) (fun x rank hx y hy => ?_) _ (t.rootPlace stats) _ (.root rfl)
    (Nat.lt_succ_self _)
  · rw [Traversal.look, List.length_map]
    exact h.length_sight_le x.rules x.item
  · obtain ⟨child, hchild, rfl⟩ := List.mem_map.mp hy
    exact h.exists_ranked hfiles hroot hx hchild

end Ranks

/-- A root that is accepted has a real path. -/
theorem FileSystem.LooksUp.exists_realPath {fs : FileSystem Id} {files : Node}
    {place : Text → Option Address} (h : fs.LooksUp files place) {root : Path}
    {options : Walk.Options} {w : Walk}
    (hstart : ((Walk.new root options).start fs).run = (.ok (), w)) :
    ∃ real, (fs.realPath root.toText).run = .ok real := by
  obtain ⟨stats, hlook, -⟩ := Walk.start_accepted hstart
  obtain ⟨a, hplace⟩ := h.lookAtRoot hlook
  exact ⟨_, h.realPath _ a hplace⟩

namespace Walk

/-- If the root of a proper tree is accepted then the walk comes to its end, and has given out what
recursion finds, sorted by depth. -/
theorem exists_ends {fs : FileSystem Id} {files : Node} {place : Text → Option Address}
    (h : fs.LooksUp files place) (hfiles : files.IsProper) {root : Path} (hroot : root.IsRooted)
    {options : Walk.Options} (hlimit : options.maxEntries = none) {w₀ : Walk}
    (hstart : ((Walk.new root options).start fs).run = (.ok (), w₀)) :
    ∃ fuel found last, Ends fs w₀ (found.mergeSort (keyLe Entry.depth)) last ∧
      TreeSieve.gather (Traversal.look ⟨fs, root, options⟩) fuel
        (Traversal.rootPlace ⟨fs, root, options⟩ w₀.rootStats) = some found := by
  obtain ⟨tourFound, htour, -⟩ := h.exists_gather (t := ⟨fs, root, options⟩) hfiles hroot
    w₀.rootStats
  obtain ⟨seen, last, -, hdrains, htours⟩ := start_tours_of_gather (h.isListing hfiles) hroot hlimit
    hstart (h.exists_realPath hstart) htour
  obtain ⟨fuel, found, hfound, hsorted⟩ := hdrains.of_tour.exists_gather
    (Traversal.depth_given ⟨fs, root, options⟩) (Traversal.depth_below ⟨fs, root, options⟩)
  exact ⟨fuel, found, last.finish, hsorted ▸ htours.ends, hfound⟩

/-- **A walk through a tree empties its queue**, whatever links there are in the tree and whether or
not they are followed. Let paths be looked up in a proper tree, let the root be accepted, and let no
entry limit be set. Then there is a number of steps, within a bound that is told by the tree alone,
after which nothing is left in the queue; the walk has looked at one entry in each step, it has not
failed, and it ends with the next step. -/
theorem queue_empties {fs : FileSystem Id} {files : Node} {place : Text → Option Address}
    (h : fs.LooksUp files place) (hfiles : files.IsProper) {current : Path}
    (habs : current.isAbsolute) (hcur : ∀ part ∈ current.parts, Path.IsName part) (root : Text)
    {options : Walk.Options} (hlimit : options.maxEntries = none) {w₀ : Walk}
    (hstart : ((Walk.new (Path.absolute current root) options).start fs).run = (.ok (), w₀)) :
    ∃ steps last, steps ≤ files.visitBound ∧ (runFor fs steps w₀).run = last ∧
      last.phase = .running ∧ last.queue = [] ∧ last.visited = steps ∧
      ∀ more, (runFor fs (steps + 1 + more) w₀).run = last.finish := by
  have hroot : (Path.absolute current root).IsRooted := Path.absolute_isRooted habs hcur root
  obtain ⟨found, hfound, hlength⟩ := h.exists_gather
    (t := ⟨fs, Path.absolute current root, options⟩) hfiles hroot w₀.rootStats
  obtain ⟨seen, last, hperm, -, htours⟩ := start_tours_of_gather (h.isListing hfiles) hroot hlimit
    hstart (h.exists_realPath hstart) hfound
  exact ⟨seen.length, last, hperm.length_eq ▸ hlength, htours.run, htours.phase, htours.queue,
    htours.visited, htours.after⟩

/-- The options of a walk that follows links and has no limits. -/
def Options.following : Walk.Options := { Walk.Options.plain with followLinks := true }

/-- Directories with links to each other, to themselves, above the directory `r`, and into it by way
of a directory outside of it. -/
def tangledTree : Node :=
  .directory 0o755 0 [
    (Text.lit "out", .directory 0o755 0 [(Text.lit "back", .link 0o777 0 (Text.lit "/r/a"))]),
    (Text.lit "r", .directory 0o755 0 [
      (Text.lit "a", .directory 0o755 0 [(Text.lit "other", .link 0o777 0 (Text.lit "../b"))]),
      (Text.lit "b", .directory 0o755 0 [(Text.lit "other", .link 0o777 0 (Text.lit "../a"))]),
      (Text.lit "out", .link 0o777 0 (Text.lit "/out")),
      (Text.lit "self", .link 0o777 0 (Text.lit "self")),
      (Text.lit "up", .link 0o777 0 (Text.lit ".."))])]

/-- Following all of these links comes to an end. -/
theorem queue_empties_tangledTree :
    let fs : FileSystem Id := tangledTree.fileSystem
    let w₀ := ((Walk.new (Path.absolute Path.rootDirectory (Text.lit "/r")) .following).start
      fs).run.2
    ∃ steps last, steps ≤ tangledTree.visitBound ∧ (runFor fs steps w₀).run = last ∧
      last.phase = .running ∧ last.queue = [] ∧ last.visited = steps ∧
      ∀ more, (runFor fs (steps + 1 + more) w₀).run = last.finish := by
  intro fs w₀
  have hproper : tangledTree.IsProper := by decide
  have hstart : ((Walk.new (Path.absolute Path.rootDirectory (Text.lit "/r")) .following).start
      fs).run = (.ok (), w₀) := rfl
  exact queue_empties hproper.looksUp hproper rfl (by simp [Path.rootDirectory]) _ rfl hstart

end Walk

end TreeSieve

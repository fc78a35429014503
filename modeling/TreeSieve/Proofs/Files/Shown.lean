import Mathlib.Algebra.GroupWithZero.Nat
import Mathlib.Data.List.Perm.Basic
import TreeSieve.Files.Tree
import TreeSieve.Proofs.Walk.Always

/-!
# Trees that are shown

A tree is what a file system shows below a path if no call on its nodes fails; the entries of a
directory may be listed in any order.

* `FileSystem.Shows` is this relation.
* `Node.at?_concat` finds an entry of a directory, and `Node.sum_weight` counts the nodes in it.
* `Node.IsProper` holds of the trees whose directories have distinct names; such a tree is shown by
  its own file system, which `Node.IsProper.shows` says.
-/

namespace TreeSieve

/-- A file system shows a tree below a path: no call on a node of it fails, and the entries of its
directories are listed in some order. -/
structure FileSystem.Shows (fs : FileSystem Id) (root : Path) (tree : Node) : Prop where
  realPath : ∃ real, (fs.realPath root.toText).run = .ok real
  lstat : ∀ names node, tree.at? names = some node →
    ∃ stats, (fs.lstat (root.descend names).toText).run = .ok stats ∧ stats.kind = node.kind
  list : ∀ names node, tree.at? names = some node → node.kind = .directory →
    ∃ entries, (fs.list (root.descend names).toText).run = .ok entries ∧
      (entries.map (·.name)).Perm (node.entries.map (·.1))
  read : ∀ names permissions size content,
    tree.at? names = some (.file .file permissions size content) →
      (fs.read (root.descend names).toText).run = .ok content
  listing : ∀ path entries, (fs.list path).run = .ok entries → IsListing entries

namespace Node

/-! ### Addresses -/

@[simp] theorem at?_nil (tree : Node) : tree.at? [] = some tree := by rw [at?]

theorem at?_cons (tree : Node) (name : Text) (names : List Text) :
    tree.at? (name :: names) = (tree.entry? name).bind (·.at? names) := by
  rw [at?]
  cases tree.entry? name with
  | none => rfl
  | some child => rfl

theorem at?_append (tree : Node) (names more : List Text) :
    tree.at? (names ++ more) = (tree.at? names).bind (·.at? more) := by
  induction names generalizing tree with
  | nil => rw [List.nil_append, at?_nil, Option.bind_some]
  | cons name names ih =>
    rw [List.cons_append, at?_cons, at?_cons, Option.bind_assoc]
    exact Option.bind_congr fun child _ => ih child

/-- The node at the address of an entry of a directory is what the directory holds under its name.
-/
theorem at?_concat {tree node : Node} {names : List Text} (h : tree.at? names = some node)
    (name : Text) : tree.at? (names ++ [name]) = node.entry? name := by
  rw [at?_append, h, Option.bind_some, at?_cons]
  cases node.entry? name with
  | none => rfl
  | some child => rw [Option.bind_some, at?_nil]

theorem mem_of_entry? {node child : Node} {name : Text} (h : node.entry? name = some child) :
    name ∈ node.entries.map (·.1) := by
  obtain ⟨before, after, hsplit, -⟩ := List.lookup_eq_some_iff.mp h
  rw [hsplit]
  simp

/-- Only directories have entries. -/
theorem kind_of_entry? {node child : Node} {name : Text} (h : node.entry? name = some child) :
    node.kind = .directory := by
  cases node with
  | file _ _ _ _ => cases h
  | link _ _ _ => cases h
  | directory _ _ _ => rfl

theorem entries_eq_nil {node : Node} (h : node.kind ≠ .directory) : node.entries = [] := by
  cases node with
  | file _ _ _ _ => rfl
  | link _ _ _ => rfl
  | directory _ _ _ => exact absurd rfl h

/-- A name of an entry leads to a node. -/
theorem exists_entry? {node : Node} {name : Text} (h : name ∈ node.entries.map (·.1)) :
    ∃ child, node.entry? name = some child := by
  cases hentry : node.entry? name with
  | some child => exact ⟨child, rfl⟩
  | none =>
    obtain ⟨entry, hmem, rfl⟩ := List.mem_map.mp h
    have hne := List.lookup_eq_none_iff.mp hentry entry hmem
    simp at hne

/-! ### Numbers of nodes -/

/-- The number of nodes at an address and below. -/
def weight (tree : Node) (names : List Text) : Nat := ((tree.at? names).map count).getD 0

theorem weight_of_at? {tree node : Node} {names : List Text} (h : tree.at? names = some node) :
    tree.weight names = node.count := by
  rw [weight, h]
  rfl

theorem one_le_count (node : Node) : 1 ≤ node.count := by
  cases node with
  | file _ _ _ _ => simp [count]
  | link _ _ _ => simp [count]
  | directory _ _ entries => simp [count]

theorem countEntries_eq (entries : List (Text × Node)) :
    countEntries entries = (entries.map fun entry => entry.2.count).sum := by
  induction entries with
  | nil => rw [countEntries]; rfl
  | cons entry entries ih => rw [countEntries, ih, List.map_cons, List.sum_cons]

/-- The nodes at and below a directory are those at and below its entries, and itself. -/
theorem sum_weight {tree node : Node} {names : List Text} (h : tree.at? names = some node)
    (hnodup : (node.entries.map (·.1)).Nodup) :
    ((node.entries.map (·.1)).map fun name => tree.weight (names ++ [name])).sum + 1
      = node.count := by
  have hentry : ∀ entry ∈ node.entries, tree.weight (names ++ [entry.1]) = entry.2.count := by
    intro entry hmem
    refine weight_of_at? ?_
    rw [at?_concat h, entry?, List.lookup_eq_some_iff]
    obtain ⟨before, after, hsplit⟩ := List.append_of_mem hmem
    refine ⟨before, after, hsplit, fun other hother => ?_⟩
    rw [hsplit, List.map_append, List.map_cons] at hnodup
    have hne := (List.nodup_append.mp hnodup).2.2 other.1 (List.mem_map_of_mem hother) entry.1
      List.mem_cons_self
    exact bne_iff_ne.mpr hne.symm
  have hsum : ((node.entries.map (·.1)).map fun name => tree.weight (names ++ [name])).sum
      = countEntries node.entries := by
    rw [countEntries_eq, List.map_map]
    exact congrArg List.sum (List.map_congr_left hentry)
  rw [hsum]
  cases node with
  | file _ _ _ _ => simp [entries, countEntries, count]
  | link _ _ _ => simp [entries, countEntries, count]
  | directory _ _ _ => simp [entries, count]

/-! ### The file system of a tree -/

mutual

/-- Whether the entries of all directories have distinct names, each of one component, and all
permissions fit the twelve bits that they have in a mode. -/
def IsProper : Node → Prop
  | file _ permissions _ _ => permissions < 0o10000
  | link permissions _ _ => permissions < 0o10000
  | directory permissions _ entries =>
    permissions < 0o10000 ∧ (entries.map (·.1)).Nodup ∧
      (∀ entry ∈ entries, Path.IsEntryName entry.1) ∧ AreProper entries

/-- Whether all of the given trees are proper. -/
def AreProper : List (Text × Node) → Prop
  | [] => True
  | (_, node) :: rest => node.IsProper ∧ AreProper rest

end

mutual

instance decidableIsProper : (tree : Node) → Decidable tree.IsProper
  | file _ permissions _ _ => inferInstanceAs (Decidable (permissions < 0o10000))
  | link permissions _ _ => inferInstanceAs (Decidable (permissions < 0o10000))
  | directory permissions _ entries =>
    have := decidableAreProper entries
    inferInstanceAs (Decidable (permissions < 0o10000 ∧ (entries.map (·.1)).Nodup ∧
      (∀ entry ∈ entries, Path.IsEntryName entry.1) ∧ AreProper entries))

instance decidableAreProper : (entries : List (Text × Node)) → Decidable (AreProper entries)
  | [] => inferInstanceAs (Decidable True)
  | (_, node) :: rest =>
    have := decidableIsProper node
    have := decidableAreProper rest
    inferInstanceAs (Decidable (node.IsProper ∧ AreProper rest))

end

theorem AreProper.of_mem {entries : List (Text × Node)} (h : AreProper entries)
    {entry : Text × Node} (hmem : entry ∈ entries) : entry.2.IsProper := by
  induction entries with
  | nil => exact nomatch hmem
  | cons first rest ih =>
    rw [AreProper] at h
    rcases List.mem_cons.mp hmem with rfl | hmem
    · exact h.1
    · exact ih h.2 hmem

/-- An entry of a proper tree has a name, and is proper. -/
theorem IsProper.entry? {node child : Node} (h : node.IsProper) {name : Text}
    (hchild : node.entry? name = some child) : Path.IsEntryName name ∧ child.IsProper := by
  obtain ⟨before, after, hsplit, -⟩ := List.lookup_eq_some_iff.mp hchild
  cases node with
  | file _ _ _ _ => simp [entries] at hsplit
  | link _ _ _ => simp [entries] at hsplit
  | directory _ _ entries =>
    rw [IsProper] at h
    have hsame : entries = before ++ (name, child) :: after := hsplit
    have hmem : (name, child) ∈ entries := hsame ▸ List.mem_append_right before List.mem_cons_self
    exact ⟨h.2.2.1 (name, child) hmem, h.2.2.2.of_mem hmem⟩

/-- All nodes of a proper tree are proper, and their addresses are made of names. -/
theorem IsProper.at? {tree : Node} (h : tree.IsProper) {names : List Text} {node : Node}
    (hat : tree.at? names = some node) :
    (∀ part ∈ names, Path.IsEntryName part) ∧ node.IsProper := by
  induction names generalizing tree with
  | nil =>
    rw [at?_nil] at hat
    exact ⟨fun part hp => absurd hp List.not_mem_nil, Option.some.inj hat ▸ h⟩
  | cons name names ih =>
    rw [at?_cons] at hat
    obtain ⟨child, hchild, hat⟩ := Option.bind_eq_some_iff.mp hat
    obtain ⟨hname, hproper⟩ := h.entry? hchild
    obtain ⟨hnames, hnode⟩ := ih hproper hat
    refine ⟨fun part hp => ?_, hnode⟩
    rcases List.mem_cons.mp hp with rfl | hp
    · exact hname
    · exact hnames part hp

/-- The mode of a node of a proper tree tells its kind. -/
theorem IsProper.kind_stats {node : Node} (h : node.IsProper) : node.stats.kind = node.kind := by
  have hpermissions : node.permissions < 2 ^ 12 := by
    cases node with
    | file _ _ _ _ => rwa [IsProper] at h
    | link _ _ _ => rwa [IsProper] at h
    | directory _ _ _ =>
      rw [IsProper] at h
      exact h.1
  have hmode : node.stats.mode / 0o10000 = node.kind.bits / 0o10000 := by
    have hshift : node.permissions >>> 12 = 0 := by
      rw [Nat.shiftRight_eq_div_pow, Nat.div_eq_of_lt hpermissions]
    show (node.kind.bits ||| node.permissions) / 2 ^ 12 = node.kind.bits / 2 ^ 12
    rw [← Nat.shiftRight_eq_div_pow, ← Nat.shiftRight_eq_div_pow, Nat.shiftRight_or_distrib, hshift,
      Nat.or_zero]
  show EntryKind.ofMode node.stats.mode = node.kind
  rw [EntryKind.ofMode, hmode]
  cases node.kind with
  | _ => decide

/-- The entries of a directory of a proper tree have distinct names, each of one component. -/
theorem IsProper.isListing {node : Node} (h : node.IsProper) :
    IsListing (node.entries.map fun entry => ⟨entry.1, entry.2.kind⟩) := by
  have hmap : (node.entries.map fun entry => (⟨entry.1, entry.2.kind⟩ : ListedEntry)).map (·.name)
      = node.entries.map (·.1) := by
    rw [List.map_map]
    rfl
  have hboth : (node.entries.map (·.1)).Nodup ∧
      ∀ entry ∈ node.entries, Path.IsEntryName entry.1 := by
    cases node with
    | file _ _ _ _ => exact ⟨List.nodup_nil, fun entry hentry => nomatch hentry⟩
    | link _ _ _ => exact ⟨List.nodup_nil, fun entry hentry => nomatch hentry⟩
    | directory _ _ entries =>
      rw [IsProper] at h
      exact ⟨h.2.1, h.2.2.1⟩
  refine ⟨hmap.symm ▸ hboth.1, ?_⟩
  intro listed hlisted
  obtain ⟨entry, hentry, rfl⟩ := List.mem_map.mp hlisted
  exact hboth.2 entry hentry

/-- Names that lead to a node, from an address in front of it, are followed to the node, unless it
is a link that is to be followed. -/
theorem resolveWith_of_at? {root node : Node} {rules : PathRules} {followLast : Bool}
    {follow : LinkFollower} (hlast : followLast = true → node.kind ≠ .symlink)
    (names : List Text) : ∀ here : Address, (∀ part ∈ names, Path.IsEntryName part) →
      root.at? (here ++ names) = some node →
      resolveWith root rules followLast follow here names = .ok (here ++ names, node) := by
  induction names with
  | nil =>
    intro here _ hat
    rw [List.append_nil] at hat
    rw [resolveWith, hat, List.append_nil]
  | cons name rest ih =>
    intro here hnames hat
    have hname := hnames name List.mem_cons_self
    have hnext := ih (here ++ [name]) (fun part hp => hnames part (List.mem_cons_of_mem name hp))
    rw [List.append_assoc, List.singleton_append] at hnext
    have hgo := hnext hat
    rw [at?_append] at hat
    obtain ⟨directory, hdirectory, hbelow⟩ := Option.bind_eq_some_iff.mp hat
    rw [at?_cons] at hbelow
    obtain ⟨child, hchild, hrest⟩ := Option.bind_eq_some_iff.mp hbelow
    have hkind := kind_of_entry? hchild
    rw [resolveWith, hdirectory]
    simp only [hkind, hname.1.2.1, hname.2, hchild]
    rw [if_neg (by decide), if_neg not_false, if_neg not_false]
    cases child with
    | file _ _ _ _ => exact hgo
    | directory _ _ _ => exact hgo
    | link _ _ _ =>
      -- nothing is below a link, so that it is the last name and stays as it is
      cases rest with
      | cons _ _ => cases hrest
      | nil =>
        have hstop : followLast = false := by
          rw [← Bool.not_eq_true]
          intro hfollow
          rw [at?_nil] at hrest
          exact hlast hfollow (Option.some.inj hrest ▸ rfl)
        simp only [hstop] at hgo ⊢
        exact hgo

/-- If following links leads to nodes of a tree then so does following names. -/
theorem at?_of_resolveWith {root : Node} {rules : PathRules} {followLast : Bool}
    {follow : LinkFollower}
    (hfollow : ∀ here names address node, follow here names = .ok (address, node) →
      root.at? address = some node) (names : List Text) :
    ∀ (here : Address) (address : Address) (node : Node),
      resolveWith root rules followLast follow here names = .ok (address, node) →
        root.at? address = some node := by
  induction names with
  | nil =>
    intro here address node h
    rw [resolveWith] at h
    cases hat : root.at? here with
    | none => rw [hat] at h; cases h
    | some found =>
      rw [hat] at h
      obtain ⟨rfl, rfl⟩ := Prod.mk.inj (Except.ok.inj h)
      exact hat
  | cons name rest ih =>
    intro here address node h
    rw [resolveWith] at h
    split at h
    · cases h
    · split at h
      · cases h
      · split at h
        · exact ih _ _ _ h
        · split at h
          · exact ih _ _ _ h
          · split at h
            · cases h
            · simp only at h
              split at h
              · exact ih _ _ _ h
              · exact hfollow _ _ _ _ h
            · exact ih _ _ _ h

theorem at?_of_resolveWithin {root : Node} {rules : PathRules} {followLast : Bool} (links : Nat) :
    ∀ here names address node,
      resolveWithin root rules followLast links here names = .ok (address, node) →
        root.at? address = some node := by
  induction links with
  | zero =>
    intro here names address node h
    refine at?_of_resolveWith (fun _ _ _ _ hnone => ?_) names here address node h
    cases hnone
  | succ links ih =>
    intro here names address node h
    exact at?_of_resolveWith ih names here address node h

/-- The path of a node, taken from the root through names of entries, leads to the node. -/
theorem resolve_of_at? {root node : Node} {followLast : Bool}
    (hlast : followLast = true → node.kind ≠ .symlink) {p : Path} (hp : p.IsRooted)
    (hat : root.at? p.parts = some node) :
    root.resolve .plain followLast p.toText = .ok (p.parts, node) := by
  have hparts : Path.partsOf p.toText = p.parts := congrArg Path.parts hp.ofText_toText
  have hwithin : resolveWithin root .plain followLast maxLinks [] p.parts = .ok (p.parts, node) :=
    resolveWith_of_at? hlast p.parts [] hp.names hat
  rw [resolve, if_neg (by simp [PathRules.refuses, PathRules.exceeds, PathRules.plain])]
  rw [show PathRules.plain.names p.toText = p.parts from hparts, hwithin]

/-- What a path is resolved to is a node of the tree. -/
theorem at?_of_resolve {root node : Node} {rules : PathRules} {followLast : Bool} {path : Text}
    {address : Address} (h : root.resolve rules followLast path = .ok (address, node)) :
    root.at? address = some node := by
  rw [resolve] at h
  split at h
  · cases h
  · split at h
    · rename_i found hwithin
      exact at?_of_resolveWithin _ _ _ _ _ (Except.ok.inj h ▸ hwithin)
    · cases h

/-- The file system of a proper tree lists distinct names, by whatever rules it reads paths. -/
theorem IsProper.isListing_of_list {root : Node} (h : root.IsProper) {rules : PathRules}
    {path : Text} {entries : List ListedEntry}
    (hlist : ((root.fileSystemWith rules : FileSystem Id).list path).run = .ok entries) :
    IsListing entries := by
  simp only [fileSystemWith, Id.run_pure] at hlist
  cases hfound : root.resolve rules true path with
  | error e =>
    rw [hfound] at hlist
    cases hlist
  | ok found =>
    obtain ⟨address, node⟩ := found
    rw [hfound] at hlist
    replace hlist : (if node.kind = .directory then
        (pure (node.entries.map fun entry => ⟨entry.1, entry.2.kind⟩) :
          Except FileError (List ListedEntry))
        else throw ⟨.notADirectory, path⟩) = .ok entries := hlist
    split at hlist
    · rw [← Except.ok.inj hlist]
      exact (h.at? (at?_of_resolve hfound)).2.isListing
    · cases hlist

/-- **A proper tree is shown by its file system**, below each of its directories. -/
theorem IsProper.shows {root : Node} (h : root.IsProper) {p : Path} (hp : p.IsRooted)
    {tree : Node} (hat : root.at? p.parts = some tree) (hdir : tree.kind = .directory) :
    (root.fileSystem : FileSystem Id).Shows p tree := by
  have hnode : ∀ names node, tree.at? names = some node →
      (p.descend names).IsRooted ∧ root.at? (p.descend names).parts = some node := by
    intro names node hnames
    refine ⟨hp.descend ((h.at? hat).2.at? hnames).1, ?_⟩
    rw [Path.descend, at?_append, hat]
    exact hnames
  have hresolve : ∀ names node followLast, tree.at? names = some node →
      (followLast = true → node.kind ≠ .symlink) →
      root.resolve .plain followLast (p.descend names).toText
        = .ok ((p.descend names).parts, node) := by
    intro names node followLast hnames hlast
    obtain ⟨hrooted, hfound⟩ := hnode names node hnames
    exact resolve_of_at? hlast hrooted hfound
  have hroot := hresolve [] tree true (at?_nil tree) fun _ => by rw [hdir]; decide
  rw [Path.descend_nil] at hroot
  refine ⟨⟨addressText p.parts, ?_⟩, ?_, ?_, ?_, ?_⟩
  · simp only [fileSystem, fileSystemWith, Id.run_pure, hroot]
    rfl
  · intro names node hnames
    refine ⟨node.stats, ?_, ?_⟩
    · simp only [fileSystem, fileSystemWith, Id.run_pure,
        hresolve names node false hnames fun hfollow => absurd hfollow Bool.false_ne_true]
      rfl
    · exact ((h.at? hat).2.at? hnames).2.kind_stats
  · intro names node hnames hkind
    refine ⟨node.entries.map fun entry => ⟨entry.1, entry.2.kind⟩, ?_, ?_⟩
    · simp only [fileSystem, fileSystemWith, Id.run_pure,
        hresolve names node true hnames fun _ => by rw [hkind]; decide]
      show (if node.kind = .directory then _ else _) = _
      rw [if_pos hkind]
      rfl
    · rw [List.map_map]
      exact List.Perm.refl _
  · intro names permissions size content hnames
    have hfile : (file .file permissions size content).kind ≠ .symlink := by
      rw [kind]
      decide
    simp only [fileSystem, fileSystemWith, Id.run_pure, hresolve names _ true hnames fun _ => hfile]
    rfl
  · exact fun path entries hlist => h.isListing_of_list hlist

end Node

end TreeSieve

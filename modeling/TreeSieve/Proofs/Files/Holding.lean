import TreeSieve.Proofs.Files.Disk
import TreeSieve.Walk.Start

/-!
# Trees that are held

Below a path that leads to a directory, through whatever links, the names of the nodes of this
directory lead to these nodes.

* `Node.resolve_below` says so of a path on a disk or in memory.
* `FileSystem.Holds` holds of a file system that answers about the nodes of a tree below a path as
  they are, and `FileSystem.Holds.shows` says that it shows the tree then.
* `FileSystem.Serves.holds` says that the files of a tree hold each directory of it.
* `Node.resolve_addressText` and `Node.realPathLeniently_addressText` say that the text of an
  address leads to the address, and is its own real path.
-/

namespace TreeSieve

/-- A file system that holds a tree below a path: it answers about each node as the node is. The
path itself may be a link to the tree. -/
structure FileSystem.Holds (fs : FileSystem Id) (top : Path) (tree : Node) : Prop where
  realPath : ∃ real, (fs.realPath top.toText).run = .ok real
  root : (Walk.lookAtRoot fs top.toText).run = .ok tree.stats
  lstat : ∀ names node, names ≠ [] → tree.at? names = some node →
    (fs.lstat (top.descend names).toText).run = .ok node.stats
  list : ∀ names node, tree.at? names = some node → node.kind = .directory →
    (fs.list (top.descend names).toText).run
      = .ok (node.entries.map fun entry => ⟨entry.1, entry.2.kind⟩)
  read : ∀ names permissions size content,
    tree.at? names = some (.file .file permissions size content) →
      (fs.read (top.descend names).toText).run = .ok content

/-- A proper tree that is held below a path which is no link is shown there, if listings are made of
distinct names. -/
theorem FileSystem.Holds.shows {fs : FileSystem Id} {top : Path} {tree : Node}
    (h : fs.Holds top tree) (htree : tree.IsProper)
    (hroot : (fs.lstat top.toText).run = .ok tree.stats)
    (hlisting : ∀ path entries, (fs.list path).run = .ok entries → IsListing entries) :
    fs.Shows top tree := by
  refine ⟨h.realPath, ?_, ?_, h.read, hlisting⟩
  · intro names node hat
    refine ⟨node.stats, ?_, (htree.at? hat).2.kind_stats⟩
    rcases eq_or_ne names [] with rfl | hne
    · rw [Node.at?_nil] at hat
      rw [Path.descend_nil, hroot, Option.some.inj hat]
    · exact h.lstat names node hne hat
  · intro names node hat hkind
    refine ⟨_, h.list names node hat hkind, ?_⟩
    rw [List.map_map]
    exact List.Perm.refl _

namespace Node

variable {root : Node} {rules : PathRules}

/-- If the node at some address is a directory then so is the root of the tree. -/
theorem kind_of_at? {directory : Node} {a : Address} (hat : root.at? a = some directory)
    (hkind : directory.kind = .directory) : root.kind = .directory := by
  cases a with
  | nil =>
    rw [at?_nil] at hat
    rwa [Option.some.inj hat]
  | cons name rest =>
    rw [at?_cons] at hat
    obtain ⟨child, hchild, -⟩ := Option.bind_eq_some_iff.mp hat
    exact kind_of_entry? hchild

/-- What a path leads to with its last name followed it leads to without that, or it leads to a link
then. -/
theorem resolveWith_unfollowed {follow follow' : LinkFollower}
    (hfollow : ∀ here names found, follow here names = .ok found →
      ∃ other, follow' here names = .ok other ∧ (other.2.kind = .symlink ∨ other = found))
    (names : List Text) : ∀ (here : Address) (found : Address × Node),
      resolveWith root rules true follow here names = .ok found →
        ∃ other, resolveWith root rules false follow' here names = .ok other ∧
          (other.2.kind = .symlink ∨ other = found) := by
  induction names with
  | nil =>
    intro here found h
    rw [resolveWith] at h ⊢
    exact ⟨found, h, .inr rfl⟩
  | cons first rest ih =>
    intro here found h
    rw [resolveWith_cons] at h ⊢
    cases hturn : root.turn rules here first with
    | fails cause => rw [hturn] at h; cases h
    | goes next =>
      rw [hturn] at h
      exact ih next found h
    | meets start target =>
      have hgo : (rest.isEmpty && !true) = false := by simp
      simp only [hturn, hgo] at h ⊢
      split
      · rename_i hempty
        obtain ⟨permissions, size, text, hlink⟩ := exists_link_of_turn_meets hturn
        have hnil : rest = [] := by simpa using hempty
        refine ⟨(here ++ [first], .link permissions size text), ?_, .inl rfl⟩
        rw [hnil, resolveWith, hlink]
      · exact hfollow start (target ++ rest) found h

theorem resolveWithin_unfollowed (links : Nat) :
    ∀ (here : Address) (names : List Text) (found : Address × Node),
      resolveWithin root rules true links here names = .ok found →
        ∃ other, resolveWithin root rules false links here names = .ok other ∧
          (other.2.kind = .symlink ∨ other = found) := by
  induction links with
  | zero =>
    intro here names found h
    refine resolveWith_unfollowed (fun _ _ _ hnone => ?_) names here found h
    cases hnone
  | succ links ih =>
    intro here names found h
    exact resolveWith_unfollowed ih names here found h

theorem resolve_unfollowed {path : Text} {found : Address × Node}
    (h : root.resolve rules true path = .ok found) :
    ∃ other, root.resolve rules false path = .ok other ∧
      (other.2.kind = .symlink ∨ other = found) := by
  rw [resolve] at h
  split at h
  · cases h
  · rename_i hlength
    split at h
    · rename_i hwithin
      obtain ⟨other, hother, hkind⟩ := resolveWithin_unfollowed _ _ _ _ (Except.ok.inj h ▸ hwithin)
      exact ⟨other, by rw [resolve, if_neg hlength, hother], hkind⟩
    · cases h

section Below

variable {followLast : Bool} {a : Address} {names : List Text} {node directory : Node}
  (hnames : ∀ part ∈ names, Path.IsEntryName part) (hat : root.at? (a ++ names) = some node)
  (hlast : followLast = true → node.kind ≠ .symlink) (hmore : names ≠ [] ∨ followLast = true)

include hnames hat hlast hmore

/-- If a path leads to a directory, with the last name followed, then the path with the names of one
of its nodes behind leads to that node. -/
theorem resolveWith_append {follow follow' : LinkFollower}
    (hfollow : ∀ here front, follow here front = .ok (a, directory) →
      follow' here (front ++ names) = .ok (a ++ names, node)) (front : List Text) :
    ∀ here : Address, resolveWith root rules true follow here front = .ok (a, directory) →
      resolveWith root rules followLast follow' here (front ++ names)
        = .ok (a ++ names, node) := by
  induction front with
  | nil =>
    intro here h
    obtain ⟨rfl, -⟩ := resolveWith_nil_ok h
    exact resolveWith_of_at? hlast names _ hnames hat
  | cons first rest ih =>
    intro here h
    rw [resolveWith_cons] at h
    rw [List.cons_append, resolveWith_cons]
    cases hturn : root.turn rules here first with
    | fails cause => rw [hturn] at h; cases h
    | goes next =>
      rw [hturn] at h
      exact ih next h
    | meets start target =>
      -- the link is followed, be it because of the names behind it
      have hstop : ((rest ++ names).isEmpty && !followLast) = false := by
        rcases hmore with hne | hfollows
        · simp [hne]
        · simp [hfollows]
      have hgo : (rest.isEmpty && !true) = false := by simp
      simp only [hturn, hgo, hstop, ← List.append_assoc] at h ⊢
      exact hfollow start (target ++ rest) h

theorem resolveWithin_append (links : Nat) : ∀ (here : Address) (front : List Text),
    resolveWithin root rules true links here front = .ok (a, directory) →
      resolveWithin root rules followLast links here (front ++ names) = .ok (a ++ names, node) := by
  induction links with
  | zero =>
    intro here front h
    refine resolveWith_append hnames hat hlast hmore (fun _ _ hnone => ?_) front here h
    cases hnone
  | succ links ih =>
    intro here front h
    exact resolveWith_append hnames hat hlast hmore ih front here h

/-- The names of a node of a directory lead to the node, from a path that leads to the directory. -/
theorem resolve_below (hrules : rules.Reads) {p : Path} (hp : p.IsRooted)
    (hplace : root.resolve rules true p.toText = .ok (a, directory))
    (hkind : directory.kind = .directory)
    (hlength : rules.refuses (p.descend names).toText = false) :
    root.resolve rules followLast (p.descend names).toText = .ok (a ++ names, node) := by
  refine resolve_of_resolveWithin hrules (hp.descend hnames)
    (kind_of_at? (at?_of_resolve hplace) hkind) hlength ?_
  exact resolveWithin_append hnames hat hlast hmore _ _ _
    (resolveWithin_of_resolve hrules hp hplace)

end Below

end Node

namespace FileSystem.Serves

variable {fs : FileSystem Id} {files : Node} {rules : PathRules} (h : fs.Serves files rules)

include h

theorem lstat_eq {path : Text} {a : Address} {node : Node}
    (hfound : files.resolve rules false path = .ok (a, node)) :
    (fs.lstat path).run = .ok node.stats := by
  simp only [h.lstat, Node.fileSystemWith, Id.run_pure, hfound]
  rfl

theorem stat_eq {path : Text} {a : Address} {node : Node}
    (hfound : files.resolve rules true path = .ok (a, node)) :
    (fs.stat path).run = .ok node.stats := by
  simp only [h.stat, Node.fileSystemWith, Id.run_pure, hfound]
  rfl

/-- A path that leads to a directory is accepted as the root of a walk. -/
theorem lookAtRoot_eq (hfiles : files.IsProper) {path : Text} {a : Address} {tree : Node}
    (hplace : files.resolve rules true path = .ok (a, tree)) (htree : tree.kind = .directory) :
    (Walk.lookAtRoot fs path).run = .ok tree.stats := by
  obtain ⟨⟨b, entry⟩, hother, hsame⟩ := Node.resolve_unfollowed hplace
  have hentry := (hfiles.at? (Node.at?_of_resolve hother)).2.kind_stats
  have hkind := (hfiles.at? (Node.at?_of_resolve hplace)).2.kind_stats
  have hdirectory : tree.stats.isDirectory = true := by
    rw [FileStats.isDirectory, hkind, htree]
    rfl
  unfold Walk.lookAtRoot
  simp only [Id.run_bind, h.lstat_eq hother]
  split
  · simp only [Id.run_bind, h.stat_eq hplace, hdirectory, if_true]
    rfl
  · rename_i hlink
    rw [FileStats.isSymlink, hentry, beq_iff_eq] at hlink
    obtain ⟨rfl, rfl⟩ := Prod.mk.inj (hsame.resolve_left hlink)
    simp only [hdirectory, if_true]
    rfl

/-- A directory that a path leads to is held below the path, if no path in it is too long. -/
theorem holds (hfiles : files.IsProper) (hrules : rules.Reads) {top : Path} (htop : top.IsRooted)
    {a : Address} {tree : Node} (hplace : files.resolve rules true top.toText = .ok (a, tree))
    (htree : tree.kind = .directory)
    (hlength : ∀ names node, tree.at? names = some node →
      rules.refuses (top.descend names).toText = false)
    (hreal : ∃ real, (fs.realPath top.toText).run = .ok real) : fs.Holds top tree := by
  have hat := Node.at?_of_resolve hplace
  have hproper := (hfiles.at? hat).2
  have hbelow : ∀ (followLast : Bool) {names node}, tree.at? names = some node →
      (followLast = true → node.kind ≠ .symlink) → (names ≠ [] ∨ followLast = true) →
      files.resolve rules followLast (top.descend names).toText = .ok (a ++ names, node) := by
    intro followLast names node hnode hlast hmore
    refine Node.resolve_below (hproper.at? hnode).1 ?_ hlast hmore hrules htop hplace htree
      (hlength names node hnode)
    rw [Node.at?_append, hat]
    exact hnode
  refine ⟨hreal, h.lookAtRoot_eq hfiles hplace htree, ?_, ?_, ?_⟩
  · intro names node hne hnode
    exact h.lstat_eq (hbelow false hnode (fun hfollow => nomatch hfollow) (.inl hne))
  · intro names node hnode hkind
    have hfound := hbelow true hnode (fun _ => by rw [hkind]; decide) (.inr rfl)
    simp only [h.list, Node.fileSystemWith, Id.run_pure, hfound]
    show (if node.kind = .directory then _ else _) = _
    rw [if_pos hkind]
    rfl
  · intro names permissions size content hnode
    have hfound := hbelow true hnode
      (fun _ => by rw [Node.kind]; decide) (.inr rfl)
    simp only [h.read, Node.fileSystemWith, Id.run_pure, hfound]
    rfl

end FileSystem.Serves

namespace Node

/-! ### Addresses -/

section Addresses

variable {root node : Node} (hroot : root.IsProper) {a : Address} (hat : root.at? a = some node)

include hroot hat

/-- The text of an address is the path that leads there from the root, in whatever directory it is
read. -/
theorem absolute_addressText (current : Path) :
    Path.absolute current (addressText a) = ⟨.root, a⟩ := by
  have hrooted : Path.IsRooted ⟨.root, a⟩ := ⟨rfl, (hroot.at? hat).1⟩
  have htext : Path.ofText (addressText a) = ⟨.root, a⟩ := hrooted.ofText_toText
  rw [Path.absolute_of_startOf (congrArg Path.start htext), htext, hrooted.collapse_eq]

/-- The text of an address leads to the address. -/
theorem resolve_addressText {rules : PathRules} (hrules : rules.Reads) {followLast : Bool}
    (hkind : root.kind = .directory) (hlast : followLast = true → node.kind ≠ .symlink)
    (hlength : rules.refuses (addressText a) = false) :
    root.resolve rules followLast (addressText a) = .ok (a, node) := by
  have hnames := (hroot.at? hat).1
  refine resolve_of_resolveWithin hrules (p := ⟨.root, a⟩) ⟨rfl, hnames⟩ hkind hlength ?_
  exact resolveWith_of_at? hlast a [] hnames hat

variable (hkind : node.kind ≠ .symlink)

include hkind

/-- Looking up the names that lead on to a node, from an address in front of it, reaches the address
of the node: no link is met on the way. -/
theorem walkNames_of_at? (current : Path) (depth : Nat) (pending : List Path) {rest : List Text} :
    ∀ {here : Address}, here ++ rest = a →
      resolveLeniently.walkNames root current depth pending ⟨.root, here⟩ rest
        = .ok ⟨.root, a⟩ := by
  have hnames := (hroot.at? hat).1
  induction rest with
  | nil =>
    intro here hsplit
    rw [resolveLeniently.walkNames, ← hsplit, List.append_nil]
  | cons name rest ih =>
    intro here hsplit
    have hmore : (here ++ [name]) ++ rest = a := by rw [← hsplit, List.append_assoc]; rfl
    have hname : Path.IsEntryName name := hnames name (hsplit ▸ by simp)
    have hplace : Path.IsRooted ⟨.root, here ++ [name]⟩ :=
      ⟨rfl, fun part hpart => hnames part (hmore ▸ List.mem_append_left rest hpart)⟩
    have hjoin : (current.join (Path.descend ⟨.root, here⟩ [name])).collapse.parts
        = here ++ [name] := by
      show (Path.collapse ⟨.root, here ++ [name]⟩).parts = _
      rw [hplace.collapse_eq]
    rw [← hmore, at?_append] at hat
    obtain ⟨child, hchild, hbelow⟩ := Option.bind_eq_some_iff.mp hat
    have hfirst : (name.isEmpty || decide (name = Path.dot)) = false := by
      simp [hname.ne_nil, hname.1.2.1]
    rw [resolveLeniently.walkNames]
    simp only [hfirst, hname.2, hjoin, hchild, Bool.false_eq_true, if_false]
    cases child with
    | file _ _ _ _ => exact ih hmore
    | directory _ _ _ => exact ih hmore
    | link _ _ _ =>
      -- nothing is below a link, so that it would be the node itself
      cases rest with
      | nil =>
        rw [at?_nil] at hbelow
        exact absurd (Option.some.inj hbelow ▸ rfl) hkind
      | cons _ _ => cases hbelow

/-- The text of an address at which there is no link is its own real path. -/
theorem realPathLeniently_addressText (current : Path) :
    root.realPathLeniently current (addressText a) = addressText a := by
  have hrooted : Path.IsRooted ⟨.root, a⟩ := ⟨rfl, (hroot.at? hat).1⟩
  have hstart : Path.startOf (addressText a) = .root := congrArg Path.start hrooted.ofText_toText
  obtain ⟨depth, hdepth⟩ : ∃ depth, (root.count + 1) * (current.parts.length + 2) = depth + 1 :=
    Nat.exists_eq_succ_of_ne_zero (Nat.mul_ne_zero (Nat.succ_ne_zero _) (Nat.succ_ne_zero _))
  have hskip : ∀ rest, resolveLeniently.walkNames root current depth [] ⟨.root, []⟩ ([] :: rest)
      = resolveLeniently.walkNames root current depth [] ⟨.root, []⟩ rest := by
    intro rest
    rw [resolveLeniently.walkNames]
    rfl
  have hresolved : root.resolveLeniently current (depth + 1) [] ⟨.root, []⟩
      (Text.split '/' (addressText a)) = .ok ⟨.root, a⟩ := by
    rw [resolveLeniently, addressText,
      show Text.split '/' ('/' :: Text.joinWith '/' a) = [] :: Text.split '/' (Text.joinWith '/' a)
        from Text.split_append_sep List.not_mem_nil _, hskip]
    rcases eq_or_ne a [] with rfl | hne
    · rw [show Text.split '/' (Text.joinWith '/' []) = [[]] from rfl, hskip,
        resolveLeniently.walkNames]
    · rw [Text.split_joinWith hne fun part hpart => (hrooted.names part hpart).slash_not_mem]
      exact walkNames_of_at? hroot hat hkind current depth [] rfl
  have hmade : root.realPathLeniently current (addressText a)
      = (current.join ⟨.root, a⟩).collapse.toText := by
    unfold realPathLeniently
    simp only [hdepth, hstart, PathStart.isRoot, bne_iff_ne, ne_eq, reduceCtorEq, not_false_eq_true,
      if_true, hresolved]
  rw [hmade]
  show (Path.collapse ⟨.root, a⟩).toText = _
  rw [hrooted.collapse_eq]
  rfl

end Addresses

end Node

end TreeSieve

import TreeSieve.Proofs.Files.Lookup

/-!
# Other bytes in a file

Two trees that differ in the bytes of one file have the same names in the same places, so that every
path leads to the same address in both.

* `Node.rewrite` is the tree with other bytes in the file at an address.
* `Node.resolve_rewrite` says what a path leads to in that tree.
* `Node.list_rewrite`, `Node.lstat_rewrite` and their likes say that a call is answered as before,
  unless it asks for what is known of that file, or for its bytes.
-/

namespace TreeSieve

namespace Node

section Rewriting

variable (size : Int) (content : List UInt8)

/-- The tree with other bytes in the file at an address. -/
def rewrite : Node → Address → Node
  | file kind permissions _ _, [] => file kind permissions size content
  | directory permissions size entries, name :: rest =>
    directory permissions size (entries.map fun entry =>
      (entry.1, if entry.1 = name then entry.2.rewrite rest else entry.2))
  | node, _ => node

/-- What becomes of the node at the address `b` if other bytes are in the file at `a`. -/
def rewriteFrom (a b : Address) (node : Node) : Node :=
  if b <+: a then node.rewrite size content (a.drop b.length) else node

/-! ### One node -/

theorem rewrite_link (permissions : Nat) (linkSize : Int) (target : Text) (a : Address) :
    (link permissions linkSize target).rewrite size content a
      = link permissions linkSize target := by
  cases a with
  | nil => rfl
  | cons _ _ => rfl

theorem kind_rewrite (node : Node) (a : Address) :
    (node.rewrite size content a).kind = node.kind := by
  cases node with
  | file _ _ _ _ => cases a with | nil => rfl | cons _ _ => rfl
  | link _ _ _ => rw [rewrite_link]
  | directory _ _ _ => cases a with | nil => rfl | cons _ _ => rfl

/-- The statistics of a directory stay the same with other bytes in a file below it. -/
theorem stats_rewrite_cons (node : Node) (name : Text) (rest : Address) :
    (node.rewrite size content (name :: rest)).stats = node.stats := by
  cases node with
  | file _ _ _ _ => rfl
  | link _ _ _ => rfl
  | directory _ _ _ => rfl

theorem rewrite_file_cons (kind : EntryKind) (permissions : Nat) (fileSize : Int)
    (bytes : List UInt8) (name : Text) (rest : Address) :
    (file kind permissions fileSize bytes).rewrite size content (name :: rest)
      = file kind permissions fileSize bytes := rfl

/-- The names and kinds of the entries of a directory stay the same with other bytes in a file. -/
theorem listed_rewrite (node : Node) (a : Address) :
    ((node.rewrite size content a).entries.map fun entry =>
        (⟨entry.1, entry.2.kind⟩ : ListedEntry))
      = node.entries.map fun entry => ⟨entry.1, entry.2.kind⟩ := by
  cases node with
  | file _ _ _ _ => cases a with | nil => rfl | cons _ _ => rfl
  | link _ _ _ => rw [rewrite_link]
  | directory _ _ entries =>
    cases a with
    | nil => rfl
    | cons name rest =>
      show (entries.map _).map _ = entries.map _
      rw [List.map_map]
      refine List.map_congr_left fun entry _ => ?_
      show (⟨entry.1, (if entry.1 = name then entry.2.rewrite size content rest
        else entry.2).kind⟩ : ListedEntry) = _
      split
      · rw [kind_rewrite]
      · rfl

theorem lookup_map_snd {β γ : Type} (f : Text → β → γ) (entries : List (Text × β)) (name : Text) :
    (entries.map fun entry => (entry.1, f entry.1 entry.2)).lookup name
      = (entries.lookup name).map (f name) := by
  induction entries with
  | nil => rfl
  | cons entry rest ih =>
    rw [List.map_cons, List.lookup_cons, List.lookup_cons, ih]
    by_cases hname : name = entry.1
    · rw [hname]
      simp
    · have hne : (name == entry.1) = false := by simpa using hname
      rw [hne]

theorem entry?_rewrite_nil (node : Node) (name : Text) :
    Node.entry? (node.rewrite size content []) name = node.entry? name := by
  cases node with
  | file _ _ _ _ => rfl
  | link _ _ _ => rfl
  | directory _ _ _ => rfl

theorem entry?_rewrite_cons (node : Node) (first name : Text) (rest : Address) :
    Node.entry? (node.rewrite size content (first :: rest)) name
      = (node.entry? name).map fun child =>
        if name = first then child.rewrite size content rest else child := by
  cases node with
  | file _ _ _ _ => rfl
  | link _ _ _ => rfl
  | directory _ _ entries =>
    exact lookup_map_snd (fun name child =>
      if name = first then child.rewrite size content rest else child) entries name

/-! ### The node at an address -/

theorem rewriteFrom_nil_left (name : Text) (b : Address) :
    rewriteFrom size content [] (name :: b) = id := by
  funext node
  rw [rewriteFrom, if_neg (by simp), id]

theorem rewriteFrom_cons_cons (first name : Text) (a b : Address) :
    rewriteFrom size content (first :: a) (name :: b)
      = if name = first then rewriteFrom size content a b else id := by
  funext node
  rw [rewriteFrom, List.length_cons, List.drop_succ_cons]
  by_cases hname : name = first
  · rw [if_pos hname, rewriteFrom]
    simp only [hname, List.cons_prefix_cons, true_and]
  · rw [if_neg hname, if_neg (fun h => hname (List.cons_prefix_cons.mp h).1), id]

/-- The node at an address of the tree with other bytes in a file is what becomes of the node that
was there. -/
theorem at?_rewrite (tree : Node) (a b : Address) :
    (tree.rewrite size content a).at? b = (tree.at? b).map (rewriteFrom size content a b) := by
  induction b generalizing tree a with
  | nil =>
    rw [at?_nil, at?_nil, Option.map_some, rewriteFrom, if_pos List.nil_prefix]
    rfl
  | cons name b ih =>
    rw [at?_cons, at?_cons, Option.map_bind]
    cases a with
    | nil =>
      rw [entry?_rewrite_nil, rewriteFrom_nil_left]
      refine Option.bind_congr fun child _ => ?_
      rw [Function.comp_apply, Option.map_id_apply]
    | cons first a =>
      rw [entry?_rewrite_cons, rewriteFrom_cons_cons, Option.bind_map]
      refine Option.bind_congr fun child _ => ?_
      rw [Function.comp_apply, Function.comp_apply]
      by_cases hname : name = first
      · rw [if_pos hname, if_pos hname, ih]
      · rw [if_neg hname, if_neg hname, Option.map_id_apply]

theorem exists_rewriteFrom_file (a b : Address) (kind : EntryKind) (permissions : Nat)
    (fileSize : Int) (bytes : List UInt8) : ∃ fileSize' bytes',
      rewriteFrom size content a b (file kind permissions fileSize bytes)
        = file kind permissions fileSize' bytes' := by
  rw [rewriteFrom]
  split
  · cases a.drop b.length with
    | nil => exact ⟨_, _, rfl⟩
    | cons _ _ => exact ⟨_, _, rfl⟩
  · exact ⟨_, _, rfl⟩

theorem exists_rewriteFrom_directory (a b : Address) (permissions : Nat) (directorySize : Int)
    (entries : List (Text × Node)) : ∃ entries',
      rewriteFrom size content a b (directory permissions directorySize entries)
        = directory permissions directorySize entries' := by
  rw [rewriteFrom]
  split
  · cases a.drop b.length with
    | nil => exact ⟨_, rfl⟩
    | cons _ _ => exact ⟨_, rfl⟩
  · exact ⟨_, rfl⟩

variable {size content}

theorem kind_rewriteFrom (a b : Address) (node : Node) :
    (rewriteFrom size content a b node).kind = node.kind := by
  rw [rewriteFrom]
  split
  · exact kind_rewrite size content node _
  · rfl

theorem listed_rewriteFrom (a b : Address) (node : Node) :
    ((rewriteFrom size content a b node).entries.map fun entry =>
        (⟨entry.1, entry.2.kind⟩ : ListedEntry))
      = node.entries.map fun entry => ⟨entry.1, entry.2.kind⟩ := by
  rw [rewriteFrom]
  split
  · exact listed_rewrite size content node _
  · rfl

theorem rewriteFrom_link (a b : Address) (permissions : Nat) (linkSize : Int) (target : Text) :
    rewriteFrom size content a b (link permissions linkSize target)
      = link permissions linkSize target := by
  rw [rewriteFrom, rewrite_link, ite_self]

/-- If an address lies properly above another one then a name and perhaps more follow it there. -/
theorem exists_drop_of_prefix {a b : Address} (hpre : b <+: a) (hne : b ≠ a) :
    ∃ name rest, a.drop b.length = name :: rest := by
  obtain ⟨back, rfl⟩ := hpre
  rw [List.drop_left]
  refine List.exists_cons_of_ne_nil fun hnil => hne ?_
  rw [hnil, List.append_nil]

/-- The statistics of all nodes but the file itself stay the same. -/
theorem stats_rewriteFrom {a b : Address} (hne : b ≠ a) (node : Node) :
    (rewriteFrom size content a b node).stats = node.stats := by
  rw [rewriteFrom]
  split
  · rename_i hpre
    obtain ⟨name, rest, hdrop⟩ := exists_drop_of_prefix hpre hne
    rw [hdrop, stats_rewrite_cons]
  · rfl

/-- All files at other addresses keep their bytes. -/
theorem rewriteFrom_file {a b : Address} (hne : b ≠ a) (kind : EntryKind) (permissions : Nat)
    (fileSize : Int) (bytes : List UInt8) :
    rewriteFrom size content a b (file kind permissions fileSize bytes)
      = file kind permissions fileSize bytes := by
  rw [rewriteFrom]
  split
  · rename_i hpre
    obtain ⟨name, rest, hdrop⟩ := exists_drop_of_prefix hpre hne
    rw [hdrop, rewrite_file_cons]
  · rfl

/-! ### Where paths lead -/

variable {root : Node} {a : Address}

theorem turn_rewrite (rules : PathRules) (here : Address) (name : Text) :
    (root.rewrite size content a).turn rules here name = root.turn rules here name := by
  rw [turn, turn, at?_rewrite]
  cases hat : root.at? here with
  | none => rfl
  | some node =>
    have hroot : (root.rewrite size content a).at? here
        = some (rewriteFrom size content a here node) := by
      rw [at?_rewrite, hat, Option.map_some]
    have hentry : Node.entry? (rewriteFrom size content a here node) name
        = (node.entry? name).map (rewriteFrom size content a (here ++ [name])) := by
      rw [← at?_concat hroot, at?_rewrite, at?_concat hat]
    simp only [Option.map_some, kind_rewriteFrom, hentry]
    cases node.entry? name with
    | none => rfl
    | some child =>
      rw [Option.map_some]
      cases child with
      | link _ _ _ => rw [rewriteFrom_link]
      | file kind permissions fileSize bytes =>
        obtain ⟨_, _, hsame⟩ := exists_rewriteFrom_file size content a (here ++ [name])
          kind permissions fileSize bytes
        rw [hsame]
      | directory permissions directorySize entries =>
        obtain ⟨_, hsame⟩ := exists_rewriteFrom_directory size content a (here ++ [name])
          permissions directorySize entries
        rw [hsame]

/-- An address and the node there, with other bytes in a file. -/
def refind (size : Int) (content : List UInt8) (a : Address) (found : Address × Node) :
    Address × Node := (found.1, rewriteFrom size content a found.1 found.2)

theorem resolveWith_rewrite {rules : PathRules} {followLast : Bool} {follow follow' : LinkFollower}
    (hfollow : ∀ here names,
      follow' here names = (follow here names).map (refind size content a)) (names : List Text) :
    ∀ here, resolveWith (root.rewrite size content a) rules followLast follow' here names
      = (resolveWith root rules followLast follow here names).map (refind size content a) := by
  induction names with
  | nil =>
    intro here
    rw [resolveWith, resolveWith, at?_rewrite]
    cases root.at? here with
    | none => rfl
    | some node => rfl
  | cons name rest ih =>
    intro here
    rw [resolveWith_cons, resolveWith_cons, turn_rewrite]
    cases root.turn rules here name with
    | fails cause => rfl
    | goes next => exact ih next
    | meets start target =>
      simp only
      split
      · exact ih _
      · exact hfollow _ _

theorem resolveWithin_rewrite {rules : PathRules} {followLast : Bool} (links : Nat) :
    ∀ here names, resolveWithin (root.rewrite size content a) rules followLast links here names
      = (resolveWithin root rules followLast links here names).map (refind size content a) := by
  induction links with
  | zero =>
    intro here names
    refine resolveWith_rewrite (fun _ _ => ?_) names here
    rfl
  | succ links ih => exact fun here names => resolveWith_rewrite ih names here

/-- **A path leads to the same address**, whatever bytes are in a file. -/
theorem resolve_rewrite (rules : PathRules) (followLast : Bool) (path : Text) :
    (root.rewrite size content a).resolve rules followLast path
      = (root.resolve rules followLast path).map (refind size content a) := by
  rw [resolve, resolve]
  split
  · rfl
  · rw [resolveWithin_rewrite]
    cases resolveWithin root rules followLast maxLinks [] (rules.names path) with
    | error cause => rfl
    | ok found => rfl

/-! ### Proper trees -/

theorem areProper_of_forall {entries : List (Text × Node)}
    (h : ∀ entry ∈ entries, entry.2.IsProper) : AreProper entries := by
  induction entries with
  | nil => exact trivial
  | cons entry rest ih =>
    rw [AreProper]
    exact ⟨h entry List.mem_cons_self, ih fun other ho => h other (List.mem_cons_of_mem entry ho)⟩

/-- A tree stays proper, whatever bytes are in a file. -/
theorem IsProper.rewrite {tree : Node} (h : tree.IsProper) (a : Address) :
    (tree.rewrite size content a).IsProper := by
  induction a generalizing tree with
  | nil =>
    cases tree with
    | file _ _ _ _ => exact h
    | link _ _ _ => exact h
    | directory _ _ _ => exact h
  | cons name rest ih =>
    cases tree with
    | file _ _ _ _ => exact h
    | link _ _ _ => exact h
    | directory permissions directorySize entries =>
      rw [IsProper] at h
      obtain ⟨hpermissions, hnodup, hnames, hproper⟩ := h
      rw [Node.rewrite, IsProper]
      refine ⟨hpermissions, ?_, ?_, areProper_of_forall ?_⟩
      · rw [List.map_map]
        exact hnodup
      · exact List.forall_mem_map.mpr hnames
      · refine List.forall_mem_map.mpr fun entry hentry => ?_
        show (if entry.1 = name then entry.2.rewrite size content rest else entry.2).IsProper
        split
        · exact ih (hproper.of_mem hentry)
        · exact hproper.of_mem hentry

/-! ### The file system of the tree -/

theorem list_rewrite (path : Text) :
    ((root.rewrite size content a).fileSystem : FileSystem Id).list path
      = (root.fileSystem : FileSystem Id).list path := by
  simp only [fileSystem, fileSystemWith, resolve_rewrite]
  cases root.resolve .plain true path with
  | error e => rfl
  | ok found =>
    show pure (if (rewriteFrom size content a found.1 found.2).kind = .directory then _ else _)
      = pure (if found.2.kind = .directory then _ else _)
    rw [kind_rewriteFrom]
    split
    · refine congrArg (fun entries => pure (Except.ok entries)) ?_
      exact listed_rewriteFrom a found.1 found.2
    · rfl

theorem realPath_rewrite (path : Text) :
    ((root.rewrite size content a).fileSystem : FileSystem Id).realPath path
      = (root.fileSystem : FileSystem Id).realPath path := by
  simp only [fileSystem, fileSystemWith, resolve_rewrite]
  cases root.resolve .plain true path with
  | error e => rfl
  | ok found => rfl

/-- A path that does not lead to the file, if a link at its end is not followed, is looked up with
the same answer. -/
theorem lstat_rewrite {path : Text}
    (h : ∀ node, root.resolve .plain false path ≠ .ok (a, node)) :
    ((root.rewrite size content a).fileSystem : FileSystem Id).lstat path
      = (root.fileSystem : FileSystem Id).lstat path := by
  simp only [fileSystem, fileSystemWith, resolve_rewrite]
  cases hfound : root.resolve .plain false path with
  | error e => rfl
  | ok found =>
    have hne : found.1 ≠ a := fun hsame => h found.2 (by rw [hfound, ← hsame])
    exact congrArg (fun stats => pure (Except.ok stats)) (stats_rewriteFrom hne found.2)

theorem stat_rewrite {path : Text}
    (h : ∀ node, root.resolve .plain true path ≠ .ok (a, node)) :
    ((root.rewrite size content a).fileSystem : FileSystem Id).stat path
      = (root.fileSystem : FileSystem Id).stat path := by
  simp only [fileSystem, fileSystemWith, resolve_rewrite]
  cases hfound : root.resolve .plain true path with
  | error e => rfl
  | ok found =>
    have hne : found.1 ≠ a := fun hsame => h found.2 (by rw [hfound, ← hsame])
    exact congrArg (fun stats => pure (Except.ok stats)) (stats_rewriteFrom hne found.2)

/-- A path that does not lead to the file is read with the same answer. -/
theorem read_rewrite {path : Text}
    (h : ∀ node, root.resolve .plain true path ≠ .ok (a, node)) :
    ((root.rewrite size content a).fileSystem : FileSystem Id).read path
      = (root.fileSystem : FileSystem Id).read path := by
  simp only [fileSystem, fileSystemWith, resolve_rewrite]
  cases hfound : root.resolve .plain true path with
  | error e => rfl
  | ok found =>
    obtain ⟨b, node⟩ := found
    have hne : b ≠ a := fun hsame => h node (by rw [hfound, ← hsame])
    cases node with
    | file kind permissions fileSize bytes =>
      simp only [Except.map, refind, rewriteFrom_file hne]
    | link permissions linkSize target =>
      simp only [Except.map, refind, rewriteFrom_link]
    | directory permissions directorySize entries =>
      obtain ⟨_, hsame⟩ := exists_rewriteFrom_directory size content a b permissions directorySize
        entries
      simp only [Except.map, refind, hsame]
      rfl

end Rewriting

end Node

end TreeSieve

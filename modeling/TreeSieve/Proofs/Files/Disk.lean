import TreeSieve.Proofs.Files.Lookup

/-!
# Paths on a disk

A disk reads the text of a path with more care than a tree in memory does. The text of a rooted path
still stands for the names of the path.

* `PathRules.Reads` holds of such rules; those of a tree in memory and those of a disk are among
  them.
* `Node.resolveWithin_of_resolve` and `Node.resolve_of_resolveWithin` say that such a path is
  followed name by name, unless it is too long.
* `Node.eq_of_resolve_concat` says that an entry of a directory is found where the path of the
  directory leads to, and `Node.exists_resolve_concat` that only a link leads elsewhere.
-/

namespace TreeSieve

/-- Rules that read the text of a rooted path as the names of the path. A root may be followed by a
dot. -/
structure PathRules.Reads (rules : PathRules) : Prop where
  names : ∀ p : Path, p.IsRooted → p.parts ≠ [] → rules.names p.toText = p.parts
  root : ∀ p : Path, p.IsRooted → p.parts = [] →
    rules.names p.toText = [] ∨ rules.names p.toText = [Path.dot]

/-- A file system that answers about a tree of files by the given rules. What it tells of real paths
is its own. -/
structure FileSystem.Serves (fs : FileSystem Id) (files : Node) (rules : PathRules) : Prop where
  list : fs.list = (files.fileSystemWith rules).list
  read : fs.read = (files.fileSystemWith rules).read
  lstat : fs.lstat = (files.fileSystemWith rules).lstat
  stat : fs.stat = (files.fileSystemWith rules).stat

namespace PathRules

theorem partsOf_toText {p : Path} (hp : p.IsRooted) : Path.partsOf p.toText = p.parts :=
  congrArg Path.parts hp.ofText_toText

theorem plain_reads : plain.Reads where
  names _ hp _ := partsOf_toText hp
  root _ hp hnil := .inl ((partsOf_toText hp).trans hnil)

/-- The last piece of the text of a rooted path is its last name. -/
theorem getLast?_split {p : Path} (hp : p.IsRooted) (hne : p.parts ≠ []) :
    (Text.split '/' p.toText).getLast? = p.parts.getLast? := by
  have hslash : ∀ part ∈ p.parts, '/' ∉ part := fun part hpart =>
    (hp.names part hpart).slash_not_mem
  obtain ⟨start, parts⟩ := p
  have hparts : Text.split '/' (Text.joinWith '/' parts) = parts :=
    Text.split_joinWith hne hslash
  have hsplit : ∀ t, Text.split '/' ('/' :: t) = [] :: Text.split '/' t :=
    Text.split_append_sep List.not_mem_nil
  have hlast : ∀ first : Text, (first :: parts).getLast? = parts.getLast? := by
    intro first
    obtain ⟨part, rest, rfl⟩ := List.exists_cons_of_ne_nil hne
    rw [List.getLast?_cons_cons]
  cases start with
  | current => exact absurd hp.absolute Bool.false_ne_true
  | root =>
    show (Text.split '/' ('/' :: Text.joinWith '/' parts)).getLast? = _
    rw [hsplit, hparts, hlast]
  | doubleRoot =>
    show (Text.split '/' ('/' :: '/' :: Text.joinWith '/' parts)).getLast? = _
    rw [hsplit, hsplit, hparts, List.getLast?_cons_cons, hlast]

/-- A rooted path with names does not end in a slash or in a dot. -/
theorem disk_reads : disk.Reads where
  names p hp hne := by
    show Path.partsToFollow p.toText = p.parts
    have hlast := getLast?_split hp hne
    have hname : ∀ part, p.parts.getLast? = some part → Path.IsName part :=
      fun part hpart => (hp.names part (List.mem_of_getLast? hpart)).1
    unfold Path.partsToFollow
    split
    · rename_i hempty
      exact absurd rfl (hname [] (hlast.symm.trans hempty)).1
    · rename_i hdot
      exact absurd rfl (hname ['.'] (hlast.symm.trans hdot)).2.1
    · exact partsOf_toText hp
  root p hp hnil := by
    obtain ⟨start, parts⟩ := p
    obtain rfl : parts = [] := hnil
    cases start with
    | current => exact absurd hp.absolute (by decide)
    | root => exact .inr (by decide)
    | doubleRoot => exact .inr (by decide)

/-- A text is not too long to be asked for if it only begins one that is not. -/
theorem refuses_of_prefix {rules : PathRules} {t u : Text} (h : t <+: u)
    (hu : rules.refuses u = false) : rules.refuses t = false := by
  obtain ⟨more, rfl⟩ := h
  rw [refuses, exceeds] at hu ⊢
  cases hlongest : rules.longestPath with
  | none => rfl
  | some most =>
    rw [hlongest, Option.any_some, decide_eq_false_iff_not, not_lt, Utf8.encode,
      List.flatMap_append, List.length_append] at hu
    rw [Option.any_some, decide_eq_false_iff_not, not_lt, Utf8.encode]
    omega

end PathRules

/-- The text of a rooted path begins the texts of the paths below it. -/
theorem Path.IsRooted.toText_prefix {p : Path} (hp : p.IsRooted) {names : List Text} :
    p.toText <+: (p.descend names).toText := by
  have htext : ∀ q : Path, q.start = p.start →
      q.toText = p.start.slashes ++ Text.joinWith '/' q.parts := by
    rintro q hq
    rw [toText, if_neg (by simp [hq, hp.start_ne]), hq]
  rw [htext p rfl, htext (p.descend names) rfl, List.prefix_append_right_inj]
  rcases eq_or_ne p.parts [] with hnil | hne
  · rw [hnil]
    exact List.nil_prefix
  · have htrail : trail p.parts <+: trail (p.parts ++ names) := by
      rw [trail_append]
      exact List.prefix_append _ _
    rw [← slash_joinWith hne, ← slash_joinWith (List.append_ne_nil_of_left_ne_nil hne names),
      List.cons_prefix_cons] at htrail
    exact htrail.2

namespace Node

theorem fileSystem_serves (files : Node) : files.fileSystem.Serves files .plain :=
  ⟨rfl, rfl, rfl, rfl⟩

theorem diskFileSystem_serves (files : Node) : files.diskFileSystem.Serves files .disk :=
  ⟨rfl, rfl, rfl, rfl⟩

variable {root : Node} {rules : PathRules}

/-- Whatever number of links may be followed, a path is resolved by `resolveWith` with some way of
following a link. -/
theorem exists_resolveWithin_eq (root : Node) (rules : PathRules) (followLast : Bool)
    (links : Nat) : ∃ follow,
      resolveWithin root rules followLast links = resolveWith root rules followLast follow := by
  cases links with
  | zero => exact ⟨_, rfl⟩
  | succ links => exact ⟨_, rfl⟩

/-- A dot at the end of a path stands for the directory that has been reached. -/
theorem resolveWithin_dot {followLast : Bool} {links : Nat} {here : Address}
    {found : Address × Node}
    (h : resolveWithin root rules followLast links here [Path.dot] = .ok found) :
    resolveWithin root rules followLast links here [] = .ok found := by
  obtain ⟨follow, hfollow⟩ := exists_resolveWithin_eq root rules followLast links
  rw [hfollow] at h ⊢
  rw [resolveWith] at h
  split at h
  · cases h
  · split at h
    · cases h
    · rwa [if_pos rfl] at h

/-- The last name of a path leads to the entry of the directory that the names before it lead to,
unless this entry is a link. -/
theorem resolveWith_concat_followed {follow follow' : LinkFollower} {name : Text}
    (hname : Path.IsEntryName name)
    (hfollow : ∀ here names address node, follow here (names ++ [name]) = .ok (address, node) →
      ∃ a directory, follow' here names = .ok (a, directory) ∧ (address = a ++ [name] ∨
        ∃ entry, root.at? (a ++ [name]) = some entry ∧ entry.kind = .symlink))
    (names : List Text) :
    ∀ (here address : Address) (node : Node),
      resolveWith root rules true follow here (names ++ [name]) = .ok (address, node) →
        ∃ a directory, resolveWith root rules true follow' here names = .ok (a, directory) ∧
          (address = a ++ [name] ∨
            ∃ entry, root.at? (a ++ [name]) = some entry ∧ entry.kind = .symlink) := by
  induction names with
  | nil =>
    intro here address node h
    rw [List.nil_append, resolveWith_cons] at h
    have hplace : ∀ entry, root.at? (here ++ [name]) = some entry →
        ∃ directory, resolveWith root rules true follow' here [] = .ok (here, directory) := by
      intro entry hentry
      obtain ⟨directory, hdirectory, -⟩ := exists_entry?_of_at? hentry
      exact ⟨directory, by rw [resolveWith, hdirectory]⟩
    cases hturn : root.turn rules here name with
    | fails cause => rw [hturn] at h; cases h
    | goes next =>
      rw [hturn] at h
      obtain rfl := eq_of_turn_goes hname hturn
      obtain ⟨haddress, hat⟩ := resolveWith_nil_ok h
      obtain ⟨directory, hdirectory⟩ := hplace node hat
      exact ⟨here, directory, hdirectory, .inl haddress⟩
    | meets start target =>
      obtain ⟨permissions, size, text, hlink⟩ := exists_link_of_turn_meets hturn
      obtain ⟨directory, hdirectory⟩ := hplace _ hlink
      exact ⟨here, directory, hdirectory, .inr ⟨_, hlink, rfl⟩⟩
  | cons first rest ih =>
    intro here address node h
    rw [List.cons_append, resolveWith_cons] at h
    rw [resolveWith_cons]
    cases hturn : root.turn rules here first with
    | fails cause => rw [hturn] at h; cases h
    | goes next =>
      rw [hturn] at h
      exact ih next address node h
    | meets start target =>
      have hmore : ∀ names : List Text, (names.isEmpty && !true) = false := by simp
      simp only [hturn, hmore, ← List.append_assoc] at h ⊢
      exact hfollow start (target ++ rest) address node h

theorem resolveWithin_concat_followed {name : Text} (hname : Path.IsEntryName name) (links : Nat) :
    ∀ (here : Address) (names : List Text) (address : Address) (node : Node),
      resolveWithin root rules true links here (names ++ [name]) = .ok (address, node) →
        ∃ a directory, resolveWithin root rules true links here names = .ok (a, directory) ∧
          (address = a ++ [name] ∨
            ∃ entry, root.at? (a ++ [name]) = some entry ∧ entry.kind = .symlink) := by
  induction links with
  | zero =>
    intro here names address node h
    refine resolveWith_concat_followed hname (fun _ _ _ _ hnone => ?_) names here address node h
    cases hnone
  | succ links ih =>
    intro here names address node h
    exact resolveWith_concat_followed hname ih names here address node h

/-- If a name can be followed from the root of a tree then the root is a directory. -/
theorem kind_of_resolveWithin {followLast : Bool} {links : Nat} {name : Text} {rest : List Text}
    {found : Address × Node}
    (h : resolveWithin root rules followLast links [] (name :: rest) = .ok found) :
    root.kind = .directory := by
  obtain ⟨follow, hfollow⟩ := exists_resolveWithin_eq root rules followLast links
  rw [hfollow, resolveWith, at?_nil] at h
  simp only at h
  split at h
  · cases h
  · rename_i hkind
    simpa using hkind

variable (hrules : rules.Reads)

include hrules

/-- What a rooted path leads to is found by following its names. -/
theorem resolveWithin_of_resolve {followLast : Bool} {p : Path} (hp : p.IsRooted)
    {found : Address × Node} (h : root.resolve rules followLast p.toText = .ok found) :
    resolveWithin root rules followLast maxLinks [] p.parts = .ok found := by
  have hwithin : resolveWithin root rules followLast maxLinks [] (rules.names p.toText)
      = .ok found := by
    rw [resolve] at h
    split at h
    · cases h
    · split at h
      · rename_i hok
        rw [hok, Except.ok.inj h]
      · cases h
  rcases eq_or_ne p.parts [] with hnil | hne
  · rcases hrules.root p hp hnil with hnames | hnames
    · rw [hnames] at hwithin
      rw [hnil]
      exact hwithin
    · rw [hnames] at hwithin
      rw [hnil]
      exact resolveWithin_dot hwithin
  · rwa [hrules.names p hp hne] at hwithin

/-- What is found by following the names of a rooted path is what the path leads to. -/
theorem resolve_of_resolveWithin {followLast : Bool} {p : Path} (hp : p.IsRooted)
    (hroot : root.kind = .directory) (hlength : rules.refuses p.toText = false)
    {found : Address × Node}
    (h : resolveWithin root rules followLast maxLinks [] p.parts = .ok found) :
    root.resolve rules followLast p.toText = .ok found := by
  have hwithin : resolveWithin root rules followLast maxLinks [] (rules.names p.toText)
      = .ok found := by
    rcases eq_or_ne p.parts [] with hnil | hne
    · rw [hnil] at h
      rcases hrules.root p hp hnil with hnames | hnames
      · rwa [hnames]
      · have hturn : root.turn rules [] Path.dot = .goes [] := by
          rw [turn, at?_nil]
          simp [hroot]
        obtain ⟨follow, hfollow⟩ := exists_resolveWithin_eq root rules followLast maxLinks
        rw [hfollow] at h ⊢
        rw [hnames, resolveWith_cons, hturn]
        exact h
    · rwa [hrules.names p hp hne]
  rw [resolve, if_neg (by rw [hlength]; exact Bool.false_ne_true), hwithin]

/-- A path leads to an entry of the directory that the path before its last name leads to, unless
this entry is a link. -/
theorem exists_resolve_concat {p : Path} (hp : p.IsRooted) {name : Text}
    (hname : Path.IsEntryName name) {address : Address} {node : Node}
    (h : root.resolve rules true (p.descend [name]).toText = .ok (address, node)) :
    ∃ a directory, root.resolve rules true p.toText = .ok (a, directory) ∧
      (address = a ++ [name] ∨
        ∃ entry, root.at? (a ++ [name]) = some entry ∧ entry.kind = .symlink) := by
  have hall : ∀ part ∈ [name], Path.IsEntryName part := by simpa using hname
  have hfound := resolveWithin_of_resolve hrules (hp.descend hall) h
  have hlength : rules.refuses p.toText = false := by
    refine PathRules.refuses_of_prefix hp.toText_prefix (u := (p.descend [name]).toText) ?_
    rw [resolve] at h
    split at h
    · cases h
    · rename_i hlength
      simpa using hlength
  have hroot : root.kind = .directory := by
    obtain ⟨first, rest, hparts⟩ := List.exists_cons_of_ne_nil
      (List.append_ne_nil_of_right_ne_nil p.parts (List.cons_ne_nil name []))
    rw [Path.descend, hparts] at hfound
    exact kind_of_resolveWithin hfound
  obtain ⟨a, directory, hplace, hentry⟩ := resolveWithin_concat_followed hname _ _ _ _ _ hfound
  exact ⟨a, directory, resolve_of_resolveWithin hrules hp hroot hlength hplace, hentry⟩

/-- An entry of a directory is found where the path of the directory leads to. -/
theorem eq_of_resolve_concat {p : Path} (hp : p.IsRooted) {name : Text}
    (hname : Path.IsEntryName name) {a address : Address} {directory node : Node}
    (hplace : root.resolve rules true p.toText = .ok (a, directory))
    (h : root.resolve rules false (p.descend [name]).toText = .ok (address, node)) :
    address = a ++ [name] := by
  have hall : ∀ part ∈ [name], Path.IsEntryName part := by simpa using hname
  have hfound := resolveWithin_of_resolve hrules (hp.descend hall) h
  obtain ⟨b, other, hother, -, heq⟩ := resolveWithin_concat hname _ _ _ _ _ hfound
  have hsame := hother.symm.trans (resolveWithin_of_resolve hrules hp hplace)
  rw [heq, (Prod.mk.inj (Except.ok.inj hsame)).1]

end Node

namespace FileSystem.Serves

variable {fs : FileSystem Id} {files : Node} {rules : PathRules} (h : fs.Serves files rules)
  {path : Text}

include h

theorem of_lstat {stats : FileStats} (hlstat : (fs.lstat path).run = .ok stats) :
    ∃ a node, files.resolve rules false path = .ok (a, node) ∧ node.stats = stats := by
  simp only [h.lstat, Node.fileSystemWith, Id.run_pure] at hlstat
  cases hfound : files.resolve rules false path with
  | error e =>
    rw [hfound] at hlstat
    cases hlstat
  | ok found =>
    rw [hfound] at hlstat
    exact ⟨found.1, found.2, rfl, Except.ok.inj hlstat⟩

/-- What is read of a path is the content of the file that it leads to. -/
theorem of_read {bytes : List UInt8} {a : Address} {node : Node}
    (hfound : files.resolve rules true path = .ok (a, node))
    (hread : (fs.read path).run = .ok bytes) :
    ∃ kind permissions size, node = .file kind permissions size bytes := by
  simp only [h.read, Node.fileSystemWith, Id.run_pure, hfound] at hread
  cases node with
  | file kind permissions size content =>
    obtain rfl : content = bytes := Except.ok.inj hread
    exact ⟨kind, permissions, size, rfl⟩
  | link _ _ _ => cases hread
  | directory _ _ _ => cases hread

theorem of_stat {stats : FileStats} (hstat : (fs.stat path).run = .ok stats) :
    ∃ a node, files.resolve rules true path = .ok (a, node) ∧ node.stats = stats := by
  simp only [h.stat, Node.fileSystemWith, Id.run_pure] at hstat
  cases hfound : files.resolve rules true path with
  | error e =>
    rw [hfound] at hstat
    cases hstat
  | ok found =>
    rw [hfound] at hstat
    exact ⟨found.1, found.2, rfl, Except.ok.inj hstat⟩

/-- What a directory of a proper tree is listed with are distinct names, each of one component. -/
theorem isListing (hfiles : files.IsProper) {entries : List ListedEntry}
    (hlist : (fs.list path).run = .ok entries) : IsListing entries := by
  rw [h.list] at hlist
  exact hfiles.isListing_of_list hlist

end FileSystem.Serves

end TreeSieve

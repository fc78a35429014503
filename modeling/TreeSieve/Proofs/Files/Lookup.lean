import TreeSieve.Proofs.Files.Shown

/-!
# Paths that lead through links

A path is looked up one name after the other, and a link on the way is followed from where it
stands.

* `FileSystem.LooksUp` holds of a file system that does so in a tree of files; calls may fail on it.
* `Node.resolveWithin_concat` says that the last name of a path is looked up in the directory that
  the names before it lead to, and `Node.resolveWithin_of_unfollowed` that whether the last name is
  followed matters for links only.
* `Node.IsProper.looksUp` says that the file system of a tree looks paths up in it.
-/

namespace TreeSieve

/-- A file system that looks paths up in a tree of files. `place` is the address of the directory
that a path leads to, through whatever links: its entries are listed, its real path is its address,
and an entry of it that is a directory itself is the one of that name in the tree. -/
structure FileSystem.LooksUp (fs : FileSystem Id) (files : Node)
    (place : Text → Option Address) : Prop where
  directory : ∀ path a, place path = some a →
    ∃ node, files.at? a = some node ∧ node.kind = .directory
  realPath : ∀ path a, place path = some a → (fs.realPath path).run = .ok (Node.addressText a)
  list : ∀ path entries, (fs.list path).run = .ok entries →
    ∃ a node, place path = some a ∧ files.at? a = some node ∧
      (entries.map (·.name)).Perm (node.entries.map (·.1))
  lstat : ∀ path stats, (fs.lstat path).run = .ok stats → stats.isDirectory = true →
    ∃ a, place path = some a
  stat : ∀ path stats, (fs.stat path).run = .ok stats → stats.isDirectory = true →
    ∃ a, place path = some a
  entry : ∀ (p : Path) (name : Text) a stats, p.IsRooted → Path.IsEntryName name →
    place p.toText = some a → (fs.lstat (p.descend [name]).toText).run = .ok stats →
      stats.isDirectory = true → place (p.descend [name]).toText = some (a ++ [name])

/-- The directories of a proper tree are listed with distinct names. -/
theorem FileSystem.LooksUp.isListing {fs : FileSystem Id} {files : Node}
    {place : Text → Option Address} (h : fs.LooksUp files place) (hfiles : files.IsProper) :
    ∀ path entries, (fs.list path).run = .ok entries → IsListing entries := by
  intro path entries hlist
  obtain ⟨a, node, -, hat, hperm⟩ := h.list path entries hlist
  have hnode := (hfiles.at? hat).2.isListing
  have hnames : (node.entries.map fun entry => (⟨entry.1, entry.2.kind⟩ : ListedEntry)).map (·.name)
      = node.entries.map (·.1) := by
    rw [List.map_map]
    rfl
  refine ⟨hperm.nodup_iff.mpr (hnames ▸ hnode.nodup), fun entry hentry => ?_⟩
  obtain ⟨found, hfound, hsame⟩ := List.mem_map.mp (hperm.subset (List.mem_map_of_mem hentry))
  rw [← hsame]
  exact hnode.names ⟨found.1, found.2.kind⟩
    (List.mem_map_of_mem (f := fun entry : Text × Node =>
      (⟨entry.1, entry.2.kind⟩ : ListedEntry)) hfound)

namespace Node

/-! ### One name after the other -/

/-- What the next name of a path comes to: a failure, a place to go on from, or a link with the
directory that its target is read in. -/
inductive Turn where
  | fails (cause : Errno)
  | goes (next : Address)
  | meets (start : Address) (target : List Text)

/-- What a name comes to in the directory `here`. -/
def turn (root : Node) (rules : PathRules) (here : Address) (name : Text) : Turn :=
  match root.at? here with
  | none => .fails .noSuchEntry
  | some node =>
    if node.kind != .directory then .fails .notADirectory
    else if name = Path.dot then .goes here
    else if name = Path.dotDot then .goes here.dropLast
    else
      match node.entry? name with
      | none => .fails (rules.whyMissing name)
      | some (link _ _ target) =>
        .meets (if (Path.startOf target).isRoot then [] else here) (rules.names target)
      | some _ => .goes (here ++ [name])

section Resolving

variable {root : Node} {rules : PathRules}

theorem resolveWith_cons (followLast : Bool) (follow : LinkFollower) (here : Address) (name : Text)
    (rest : List Text) : resolveWith root rules followLast follow here (name :: rest) =
      match root.turn rules here name with
      | .fails cause => .error cause
      | .goes next => resolveWith root rules followLast follow next rest
      | .meets start target =>
        if rest.isEmpty && !followLast then
          resolveWith root rules followLast follow (here ++ [name]) rest
        else follow start (target ++ rest) := by
  rw [resolveWith, turn]
  cases root.at? here with
  | none => rfl
  | some node =>
    simp only
    split
    · rfl
    · split
      · rfl
      · split
        · rfl
        · cases node.entry? name with
          | none => rfl
          | some child => cases child <;> rfl

/-- The name of an entry leads to the address of the entry. -/
theorem eq_of_turn_goes {here next : Address} {name : Text} (hname : Path.IsEntryName name)
    (h : root.turn rules here name = .goes next) : next = here ++ [name] := by
  rw [turn] at h
  cases hat : root.at? here with
  | none => rw [hat] at h; cases h
  | some directory =>
    simp only [hat, if_neg hname.1.2.1, if_neg hname.2] at h
    split at h
    · cases h
    · split at h
      · cases h
      · cases h
      · exact (Turn.goes.inj h).symm

/-- A link that is met is the node of that name. -/
theorem exists_link_of_turn_meets {here start : Address} {name : Text} {target : List Text}
    (h : root.turn rules here name = .meets start target) :
    ∃ permissions size text, root.at? (here ++ [name]) = some (link permissions size text) := by
  rw [turn] at h
  cases hat : root.at? here with
  | none => rw [hat] at h; cases h
  | some directory =>
    simp only [hat] at h
    split at h
    · cases h
    · split at h
      · cases h
      · split at h
        · cases h
        · split at h
          · cases h
          · rename_i permissions size text hentry
            exact ⟨permissions, size, text, (at?_concat hat name).trans hentry⟩
          · cases h

/-- A node below a directory is an entry of the directory. -/
theorem exists_entry?_of_at? {here : Address} {name : Text} {node : Node}
    (h : root.at? (here ++ [name]) = some node) :
    ∃ directory, root.at? here = some directory ∧ directory.entry? name = some node := by
  obtain ⟨directory, hdirectory, -⟩ := Option.bind_eq_some_iff.mp ((at?_append _ _ _).symm.trans h)
  exact ⟨directory, hdirectory, (at?_concat hdirectory name).symm.trans h⟩

theorem resolveWith_nil_ok {followLast : Bool} {follow : LinkFollower} {here address : Address}
    {node : Node} (h : resolveWith root rules followLast follow here [] = .ok (address, node)) :
    address = here ∧ root.at? here = some node := by
  rw [resolveWith] at h
  cases hat : root.at? here with
  | none => rw [hat] at h; cases h
  | some found =>
    rw [hat] at h
    obtain ⟨rfl, rfl⟩ := Prod.mk.inj (Except.ok.inj h)
    exact ⟨rfl, rfl⟩

/-- The last name of a path is looked up in the directory that the names before it lead to. -/
theorem resolveWith_concat {follow follow' : LinkFollower} {name : Text}
    (hname : Path.IsEntryName name)
    (hfollow : ∀ here names address node, follow here (names ++ [name]) = .ok (address, node) →
      ∃ a directory, follow' here names = .ok (a, directory) ∧ directory.entry? name = some node ∧
        address = a ++ [name]) (names : List Text) :
    ∀ (here address : Address) (node : Node),
      resolveWith root rules false follow here (names ++ [name]) = .ok (address, node) →
        ∃ a directory, resolveWith root rules true follow' here names = .ok (a, directory) ∧
          directory.entry? name = some node ∧ address = a ++ [name] := by
  induction names with
  | nil =>
    intro here address node h
    rw [List.nil_append, resolveWith_cons] at h
    have hlast : resolveWith root rules false follow (here ++ [name]) [] = .ok (address, node) := by
      cases hturn : root.turn rules here name with
      | fails cause => rw [hturn] at h; cases h
      | goes next =>
        rw [hturn] at h
        exact eq_of_turn_goes hname hturn ▸ h
      | meets start target =>
        rw [hturn] at h
        exact h
    obtain ⟨rfl, hat⟩ := resolveWith_nil_ok hlast
    obtain ⟨directory, hdirectory, hentry⟩ := exists_entry?_of_at? hat
    refine ⟨here, directory, ?_, hentry, rfl⟩
    rw [resolveWith, hdirectory]
  | cons first rest ih =>
    intro here address node h
    rw [List.cons_append, resolveWith_cons] at h
    rw [resolveWith_cons]
    cases hturn : root.turn rules here first with
    | fails cause => rw [hturn] at h; cases h
    | goes next =>
      rw [hturn] at h
      exact ih next address node h
    | meets start target =>
      -- the link is not the last name, so that it is followed in both cases
      have hmore : ((rest ++ [name]).isEmpty && !false) = false := by simp
      have hstop : (rest.isEmpty && !true) = false := by simp
      simp only [hturn, hmore, hstop, ← List.append_assoc] at h ⊢
      exact hfollow start (target ++ rest) address node h

theorem resolveWithin_concat {name : Text} (hname : Path.IsEntryName name) (links : Nat) :
    ∀ (here : Address) (names : List Text) (address : Address) (node : Node),
      resolveWithin root rules false links here (names ++ [name]) = .ok (address, node) →
        ∃ a directory, resolveWithin root rules true links here names = .ok (a, directory) ∧
          directory.entry? name = some node ∧ address = a ++ [name] := by
  induction links with
  | zero =>
    intro here names address node h
    refine resolveWith_concat hname (fun _ _ _ _ hnone => ?_) names here address node h
    cases hnone
  | succ links ih =>
    intro here names address node h
    exact resolveWith_concat hname ih names here address node h

/-- What is found without following the last name is found with it followed, unless it is a link. -/
theorem resolveWith_of_unfollowed {follow follow' : LinkFollower}
    (hfollow : ∀ here names address node, follow here names = .ok (address, node) →
      node.kind ≠ .symlink → follow' here names = .ok (address, node)) (names : List Text) :
    ∀ (here address : Address) (node : Node),
      resolveWith root rules false follow here names = .ok (address, node) →
        node.kind ≠ .symlink →
        resolveWith root rules true follow' here names = .ok (address, node) := by
  induction names with
  | nil =>
    intro here address node h _
    rw [resolveWith] at h ⊢
    exact h
  | cons first rest ih =>
    intro here address node h hnode
    rw [resolveWith_cons] at h ⊢
    cases hturn : root.turn rules here first with
    | fails cause => rw [hturn] at h; cases h
    | goes next =>
      rw [hturn] at h
      exact ih next address node h hnode
    | meets start target =>
      have hstop : (rest.isEmpty && !true) = false := by simp
      simp only [hturn, hstop] at h ⊢
      split at h
      · rename_i hempty
        exfalso
        -- the last name is a link, and what is found is that link
        have hlast : rest = [] := by simpa using hempty
        rw [hlast] at h
        obtain ⟨permissions, size, text, hlink⟩ := exists_link_of_turn_meets hturn
        obtain ⟨-, hat⟩ := resolveWith_nil_ok h
        rw [hlink] at hat
        apply hnode
        rw [← Option.some.inj hat]
        rfl
      · exact hfollow start (target ++ rest) address node h hnode

theorem resolveWithin_of_unfollowed (links : Nat) :
    ∀ (here : Address) (names : List Text) (address : Address) (node : Node),
      resolveWithin root rules false links here names = .ok (address, node) →
        node.kind ≠ .symlink →
        resolveWithin root rules true links here names = .ok (address, node) := by
  induction links with
  | zero =>
    intro here names address node h hnode
    refine resolveWith_of_unfollowed (fun _ _ _ _ hnone => ?_) names here address node h hnode
    cases hnone
  | succ links ih =>
    intro here names address node h hnode
    exact resolveWith_of_unfollowed ih names here address node h hnode

end Resolving

/-! ### Texts of addresses -/

section Texts

variable {a b : Address} (ha : ∀ part ∈ a, Path.IsEntryName part)

include ha

/-- The text of an address is the text of the path that leads there from the root. -/
theorem canonical_addressText : canonical (addressText a) = addressText a :=
  Path.canonical_toText_root (p := ⟨.root, a⟩) ⟨rfl, ha⟩ rfl

theorem inScope_addressText (hb : ∀ part ∈ b, Path.IsEntryName part) :
    inScope (addressText a) (addressText b) = true ↔ b <+: a := by
  have h := Path.inScope_canonical (p := ⟨.root, a⟩) (q := ⟨.root, b⟩) ⟨rfl, ha⟩ ⟨rfl, hb⟩ rfl
  rwa [Path.canonical_toText_root ⟨rfl, ha⟩ rfl, Path.canonical_toText_root ⟨rfl, hb⟩ rfl] at h

theorem addressText_inj (hb : ∀ part ∈ b, Path.IsEntryName part)
    (h : addressText a = addressText b) : a = b := by
  have hba : b <+: a := (inScope_addressText ha hb).mp
    (h ▸ (inScope_addressText ha ha).mpr (List.prefix_refl a))
  have hab : a <+: b := (inScope_addressText hb ha).mp
    (h ▸ (inScope_addressText ha ha).mpr (List.prefix_refl a))
  exact hab.eq_of_length_le hba.length_le

/-- The text of the address of an entry is that of its directory with the name behind it. -/
theorem addressText_concat (name : Text) :
    Text.dropEndWhile (· == '/') (addressText a) ++ '/' :: name = addressText (a ++ [name]) := by
  have htrail : Path.trail (a ++ [name]) = Path.trail a ++ '/' :: name := by
    rw [Path.trail_append, Path.trail_cons, Path.trail_nil, List.append_nil]
  have hstem : Text.dropEndWhile (· == '/') (addressText a) = Path.trail a := by
    rcases eq_or_ne a [] with rfl | hne
    · decide
    · rw [addressText, Path.slash_joinWith hne, Path.dropEndWhile_slash (Path.getLast?_trail ha)]
  rw [hstem, addressText, Path.slash_joinWith (by simp), htrail]

end Texts

/-! ### The file system of a tree -/

theorem resolve_plain_ok_iff {root : Node} {followLast : Bool} {path : Text} {address : Address}
    {node : Node} : root.resolve .plain followLast path = .ok (address, node) ↔
      resolveWithin root .plain followLast maxLinks [] (Path.partsOf path)
        = .ok (address, node) := by
  rw [resolve, if_neg (by simp [PathRules.refuses, PathRules.exceeds, PathRules.plain])]
  rw [show PathRules.plain.names path = Path.partsOf path from rfl]
  cases resolveWithin root .plain followLast maxLinks [] (Path.partsOf path) with
  | error cause => simp only [reduceCtorEq]
  | ok found =>
    simp only
    exact ⟨fun h => congrArg _ (Except.ok.inj h), fun h => congrArg _ (Except.ok.inj h)⟩

/-- The entry of a directory is looked up where the path before its name leads to. -/
theorem resolve_descend {root : Node} {p : Path} (hp : p.IsRooted) {name : Text}
    (hname : Path.IsEntryName name) {address : Address} {node : Node}
    (h : root.resolve .plain false (p.descend [name]).toText = .ok (address, node)) :
    ∃ a directory, root.resolve .plain true p.toText = .ok (a, directory) ∧
      directory.entry? name = some node ∧ address = a ++ [name] := by
  have hparts : Path.partsOf p.toText = p.parts := congrArg Path.parts hp.ofText_toText
  have hall : ∀ part ∈ [name], Path.IsEntryName part := by simpa using hname
  have hbelow : Path.partsOf (p.descend [name]).toText = p.parts ++ [name] :=
    congrArg Path.parts (hp.descend hall).ofText_toText
  rw [resolve_plain_ok_iff, hbelow] at h
  obtain ⟨a, directory, hfound, hrest⟩ := resolveWithin_concat hname _ _ _ _ _ h
  exact ⟨a, directory, resolve_plain_ok_iff.mpr (hparts ▸ hfound), hrest⟩

/-- What is found at a path without following it is found with it followed, unless it is a link. -/
theorem resolve_of_unfollowed {root : Node} {rules : PathRules} {path : Text} {address : Address}
    {node : Node} (h : root.resolve rules false path = .ok (address, node))
    (hnode : node.kind ≠ .symlink) : root.resolve rules true path = .ok (address, node) := by
  rw [resolve] at h ⊢
  split at h
  · cases h
  · rename_i hlength
    rw [if_neg hlength]
    cases hwithin : resolveWithin root rules false maxLinks [] (rules.names path) with
    | error cause =>
      rw [hwithin] at h
      cases h
    | ok found =>
      rw [hwithin] at h
      obtain rfl := Except.ok.inj h
      rw [resolveWithin_of_unfollowed _ _ _ _ _ hwithin hnode]

/-- The address of the directory that a path leads to, if it leads to one. -/
def place (root : Node) (path : Text) : Option Address :=
  match root.resolve .plain true path with
  | .ok (address, node) => if node.kind = .directory then some address else none
  | .error _ => none

theorem place_eq_some_iff {root : Node} {path : Text} {a : Address} :
    root.place path = some a ↔
      ∃ node, root.resolve .plain true path = .ok (a, node) ∧ node.kind = .directory := by
  rw [place]
  cases root.resolve .plain true path with
  | error e => exact ⟨nofun, fun ⟨_, h, _⟩ => nomatch h⟩
  | ok found =>
    obtain ⟨address, node⟩ := found
    simp only
    split
    · rename_i hkind
      refine ⟨fun h => ⟨node, ?_, hkind⟩, ?_⟩
      · rw [Option.some.inj h]
      · rintro ⟨other, h, -⟩
        exact congrArg some (Prod.mk.inj (Except.ok.inj h)).1
    · rename_i hkind
      refine ⟨nofun, ?_⟩
      rintro ⟨other, h, hother⟩
      obtain ⟨-, rfl⟩ := Prod.mk.inj (Except.ok.inj h)
      exact absurd hother hkind

section Calls

variable {root : Node} {path : Text}

theorem lstat_ok_iff {stats : FileStats} :
    ((root.fileSystem : FileSystem Id).lstat path).run = .ok stats ↔
      ∃ a node, root.resolve .plain false path = .ok (a, node) ∧ node.stats = stats := by
  simp only [fileSystem, fileSystemWith, Id.run_pure]
  cases root.resolve .plain false path with
  | error e =>
    refine iff_of_false (fun h => ?_) ?_
    · cases h
    · rintro ⟨_, _, h, _⟩
      cases h
  | ok found =>
    refine ⟨fun h => ⟨found.1, found.2, rfl, Except.ok.inj h⟩, ?_⟩
    rintro ⟨a, node, h, rfl⟩
    rw [Except.ok.inj h]
    rfl

theorem stat_ok_iff {stats : FileStats} :
    ((root.fileSystem : FileSystem Id).stat path).run = .ok stats ↔
      ∃ a node, root.resolve .plain true path = .ok (a, node) ∧ node.stats = stats := by
  simp only [fileSystem, fileSystemWith, Id.run_pure]
  cases root.resolve .plain true path with
  | error e =>
    refine iff_of_false (fun h => ?_) ?_
    · cases h
    · rintro ⟨_, _, h, _⟩
      cases h
  | ok found =>
    refine ⟨fun h => ⟨found.1, found.2, rfl, Except.ok.inj h⟩, ?_⟩
    rintro ⟨a, node, h, rfl⟩
    rw [Except.ok.inj h]
    rfl

theorem list_ok_iff {entries : List ListedEntry} :
    ((root.fileSystem : FileSystem Id).list path).run = .ok entries ↔
      ∃ a node, root.resolve .plain true path = .ok (a, node) ∧ node.kind = .directory ∧
        (node.entries.map fun entry => ⟨entry.1, entry.2.kind⟩) = entries := by
  simp only [fileSystem, fileSystemWith, Id.run_pure]
  cases root.resolve .plain true path with
  | error e =>
    refine iff_of_false (fun h => ?_) ?_
    · cases h
    · rintro ⟨_, _, h, _⟩
      cases h
  | ok found =>
    obtain ⟨address, node⟩ := found
    show (if node.kind = .directory then
        (pure (node.entries.map fun entry => ⟨entry.1, entry.2.kind⟩) :
          Except FileError (List ListedEntry))
      else throw ⟨.notADirectory, path⟩) = .ok entries ↔ _
    by_cases hkind : node.kind = .directory
    · rw [if_pos hkind]
      refine ⟨fun h => ⟨address, node, rfl, hkind, Except.ok.inj h⟩, ?_⟩
      rintro ⟨a, other, h, -, rfl⟩
      obtain ⟨-, rfl⟩ := Prod.mk.inj (Except.ok.inj h)
      rfl
    · rw [if_neg hkind]
      refine iff_of_false (fun h => ?_) ?_
      · cases h
      rintro ⟨a, other, h, hother, -⟩
      obtain ⟨-, rfl⟩ := Prod.mk.inj (Except.ok.inj h)
      exact absurd hother hkind

end Calls

theorem IsProper.isDirectory_stats {node : Node} (h : node.IsProper) :
    node.stats.isDirectory = true ↔ node.kind = .directory := by
  rw [FileStats.isDirectory, h.kind_stats, beq_iff_eq]

/-- **The file system of a proper tree looks paths up in it.** -/
theorem IsProper.looksUp {files : Node} (h : files.IsProper) :
    (files.fileSystem : FileSystem Id).LooksUp files files.place := by
  have hproper : ∀ {followLast path a node}, files.resolve .plain followLast path = .ok (a, node) →
      files.at? a = some node ∧ node.IsProper := by
    intro followLast path a node hfound
    have hat := at?_of_resolve hfound
    exact ⟨hat, (h.at? hat).2⟩
  refine ⟨?_, ?_, ?_, ?_, ?_, ?_⟩
  · intro path a hplace
    obtain ⟨node, hfound, hkind⟩ := place_eq_some_iff.mp hplace
    exact ⟨node, (hproper hfound).1, hkind⟩
  · intro path a hplace
    obtain ⟨node, hfound, -⟩ := place_eq_some_iff.mp hplace
    simp only [fileSystem, fileSystemWith, Id.run_pure, hfound]
    rfl
  · intro path entries hlist
    obtain ⟨a, node, hfound, hkind, rfl⟩ := list_ok_iff.mp hlist
    refine ⟨a, node, place_eq_some_iff.mpr ⟨node, hfound, hkind⟩, (hproper hfound).1, ?_⟩
    rw [List.map_map]
    exact List.Perm.refl _
  · intro path stats hlstat hdirectory
    obtain ⟨a, node, hfound, rfl⟩ := lstat_ok_iff.mp hlstat
    have hkind := (hproper hfound).2.isDirectory_stats.mp hdirectory
    have hnot : node.kind ≠ .symlink := by
      rw [hkind]
      decide
    exact ⟨a, place_eq_some_iff.mpr ⟨node, resolve_of_unfollowed hfound hnot, hkind⟩⟩
  · intro path stats hstat hdirectory
    obtain ⟨a, node, hfound, rfl⟩ := stat_ok_iff.mp hstat
    have hkind := (hproper hfound).2.isDirectory_stats.mp hdirectory
    exact ⟨a, place_eq_some_iff.mpr ⟨node, hfound, hkind⟩⟩
  · intro p name a stats hp hname hplace hlstat hdirectory
    obtain ⟨address, node, hfound, rfl⟩ := lstat_ok_iff.mp hlstat
    have hkind := (hproper hfound).2.isDirectory_stats.mp hdirectory
    obtain ⟨b, directory, hparent, -, rfl⟩ := resolve_descend hp hname hfound
    obtain ⟨other, hother, -⟩ := place_eq_some_iff.mp hplace
    obtain ⟨rfl, -⟩ := Prod.mk.inj (Except.ok.inj (hparent.symm.trans hother))
    have hnot : node.kind ≠ .symlink := by
      rw [hkind]
      decide
    exact place_eq_some_iff.mpr ⟨node, resolve_of_unfollowed hfound hnot, hkind⟩

end Node

end TreeSieve

import TreeSieve.Proofs.Files.Rewriting
import TreeSieve.Proofs.Walk.Reaching
import TreeSieve.Proofs.Walk.Termination

/-!
# Ignore files have no effect outside of their directories

Two walks through trees that differ in the bytes of one file give out the same, but for what lies
below the directory of that file. No links are followed: a link could show the directory a second
time, somewhere else.

* `isBelow` tells whether names lead to something below a directory.
* `Outside` holds of an entry that does not lie below a directory, and stands where its names say.
* `sight_rewrite` says that the same is seen at such an entry, unless it is the directory itself;
  `given_rewrite` says that the same is given out there in any case.
* `Walk.entries_outside` says that two walks give out the same outside of the directory.
-/

namespace TreeSieve

/-- Whether names lead to something below the directory with the names `d`. -/
def isBelow (d names : List Text) : Bool := d.isPrefixOf names && names != d

theorem isBelow_concat (d : List Text) (name : Text) : isBelow d (d ++ [name]) = true := by
  simp [isBelow]

/-- What lies below something below a directory lies below that directory. -/
theorem isBelow_append {d names : List Text} (h : isBelow d names = true) (name : Text) :
    isBelow d (names ++ [name]) = true := by
  rw [isBelow, Bool.and_eq_true, List.isPrefixOf_iff_prefix] at h ⊢
  refine ⟨h.1.trans (List.prefix_append names [name]), bne_iff_ne.mpr fun hsame => ?_⟩
  have hlength := congrArg List.length hsame
  have hle := h.1.length_le
  rw [List.length_append, List.length_singleton] at hlength
  omega

/-- An entry of a directory that is not `d`, and not below it, is not below it either. -/
theorem not_isBelow_concat {d names : List Text} (h : isBelow d names = false) (hne : names ≠ d)
    (name : Text) : isBelow d (names ++ [name]) = false := by
  rw [← Bool.not_eq_true, isBelow, Bool.and_eq_true, List.isPrefixOf_iff_prefix]
  rintro ⟨hpre, hnot⟩
  rcases List.prefix_concat_iff.mp hpre with hsame | hpre
  · exact absurd hsame.symm (bne_iff_ne.mp hnot)
  · rw [isBelow, List.isPrefixOf_iff_prefix.mpr hpre, bne_iff_ne.mpr hne] at h
    exact absurd h (by decide)

/-- The traversal of a tree. -/
def Node.traversal (files : Node) (root : Path) (options : Walk.Options) : Traversal :=
  ⟨files.fileSystem, root, options⟩

/-- An entry that does not lie below the directory `d`, and stands where its names say, below the
address `base` of the root. -/
structure Outside (t : Traversal) (place : Text → Option Address) (base d : Address)
    (item : Candidate) : Prop where
  notBelow : isBelow d item.names = false
  stands : item.names = [] ∨
    ∃ directory name, item.names = directory ++ [name] ∧ t.Stands place item (base ++ directory)

theorem Outside.found {t : Traversal} {place : Text → Option Address} {base d : Address}
    {item : Candidate} (h : Outside t place base d item) : t.Found place item := by
  rcases h.stands with names | ⟨directory, name, -, stands⟩
  · exact .root names
  · exact .below stands

section Unfollowed

variable {files : Node} {root : Path} {options : Walk.Options} {base d : Address}
  (hfiles : files.IsProper) (hroot : root.IsRooted) (hfollows : options.followLinks = false)
  (hbase : files.place root.toText = some base)

include hfollows hbase in
/-- Without following links, a directory is where its names say. -/
theorem Outside.eq_of_leads {item : Candidate} {b : Address}
    (h : Outside (files.traversal root options) files.place base d item)
    (hplace : files.place ((files.traversal root options).pathOf item.names) = some b)
    (hleads : (files.traversal root options).Leads files.place item b) :
    b = base ++ item.names := by
  cases hleads with
  | root names =>
    have hpath : (files.traversal root options).pathOf item.names = root.toText := by
      rw [names, Traversal.pathOf, Path.descend_nil]
      rfl
    rw [hpath, hbase] at hplace
    rw [names, List.append_nil, Option.some.inj hplace]
  | @entry a directory name stands names place address =>
    rcases h.stands with hnone | ⟨directory', name', hnames, hstands⟩
    · exact absurd hnone stands.names_ne_nil
    · obtain ⟨hsame, -⟩ := List.append_inj' (names.symm.trans hnames) rfl
      rw [address, stands.unique hstands, names, hsame, List.append_assoc]
  | link follows symlink unvisited outside =>
    have hoptions : options.followLinks = true := follows
    rw [hfollows] at hoptions
    cases hoptions

include hfiles hroot hfollows hbase in
/-- The entries of a directory that is not `d` do not lie below it, and stand where their names
say. -/
theorem Outside.opens {rules : List Rule} {item child : Candidate}
    (h : Outside (files.traversal root options) files.place base d item) (hne : item.names ≠ d)
    (hchild : child ∈ ((files.traversal root options).sight rules item).entries) :
    Outside (files.traversal root options) files.place base d child := by
  obtain ⟨b, hplace, hleads, hstands, -⟩ :=
    FileSystem.LooksUp.opens (t := files.traversal root options) hfiles.looksUp hfiles hroot h.found
      hchild
  obtain ⟨-, entries, -, entry, -, hnames⟩ :=
    (files.traversal root options).exists_of_mem_sight hchild
  refine ⟨?_, Or.inr ⟨item.names, entry.name, hnames, ?_⟩⟩
  · rw [hnames]
    exact not_isBelow_concat h.notBelow hne entry.name
  · rw [← h.eq_of_leads hfollows hbase hplace hleads]
    exact hstands

/-! ### What is asked of an entry -/

section Entries

variable {names : List Text} {name : Text} (hnames : ∀ part ∈ names, Path.IsEntryName part)
  (hname : Path.IsEntryName name)
  (hplace : files.place (root.descend names).toText = some (base ++ names))

include hroot hnames hname hplace

/-- The path of an entry leads to the address of the entry. -/
theorem eq_of_resolve_entry {address : Address} {node : Node}
    (h : files.resolve .plain false (root.descend (names ++ [name])).toText
      = .ok (address, node)) : address = base ++ names ++ [name] := by
  rw [Path.descend_append] at h
  obtain ⟨a, directory, hdirectory, -, rfl⟩ :=
    Node.resolve_descend (hroot.descend hnames) hname h
  obtain ⟨node, hnode, -⟩ := Node.place_eq_some_iff.mp hplace
  obtain ⟨rfl, -⟩ := Prod.mk.inj (Except.ok.inj (hdirectory.symm.trans hnode))
  rfl

variable {size : Int} {content : List UInt8} {changed : Text} (hne : names ≠ d)

include hne

/-- Of an entry of another directory the same is known. -/
theorem lstat_entry :
    ((files.rewrite size content (base ++ d ++ [changed])).fileSystem : FileSystem Id).lstat
        (root.descend (names ++ [name])).toText
      = (files.fileSystem : FileSystem Id).lstat (root.descend (names ++ [name])).toText := by
  refine Node.lstat_rewrite fun node hfound => hne ?_
  have hsame := eq_of_resolve_entry hroot hnames hname hplace hfound
  exact (List.append_cancel_left (List.append_inj' hsame rfl).1).symm

include hfiles in
/-- An ignore file in another directory is read as before. -/
theorem load_entry {stats : FileStats}
    (hstats : ((files.fileSystem : FileSystem Id).lstat
      (root.descend (names ++ [name])).toText).run = .ok stats)
    (hfile : stats.isFile = true) (cache : MatcherCache) :
    IgnoreFile.load ((files.rewrite size content (base ++ d ++ [changed])).fileSystem :
        FileSystem Id) cache (root.descend (names ++ [name])).toText
      = IgnoreFile.load files.fileSystem cache (root.descend (names ++ [name])).toText := by
  obtain ⟨address, node, hfound, rfl⟩ := Node.lstat_ok_iff.mp hstats
  have hnot : node.kind ≠ .symlink := by
    have hproper := (hfiles.at? (Node.at?_of_resolve hfound)).2
    rw [FileStats.isFile, hproper.kind_stats, beq_iff_eq] at hfile
    rw [hfile]
    decide
  have hread : ((files.rewrite size content (base ++ d ++ [changed])).fileSystem :
        FileSystem Id).read (root.descend (names ++ [name])).toText
      = (files.fileSystem : FileSystem Id).read (root.descend (names ++ [name])).toText := by
    refine Node.read_rewrite fun other hother => hne ?_
    have hfollowed := Node.resolve_of_unfollowed hfound hnot
    obtain ⟨haddress, -⟩ := Prod.mk.inj (Except.ok.inj (hfollowed.symm.trans hother))
    have hsame := eq_of_resolve_entry hroot hnames hname hplace hfound
    rw [haddress] at hsame
    exact (List.append_cancel_left (List.append_inj' hsame rfl).1).symm
  exact IgnoreFile.load_congr (hroot.descend (Path.isEntryName_concat hnames hname))
    (lstat_entry hroot hnames hname hplace hne) hread cache

end Entries

/-! ### What is seen at an entry -/

variable (base d) (size : Int) (content : List UInt8) (changed : Text)

include hfiles hroot in
/-- What is in another directory is seen as before. -/
theorem opened_rewrite (options : Walk.Options) {item : Candidate}
    (hnames : ∀ part ∈ item.names, Path.IsEntryName part)
    (hplace : files.place (root.descend item.names).toText = some (base ++ item.names))
    (hne : item.names ≠ d) (real : Text) {entries : List ListedEntry}
    (hentries : IsListing entries) :
    let t := files.traversal root options
    let t' := (files.rewrite size content (base ++ d ++ [changed])).traversal root options
    t'.ownRules item.names entries = t.ownRules item.names entries ∧
      t'.children item real entries = t.children item real entries := by
  intro t t'
  have hlstat : ∀ entry ∈ entries, t'.files.lstat (t'.pathOf (item.names ++ [entry.name]))
      = t.files.lstat (t.pathOf (item.names ++ [entry.name])) := fun entry hentry =>
    lstat_entry hroot hnames (hentries.names entry hentry) hplace hne
  constructor
  · refine List.flatMap_congr fun entry hentry => ?_
    simp only [hlstat entry hentry]
    cases hstats : (t.files.lstat (t.pathOf (item.names ++ [entry.name]))).run with
    | error e => rfl
    | ok stats =>
      simp only
      have hoptions : t'.options = t.options := rfl
      rw [hoptions]
      split
      · rename_i hown
        rw [Bool.and_eq_true] at hown
        refine congrArg (fun file : Id (IgnoreFile × MatcherCache) => file.run.1.rules) ?_
        exact load_entry hfiles hroot hnames (hentries.names entry hentry) hplace hne hstats hown.1
          MatcherCache.empty
      · rfl
  · refine List.filterMap_congr fun entry hentry => ?_
    simp only [hlstat entry hentry]

omit hfollows in
/-- At a directory the two trees show the same, or what is in it by the same listing. -/
theorem sightOfDirectory_rewrite (rules : List Rule) (item : Candidate) (stats : FileStats)
    (real : Text) :
    let t := files.traversal root options
    let t' := (files.rewrite size content (base ++ d ++ [changed])).traversal root options
    t'.sightOfDirectory rules item stats real = t.sightOfDirectory rules item stats real ∨
    ∃ entries, (t.files.list (t.pathOf item.names)).run = .ok entries ∧
      t.sightOfDirectory rules item stats real
        = ⟨[], t.ownRules item.names entries, t.children item real entries⟩ ∧
      t'.sightOfDirectory rules item stats real
        = ⟨[], t'.ownRules item.names entries, t'.children item real entries⟩ := by
  intro t t'
  have hlist : t'.files.list (t.pathOf item.names) = t.files.list (t.pathOf item.names) :=
    Node.list_rewrite _
  have hoptions : t'.options = t.options := rfl
  have hoffer : t'.offer = t.offer := rfl
  have hpath : t'.pathOf = t.pathOf := rfl
  unfold Traversal.sightOfDirectory
  simp only [hlist, hoptions, hoffer, hpath]
  split
  · exact Or.inl rfl
  · split
    · exact Or.inl rfl
    · cases hentries : (t.files.list (t.pathOf item.names)).run with
      | error e => exact Or.inl rfl
      | ok entries =>
        cases entries with
        | nil => exact Or.inl rfl
        | cons entry entries => exact Or.inr ⟨entry :: entries, rfl, rfl, rfl⟩

include hfollows in
/-- At an entry the two trees show the same, or what is in a directory by the same listing. -/
theorem sight_rewrite (rules : List Rule) (item : Candidate) :
    let t := files.traversal root options
    let t' := (files.rewrite size content (base ++ d ++ [changed])).traversal root options
    t'.sight rules item = t.sight rules item ∨
    ∃ real entries, (t.files.list (t.pathOf item.names)).run = .ok entries ∧ t.Enters item real ∧
      t.sight rules item = ⟨[], t.ownRules item.names entries, t.children item real entries⟩ ∧
      t'.sight rules item
        = ⟨[], t'.ownRules item.names entries, t'.children item real entries⟩ := by
  intro t t'
  have hoffer : t'.offer = t.offer := rfl
  have hreal : t'.realPathOf item = t.realPathOf item := by
    rw [Traversal.realPathOf, Traversal.realPathOf]
    split
    · exact congrArg (fun answer => (Id.run answer).map canonical) (Node.realPath_rewrite _)
    · rfl
  rw [Traversal.sight, Traversal.sight, t.resolve_of_unfollowed hfollows,
    t'.resolve_of_unfollowed hfollows, hreal, hoffer]
  split
  · rename_i hdirectory
    cases hown : t.realPathOf item with
    | error e => exact Or.inl rfl
    | ok real =>
      rcases sightOfDirectory_rewrite base d size content changed rules item item.stats real with
        hsame | ⟨entries, hlist, hs, hs'⟩
      · exact Or.inl hsame
      · exact Or.inr ⟨real, entries, hlist, .own hdirectory hown, hs, hs'⟩
  · exact Or.inl rfl

include hfollows in
/-- The same is given out at every entry. -/
theorem given_rewrite (place : Place) :
    (((files.rewrite size content (base ++ d ++ [changed])).traversal root options).look place).1
      = ((files.traversal root options).look place).1 := by
  rw [Traversal.look, Traversal.look]
  rcases sight_rewrite base d hfollows size content changed place.rules place.item with
    hsame | ⟨real, entries, -, -, hs, hs'⟩
  · rw [hsame]
  · rw [hs, hs']

include hfiles hroot hfollows hbase in
/-- The same is seen at an entry that neither is the directory of the file nor lies below it. -/
theorem look_rewrite {place : Place}
    (h : Outside (files.traversal root options) files.place base d place.item)
    (hne : place.item.names ≠ d) :
    ((files.rewrite size content (base ++ d ++ [changed])).traversal root options).look place
      = (files.traversal root options).look place := by
  rw [Traversal.look, Traversal.look]
  rcases sight_rewrite base d hfollows size content changed place.rules place.item with
    hsame | ⟨real, entries, hlist, henters, hs, hs'⟩
  · rw [hsame]
  · have hlooks : (files.traversal root options).files.LooksUp files files.place := hfiles.looksUp
    obtain ⟨b, node, hplace, -⟩ := hlooks.list _ entries hlist
    obtain ⟨-, hleads⟩ := hlooks.leads hfiles hroot h.found hplace henters
    have hb := h.eq_of_leads hfollows hbase hplace hleads
    obtain ⟨hown, hchildren⟩ := opened_rewrite base d hfiles hroot size content changed
      options h.found.names (hb ▸ hplace) hne real (hlooks.isListing hfiles _ entries hlist)
    rw [hs, hs', hown, hchildren]

include hfiles hroot hfollows hbase in
/-- Recursion finds the same outside of the directory of the file: it goes through the same places
until it comes to that directory, and there to places below it. -/
theorem gather_outside {place : Place}
    (h : Outside (files.traversal root options) files.place base d place.item) {fuel : Nat}
    {found found' : List Entry}
    (hfound : gather (files.traversal root options).look fuel place = some found)
    (hfound' : gather ((files.rewrite size content (base ++ d ++ [changed])).traversal root
      options).look fuel place = some found') :
    (found.filter fun e => !isBelow d e.names) = found'.filter fun e => !isBelow d e.names := by
  have hnone : ∀ (t : Traversal) (fuel : Nat) (x : Place), (!isBelow d x.item.names) = false →
      ∀ found, gather t.look fuel x = some found →
        (found.filter fun e => !isBelow d e.names) = [] := fun t fuel x hx =>
    Traversal.filter_names_eq_nil (p := isBelow d) (fun names name h => isBelow_append h name)
      fuel hx
  refine gather_filter (P := fun x => Outside (files.traversal root options) files.place base d
    x.item) (Q := fun x => !isBelow d x.item.names) (fun x _ => ?_) (fun x hx => ?_)
    (fun x hx y hy hlive => ?_) (hnone _) (hnone _) fuel place h found found' hfound hfound'
  · rw [given_rewrite base d hfollows]
  · by_cases hd : x.item.names = d
    · have hbelow : ∀ (t : Traversal),
          ((t.look x).2.filter fun y => !isBelow d y.item.names) = [] := by
        intro t
        rw [List.filter_eq_nil_iff]
        intro y hy
        obtain ⟨name, hname⟩ := t.names_below x y hy
        rw [hname, hd, isBelow_concat]
        decide
      rw [hbelow, hbelow]
    · rw [look_rewrite base d hfiles hroot hfollows hbase size content changed hx hd]
  · have hd : x.item.names ≠ d := by
      intro hd
      obtain ⟨name, hname⟩ := Traversal.names_below _ x y hy
      rw [hname, hd, isBelow_concat] at hlive
      cases hlive
    obtain ⟨child, hchild, rfl⟩ := List.mem_map.mp hy
    exact hx.opens hfiles hroot hfollows hbase hd hchild

end Unfollowed

namespace Walk

/-- A root that is accepted is looked at in the same way, whatever bytes are in a file. -/
theorem lookAtRoot_rewrite {files : Node} {root : Text} {base : Address}
    (hbase : files.place root = some base) {a : Address} (ha : base ≠ a)
    (hfile : ∀ node, files.at? a = some node → node.kind ≠ .symlink) (size : Int)
    (content : List UInt8) :
    lookAtRoot ((files.rewrite size content a).fileSystem : FileSystem Id) root
      = lookAtRoot files.fileSystem root := by
  obtain ⟨directory, hdirectory, -⟩ := Node.place_eq_some_iff.mp hbase
  have hstat : ∀ node, files.resolve .plain true root ≠ .ok (a, node) := by
    intro node hfound
    exact ha (Prod.mk.inj (Except.ok.inj (hdirectory.symm.trans hfound))).1
  have hlstat : ∀ node, files.resolve .plain false root ≠ .ok (a, node) := by
    intro node hfound
    exact hstat node (Node.resolve_of_unfollowed hfound (hfile node (Node.at?_of_resolve hfound)))
  rw [lookAtRoot, lookAtRoot, Node.lstat_rewrite hlstat, Node.stat_rewrite hstat]

/-- **Ignore files have no effect outside of their directories.** Let no links be followed and no
entry limit be set, let the root lead to the directory at the address `base` of a proper tree, and
let there be a regular file in the directory with the names `d` below it. If the root is accepted
then the walk comes to its end, and so does the walk with other bytes in that file; what they give
out is the same, in the same order, but for the entries below that directory. -/
theorem entries_outside {files : Node} (hfiles : files.IsProper) {current : Path}
    (habs : current.isAbsolute) (hcur : ∀ part ∈ current.parts, Path.IsName part) (root : Text)
    {options : Walk.Options} (hfollows : options.followLinks = false)
    (hlimit : options.maxEntries = none) {base d : Address} {changed : Text}
    (hbase : files.place (Path.absolute current root).toText = some base)
    {permissions : Nat} {oldSize : Int} {oldContent : List UInt8}
    (hfile : files.at? (base ++ d ++ [changed])
      = some (.file .file permissions oldSize oldContent)) (size : Int) (content : List UInt8)
    {w₀ : Walk} (hstart : ((Walk.new (Path.absolute current root) options).start
      (files.fileSystem : FileSystem Id)).run = (.ok (), w₀)) :
    let fs : FileSystem Id := files.fileSystem
    let fs' : FileSystem Id := (files.rewrite size content (base ++ d ++ [changed])).fileSystem
    ((Walk.new (Path.absolute current root) options).start fs').run = (.ok (), w₀) ∧
    ∃ given given' last last', Ends fs w₀ given last ∧ Ends fs' w₀ given' last' ∧
      (given'.filter fun e => !isBelow d e.names) = given.filter fun e => !isBelow d e.names := by
  intro fs fs'
  have hroot : (Path.absolute current root).IsRooted := Path.absolute_isRooted habs hcur root
  have hlooks : fs.LooksUp files files.place := hfiles.looksUp
  have hfiles' : (files.rewrite size content (base ++ d ++ [changed])).IsProper := hfiles.rewrite _
  have hlooks' : fs'.LooksUp _ _ := hfiles'.looksUp
  have hstart' : ((Walk.new (Path.absolute current root) options).start fs').run
      = (.ok (), w₀) := by
    have hlook : lookAtRoot fs' (Path.absolute current root).toText
        = lookAtRoot fs (Path.absolute current root).toText := by
      refine lookAtRoot_rewrite hbase (fun hsame => ?_) (fun node hat => ?_) size content
      · have hlength := congrArg List.length hsame
        simp at hlength
      · rw [← Option.some.inj (hfile.symm.trans hat)]
        exact nofun
    rw [← hstart, start, start, show (Walk.new (Path.absolute current root) options).rootText
      = (Path.absolute current root).toText from rfl, hlook]
  obtain ⟨fuel, found, last, hends, hfound⟩ := exists_ends hlooks hfiles hroot hlimit hstart
  obtain ⟨fuel', found', last', hends', hfound'⟩ := exists_ends hlooks' hfiles' hroot hlimit hstart'
  refine ⟨hstart', _, _, last, last', hends, hends', filter_mergeSort_congr Entry.depth ?_⟩
  have houtside : Outside (files.traversal (Path.absolute current root) options) files.place base d
      (Traversal.rootPlace (files.traversal (Path.absolute current root) options)
        w₀.rootStats).item := by
    refine ⟨?_, Or.inl rfl⟩
    show isBelow d [] = false
    cases d with
    | nil => rfl
    | cons _ _ => rfl
  rw [Traversal.rootPlace_eq fs fs'] at hfound'
  exact (gather_outside base d hfiles hroot hfollows hbase size content changed houtside
    (gather_mono (Nat.le_max_left fuel fuel') hfound)
    (gather_mono (Nat.le_max_right fuel fuel') hfound')).symm

/-- A directory whose ignore file ignores `b`, and one in it whose ignore file takes it back. -/
def takingBackTree : Node :=
  .directory 0o755 0 [
    (Text.lit "r", .directory 0o755 0 [
      (Text.lit ".gitignore", .file .file 0o644 2 [98, 10]),
      (Text.lit "a", .file .file 0o644 0 []),
      (Text.lit "d", .directory 0o755 0 [
        (Text.lit ".gitignore", .file .file 0o644 3 [33, 98, 10]),
        (Text.lit "b", .file .file 0o644 0 [])]),
      (Text.lit "e", .directory 0o755 0 [
        (Text.lit "b", .file .file 0o644 0 []), (Text.lit "c", .file .file 0o644 0 [])])])]

/-- If the inner ignore file ignores everything, the walk leaves out what it has taken back, and
what else is in its directory; the same is given out of the outer directory. -/
theorem entries_outside_takingBackTree :
    let fs : FileSystem Id := takingBackTree.fileSystem
    let fs' : FileSystem Id := (takingBackTree.rewrite 2 [42, 10]
      ([Text.lit "r"] ++ [Text.lit "d"] ++ [Text.lit ".gitignore"])).fileSystem
    let w₀ := ((Walk.new (Path.absolute Path.rootDirectory (Text.lit "/r")) .plain).start fs).run.2
    ∃ given given' last last', Ends fs w₀ given last ∧ Ends fs' w₀ given' last' ∧
      given.map Entry.path = [".gitignore", "a", "d/.gitignore", "d/b", "e/c"].map Text.lit ∧
      given'.map Entry.path = [".gitignore", "a", "e/c"].map Text.lit ∧
      (given'.filter fun e => !isBelow [Text.lit "d"] e.names)
        = given.filter fun e => !isBelow [Text.lit "d"] e.names := by
  intro fs fs' w₀
  have hproper : takingBackTree.IsProper := by decide
  have hstart : ((Walk.new (Path.absolute Path.rootDirectory (Text.lit "/r")) .plain).start
      fs).run = (.ok (), w₀) := rfl
  have hfile : takingBackTree.at? ([Text.lit "r"] ++ [Text.lit "d"] ++ [Text.lit ".gitignore"])
      = some (.file .file 0o644 3 [33, 98, 10]) := rfl
  obtain ⟨-, given, given', last, last', hends, hends', hsame⟩ :=
    entries_outside hproper rfl (by simp [Path.rootDirectory]) (Text.lit "/r") rfl rfl rfl hfile
      2 [42, 10] hstart
  refine ⟨given, given', last, last', hends, hends', ?_, ?_, hsame⟩
  · exact hends.paths_eq 12 (by decide +kernel) (by decide +kernel)
  · exact hends'.paths_eq 12 (by decide +kernel) (by decide +kernel)

end Walk

end TreeSieve

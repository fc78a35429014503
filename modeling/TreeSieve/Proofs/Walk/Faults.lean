import TreeSieve.Proofs.Walk.Ending
import TreeSieve.Proofs.Walk.Recording

/-!
# What a failing call hides

A directory that cannot be listed and an entry of which nothing can be known are left out, with
what lies below them; everything else is given out as before.

* `FileSystem.withFault` makes one call fail.
* `Traversal.look_unlistable` and `Traversal.sight_unknown` say what is seen then.
* `Walk.entries_withFault` says what a walk gives out.
-/

namespace TreeSieve

/-! ### One call that fails -/

namespace FileSystem

/-- The file system on which one call fails, and which answers all others as before. -/
def withFault (call : FileCall) (cause : Errno) (fs : FileSystem Id) : FileSystem Id :=
  fs.failing fun operation path =>
    if (⟨operation, path⟩ : FileCall) = call then some cause else none

section

variable {call : FileCall} {cause : Errno} {fs : FileSystem Id}

theorem guarded_of_ne {α : Type} {operation : FileOperation} {path : Text}
    (answer : Text → Id (Except FileError α)) (h : (⟨operation, path⟩ : FileCall) ≠ call) :
    failing.guarded (fun operation path =>
        if (⟨operation, path⟩ : FileCall) = call then some cause else none)
      operation answer path = answer path := by
  rw [failing.guarded, if_neg h]

theorem guarded_self {α : Type} (operation : FileOperation) (path : Text)
    (answer : Text → Id (Except FileError α)) :
    failing.guarded (fun other name =>
        if (⟨other, name⟩ : FileCall) = ⟨operation, path⟩ then some cause else none)
      operation answer path = pure (.error ⟨cause, path⟩) := by
  rw [failing.guarded, if_pos rfl]

theorem withFault_stat (h : call.operation ≠ .stat) : (fs.withFault call cause).stat = fs.stat :=
  funext fun _ => guarded_of_ne fs.stat fun hcall => h (hcall ▸ rfl)

theorem withFault_realPath (h : call.operation ≠ .realPath) :
    (fs.withFault call cause).realPath = fs.realPath :=
  funext fun _ => guarded_of_ne fs.realPath fun hcall => h (hcall ▸ rfl)

theorem withFault_read (h : call.operation ≠ .read) : (fs.withFault call cause).read = fs.read :=
  funext fun _ => guarded_of_ne fs.read fun hcall => h (hcall ▸ rfl)

theorem withFault_list {path : Text} (h : (⟨.list, path⟩ : FileCall) ≠ call) :
    (fs.withFault call cause).list path = fs.list path :=
  guarded_of_ne fs.list h

theorem withFault_lstat {path : Text} (h : (⟨.lstat, path⟩ : FileCall) ≠ call) :
    (fs.withFault call cause).lstat path = fs.lstat path :=
  guarded_of_ne fs.lstat h

theorem withFault_list_self (path : Text) :
    (fs.withFault ⟨.list, path⟩ cause).list path = pure (.error ⟨cause, path⟩) :=
  guarded_self .list path fs.list

theorem withFault_lstat_self (path : Text) :
    (fs.withFault ⟨.lstat, path⟩ cause).lstat path = pure (.error ⟨cause, path⟩) :=
  guarded_self .lstat path fs.lstat

/-- If a directory can be listed with the fault then it is listed as without. -/
theorem list_of_withFault {path : Text} {entries : List ListedEntry}
    (h : ((fs.withFault call cause).list path).run = .ok entries) :
    (fs.list path).run = .ok entries := by
  by_cases hcall : (⟨.list, path⟩ : FileCall) = call
  · rw [← hcall, withFault_list_self] at h
    cases h
  · rwa [withFault_list hcall] at h

end

end FileSystem

/-! ### What is seen -/

namespace Traversal

/-- The traversal on files on which one call fails. -/
def withFault (t : Traversal) (call : FileCall) (cause : Errno) : Traversal :=
  { t with files := t.files.withFault call cause }

theorem withFault_mk (fs : FileSystem Id) (root : Path) (options : Walk.Options) (call : FileCall)
    (cause : Errno) :
    withFault ⟨fs, root, options⟩ call cause = ⟨fs.withFault call cause, root, options⟩ := rfl

theorem pathOf_mk (fs : FileSystem Id) (root : Path) (options : Walk.Options) (names : List Text) :
    pathOf ⟨fs, root, options⟩ names = (root.descend names).toText := rfl

section

variable (t : Traversal) {call : FileCall} (cause : Errno)
  (hcall : call.operation = .list ∨ call.operation = .lstat)

include hcall

theorem resolve_withFault (item : Candidate) :
    (t.withFault call cause).resolve item = t.resolve item := by
  have hstat : (t.withFault call cause).files.stat = t.files.stat :=
    FileSystem.withFault_stat (by rcases hcall with h | h <;> rw [h] <;> decide)
  have hreal : (t.withFault call cause).files.realPath = t.files.realPath :=
    FileSystem.withFault_realPath (by rcases hcall with h | h <;> rw [h] <;> decide)
  have hoptions : (t.withFault call cause).options = t.options := rfl
  have hpath : (t.withFault call cause).pathOf = t.pathOf := rfl
  unfold resolve
  simp only [hstat, hreal, hoptions, hpath]

theorem realPathOf_withFault (item : Candidate) :
    (t.withFault call cause).realPathOf item = t.realPathOf item := by
  have hreal : (t.withFault call cause).files.realPath = t.files.realPath :=
    FileSystem.withFault_realPath (by rcases hcall with h | h <;> rw [h] <;> decide)
  have hpath : (t.withFault call cause).pathOf = t.pathOf := rfl
  unfold realPathOf
  simp only [hreal, hpath]

/-- If a fault changes what is seen at directories in a way that keeps what is merely given out,
then it changes what is seen at all entries in this way. -/
theorem sight_withFault {f : Sight → Sight} {rules : List Rule} {item : Candidate}
    (hleaf : ∀ given, f ⟨given, [], []⟩ = ⟨given, [], []⟩)
    (hdirectory : ∀ stats real, (t.withFault call cause).sightOfDirectory rules item stats real
      = f (t.sightOfDirectory rules item stats real)) :
    (t.withFault call cause).sight rules item = f (t.sight rules item) := by
  have hoffer : (t.withFault call cause).offer = t.offer := rfl
  unfold sight
  simp only [t.resolve_withFault cause hcall, t.realPathOf_withFault cause hcall, hoffer,
    hdirectory]
  split
  · split
    · rfl
    · split
      · exact (hleaf _).symm
      · rfl
  · exact (hleaf _).symm

end

variable {t : Traversal} (hroot : t.root.IsRooted)
  (hlist : ∀ path entries, (t.files.list path).run = .ok entries → IsListing entries)
  {names : List Text} (hnames : ∀ part ∈ names, Path.IsEntryName part) (cause : Errno)
  {rules : List Rule} {item : Candidate}

/-! ### A directory that cannot be listed -/

/-- At a directory that would be listed, nothing is seen if the listing fails. -/
theorem sight_unlistable (hlists : t.Lists rules item) :
    (t.withFault ⟨.list, t.pathOf item.names⟩ cause).sight rules item = ⟨[], [], []⟩ := by
  have hresolve : (t.withFault ⟨.list, t.pathOf item.names⟩ cause).resolve item = t.resolve item :=
    t.resolve_withFault cause (.inl rfl) item
  have hnothing : ∀ stats real, (t.withFault ⟨.list, t.pathOf item.names⟩ cause).sightOfDirectory
      rules item stats real = ⟨[], [], []⟩ := by
    intro stats real
    have hdeep : ¬(t.options.maxDepth == some item.depth) = true :=
      fun h => hlists.shallow (beq_iff_eq.mp h)
    have hfails : (t.withFault ⟨.list, t.pathOf item.names⟩ cause).files.list (t.pathOf item.names)
        = pure (.error ⟨cause, t.pathOf item.names⟩) := FileSystem.withFault_list_self _
    have hoptions : (t.withFault ⟨.list, t.pathOf item.names⟩ cause).options = t.options := rfl
    have hpath : (t.withFault ⟨.list, t.pathOf item.names⟩ cause).pathOf = t.pathOf := rfl
    unfold sightOfDirectory
    simp only [hpath, hoptions, if_neg hdeep, hlists.entered, hfails, Id.run_pure]
    rfl
  unfold sight
  simp only [hresolve, hnothing, hlists.directory, if_true]
  split
  · rfl
  · split
    · rfl
    · rfl

theorem look_unlistable {place : Place} (hlists : t.Lists place.rules place.item) :
    (t.withFault ⟨.list, t.pathOf place.item.names⟩ cause).look place = ([], []) := by
  rw [look, sight_unlistable cause hlists]
  rfl

include hroot hnames in
/-- If the listing of a directory fails then the same is seen at all other entries. -/
theorem sight_elsewhere (hitem : ∀ part ∈ item.names, Path.IsEntryName part)
    (hne : item.names ≠ names) :
    (t.withFault ⟨.list, t.pathOf names⟩ cause).sight rules item = t.sight rules item := by
  refine t.sight_withFault cause (.inl rfl) (f := id) (fun _ => rfl) fun stats real => ?_
  have hcall : (⟨.list, t.pathOf item.names⟩ : FileCall) ≠ ⟨.list, t.pathOf names⟩ :=
    fun h => hne (hroot.descend_inj hitem hnames (FileCall.mk.inj h).2)
  have hlisted : (t.withFault ⟨.list, t.pathOf names⟩ cause).files.list (t.pathOf item.names)
      = t.files.list (t.pathOf item.names) := FileSystem.withFault_list hcall
  have hlstat : ∀ path, (t.withFault ⟨.list, t.pathOf names⟩ cause).files.lstat path
      = t.files.lstat path := fun path => FileSystem.withFault_lstat nofun
  have hread : (t.withFault ⟨.list, t.pathOf names⟩ cause).files.read = t.files.read :=
    FileSystem.withFault_read nofun
  have hload : ∀ cache path,
      IgnoreFile.load (t.withFault ⟨.list, t.pathOf names⟩ cause).files cache path
        = IgnoreFile.load t.files cache path := by
    intro cache path
    unfold IgnoreFile.load
    simp only [hlstat, hread]
  have hoptions : (t.withFault ⟨.list, t.pathOf names⟩ cause).options = t.options := rfl
  have hpath : (t.withFault ⟨.list, t.pathOf names⟩ cause).pathOf = t.pathOf := rfl
  have hoffer : (t.withFault ⟨.list, t.pathOf names⟩ cause).offer = t.offer := rfl
  unfold sightOfDirectory ownRules children
  simp only [hpath, hoptions, hoffer, hlisted, hlstat, hload]
  rfl

include hroot hnames in
theorem look_elsewhere {place : Place} (hplace : ∀ part ∈ place.item.names, Path.IsEntryName part)
    (hne : place.item.names ≠ names) :
    (t.withFault ⟨.list, t.pathOf names⟩ cause).look place = t.look place := by
  rw [look, look, sight_elsewhere hroot hnames cause hplace hne]

/-! ### An entry of which nothing is known -/

section Unknown

variable (hitem : ∀ part ∈ item.names, Path.IsEntryName part) {entry : ListedEntry}
  {entries : List ListedEntry}

include hroot hnames hitem in
/-- If the look-up of an entry fails then the other entries of its directory are looked up as
before. -/
theorem lstat_unknown (hentry : Path.IsEntryName entry.name)
    (hne : item.names ++ [entry.name] ≠ names) :
    (t.withFault ⟨.lstat, t.pathOf names⟩ cause).files.lstat
        (t.pathOf (item.names ++ [entry.name]))
      = t.files.lstat (t.pathOf (item.names ++ [entry.name])) := by
  refine FileSystem.withFault_lstat fun h => hne ?_
  exact hroot.descend_inj (Path.isEntryName_concat hitem hentry) hnames (FileCall.mk.inj h).2

theorem lstat_unknown_self (hsame : item.names ++ [entry.name] = names) :
    (t.withFault ⟨.lstat, t.pathOf names⟩ cause).files.lstat
        (t.pathOf (item.names ++ [entry.name]))
      = pure (.error ⟨cause, t.pathOf (item.names ++ [entry.name])⟩) := by
  rw [hsame]
  exact FileSystem.withFault_lstat_self _

include hroot hnames hitem in
/-- If the look-up of an entry fails that is no ignore file then the rules of all ignore files are
read as before. -/
theorem ownRules_unknown
    (hname : ∀ name, names.getLast? = some name → name ∉ t.options.ignoreNames)
    (hentries : ∀ entry ∈ entries, Path.IsEntryName entry.name) :
    (t.withFault ⟨.lstat, t.pathOf names⟩ cause).ownRules item.names entries
      = t.ownRules item.names entries := by
  have hread : (t.withFault ⟨.lstat, t.pathOf names⟩ cause).files.read = t.files.read :=
    FileSystem.withFault_read nofun
  have hpath : (t.withFault ⟨.lstat, t.pathOf names⟩ cause).pathOf = t.pathOf := rfl
  have hoptions : (t.withFault ⟨.lstat, t.pathOf names⟩ cause).options = t.options := rfl
  unfold ownRules
  simp only [hpath, hoptions]
  refine List.flatMap_congr fun entry hentry => ?_
  by_cases hsame : item.names ++ [entry.name] = names
  · have hplain : t.options.ignoreNames.contains entry.name = false := by
      rw [← Bool.not_eq_true, List.contains_iff_mem]
      exact hname entry.name (by rw [← hsame, List.getLast?_concat])
    simp only [lstat_unknown_self cause hsame, Id.run_pure, hplain, Bool.and_false]
    split
    · rfl
    · rfl
  · have hlstat := lstat_unknown hroot hnames cause hitem (hentries entry hentry) hsame
    have hload : ∀ cache, IgnoreFile.load (t.withFault ⟨.lstat, t.pathOf names⟩ cause).files cache
        (t.pathOf (item.names ++ [entry.name]))
        = IgnoreFile.load t.files cache (t.pathOf (item.names ++ [entry.name])) :=
      IgnoreFile.load_congr
        (hroot.descend (Path.isEntryName_concat hitem (hentries entry hentry))) hlstat
        (congrFun hread _)
    simp only [hlstat, hload]

include hroot hnames hitem in
/-- If the look-up of an entry fails then the other entries of its directory are queued as before,
and it is not. -/
theorem children_unknown (real : Text)
    (hentries : ∀ entry ∈ entries, Path.IsEntryName entry.name) :
    (t.withFault ⟨.lstat, t.pathOf names⟩ cause).children item real entries
      = (t.children item real entries).filter (·.names != names) := by
  have hpath : (t.withFault ⟨.lstat, t.pathOf names⟩ cause).pathOf = t.pathOf := rfl
  unfold children
  simp only [hpath]
  rw [List.filter_filterMap]
  refine List.filterMap_congr fun entry hentry => ?_
  by_cases hsame : item.names ++ [entry.name] = names
  · simp only [lstat_unknown_self cause hsame, Id.run_pure]
    cases (t.files.lstat (t.pathOf (item.names ++ [entry.name]))).run with
    | error e => rfl
    | ok stats => rw [Option.filter_some, if_neg (by simp [hsame])]
  · simp only [lstat_unknown hroot hnames cause hitem (hentries entry hentry) hsame]
    cases (t.files.lstat (t.pathOf (item.names ++ [entry.name]))).run with
    | error e => rfl
    | ok stats => rw [Option.filter_some, if_pos (by simp [hsame])]

end Unknown

include hroot hlist hnames in
/-- If the look-up of an entry fails that is no ignore file then the same is seen everywhere, but
that the entry is not queued. -/
theorem sight_unknown (hname : ∀ name, names.getLast? = some name → name ∉ t.options.ignoreNames)
    (hitem : ∀ part ∈ item.names, Path.IsEntryName part) :
    (t.withFault ⟨.lstat, t.pathOf names⟩ cause).sight rules item
      = ⟨(t.sight rules item).given, (t.sight rules item).rules,
        (t.sight rules item).entries.filter (·.names != names)⟩ := by
  refine t.sight_withFault cause (.inr rfl)
    (f := fun s => ⟨s.given, s.rules, s.entries.filter (·.names != names)⟩) (fun _ => rfl)
    fun stats real => ?_
  have hlisted : (t.withFault ⟨.lstat, t.pathOf names⟩ cause).files.list (t.pathOf item.names)
      = t.files.list (t.pathOf item.names) := FileSystem.withFault_list nofun
  have hoptions : (t.withFault ⟨.lstat, t.pathOf names⟩ cause).options = t.options := rfl
  have hpath : (t.withFault ⟨.lstat, t.pathOf names⟩ cause).pathOf = t.pathOf := rfl
  have hoffer : (t.withFault ⟨.lstat, t.pathOf names⟩ cause).offer = t.offer := rfl
  unfold sightOfDirectory
  simp only [hpath, hoptions, hoffer, hlisted]
  split
  · rfl
  · split
    · rfl
    · cases hentries : (t.files.list (t.pathOf item.names)).run with
      | error e => rfl
      | ok entries =>
        cases entries with
        | nil => rfl
        | cons entry entries =>
          have hnamed := (hlist _ _ hentries).names
          simp only [ownRules_unknown hroot hnames cause hitem hname hnamed,
            children_unknown hroot hnames cause hitem real hnamed]

include hroot hlist hnames in
theorem look_unknown (hname : ∀ name, names.getLast? = some name → name ∉ t.options.ignoreNames)
    {place : Place} (hplace : ∀ part ∈ place.item.names, Path.IsEntryName part) :
    (t.withFault ⟨.lstat, t.pathOf names⟩ cause).look place
      = ((t.look place).1, (t.look place).2.filter fun y => y.item.names != names) := by
  rw [look, look, sight_unknown hroot hlist hnames cause hname hplace]
  simp only [List.filter_map]
  rfl

/-- Let a traversal lead from each place to some of the places in it only, and see nothing at the
entry with the names `q`, if it comes upon it at all. Then its recursion finds neither this entry nor
anything below it. -/
theorem not_prefix_of_gather {t t' : Traversal} {first : Place} {q : List Text}
    (hfirst : first.item.names = []) (hq : q ≠ [])
    (hsub : ∀ place, Reaches t.look first place → (t'.look place).2 ⊆ (t.look place).2)
    (hblank : ∀ place, Reaches t.look first place → ∀ below ∈ (t'.look place).2,
      below.item.names = q → t'.look below = ([], []))
    {fuel : Nat} {found : List Entry} (h : TreeSieve.gather t'.look fuel first = some found) :
    ∀ e ∈ found, ¬q <+: e.names := by
  -- the invariant: a place whose names begin with `q` is this entry, and shows nothing
  refine forall_of_gather (Q := fun place => Reaches t.look first place ∧
    (q <+: place.item.names → t'.look place = ([], []))) ?_ ?_ fuel first ⟨.refl, ?_⟩ found h
  · intro place hplace e he hpre
    rw [t'.names_given place e he] at hpre
    rw [hplace.2 hpre] at he
    exact nomatch he
  · intro place hplace below hbelow
    refine ⟨hplace.1.tail (hsub place hplace.1 hbelow), fun hpre => ?_⟩
    obtain ⟨name, hname⟩ := t'.names_below place below hbelow
    rw [hname] at hpre
    rcases List.prefix_concat_iff.mp hpre with hsame | hpre
    · exact hblank place hplace.1 below hbelow (hname.trans hsame.symm)
    · rw [hplace.2 hpre] at hbelow
      exact nomatch hbelow
  · intro hpre
    rw [hfirst] at hpre
    exact absurd (List.prefix_nil.mp hpre) hq

end Traversal

/-! ### Whole walks -/

namespace Walk

variable {fs fs' : FileSystem Id} {root : Path} {options : Walk.Options} {w₀ : Walk}
  {q : List Text}
  (hlist : ∀ path entries, (fs.list path).run = .ok entries → IsListing entries)
  (hroot : root.IsRooted) (hlimit : options.maxEntries = none)
  (hstart : ((Walk.new root options).start fs).run = (.ok (), w₀))

section

include hlist hroot hlimit hstart

/-- Let two traversals see the same at each entry that neither has the names `q` nor lies below such
an entry, but for entries of this kind, and let the second one see nothing at the entry with these
names. Then the second walk gives out the same without the entry and what lies below it. -/
theorem closes_outside (hq : q ≠ [])
    (hlist' : ∀ path entries, (fs'.list path).run = .ok entries → IsListing entries)
    (hstart' : ((Walk.new root options).start fs').run = (.ok (), w₀))
    (hreal : ∃ real, (fs.realPath root.toText).run = .ok real)
    (hreal' : ∃ real, (fs'.realPath root.toText).run = .ok real)
    (hsub : ∀ place, Reaches (Traversal.look ⟨fs, root, options⟩)
        (Traversal.rootPlace ⟨fs, root, options⟩ w₀.rootStats) place →
      (Traversal.look ⟨fs', root, options⟩ place).2
        ⊆ (Traversal.look ⟨fs, root, options⟩ place).2)
    (houtside : ∀ place, Reaches (Traversal.look ⟨fs, root, options⟩)
        (Traversal.rootPlace ⟨fs, root, options⟩ w₀.rootStats) place → ¬q <+: place.item.names →
      (Traversal.look ⟨fs', root, options⟩ place).1
          = (Traversal.look ⟨fs, root, options⟩ place).1 ∧
        (Traversal.look ⟨fs', root, options⟩ place).2.filter (!q.isPrefixOf ·.item.names)
          = (Traversal.look ⟨fs, root, options⟩ place).2.filter (!q.isPrefixOf ·.item.names))
    (hblank : ∀ place, Reaches (Traversal.look ⟨fs, root, options⟩)
        (Traversal.rootPlace ⟨fs, root, options⟩ w₀.rootStats) place →
      ∀ below ∈ (Traversal.look ⟨fs', root, options⟩ place).2, below.item.names = q →
        Traversal.look ⟨fs', root, options⟩ below = ([], []))
    {answer : Except FileError (List Entry)} {last : Walk} (h : Closes fs w₀ answer last) :
    ∃ last', Closes fs' w₀ (answer.map (List.filter (!q.isPrefixOf ·.names))) last' := by
  obtain ⟨fuel, found, hfound, rfl⟩ := h.exists_gather hlist hroot hlimit hstart hreal
  have hlead : ∀ (names : List Text) (name : Text), q.isPrefixOf names = true →
      q.isPrefixOf (names ++ [name]) = true := by
    intro names name hp
    rw [List.isPrefixOf_iff_prefix] at hp ⊢
    exact hp.trans (List.prefix_append names [name])
  have hsameGiven : ∀ x, Reaches (Traversal.look ⟨fs, root, options⟩)
      (Traversal.rootPlace ⟨fs, root, options⟩ w₀.rootStats) x →
      (Traversal.look ⟨fs, root, options⟩ x).1.filter (!q.isPrefixOf ·.names)
        = (Traversal.look ⟨fs', root, options⟩ x).1.filter (!q.isPrefixOf ·.names) := by
    intro x hx
    by_cases hq : q.isPrefixOf x.item.names = true
    · rw [Traversal.given_names_eq_nil hq, Traversal.given_names_eq_nil hq]
    · rw [(houtside x hx (mt List.isPrefixOf_iff_prefix.mpr hq)).1]
  have hsameBelow : ∀ x, Reaches (Traversal.look ⟨fs, root, options⟩)
      (Traversal.rootPlace ⟨fs, root, options⟩ w₀.rootStats) x →
      (Traversal.look ⟨fs, root, options⟩ x).2.filter (!q.isPrefixOf ·.item.names)
        = (Traversal.look ⟨fs', root, options⟩ x).2.filter (!q.isPrefixOf ·.item.names) := by
    intro x hx
    by_cases hq : q.isPrefixOf x.item.names = true
    · rw [Traversal.below_names_eq_nil hlead hq, Traversal.below_names_eq_nil hlead hq]
    · rw [(houtside x hx (mt List.isPrefixOf_iff_prefix.mpr hq)).2]
  obtain ⟨found', hfound', hsame⟩ := exists_gather_filter hsameGiven hsameBelow hsub
    (fun x hx y hy => hx.tail hy) (fun fuel _ => Traversal.filter_names_eq_nil hlead fuel)
    (fun fuel _ => Traversal.filter_names_eq_nil hlead fuel) .refl hfound
  have hkept : (found'.mergeSort (keyLe Entry.depth)).filter (!q.isPrefixOf ·.names)
      = found'.mergeSort (keyLe Entry.depth) := by
    rw [List.filter_eq_self]
    intro e he
    have hout := Traversal.not_prefix_of_gather rfl hq hsub hblank hfound' e
      (List.mem_mergeSort.mp he)
    rwa [Bool.not_eq_true', ← Bool.not_eq_true, List.isPrefixOf_iff_prefix]
  obtain ⟨last', hlast'⟩ := closes_of_gather hlist' hroot hlimit hstart' hreal'
    (Traversal.rootPlace_eq fs fs' root options w₀.rootStats ▸ hfound')
  refine ⟨last', ?_⟩
  rw [Except.map, filter_mergeSort_congr Entry.depth hsame, hkept]
  exact hlast'

end

include hroot hstart in
/-- The root is accepted as before if a call below it fails. -/
theorem start_withFault (hq : q ≠ []) (hnames : ∀ part ∈ q, Path.IsEntryName part)
    {operation : FileOperation} (hoperation : operation = .list ∨ operation = .lstat)
    (cause : Errno) :
    ((Walk.new root options).start (fs.withFault ⟨operation, w₀.pathOf q⟩ cause)).run
      = (.ok (), w₀) := by
  obtain ⟨stats, -, haccepted⟩ := start_accepted hstart
  have hlstat : (fs.withFault ⟨operation, w₀.pathOf q⟩ cause).lstat root.toText
      = fs.lstat root.toText := by
    refine FileSystem.withFault_lstat fun h => hq ?_
    have hpath := (FileCall.mk.inj h).2
    rw [haccepted.pathOf_eq, ← congrArg Path.toText (Path.descend_nil root)] at hpath
    exact (hroot.descend_inj (fun part hp => absurd hp List.not_mem_nil) hnames hpath).symm
  have hstat : (fs.withFault ⟨operation, w₀.pathOf q⟩ cause).stat = fs.stat :=
    FileSystem.withFault_stat (by rcases hoperation with rfl | rfl <;> exact nofun)
  have hlook : lookAtRoot (fs.withFault ⟨operation, w₀.pathOf q⟩ cause) root.toText
      = lookAtRoot fs root.toText := by
    rw [lookAtRoot, lookAtRoot, hlstat, hstat]
  rw [← hstart, start, start, show (Walk.new root options).rootText = root.toText from rfl, hlook]

include hlist hroot hlimit hstart in
/-- If a walk lists a directory, and then the listing fails, the walk without it gives out the same
but for the directory and what lies below it. -/
theorem closes_unlistable (hq : q ≠ []) (hnames : ∀ part ∈ q, Path.IsEntryName part)
    (hreal : ∃ real, (fs.realPath root.toText).run = .ok real) {steps : Nat}
    (hcall : ⟨.list, w₀.pathOf q⟩ ∈ ((w₀.entries fs.recorded steps).run []).run.2)
    (cause : Errno) {answer : Except FileError (List Entry)} {last : Walk}
    (h : Closes fs w₀ answer last) :
    ∃ last', Closes (fs.withFault ⟨.list, w₀.pathOf q⟩ cause) w₀
      (answer.map (List.filter (!q.isPrefixOf ·.names))) last' := by
  obtain ⟨stats, -, haccepted⟩ := start_accepted hstart
  obtain ⟨place, hreach, hlists, hpath⟩ :=
    exists_lists_of_call hlist hroot hlimit hstart hreal hcall
  have hentries : ∀ {x : Place}, Reaches (Traversal.look ⟨fs, root, options⟩)
      (Traversal.rootPlace ⟨fs, root, options⟩ w₀.rootStats) x →
      ∀ part ∈ x.item.names, Path.IsEntryName part :=
    fun hx => Traversal.isEntryName_of_reaches hlist hx nofun
  obtain rfl : q = place.item.names := by
    refine hroot.descend_inj hnames (hentries hreach) ?_
    rw [← haccepted.pathOf_eq, hpath]
  have hstart' := start_withFault hroot hstart hq hnames (.inl rfl) cause
  have hreal' : (fs.withFault ⟨.list, w₀.pathOf place.item.names⟩ cause).realPath = fs.realPath :=
    FileSystem.withFault_realPath nofun
  rw [haccepted.pathOf_eq] at hstart' hreal' ⊢
  have hself := Traversal.look_unlistable cause hlists
  have hother : ∀ x, Reaches (Traversal.look ⟨fs, root, options⟩)
      (Traversal.rootPlace ⟨fs, root, options⟩ w₀.rootStats) x → x.item.names ≠ place.item.names →
      (Traversal.withFault ⟨fs, root, options⟩ ⟨.list, Traversal.pathOf ⟨fs, root, options⟩
        place.item.names⟩ cause).look x = Traversal.look ⟨fs, root, options⟩ x :=
    fun x hx hne => Traversal.look_elsewhere hroot hnames cause (hentries hx) hne
  rw [Traversal.withFault_mk, Traversal.pathOf_mk] at hself hother
  have hsub : ∀ x, Reaches (Traversal.look ⟨fs, root, options⟩)
      (Traversal.rootPlace ⟨fs, root, options⟩ w₀.rootStats) x →
      (Traversal.look ⟨fs.withFault ⟨.list, (root.descend place.item.names).toText⟩ cause, root,
        options⟩ x).2 ⊆ (Traversal.look ⟨fs, root, options⟩ x).2 := by
    intro x hx
    by_cases hne : x.item.names = place.item.names
    · rw [Traversal.eq_of_reaches hx hreach hne, hself]
      exact List.nil_subset _
    · rw [hother x hx hne]
      exact List.Subset.refl _
  refine closes_outside hlist hroot hlimit hstart hq
    (fun path entries hl => hlist path entries (FileSystem.list_of_withFault hl)) hstart' hreal
    (hreal'.symm ▸ hreal) hsub (fun x hx hout => ?_) (fun x hx below hbelow hsame => ?_) h
  · rw [hother x hx fun hsame => hout (hsame ▸ List.prefix_refl _)]
    exact ⟨rfl, rfl⟩
  · rw [Traversal.eq_of_reaches (hx.tail (hsub x hx hbelow)) hreach hsame, hself]

include hlist hroot hlimit hstart in
/-- If the look-up of an entry fails that is no ignore file then the walk gives out the same but for
the entry and what lies below it. -/
theorem closes_unknown (hq : q ≠ []) (hnames : ∀ part ∈ q, Path.IsEntryName part)
    (hreal : ∃ real, (fs.realPath root.toText).run = .ok real)
    (hname : ∀ name, q.getLast? = some name → name ∉ options.ignoreNames) (cause : Errno)
    {answer : Except FileError (List Entry)} {last : Walk} (h : Closes fs w₀ answer last) :
    ∃ last', Closes (fs.withFault ⟨.lstat, w₀.pathOf q⟩ cause) w₀
      (answer.map (List.filter (!q.isPrefixOf ·.names))) last' := by
  obtain ⟨stats, -, haccepted⟩ := start_accepted hstart
  have hstart' := start_withFault hroot hstart hq hnames (.inr rfl) cause
  have hreal' : (fs.withFault ⟨.lstat, w₀.pathOf q⟩ cause).realPath = fs.realPath :=
    FileSystem.withFault_realPath nofun
  rw [haccepted.pathOf_eq] at hstart' hreal' ⊢
  have hlook : ∀ x, Reaches (Traversal.look ⟨fs, root, options⟩)
      (Traversal.rootPlace ⟨fs, root, options⟩ w₀.rootStats) x →
      (Traversal.withFault ⟨fs, root, options⟩ ⟨.lstat, Traversal.pathOf ⟨fs, root, options⟩ q⟩
        cause).look x = ((Traversal.look ⟨fs, root, options⟩ x).1,
          (Traversal.look ⟨fs, root, options⟩ x).2.filter fun y => y.item.names != q) :=
    fun x hx => Traversal.look_unknown hroot hlist hnames cause hname
      (Traversal.isEntryName_of_reaches hlist hx nofun)
  rw [Traversal.withFault_mk, Traversal.pathOf_mk] at hlook
  refine closes_outside hlist hroot hlimit hstart hq
    (fun path entries hl => hlist path entries (FileSystem.list_of_withFault hl)) hstart' hreal
    (hreal'.symm ▸ hreal) (fun x hx => ?_) (fun x hx _ => ?_) (fun x hx below hbelow hsame => ?_) h
  · rw [hlook x hx]
    exact List.filter_subset_self _
  · rw [hlook x hx, List.filter_filter]
    refine ⟨rfl, List.filter_congr fun y _ => ?_⟩
    by_cases hsame : y.item.names = q
    · simp [hsame]
    · simp [hsame]
  · -- the entry is not queued
    rw [hlook x hx] at hbelow
    exact absurd hsame (bne_iff_ne.mp (List.mem_filter.mp hbelow).2)

/-- **A failing call hides what it is about, and nothing else.** Let the files not change, let
listings be made of distinct names, let no entry limit be set, and let a walk come to its end. Take
any entry below the root. If the walk lists it as a directory and its listing fails, or if nothing
can be known of it and it has not the name of an ignore file, then the root is accepted as before
and the walk comes to its end; what it gives out is the same, in the same order, but for the entry
and what lies below it. A walk that fails on its root fails as before. -/
theorem entries_withFault (fs : FileSystem Id)
    (hlist : ∀ path entries, (fs.list path).run = .ok entries → IsListing entries) {current : Path}
    (habs : current.isAbsolute) (hcur : ∀ part ∈ current.parts, Path.IsName part) (root : Text)
    {options : Walk.Options} (hlimit : options.maxEntries = none) {w₀ : Walk}
    (hstart : ((Walk.new (Path.absolute current root) options).start fs).run = (.ok (), w₀))
    {answer : Except FileError (List Entry)} {last : Walk} (hcloses : Closes fs w₀ answer last)
    {q : List Text} (hq : q ≠ []) (hnames : ∀ part ∈ q, Path.IsEntryName part)
    {operation : FileOperation}
    (hfault : (operation = .list ∧
        ∃ steps, ⟨.list, w₀.pathOf q⟩ ∈ ((w₀.entries fs.recorded steps).run []).run.2) ∨
      (operation = .lstat ∧ ∀ name, q.getLast? = some name → name ∉ options.ignoreNames))
    (cause : Errno) :
    let fs' := fs.withFault ⟨operation, w₀.pathOf q⟩ cause
    ((Walk.new (Path.absolute current root) options).start fs').run = (.ok (), w₀) ∧
      ∃ last', Closes fs' w₀ (answer.map (List.filter fun e => !q.isPrefixOf e.names)) last' := by
  intro fs'
  have hroot : (Path.absolute current root).IsRooted := Path.absolute_isRooted habs hcur root
  have hoperation : operation = .list ∨ operation = .lstat := hfault.imp And.left And.left
  have hstart' : ((Walk.new (Path.absolute current root) options).start fs').run = (.ok (), w₀) :=
    start_withFault hroot hstart hq hnames hoperation cause
  refine ⟨hstart', ?_⟩
  cases hown : (fs.realPath (Path.absolute current root).toText).run with
  | error e =>
    have hreal' : fs'.realPath = fs.realPath :=
      FileSystem.withFault_realPath (by rcases hoperation with rfl | rfl <;> exact nofun)
    obtain ⟨_, hfails⟩ := closes_of_unreal hlimit hstart hown
    obtain ⟨rfl, -⟩ := hcloses.unique hfails
    exact closes_of_unreal hlimit hstart' (hreal' ▸ hown)
  | ok real =>
    rcases hfault with ⟨rfl, steps, hcall⟩ | ⟨rfl, hname⟩
    · exact closes_unlistable hlist hroot hlimit hstart hq hnames ⟨real, hown⟩ hcall cause hcloses
    · exact closes_unknown hlist hroot hlimit hstart hq hnames ⟨real, hown⟩ hname cause hcloses

/-- Without the listing of the inner directory its entries are missing, and only they are. -/
theorem entries_withFault_nestedFiles :
    let w₀ := ((Walk.new (Path.absolute Path.rootDirectory (Text.lit "/r")) .plain).start
      nestedFiles).run.2
    let fs' := nestedFiles.withFault ⟨.list, w₀.pathOf [Text.lit "d"]⟩ .accessDenied
    ((Walk.new (Path.absolute Path.rootDirectory (Text.lit "/r")) .plain).start fs').run
        = (.ok (), w₀) ∧
      ∃ given last, Closes fs' w₀ (.ok given) last ∧
        given.map Entry.path = [Text.lit ".gitignore"] := by
  intro w₀ fs'
  have hstart : ((Walk.new (Path.absolute Path.rootDirectory (Text.lit "/r")) .plain).start
      nestedFiles).run = (.ok (), w₀) := rfl
  have hend : (w₀.entries nestedFiles 8).run.2.phase = .ended := by decide +kernel
  have hcall : ⟨.list, w₀.pathOf [Text.lit "d"]⟩
      ∈ ((w₀.entries nestedFiles.recorded 8).run []).run.2 := by decide +kernel
  obtain ⟨hstart', last, hcloses⟩ := entries_withFault nestedFiles nestedFiles_isListing rfl
    (by simp [Path.rootDirectory]) (Text.lit "/r") rfl hstart (Closes.of_ended hend)
    (q := [Text.lit "d"]) (by decide)
    (by simp [Path.IsEntryName, Path.IsName, Path.dot, Path.dotDot, Text.lit])
    (.inl ⟨rfl, 8, hcall⟩) .accessDenied
  have hpaths : ((w₀.entries nestedFiles 8).run.1.map
      (List.filter fun e => !List.isPrefixOf [Text.lit "d"] e.names)).map (List.map Entry.path)
      = .ok [Text.lit ".gitignore"] := by decide +kernel
  refine ⟨hstart', ?_⟩
  cases hanswer : (w₀.entries nestedFiles 8).run.1 with
  | error e =>
    rw [hanswer] at hpaths
    cases hpaths
  | ok given =>
    rw [hanswer] at hpaths hcloses
    exact ⟨_, last, hcloses, Except.ok.inj hpaths⟩

end Walk

end TreeSieve

import TreeSieve.Proofs.Listing.Within
import TreeSieve.Proofs.Walk.Apart

/-!
# Names nested in a tree

A nested listing is built by adding the names of one entry after the other to a tree. The names of
an entry can be read off the tree again as a way from its top to a leaf, as long as no entry leads
to another: otherwise one would be lost on the way to the other.

* `NameTree.branches` are the ways from the top to the leaves.
* `NameTree.branches_insert` says that names which part from all of them are added to them, and
  `NameTree.branches_foldl` says so for many.
* `NameTree.IsMapping` holds of a tree in which no name stands beside itself.
* `forIn_keepWanted` says which entries are kept.
* `NestedListing.Nests` holds of a listing that shows the first of some entries, and
  `nestDirectoryBy_nests` says of which, whatever regular expressions mean.
-/

namespace TreeSieve

namespace NameTree

/-! ### Branches -/

mutual

/-- The names on each way from the top of a tree to a leaf, which is a name with nothing nested
under it. -/
def branches : NameTree → List (List Text)
  | node children => branchesOf children

/-- The names on each way from one of the given names to a leaf. -/
def branchesOf : List (Text × NameTree) → List (List Text)
  | [] => []
  | (name, below) :: others =>
    (if below.children.isEmpty then [[name]] else below.branches.map (name :: ·))
      ++ branchesOf others

end

theorem branchesOf_leaf (name : Text) (others : List (Text × NameTree)) {below : NameTree}
    (h : below.children = []) :
    branchesOf ((name, below) :: others) = [name] :: branchesOf others := by
  rw [branchesOf, h]
  rfl

theorem branchesOf_inner (name : Text) (others : List (Text × NameTree)) {below : NameTree}
    (h : below.children ≠ []) : branchesOf ((name, below) :: others)
      = below.branches.map (name :: ·) ++ branchesOf others := by
  rw [branchesOf, if_neg (by simpa using h)]

theorem branchesOf_children (tree : NameTree) : branchesOf tree.children = tree.branches := by
  cases tree
  rw [branches]
  rfl

/-- A tree with names in it has branches. -/
theorem branches_ne_nil (tree : NameTree) : tree.children ≠ [] → tree.branches ≠ [] := by
  refine branches.induct (fun tree => tree.children ≠ [] → tree.branches ≠ [])
    (fun children => children ≠ [] → branchesOf children ≠ []) ?_ ?_ ?_ tree
  · intro children ih hne
    rw [branches]
    exact ih hne
  · exact fun hne => absurd rfl hne
  · intro name below others ih _ _
    by_cases hleaf : below.children = []
    · rw [branchesOf_leaf name others hleaf]
      exact List.cons_ne_nil _ _
    · rw [branchesOf_inner name others hleaf]
      simp [ih hleaf]

/-- A tree of names each of which is nested in the one before has these names as its only branch. -/
theorem branches_single {names : List Text} (h : names ≠ []) :
    (single names).branches = [names] := by
  induction names with
  | nil => exact absurd rfl h
  | cons name rest ih =>
    rw [single, branches]
    cases rest with
    | nil => exact branchesOf_leaf name [] rfl
    | cons next more =>
      have hinner : (single (next :: more)).children ≠ [] := List.cons_ne_nil _ _
      rw [branchesOf_inner name [] hinner, ih (List.cons_ne_nil next more)]
      rfl

/-- **Names that part from all branches are added to them.** -/
theorem branches_insert (names : List Text) (tree : NameTree) : names ≠ [] →
    (∀ way ∈ tree.branches, IsApart names way) →
      (tree.insert names).branches.Perm (names :: tree.branches) := by
  refine insert.induct
    (fun names tree => names ≠ [] → (∀ way ∈ tree.branches, IsApart names way) →
      (tree.insert names).branches.Perm (names :: tree.branches))
    (fun names children => names ≠ [] → (∀ way ∈ branchesOf children, IsApart names way) →
      (branchesOf (insertInto names children)).Perm (names :: branchesOf children))
    ?node ?empty ?nameless ?same ?other names tree
  case node =>
    intro names children ih hne hapart
    rw [insert, branches, branches]
    rw [branches] at hapart
    exact ih hne hapart
  case empty =>
    intro names hne _
    rw [insertInto, branchesOf_children, branches_single hne]
    exact List.Perm.refl _
  case nameless => exact fun _ _ _ hne => absurd rfl hne
  case same =>
    intro below others name rest ih _ hapart
    by_cases hleaf : below.children = []
    · -- the name is a leaf already, and the new names would go on from it
      rw [branchesOf_leaf name others hleaf] at hapart
      exact absurd (List.prefix_append [name] rest) (hapart [name] List.mem_cons_self).2
    · rw [branchesOf_inner name others hleaf] at hapart ⊢
      have hbelow : ∀ way ∈ below.branches, IsApart rest way := fun way hway =>
        IsApart.cons_iff.mp (hapart _ (List.mem_append_left _ (List.mem_map_of_mem hway)))
      have hrest : rest ≠ [] := by
        rintro rfl
        obtain ⟨way, hway⟩ := List.exists_mem_of_ne_nil _ (branches_ne_nil below hleaf)
        exact (hbelow way hway).1 List.nil_prefix
      have hperm := ih hrest hbelow
      have hinner : (below.insert rest).children ≠ [] := by
        intro hnone
        rw [← branchesOf_children, hnone, branchesOf] at hperm
        exact absurd hperm.length_eq (by simp)
      rw [insertInto, if_pos rfl, branchesOf_inner name others hinner]
      exact (hperm.map (name :: ·)).append_right _
  case other =>
    intro other below others name rest hother ih hne hapart
    rw [insertInto, if_neg hother, branchesOf, branchesOf]
    rw [branchesOf] at hapart
    have hothers := ih hne fun way hway => hapart way (List.mem_append_right _ hway)
    exact (hothers.append_left _).trans List.perm_middle

/-- Names are added to a tree one after the other. If they are apart from each other and from all
branches, then the branches are those of the tree and the names. -/
theorem branches_foldl {ways : List (List Text)} (hne : ∀ names ∈ ways, names ≠ [])
    (hapart : ways.Pairwise IsApart) : ∀ tree : NameTree,
      (∀ names ∈ ways, ∀ way ∈ tree.branches, IsApart names way) →
        (ways.foldl (fun tree names => tree.insert names) tree).branches.Perm
          (ways ++ tree.branches) := by
  induction ways with
  | nil => exact fun _ _ => List.Perm.refl _
  | cons names ways ih =>
    intro tree htree
    obtain ⟨hnew, hapart⟩ := List.pairwise_cons.mp hapart
    have hone := branches_insert names tree (hne names List.mem_cons_self)
      (htree names List.mem_cons_self)
    have hmore := ih (fun other hother => hne other (List.mem_cons_of_mem names hother)) hapart
      (tree.insert names) fun other hother way hway => by
        rcases List.mem_cons.mp (hone.subset hway) with rfl | hway
        · exact (hnew other hother).symm
        · exact htree other (List.mem_cons_of_mem names hother) way hway
    exact hmore.trans ((hone.append_left ways).trans List.perm_middle)

/-! ### Mappings -/

mutual

/-- A tree in which no name stands beside itself. -/
def IsMapping : NameTree → Prop
  | node children => AreDistinct children

/-- Names that are distinct, with nothing nested under them but mappings. -/
def AreDistinct : List (Text × NameTree) → Prop
  | [] => True
  | (name, below) :: others =>
    name ∉ others.map (·.1) ∧ below.IsMapping ∧ AreDistinct others

end

theorem areDistinct_children {tree : NameTree} : AreDistinct tree.children ↔ tree.IsMapping := by
  cases tree
  rw [IsMapping]
  rfl

theorem single_isMapping (names : List Text) : (single names).IsMapping := by
  induction names with
  | nil => rw [single, empty, IsMapping, AreDistinct]; trivial
  | cons name rest ih =>
    rw [single, IsMapping, AreDistinct, AreDistinct]
    exact ⟨List.not_mem_nil, ih, trivial⟩

/-- The names at the top of a tree are those that it had, and the first one of those that are added.
-/
theorem mem_names_insertInto {names : List Text} {children : List (Text × NameTree)} {name : Text}
    (h : name ∈ (insertInto names children).map (·.1)) :
    name ∈ children.map (·.1) ∨ names.head? = some name := by
  induction children with
  | nil =>
    cases names with
    | nil => exact absurd h List.not_mem_nil
    | cons first rest => exact Or.inr (congrArg some (List.mem_singleton.mp h).symm)
  | cons child others ih =>
    obtain ⟨other, below⟩ := child
    cases names with
    | nil =>
      rw [insertInto] at h
      exact Or.inl h
    | cons first rest =>
      rw [insertInto] at h
      split at h
      · exact Or.inl h
      · rcases List.mem_cons.mp h with hsame | h
        · exact Or.inl (hsame ▸ List.mem_cons_self)
        · exact (ih h).imp_left (List.mem_cons_of_mem other)

/-- A tree in which no name stands beside itself stays one when names are added. -/
theorem IsMapping.insert (names : List Text) (tree : NameTree) :
    tree.IsMapping → (tree.insert names).IsMapping := by
  refine insert.induct (fun names tree => tree.IsMapping → (tree.insert names).IsMapping)
    (fun names children => AreDistinct children → AreDistinct (insertInto names children))
    ?node ?empty ?nameless ?same ?other names tree
  case node =>
    intro names children ih h
    rw [NameTree.insert, IsMapping]
    rw [IsMapping] at h
    exact ih h
  case empty =>
    intro names _
    rw [insertInto]
    exact areDistinct_children.mpr (single_isMapping names)
  case nameless =>
    intro other below others h
    rw [insertInto]
    exact h
  case same =>
    intro below others name rest ih h
    rw [AreDistinct] at h
    rw [insertInto, if_pos rfl, AreDistinct]
    exact ⟨h.1, ih h.2.1, h.2.2⟩
  case other =>
    intro other below others name rest hother ih h
    rw [AreDistinct] at h
    rw [insertInto, if_neg hother, AreDistinct]
    refine ⟨fun hmem => ?_, h.2.1, ih h.2.2⟩
    rcases mem_names_insertInto hmem with hmem | hnew
    · exact h.1 hmem
    · exact hother (Option.some.inj hnew).symm

theorem foldl_isMapping (ways : List (List Text)) : ∀ {tree : NameTree}, tree.IsMapping →
    (ways.foldl (fun tree names => tree.insert names) tree).IsMapping := by
  induction ways with
  | nil => exact fun h => h
  | cons names ways ih => exact fun h => ih (h.insert names _)

end NameTree

/-! ### Entries that are kept -/

/-- **What is kept of the entries of a walk**: the first whose paths are wanted, up to the limit;
and it is noted whether more of them are. -/
theorem forIn_keepWanted (wanted : Text → Bool) (most : Nat) (given : List Entry) :
    ∀ kept : List Entry, kept.length ≤ most →
      (forIn given (kept, false) fun entry acc =>
          (pure (keepWanted wanted most entry acc) : Id _)).run
        = (((given.filter (wanted ·.path)).take (most - kept.length)).reverse ++ kept,
          decide (most < kept.length + (given.filter (wanted ·.path)).length)) := by
  induction given with
  | nil =>
    intro kept hkept
    simp [Nat.not_lt.mpr hkept]
  | cons entry given ih =>
    intro kept hkept
    rw [List.forIn_cons, keepWanted]
    cases hwanted : wanted entry.path with
    | false =>
      rw [List.filter_cons_of_neg (by simp [hwanted])]
      exact ih kept hkept
    | true =>
      have hfirst : (entry :: given).filter (wanted ·.path)
          = entry :: given.filter (wanted ·.path) := List.filter_cons_of_pos hwanted
      rw [hfirst, List.length_cons]
      by_cases hfull : (most : Int) ≤ kept.length
      · have hnone : most - kept.length = 0 := by omega
        have hmore : most < kept.length + ((given.filter (wanted ·.path)).length + 1) := by
          omega
        simp [hfull, hnone, hmore]
      · have hroom : most - kept.length = (most - (entry :: kept).length) + 1 := by
          rw [List.length_cons]
          omega
        have hnext := ih (entry :: kept) (by rw [List.length_cons]; omega)
        simp only [Bool.not_true, Bool.false_eq_true, if_false, hfull, pure_bind]
        rw [hnext, hroom, List.take_succ_cons, List.reverse_cons, List.append_assoc,
          List.length_cons, Nat.add_right_comm, ← Nat.add_assoc]
        rfl

/-- A listing of the first of some entries: each way through its names to a leaf is the path of one
of them, and none of them is missing or stands for another one; there are as many leaves as it
says, and it says whether there are entries beyond the limit. -/
structure NestedListing.Nests (l : NestedListing) (limit : Int) (entries : List Entry) : Prop where
  mapping : l.content.IsMapping
  paths : (l.content.branches.map (Text.joinWith '/')).Perm
    ((entries.take limit.toNat).map (·.path))
  nodup : (l.content.branches.map (Text.joinWith '/')).Nodup
  total : l.total = l.content.branches.length
  isLimited : l.isLimited = true ↔ limit < entries.length

/-- The listing of the first of some entries, up to a limit. -/
def NestedListing.ofEntries (most : Nat) (entries : List Entry) : NestedListing where
  content := (entries.take most).foldl (fun tree entry => tree.insert entry.names) .empty
  total := (entries.take most).length
  isLimited := decide (most < entries.length)

/-- If no entry leads to another one then the tree of their paths, up to a limit, is a listing of
the first of them. -/
theorem NestedListing.ofEntries_nests {entries : List Entry} (most : Nat)
    (hnames : ∀ e ∈ entries, e.names ≠ [] ∧ ∀ part ∈ e.names, Path.IsEntryName part)
    (hapart : entries.Pairwise fun a b => IsApart a.names b.names) :
    (ofEntries most entries).Nests most entries := by
  have hkept : ∀ e ∈ entries.take most, e ∈ entries := fun e he => List.mem_of_mem_take he
  have hkeptApart : (entries.take most).Pairwise fun a b => IsApart a.names b.names :=
    hapart.sublist (List.take_sublist most entries)
  have hcontent : (ofEntries most entries).content
      = ((entries.take most).map (·.names)).foldl (fun tree names => tree.insert names) .empty := by
    rw [List.foldl_map]
    rfl
  have hperm : (ofEntries most entries).content.branches.Perm
      ((entries.take most).map (·.names)) := by
    have hempty : NameTree.empty.branches = [] := rfl
    have hne : ∀ names ∈ (entries.take most).map (·.names), names ≠ [] := by
      intro names hmem
      obtain ⟨e, he, rfl⟩ := List.mem_map.mp hmem
      exact (hnames e (hkept e he)).1
    have hfold := NameTree.branches_foldl hne (List.pairwise_map.mpr hkeptApart) .empty
      fun _ _ way hway => nomatch hempty ▸ hway
    rwa [hempty, List.append_nil, ← hcontent] at hfold
  have hpaths : ((ofEntries most entries).content.branches.map (Text.joinWith '/')).Perm
      ((entries.take most).map (·.path)) := by
    have hjoined := hperm.map (Text.joinWith '/')
    rwa [List.map_map] at hjoined
  refine ⟨?_, hpaths, hpaths.nodup_iff.mpr ?_, ?_, ?_⟩
  · rw [hcontent]
    exact NameTree.foldl_isMapping _ trivial
  · refine List.pairwise_map.mpr (hkeptApart.imp_of_mem fun {a b} ha hb h hsame => h.ne ?_)
    exact joinWith_injective (hnames a (hkept a ha)) (hnames b (hkept b hb)) hsame
  · rw [hperm.length_eq, List.length_map]
    rfl
  · rw [Int.ofNat_lt]
    exact decide_eq_true_iff

/-- If there are more entries than the limit then the listing stays the same with others behind
them. -/
theorem NestedListing.ofEntries_of_prefix {entries entries' : List Entry} {most : Nat}
    (h : entries <+: entries') (hmost : most < entries.length) :
    ofEntries most entries' = ofEntries most entries := by
  obtain ⟨more, rfl⟩ := h
  have hmore : most < (entries ++ more).length := by
    rw [List.length_append]
    omega
  rw [ofEntries, ofEntries, List.take_append_of_le_length hmost.le, decide_eq_true hmost,
    decide_eq_true hmore]

/-- If there is a nested listing then the directory was given by the base, the expression could be
read, the options passed the check and a walk was started; the listing is the tree of what was kept
of its entries. -/
theorem exists_of_nestDirectoryBy {reading : RegexReading} {fs : FileSystem Id} {steps : Nat}
    {current : Path} {base : Text} {name : Option Text} {depth : Option Int} {regexp : Option Text}
    {limit : Int} (hlimit : 0 ≤ limit) {listing : NestedListing}
    (h : (nestDirectoryBy reading fs steps current base name depth regexp limit).run.answer
      = .ok listing) :
    ∃ target wanted options w₀ kept, Path.resolveWithin current base name = .ok target ∧
      reading.filter regexp = .ok wanted ∧
      ({ Walk.Request.plain with maxDepth := depth } : Walk.Request).check = .ok options ∧
      ((Walk.new target options).start fs).run = (.ok (), w₀) ∧
      (Walk.visit fs (keepWanted wanted limit) steps ([], false) w₀).run.1 = .ok kept ∧
      ∀ given last, (w₀.entries fs steps).run = (.ok given, last) →
        listing = .ofEntries limit.toNat (given.filter (wanted ·.path)) := by
  unfold nestDirectoryBy at h
  cases htarget : Path.resolveWithin current base name with
  | error e => rw [htarget] at h; cases h
  | ok target =>
    rw [htarget] at h
    simp only at h
    cases hwanted : reading.filter regexp with
    | error e => rw [hwanted] at h; cases h
    | ok wanted =>
      rw [hwanted] at h
      simp only at h
      cases hcheck : ({ Walk.Request.plain with maxDepth := depth } : Walk.Request).check with
      | error e => rw [hcheck] at h; cases h
      | ok options =>
        rw [hcheck] at h
        simp only [Id.run_bind, walkThrough] at h
        generalize hstart : ((Walk.new target options).start fs).run = started at h
        obtain ⟨accepted, w₀⟩ := started
        cases accepted with
        | error e => cases h
        | ok accepted =>
          simp only [Id.run_bind] at h
          cases hkept : (Walk.visit fs (keepWanted wanted limit) steps ([], false) w₀).run.1 with
          | error e =>
            simp only [Id.run_pure, hkept] at h
            cases h
          | ok kept =>
            refine ⟨target, wanted, options, w₀, kept, rfl, rfl, rfl, hstart, hkept, ?_⟩
            intro given last hgiven
            obtain ⟨most, rfl⟩ := Int.eq_ofNat_of_zero_le hlimit
            have hanswer := Walk.visit_of_entries hgiven (keepWanted wanted most) ([], false)
            rw [forIn_keepWanted wanted most given [] (Nat.zero_le most), hkept] at hanswer
            simp only [Id.run_pure, hkept] at h
            rw [← Except.ok.inj h, Except.ok.inj hanswer]
            simp [NestedListing.ofEntries]

/-- **A nested listing is the tree of exactly the entries that are kept.** Let listings be made of
distinct names, and let a nested listing be given, whatever regular expressions mean, and whatever
base, directory, depth, expression and limit it was asked for with. Then the expression stands for
some wanted paths, a walk of the directory gives out entries without a failure, and the ways from
the top of the listing to its leaves are the paths of the first of them that are wanted, as many as
there are up to the limit; it has one leaf for each; and it says that there are more of them than
the limit if that is so. The entries are those of as many steps, or of more if the listing has seen
the end of the walk or more entries than the limit. -/
theorem nestDirectoryBy_nests {reading : RegexReading} {fs : FileSystem Id}
    (hlist : ∀ path entries, (fs.list path).run = .ok entries → IsListing entries)
    {current : Path} (hcurrent : current.IsRooted) {steps : Nat} {base : Text}
    {name : Option Text} {depth : Option Int} {regexp : Option Text} {limit : Int}
    (hlimit : 0 ≤ limit) {listing : NestedListing}
    (h : (nestDirectoryBy reading fs steps current base name depth regexp limit).run.answer
      = .ok listing) :
    ∃ target wanted options w₀, Path.resolveWithin current base name = .ok target ∧
      reading.filter regexp = .ok wanted ∧
      ({ Walk.Request.plain with maxDepth := depth } : Walk.Request).check = .ok options ∧
      ((Walk.new target options).start fs).run = (.ok (), w₀) ∧
      ∀ more, more = 0 ∨ listing.isLimited = true ∨ (w₀.entries fs steps).run.2.phase = .ended →
        ∃ given last, (w₀.entries fs (steps + more)).run = (.ok given, last) ∧
          listing.Nests limit (given.filter (wanted ·.path)) := by
  obtain ⟨target, wanted, options, w₀, kept, htarget, hwanted, hcheck, hstart, hkept, hmade⟩ :=
    exists_of_nestDirectoryBy hlimit h
  refine ⟨target, wanted, options, w₀, htarget, hwanted, hcheck, hstart, fun more hmore => ?_⟩
  have hmax : options.maxEntries = none := Walk.Request.maxEntries_of_check hcheck rfl
  have hrooted : target.IsRooted := Path.isRooted_of_resolveWithin hcurrent htarget
  have hreal := Walk.exists_real_of_visit hmax hstart hkept
  obtain ⟨given, last, hgiven, -⟩ := Walk.exists_entries hlist hrooted hmax hstart hreal
  have hlisting := hmade given last hgiven
  -- without a step nothing is known of the root, but then there are no more steps either
  have hsteps : steps + more ≠ 0 → steps ≠ 0 := by
    rintro hsum rfl
    obtain ⟨hnone, hlast⟩ := Prod.mk.inj hgiven
    rcases hmore with rfl | hmany | hend
    · exact hsum rfl
    · rw [hlisting, ← Except.ok.inj hnone] at hmany
      cases hmany
    · obtain ⟨_, -, haccepted⟩ := Walk.start_accepted hstart
      exact absurd (haccepted.phase.symm.trans hend) (by decide)
  obtain ⟨given', last', hgiven', hnames, hapart⟩ :=
    Walk.exists_entries hlist hrooted hmax hstart fun hsum => hreal (hsteps hsum)
  have hsame : listing = .ofEntries limit.toNat (given'.filter (wanted ·.path)) := by
    rcases hmore with rfl | hmany | hend
    · exact hmade given' last' hgiven'
    · rw [hlisting] at hmany ⊢
      exact (NestedListing.ofEntries_of_prefix ((Walk.entries_prefix hgiven hgiven').filter _)
        (of_decide_eq_true hmany)).symm
    · exact hmade given' last' (Walk.entries_add_of_ended hend more ▸ hgiven')
  refine ⟨given', last', hgiven', ?_⟩
  rw [hsame, ← Int.toNat_of_nonneg hlimit, Int.toNat_natCast]
  refine NestedListing.ofEntries_nests _ (fun e he => ?_) (hapart.sublist List.filter_sublist)
  exact hnames e (List.mem_of_mem_filter he)

/-- Two of the three entries of the inner directory are listed, and it is noted that there is one
more. -/
theorem nestDirectoryBy_nests_nestedFiles :
    ∃ listing : NestedListing, (nestDirectory Walk.nestedFiles 8 .rootDirectory (Text.lit "/r")
        none none (some (Text.lit "d/")) 2).run.answer = .ok listing ∧
      listing.content.branches = [["d", ".gitignore"], ["d", "a"]].map (·.map Text.lit) ∧
      ∃ target wanted options w₀,
        Path.resolveWithin .rootDirectory (Text.lit "/r") none = .ok target ∧
        RegexReading.ignoringCase.filter (some (Text.lit "d/")) = .ok wanted ∧
        ({ Walk.Request.plain with maxDepth := none } : Walk.Request).check = .ok options ∧
        ((Walk.new target options).start Walk.nestedFiles).run = (.ok (), w₀) ∧
        ∃ given last, (w₀.entries Walk.nestedFiles 13).run = (.ok given, last) ∧
          listing.Nests 2 (given.filter (wanted ·.path)) := by
  obtain ⟨listing, hlisting, hbranches, hmany⟩ : ∃ listing : NestedListing,
      (nestDirectory Walk.nestedFiles 8 .rootDirectory (Text.lit "/r") none none
        (some (Text.lit "d/")) 2).run.answer = .ok listing ∧
      listing.content.branches = [["d", ".gitignore"], ["d", "a"]].map (·.map Text.lit) ∧
      listing.isLimited = true := ⟨_, rfl, by decide +kernel, by decide +kernel⟩
  obtain ⟨target, wanted, options, w₀, htarget, hwanted, hcheck, hstart, hwalk⟩ :=
    nestDirectoryBy_nests Walk.nestedFiles_isListing ⟨rfl, by simp [Path.rootDirectory]⟩
      (by decide) hlisting
  exact ⟨listing, hlisting, hbranches, target, wanted, options, w₀, htarget, hwanted, hcheck,
    hstart, hwalk 5 (.inr (.inl hmany))⟩

end TreeSieve

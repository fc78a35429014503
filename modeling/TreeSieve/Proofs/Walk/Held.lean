import TreeSieve.Proofs.Files.Holding
import TreeSieve.Proofs.Sieve.Written
import TreeSieve.Proofs.Walk.Exactness
import TreeSieve.Proofs.Walk.Moved
import TreeSieve.Proofs.Walk.Schedule
import TreeSieve.Proofs.Walk.Termination

/-!
# Traversals of trees that are held

A traversal that follows no links and has no depth limit sees of a tree what its nodes are, wherever
the tree is held.

* `Traversal.Roams` holds of such a traversal, and `Place.StandsAt` of a place at a node.
* `Traversal.Roams.sight_of_leaf` and `Traversal.Roams.sight_of_directory` say what is seen at a
  node.
* `Place.Moves` holds of places at the same node of a tree that is held below two paths, and
  `Traversal.Roams.exists_moves` says that two traversals reach such places.
* `Walk.exists_closes_of_roams` says that a walk comes to its end, and
  `Walk.Closes.mem_names_congr` that two walks of the same tree give out the same.
* `Walk.Closes.isIgnored_of_mem` and `Walk.Closes.mem_of_isIgnored` compare what a walk has given
  out with the verdicts that are reached in the end.
-/

namespace TreeSieve

/-- A traversal of a tree that is held below its root. It follows no links and has no depth
limit. -/
structure Traversal.Roams (t : Traversal) (tree : Node) : Prop where
  top : t.root.IsTop
  holds : t.files.Holds t.root tree
  followLinks : t.options.followLinks = false
  maxDepth : t.options.maxDepth = none

/-- A place that is reached by the names of a node, which is what is known of it. -/
structure Place.StandsAt (tree : Node) (place : Place) (node : Node) : Prop where
  at? : tree.at? place.item.names = some node
  stats : place.item.stats = node.stats

/-- What is listed of a directory. -/
def Node.listing (node : Node) : List ListedEntry :=
  node.entries.map fun entry => ⟨entry.1, entry.2.kind⟩

/-- The entries of a proper directory are told by their names. -/
theorem Node.IsProper.entry?_eq {node : Node} (h : node.IsProper) {entry : Text × Node}
    (hentry : entry ∈ node.entries) : node.entry? entry.1 = some entry.2 := by
  have hnodup : (node.entries.map (·.1)).Nodup := by
    have hlisting := h.isListing.nodup
    rwa [List.map_map] at hlisting
  obtain ⟨before, after, hsplit⟩ := List.append_of_mem hentry
  rw [hsplit, List.map_append, List.map_cons] at hnodup
  rw [Node.entry?, List.lookup_eq_some_iff]
  refine ⟨before, after, hsplit, fun other hother => bne_iff_ne.mpr ?_⟩
  exact ((List.nodup_append.mp hnodup).2.2 other.1 (List.mem_map_of_mem hother) entry.1
    List.mem_cons_self).symm

theorem Place.StandsAt.isDirectory_iff {tree node : Node} {place : Place}
    (h : place.StandsAt tree node) (htree : tree.IsProper) :
    place.item.stats.isDirectory = true ↔ node.kind = .directory := by
  rw [h.stats, (htree.at? h.at?).2.isDirectory_stats]

namespace Traversal.Roams

variable {t : Traversal} {tree : Node} (h : t.Roams tree)

include h

theorem exists_realPathOf (item : Candidate) : ∃ real, t.realPathOf item = .ok real := by
  rw [realPathOf]
  split
  · rename_i hdepth
    obtain ⟨real, hreal⟩ := h.holds.realPath
    rw [List.length_eq_zero_iff.mp hdepth, pathOf, Path.descend_nil, hreal]
    exact ⟨_, rfl⟩
  · exact ⟨_, rfl⟩

/-! ### What is seen at a node -/

section Nodes

variable (htree : tree.IsProper) {place : Place} {node : Node} (hplace : place.StandsAt tree node)

include htree hplace

/-- What is no directory is given out unless it is ignored, and nothing else is seen there. -/
theorem sight_of_leaf (hkind : node.kind ≠ .directory) : t.sight place.rules place.item
    = ⟨t.offer place.rules place.item place.item.stats false, [], []⟩ := by
  have hleaf : place.item.stats.isDirectory = false := by
    rw [← Bool.not_eq_true, hplace.isDirectory_iff htree]
    exact hkind
  rw [sight, t.resolve_of_unfollowed h.followLinks]
  simp only [hleaf, Bool.false_eq_true, if_false]

/-- What is seen at a directory: nothing if it is pruned, and otherwise what is in it. -/
theorem sight_of_directory (hkind : node.kind = .directory) :
    (listPrunes place.rules (canonical (t.pathOf place.item.names)) = true ∧
      t.sight place.rules place.item = ⟨[], [], []⟩) ∨
    listPrunes place.rules (canonical (t.pathOf place.item.names)) = false ∧ ∃ real given,
      t.sight place.rules place.item = ⟨given, t.ownRules place.item.names node.listing,
        t.children place.item real node.listing⟩ := by
  have hdirectory : place.item.stats.isDirectory = true :=
    (hplace.isDirectory_iff htree).mpr hkind
  obtain ⟨real, hreal⟩ := h.exists_realPathOf place.item
  have hlist : (t.files.list (t.pathOf place.item.names)).run = .ok node.listing :=
    h.holds.list _ node hplace.at? hkind
  have hdepth : (t.options.maxDepth == some place.item.depth) = false := by
    rw [h.maxDepth]
    rfl
  rw [sight, t.resolve_of_unfollowed h.followLinks]
  simp only [hdirectory, hreal, if_true, sightOfDirectory, hlist, hdepth, Bool.false_eq_true,
    if_false]
  cases hprunes : listPrunes place.rules (canonical (t.pathOf place.item.names)) with
  | true => exact .inl ⟨rfl, rfl⟩
  | false =>
    refine .inr ⟨rfl, real, ?_⟩
    rw [if_neg Bool.false_ne_true]
    split
    · rename_i hnil
      cases hnil
    · rename_i hnil
      rw [Except.ok.inj hnil]
      exact ⟨_, rfl⟩
    · rename_i entries _ hentries
      rw [Except.ok.inj hentries]
      exact ⟨[], rfl⟩

/-- The entries in a directory are its nodes. -/
theorem children_eq (real : Text) : t.children place.item real node.listing
    = node.entries.map fun entry =>
      ⟨place.item.names ++ [entry.1], entry.2.stats, real, real :: place.item.visited⟩ := by
  have hnode := (htree.at? hplace.at?).2
  rw [children, Node.listing, List.filterMap_map, ← List.filterMap_eq_map]
  refine List.filterMap_congr fun entry hentry => ?_
  have hat : tree.at? (place.item.names ++ [entry.1]) = some entry.2 := by
    rw [Node.at?_concat hplace.at?]
    exact hnode.entry?_eq hentry
  have hlstat : (t.files.lstat (t.pathOf (place.item.names ++ [entry.1]))).run
      = .ok entry.2.stats := h.holds.lstat _ _ (by simp) hat
  simp only [Function.comp_apply, hlstat]

/-- The places in a directory that is not pruned stand at its nodes. -/
theorem below_of_directory (hkind : node.kind = .directory) :
    (listPrunes place.rules (canonical (t.pathOf place.item.names)) = true ∧
      (t.look place).2 = []) ∨
    listPrunes place.rules (canonical (t.pathOf place.item.names)) = false ∧ ∃ real,
      (t.look place).2 = node.entries.map fun entry =>
        ⟨place.rules ++ t.ownRules place.item.names node.listing,
          ⟨place.item.names ++ [entry.1], entry.2.stats, real, real :: place.item.visited⟩⟩ := by
  rcases h.sight_of_directory htree hplace hkind with ⟨hprunes, hs⟩ | ⟨hprunes, real, given, hs⟩
  · refine .inl ⟨hprunes, ?_⟩
    rw [look, hs]
    rfl
  · refine .inr ⟨hprunes, real, ?_⟩
    rw [look, hs, h.children_eq htree hplace real, List.map_map]
    rfl

/-- A place in a place stands at a node in its node. -/
theorem exists_of_mem_below {below : Place} (hbelow : below ∈ (t.look place).2) :
    node.kind = .directory ∧ ∃ entry ∈ node.entries, below.StandsAt tree entry.2 := by
  by_cases hkind : node.kind = .directory
  · refine ⟨hkind, ?_⟩
    rcases h.below_of_directory htree hplace hkind with ⟨-, hnil⟩ | ⟨-, real, heq⟩
    · rw [hnil] at hbelow
      exact absurd hbelow List.not_mem_nil
    · rw [heq] at hbelow
      obtain ⟨entry, hentry, rfl⟩ := List.mem_map.mp hbelow
      refine ⟨entry, hentry, ?_, rfl⟩
      rw [Node.at?_concat hplace.at?]
      exact (htree.at? hplace.at?).2.entry?_eq hentry
  · rw [look, h.sight_of_leaf htree hplace hkind] at hbelow
    exact absurd hbelow List.not_mem_nil

end Nodes

end Traversal.Roams

/-! ### A tree that is held below two paths -/

/-- Places at the same node, to which the same rules are passed on below two roots. -/
structure Place.Moves (tree : Node) (top top' : Path) (place place' : Place) : Prop where
  names : place'.item.names = place.item.names
  stands : ∃ node, place.StandsAt tree node ∧ place'.StandsAt tree node
  rules : List.Forall₂ (Rule.Moves top top') place.rules place'.rules

namespace Traversal.Roams

variable {t t' : Traversal} {tree : Node} (h : t.Roams tree) (h' : t'.Roams tree)
  (hignore : t'.options.ignoreNames = t.options.ignoreNames) (htree : tree.IsProper)

section Loading

variable {names : List Text} {name : Text} {permissions : Nat} {size : Int} {content : List UInt8}
  (hat : tree.at? (names ++ [name]) = some (.file .file permissions size content))

include h htree hat

omit h' hignore in
/-- The rules of an ignore file are those of its content, unless it is too large. -/
theorem load_rules : (IgnoreFile.load t.files MatcherCache.empty
      (t.pathOf (names ++ [name]))).run.1.rules
    = if size > IgnoreFile.maxSize then []
      else (IgnoreFile.parse MatcherCache.empty (t.root.descend names).toText (.bytes content)
        (some (t.pathOf (names ++ [name])))).1.rules := by
  have hrooted := h.top.1.descend (htree.at? hat).1
  have hfile : Path.ofText (t.pathOf (names ++ [name])) = t.root.descend (names ++ [name]) :=
    hrooted.ofText_toText
  have hparent : (t.root.descend (names ++ [name])).parent = t.root.descend names := by
    rw [Path.parent, Path.descend, ← List.append_assoc, List.dropLast_concat, Path.descend]
  have hlstat := h.holds.lstat _ _ (by simp) hat
  have hread := h.holds.read _ _ _ _ hat
  unfold IgnoreFile.load
  simp only [hfile, hparent, Id.run_bind, hlstat]
  show (if size > IgnoreFile.maxSize then _ else _ : Id (IgnoreFile × MatcherCache)).run.1.rules = _
  split
  · rfl
  · simp only [Id.run_bind, hread]
    rfl

end Loading

include h h' hignore htree

/-- The ignore files of a directory give the same rules below both roots, for other scopes. -/
theorem ownRules_moves {names : List Text} {node : Node} (hat : tree.at? names = some node) :
    List.Forall₂ (Rule.Moves t.root t'.root) (t.ownRules names node.listing)
      (t'.ownRules names node.listing) := by
  have hentries : ∀ entries : List (Text × Node), (∀ entry ∈ entries, entry ∈ node.entries) →
      List.Forall₂ (Rule.Moves t.root t'.root)
        (t.ownRules names (entries.map fun entry => ⟨entry.1, entry.2.kind⟩))
        (t'.ownRules names (entries.map fun entry => ⟨entry.1, entry.2.kind⟩)) := by
    intro entries hmem
    induction entries with
    | nil => exact .nil
    | cons entry rest ih =>
      have hentry : tree.at? (names ++ [entry.1]) = some entry.2 := by
        rw [Node.at?_concat hat]
        exact (htree.at? hat).2.entry?_eq (hmem entry List.mem_cons_self)
      have hlstat := h.holds.lstat _ _ (by simp) hentry
      have hlstat' := h'.holds.lstat _ _ (by simp) hentry
      rw [ownRules, ownRules, List.map_cons, List.flatMap_cons, List.flatMap_cons]
      refine List.rel_append ?_ (ih fun other hother => hmem other (List.mem_cons_of_mem _ hother))
      simp only [pathOf, hlstat, hlstat', hignore]
      split
      · rename_i hfile
        obtain ⟨name, child⟩ := entry
        have hkind : child.kind = .file := by
          rw [← (htree.at? hentry).2.kind_stats]
          exact beq_iff_eq.mp (Bool.and_eq_true_iff.mp hfile).1
        cases child with
        | link _ _ _ => cases hkind
        | directory _ _ _ => cases hkind
        | file kind permissions size content =>
          obtain rfl : kind = .file := hkind
          have hrules := h.load_rules htree hentry
          have hrules' := h'.load_rules htree hentry
          rw [pathOf] at hrules hrules'
          rw [hrules, hrules']
          split
          · exact .nil
          · exact IgnoreFile.parse_moves (htree.at? hat).1 _ _ _ _ _
      · exact .nil
  exact hentries node.entries fun _ hmem => hmem

/-- Two traversals come upon such places in such places. -/
theorem exists_moves_of_mem {place place' below : Place}
    (hplace : place.Moves tree t.root t'.root place') (hbelow : below ∈ (t.look place).2) :
    ∃ below' ∈ (t'.look place').2, below.Moves tree t.root t'.root below' := by
  obtain ⟨hnames, ⟨node, hstands, hstands'⟩, hrules⟩ := hplace
  obtain ⟨hkind, -⟩ := h.exists_of_mem_below htree hstands hbelow
  have hpruned : listPrunes place'.rules (canonical (t'.pathOf place'.item.names))
      = listPrunes place.rules (canonical (t.pathOf place.item.names)) := by
    rw [hnames]
    exact listPrunes_of_moves h.top h'.top hrules (htree.at? hstands.at?).1
  rcases h.below_of_directory htree hstands hkind with ⟨-, hnil⟩ | ⟨hopen, real, heq⟩
  · rw [hnil] at hbelow
    exact absurd hbelow List.not_mem_nil
  · rcases h'.below_of_directory htree hstands' hkind with ⟨hshut, -⟩ | ⟨-, real', heq'⟩
    · rw [hpruned, hopen] at hshut
      exact absurd hshut Bool.false_ne_true
    · rw [heq] at hbelow
      obtain ⟨entry, hentry, rfl⟩ := List.mem_map.mp hbelow
      have hat : tree.at? (place.item.names ++ [entry.1]) = some entry.2 := by
        rw [Node.at?_concat hstands.at?]
        exact (htree.at? hstands.at?).2.entry?_eq hentry
      refine ⟨_, heq' ▸ List.mem_map_of_mem hentry, ?_, ⟨entry.2, ⟨hat, rfl⟩, ⟨?_, rfl⟩⟩, ?_⟩
      · rw [hnames]
      · rw [hnames]
        exact hat
      · rw [hnames]
        exact List.rel_append hrules (h.ownRules_moves h' hignore htree hstands.at?)

/-- **Two traversals reach such places.** -/
theorem exists_moves {first first' place : Place}
    (hreach : Reaches t.look first place) (hfirst : first.Moves tree t.root t'.root first') :
    ∃ place', Reaches t'.look first' place' ∧ place.Moves tree t.root t'.root place' := by
  induction hreach with
  | refl => exact ⟨first', .refl, hfirst⟩
  | tail _ hbelow ih =>
    obtain ⟨place', hreach', hplace⟩ := ih
    obtain ⟨below', hbelow', hmoves⟩ := h.exists_moves_of_mem h' hignore htree hplace hbelow
    exact ⟨below', hreach'.tail hbelow', hmoves⟩

omit h h' hignore htree in
/-- The places that two traversals begin with. -/
theorem rootPlace_moves (t t' : Traversal) (tree : Node) :
    (t.rootPlace tree.stats).Moves tree t.root t'.root (t'.rootPlace tree.stats) := by
  refine ⟨rfl, ⟨tree, ⟨Node.at?_nil tree, rfl⟩, ⟨Node.at?_nil tree, rfl⟩⟩, ?_⟩
  have hrules : List.Forall₂ (Rule.Moves t.root t'.root)
      (IgnoreFile.parse MatcherCache.empty (t.root.descend []).toText
        (.text Walk.metadataRule) none).1.rules
      (IgnoreFile.parse MatcherCache.empty (t'.root.descend []).toText
        (.text Walk.metadataRule) none).1.rules :=
    IgnoreFile.parse_moves (List.forall_mem_nil _) _ _ _ _ _
  rwa [Path.descend_nil, Path.descend_nil] at hrules

end Traversal.Roams

/-! ### Walks -/

namespace Traversal.Roams

variable {t : Traversal} {tree : Node} (h : t.Roams tree) (htree : tree.IsProper)

include h htree

/-- The places that are reached stand at nodes. -/
theorem standsAt_of_reaches {place : Place}
    (hreach : Reaches t.look (t.rootPlace tree.stats) place) :
    ∃ node, place.StandsAt tree node := by
  induction hreach with
  | refl => exact ⟨tree, Node.at?_nil tree, rfl⟩
  | tail _ hbelow ih =>
    obtain ⟨node, hnode⟩ := ih
    obtain ⟨-, entry, -, hentry⟩ := h.exists_of_mem_below htree hnode hbelow
    exact ⟨entry.2, hentry⟩

/-- Recursion through a tree that is held comes to its end. -/
theorem exists_gather : ∃ found,
    gather (tour t.look) (tree.count + 1) (t.rootPlace tree.stats) = some found := by
  have hwidth : ∀ x rank, (∃ node, x.StandsAt tree node ∧ node.count = rank) →
      (t.look x).2.length ≤ tree.count := by
    rintro x rank ⟨node, hnode, -⟩
    by_cases hkind : node.kind = .directory
    · rcases h.below_of_directory htree hnode hkind with ⟨-, hnil⟩ | ⟨-, real, heq⟩
      · rw [hnil]
        exact Nat.zero_le _
      · rw [heq, List.length_map]
        exact (Nat.le_of_lt node.length_entries_lt).trans (Node.count_le_of_at? hnode.at?)
    · rw [look, h.sight_of_leaf htree hnode hkind]
      exact Nat.zero_le _
  -- the places in a place stand at smaller nodes
  have hbelow : ∀ x rank, (∃ node, x.StandsAt tree node ∧ node.count = rank) →
      ∀ y ∈ (t.look x).2, ∃ less < rank, ∃ node, y.StandsAt tree node ∧ node.count = less := by
    rintro x rank ⟨node, hnode, rfl⟩ y hy
    obtain ⟨-, entry, hentry, hstands⟩ := h.exists_of_mem_below htree hnode hy
    exact ⟨entry.2.count,
      Node.count_lt_of_entry? ((htree.at? hnode.at?).2.entry?_eq hentry), entry.2, hstands, rfl⟩
  obtain ⟨found, hfound, -⟩ := exists_gather_of_rank _ hwidth hbelow (tree.count + 1)
    (t.rootPlace tree.stats) tree.count ⟨tree, ⟨Node.at?_nil tree, rfl⟩, rfl⟩ (Nat.lt_succ_self _)
  exact ⟨found, hfound⟩

end Traversal.Roams

namespace Walk

section Held

variable {fs : FileSystem Id} {root : Path} {options : Walk.Options} {tree : Node}
  (h : Traversal.Roams ⟨fs, root, options⟩ tree) (htree : tree.IsProper)
  (hlist : ∀ path entries, (fs.list path).run = .ok entries → IsListing entries)
  (hlimit : options.maxEntries = none)

include h htree hlist hlimit

/-- A walk through a tree that is held begins, and comes to its end with entries. -/
theorem exists_closes_of_roams : ∃ w₀ given last,
    ((Walk.new root options).start fs).run = (.ok (), w₀) ∧ w₀.rootStats = tree.stats ∧
      Closes fs w₀ (.ok given) last := by
  have hstart := start_of_lookAtRoot h.holds.root options
  obtain ⟨found, hfound⟩ := h.exists_gather htree
  obtain ⟨seen, last, -, -, htours⟩ := start_tours_of_gather hlist h.top.1 hlimit hstart
    h.holds.realPath hfound
  exact ⟨_, _, _, hstart, rfl, htours.ends.closes⟩

variable {w₀ last : Walk} {given : List Entry}
  (hstart : ((Walk.new root options).start fs).run = (.ok (), w₀))
  (hstats : w₀.rootStats = tree.stats) (hcloses : Closes fs w₀ (.ok given) last)
  {names : List Text} {node : Node} (hne : names ≠ []) (hat : tree.at? names = some node)
  (hkind : node.kind ≠ .directory)

include hstart hstats hcloses hne hat hkind

/-- A walk gives out what is no directory if it reaches a place there, where the rules that are
passed on do not ignore it. -/
theorem Closes.mem_names_iff : names ∈ given.map (·.names) ↔
    ∃ place, Reaches (Traversal.look ⟨fs, root, options⟩)
      (Traversal.rootPlace ⟨fs, root, options⟩ tree.stats) place ∧ place.item.names = names ∧
      listIgnores place.rules (canonical (root.descend names).toText) false = false := by
  have hmem := fun e => hcloses.mem_iff hlist h.top.1 hlimit hstart h.holds.realPath (e := e)
  rw [hstats] at hmem
  have hoffer : ∀ {place : Place}, Reaches (Traversal.look ⟨fs, root, options⟩)
      (Traversal.rootPlace ⟨fs, root, options⟩ tree.stats) place → place.item.names = names →
      (Traversal.look ⟨fs, root, options⟩ place).1
        = Traversal.offer ⟨fs, root, options⟩ place.rules place.item place.item.stats false := by
    intro place hreach hnames
    obtain ⟨other, hother⟩ := h.standsAt_of_reaches htree hreach
    obtain rfl : node = other := Option.some.inj (hat.symm.trans (hnames ▸ hother.at?))
    rw [Traversal.look, h.sight_of_leaf htree hother hkind]
  constructor
  · intro hgiven
    obtain ⟨e, he, hnames⟩ := List.mem_map.mp hgiven
    obtain ⟨place, hreach, hseen⟩ := (hmem e).mp he
    have hplace : place.item.names = names :=
      (Traversal.names_given _ place e hseen).symm.trans hnames
    rw [hoffer hreach hplace, Traversal.mem_offer] at hseen
    exact ⟨place, hreach, hplace, hplace ▸ hseen.2.2⟩
  · rintro ⟨place, hreach, rfl, hkept⟩
    refine List.mem_map.mpr ⟨⟨place.item.names, (root.descend place.item.names).toText,
      place.item.stats⟩, (hmem _).mpr ⟨place, hreach, ?_⟩, rfl⟩
    rw [hoffer hreach rfl, Traversal.mem_offer]
    exact ⟨rfl, hne, hkept⟩

/-- What a walk gives out is not ignored by the rules that are known in the end. -/
theorem Closes.isIgnored_of_mem (hgiven : names ∈ given.map (·.names)) :
    last.sieve.isIgnored (root.descend names).toText false = false := by
  obtain ⟨place, hreach, rfl, hkept⟩ :=
    (hcloses.mem_names_iff h htree hlist hlimit hstart hstats hne hat hkind).mp hgiven
  obtain ⟨other, hother⟩ := h.standsAt_of_reaches htree hreach
  obtain rfl : node = other := Option.some.inj (hat.symm.trans hother.at?)
  have hsight := h.sight_of_leaf htree hother hkind
  rw [← hstats] at hreach
  have hsame := hcloses.isIgnored_eq hlist h.top.1 hlimit hstart h.holds.realPath hreach hne
    (by rw [hsight]) (by rw [hsight]) false
  exact hsame.trans hkept

omit hlist in
/-- A walk of a tree whose ignore files hold no bracket has given out all that is not ignored by the
rules that are known in the end. -/
theorem Closes.mem_of_isIgnored (hroot : root.start = .root) (hshows : fs.Shows root tree)
    (hbrackets : tree.BracketFree options.ignoreNames)
    (hkept : last.sieve.isIgnored (root.descend names).toText false = false) :
    names ∈ given.map (·.names) := by
  obtain ⟨_, -, haccepted⟩ := start_accepted hstart
  obtain ⟨steps, hend⟩ := hcloses.ended
  have hsetting : w₀.Setting fs tree := by
    refine Setting.of_eq (w := Walk.new root options) ?_ haccepted.root haccepted.options
    exact ⟨hshows, hroot, h.followLinks, h.maxDepth, hlimit, hbrackets⟩
  obtain ⟨before, found, hlast, hempty, hsame, -, hrun⟩ := hsetting.exists_explores
    (haccepted.root ▸ h.top.1) haccepted.phase haccepted.sieve (hstats ▸ htree.kind_stats) hend
  obtain ⟨hgiven, rfl⟩ := Prod.mk.inj ((hcloses.entries steps hend).symm.trans hrun)
  have hleft : before.LeftBehind names := by
    intro other hother
    rw [hempty] at hother
    exact absurd hother List.not_mem_nil
  have hsettled := hlast.settled names node hne hat hleft fun hdirectory => absurd hdirectory hkind
  rw [Except.ok.inj hgiven, List.map_reverse, List.mem_reverse, hsettled, Node.isDirectory,
    beq_eq_false_iff_ne.mpr hkind, pathOf, hsame, haccepted.root]
  exact hkept

end Held

/-- **The same tree gives the same entries.** Walks of a tree that is held below two paths, with the
same names of ignore files, give out the same of what is no directory. -/
theorem Closes.mem_names_congr {fs fs' : FileSystem Id} {root root' : Path}
    {options options' : Walk.Options} {tree : Node}
    (h : Traversal.Roams ⟨fs, root, options⟩ tree)
    (h' : Traversal.Roams ⟨fs', root', options'⟩ tree) (htree : tree.IsProper)
    (hlist : ∀ path entries, (fs.list path).run = .ok entries → IsListing entries)
    (hlist' : ∀ path entries, (fs'.list path).run = .ok entries → IsListing entries)
    (hlimit : options.maxEntries = none) (hlimit' : options'.maxEntries = none)
    (hignore : options'.ignoreNames = options.ignoreNames) {w₀ w₀' last last' : Walk}
    {given given' : List Entry} (hstart : ((Walk.new root options).start fs).run = (.ok (), w₀))
    (hstart' : ((Walk.new root' options').start fs').run = (.ok (), w₀'))
    (hstats : w₀.rootStats = tree.stats) (hstats' : w₀'.rootStats = tree.stats)
    (hcloses : Closes fs w₀ (.ok given) last) (hcloses' : Closes fs' w₀' (.ok given') last')
    {names : List Text} {node : Node} (hne : names ≠ []) (hat : tree.at? names = some node)
    (hkind : node.kind ≠ .directory) :
    names ∈ given.map (·.names) ↔ names ∈ given'.map (·.names) := by
  rw [hcloses.mem_names_iff h htree hlist hlimit hstart hstats hne hat hkind,
    hcloses'.mem_names_iff h' htree hlist' hlimit' hstart' hstats' hne hat hkind]
  have hnames := (htree.at? hat).1
  constructor
  · rintro ⟨place, hreach, rfl, hkept⟩
    obtain ⟨place', hreach', hmoves⟩ := h.exists_moves h' hignore htree hreach
      (Traversal.Roams.rootPlace_moves _ _ tree)
    refine ⟨place', hreach', hmoves.names, ?_⟩
    rw [listIgnores_of_moves h.top h'.top hmoves.rules hnames]
    exact hkept
  · rintro ⟨place, hreach, rfl, hkept⟩
    obtain ⟨place', hreach', hmoves⟩ := h'.exists_moves h hignore.symm htree hreach
      (Traversal.Roams.rootPlace_moves _ _ tree)
    refine ⟨place', hreach', hmoves.names, ?_⟩
    rw [listIgnores_of_moves h'.top h.top hmoves.rules hnames]
    exact hkept

end Walk

end TreeSieve

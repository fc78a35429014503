import TreeSieve.Proofs.Files.Shown
import TreeSieve.Proofs.Sieve.Written
import TreeSieve.Proofs.Walk.Seeing

/-!
# Exploring a tree

What a step of a walk comes to if the files are a tree that is shown without failures, links are not
followed, and there are no limits.

* `Walk.Setting` holds of such walks.
* `Walk.Visits` lists what there is to see at a node: its directory is pruned or opened, or the node
  is considered. `Walk.Setting.visits` says that there is nothing else.
-/

namespace TreeSieve

/-- The address of a node of a tree that is shown is made of names. -/
theorem FileSystem.Shows.names {fs : FileSystem Id} {root : Path} {tree : Node}
    (h : fs.Shows root tree) (names : List Text) :
    ∀ node, tree.at? names = some node → ∀ part ∈ names, Path.IsEntryName part := by
  induction names using List.reverseRecOn with
  | nil => exact fun node _ part hp => absurd hp List.not_mem_nil
  | append_singleton names name ih =>
    intro node hat part hp
    rw [Node.at?_append] at hat
    obtain ⟨directory, hdirectory, hentry⟩ := Option.bind_eq_some_iff.mp hat
    have hchild : directory.entry? name = some node := by
      rw [← Node.at?_concat hdirectory, Node.at?_append, hdirectory]
      exact hentry
    have hname := Node.mem_of_entry? hchild
    have hkind := Node.kind_of_entry? hchild
    obtain ⟨entries, hlist, hperm⟩ := h.list names directory hdirectory hkind
    rcases List.mem_append.mp hp with hp | hp
    · exact ih directory hdirectory part hp
    · rw [List.mem_singleton.mp hp]
      obtain ⟨listed, hlisted, hsame⟩ := List.mem_map.mp (hperm.symm.subset hname)
      exact hsame ▸ (h.listing _ entries hlist).names listed hlisted

/-- Whether no ignore file of a tree holds an opening bracket. -/
def Node.BracketFree (tree : Node) (ignoreNames : List Text) : Prop :=
  ∀ names name permissions size content, name ∈ ignoreNames →
    tree.at? (names ++ [name]) = some (.file .file permissions size content) →
    '[' ∉ (Content.bytes content).decoded

/-- A directory is free of brackets if its ignore files are, and the directories in it. -/
theorem Node.bracketFree_of_entries {tree : Node} {ignoreNames : List Text}
    (h : ∀ entry ∈ tree.entries, entry.2.BracketFree ignoreNames ∧
      ∀ permissions size content, entry.1 ∈ ignoreNames →
        entry.2 = .file .file permissions size content → '[' ∉ (Content.bytes content).decoded) :
    tree.BracketFree ignoreNames := by
  have hentry : ∀ name child, tree.entry? name = some child → (name, child) ∈ tree.entries := by
    intro name child hchild
    obtain ⟨before, after, hsplit, -⟩ := List.lookup_eq_some_iff.mp hchild
    rw [hsplit]
    exact List.mem_append_right before List.mem_cons_self
  intro names name permissions size content hname hat
  cases names with
  | nil =>
    rw [List.nil_append, at?_cons] at hat
    obtain ⟨child, hchild, hfile⟩ := Option.bind_eq_some_iff.mp hat
    rw [at?_nil] at hfile
    exact (h _ (hentry name child hchild)).2 permissions size content hname (Option.some.inj hfile)
  | cons first names =>
    rw [List.cons_append, at?_cons] at hat
    obtain ⟨child, hchild, hbelow⟩ := Option.bind_eq_some_iff.mp hat
    exact (h _ (hentry first child hchild)).1 names name permissions size content hname hbelow

/-- Whether a node is given out unless it is ignored: a directory only if it has no entries and such
directories count. -/
def Node.Counts (node : Node) (includeEmpty : Bool) : Prop :=
  node.kind = .directory → includeEmpty = true ∧ node.entries = []

/-- Whether a node is a directory. -/
def Node.isDirectory (node : Node) : Bool := node.kind == .directory

/-- Nothing is below a node without entries. -/
theorem Node.eq_nil_of_at? {tree node : Node} (hnone : tree.entries = []) {names : List Text}
    (h : tree.at? names = some node) : names = [] := by
  cases names with
  | nil => rfl
  | cons name names =>
    rw [at?_cons, entry?, hnone] at h
    cases h

namespace Walk

/-- A walk through a tree that is shown, without limits, that follows no links. -/
structure Setting (fs : FileSystem Id) (tree : Node) (w : Walk) : Prop where
  shows : fs.Shows w.root tree
  start : w.root.start = .root
  followLinks : w.options.followLinks = false
  maxDepth : w.options.maxDepth = none
  maxEntries : w.options.maxEntries = none
  brackets : tree.BracketFree w.options.ignoreNames

/-- What may be seen at a node: nothing at a directory that is pruned; the nodes in it, and rules
without brackets, if it does not count; and if it counts then nothing but the node itself, unless it
is ignored. -/
inductive Visits (fs : FileSystem Id) (tree : Node) (w : Walk) (item : Candidate) (node : Node) :
    Sight → Prop
  | prunes (directory : node.kind = .directory)
      (pruned : (w.sieve.entering (w.pathOf item.names)).enters = false) :
      Visits fs tree w item node ⟨[], [], []⟩
  | opens {rules : List Rule} {items : List Candidate}
      (uncounted : ¬node.Counts w.options.includeEmpty)
      (brackets : ∀ rule ∈ rules, '[' ∉ rule.pattern)
      (names : (items.map (·.names)).Perm (node.entries.map fun entry => item.names ++ [entry.1]))
      (nodes : ∀ child ∈ items, ∃ below, tree.at? child.names = some below ∧
        child.stats.kind = below.kind) : Visits fs tree w item node ⟨[], rules, items⟩
  | considers (counts : node.Counts w.options.includeEmpty) (leaf : node.entries = []) :
      Visits fs tree w item node
        ⟨(w.traversal fs).offer (w.rulesAt item.names) item item.stats node.isDirectory, [], []⟩

section Nodes

variable {fs : FileSystem Id} {tree : Node} {w : Walk}

theorem Setting.resolve_eq (h : w.Setting fs tree) (item : Candidate) :
    (w.traversal fs).resolve item = ⟨item.stats, none⟩ :=
  (w.traversal fs).resolve_of_unfollowed h.followLinks item

theorem Setting.exists_realPathOf (h : w.Setting fs tree) (item : Candidate) :
    ∃ real, (w.traversal fs).realPathOf item = .ok real := by
  rw [Traversal.realPathOf]
  split
  · rename_i hdepth
    obtain ⟨real, hreal⟩ := h.shows.realPath
    have hpath : (w.traversal fs).pathOf item.names = w.root.toText := by
      rw [List.length_eq_zero_iff.mp hdepth, Traversal.pathOf, Path.descend_nil]
      rfl
    have hasked : ((w.traversal fs).files.realPath w.root.toText).run = .ok real := hreal
    rw [hpath, hasked]
    exact ⟨_, rfl⟩
  · exact ⟨_, rfl⟩

/-- What is queued for the listing of a node are the nodes in it, one for each entry, known as what
they are. -/
theorem Setting.children_nodes (h : w.Setting fs tree) {item : Candidate} {node : Node}
    (hat : tree.at? item.names = some node) (real : Text) {entries : List ListedEntry}
    (hentries : ∀ entry ∈ entries, entry.name ∈ node.entries.map (·.1)) :
    ((w.traversal fs).children item real entries).map (·.names)
        = entries.map (fun entry => item.names ++ [entry.name]) ∧
      ∀ child ∈ (w.traversal fs).children item real entries, ∃ below,
        tree.at? child.names = some below ∧ child.stats.kind = below.kind := by
  induction entries with
  | nil => exact ⟨rfl, fun child hchild => nomatch hchild⟩
  | cons entry rest ih =>
    obtain ⟨hnames, hnodes⟩ := ih fun other ho => hentries other (List.mem_cons_of_mem entry ho)
    obtain ⟨below, hbelow⟩ := Node.exists_entry? (hentries entry List.mem_cons_self)
    rw [← Node.at?_concat hat] at hbelow
    obtain ⟨stats, hstats, hkind⟩ := h.shows.lstat _ below hbelow
    have hlstat : ((w.traversal fs).files.lstat
        ((w.traversal fs).pathOf (item.names ++ [entry.name]))).run = .ok stats := hstats
    have hcons : (w.traversal fs).children item real (entry :: rest)
        = ⟨item.names ++ [entry.name], stats, real, real :: item.visited⟩
          :: (w.traversal fs).children item real rest := by
      rw [Traversal.children, List.filterMap_cons, hlstat]
      rfl
    rw [hcons, List.map_cons, List.map_cons, hnames]
    refine ⟨rfl, fun child hchild => ?_⟩
    rcases List.mem_cons.mp hchild with rfl | hchild
    · exact ⟨below, hbelow, hkind⟩
    · exact hnodes child hchild

/-- The rules of the ignore files of a directory hold no brackets. -/
theorem Setting.ownRules_brackets (h : w.Setting fs tree) (hroot : w.root.IsRooted)
    {names : List Text} {node : Node} (hat : tree.at? names = some node)
    {entries : List ListedEntry}
    (hentries : ∀ entry ∈ entries, entry.name ∈ node.entries.map (·.1)) :
    ∀ rule ∈ (w.traversal fs).ownRules names entries, '[' ∉ rule.pattern := by
  intro rule hrule hbracket
  obtain ⟨entry, hentry, hown⟩ := List.mem_flatMap.mp hrule
  obtain ⟨below, hbelow⟩ := Node.exists_entry? (hentries entry hentry)
  rw [← Node.at?_concat hat] at hbelow
  obtain ⟨stats, hstats, hkind⟩ := h.shows.lstat _ below hbelow
  have hlstat : ((w.traversal fs).files.lstat
      ((w.traversal fs).pathOf (names ++ [entry.name]))).run = .ok stats := hstats
  simp only [hlstat] at hown
  split at hown
  · rename_i hignore
    rw [Bool.and_eq_true, FileStats.isFile, hkind, beq_iff_eq, List.contains_iff_mem] at hignore
    obtain ⟨hfile, hname⟩ := hignore
    obtain ⟨bytes, hread, scope, source, hparsed⟩ := IgnoreFile.exists_bytes_of_load hown
    have hrooted := hroot.descend (h.shows.names _ below hbelow)
    have hpath : (Path.ofText ((w.traversal fs).pathOf (names ++ [entry.name]))).toText
        = (w.root.descend (names ++ [entry.name])).toText :=
      congrArg Path.toText hrooted.ofText_toText
    rw [hpath] at hread
    cases below with
    | link _ _ _ => cases hfile
    | directory _ _ _ => cases hfile
    | file kind permissions size content =>
      rw [Node.kind] at hfile
      subst hfile
      have hcontent := h.shows.read _ permissions size content hbelow
      rw [show (w.traversal fs).files = fs from rfl, hcontent] at hread
      obtain rfl := Except.ok.inj hread
      exact h.brackets names entry.name permissions size content hname hbelow
        (IgnoreFile.mem_of_mem_pattern hparsed hbracket)
  · exact absurd hown List.not_mem_nil

/-- What there is to see at a node is one of the things that `Visits` lists. -/
theorem Setting.visits (h : w.Setting fs tree) (hroot : w.root.IsRooted) (hsound : w.sieve.Sound)
    {item : Candidate} {node : Node} (hat : tree.at? item.names = some node)
    (hkind : item.stats.kind = node.kind) :
    Visits fs tree w item node ((w.traversal fs).sight (w.rulesAt item.names) item) := by
  obtain ⟨real, hreal⟩ := h.exists_realPathOf item
  rw [Traversal.sight, h.resolve_eq]
  simp only [hreal]
  have hdir : item.stats.isDirectory = node.isDirectory := by
    rw [FileStats.isDirectory, hkind, Node.isDirectory]
  by_cases hdirectory : node.kind = .directory
  · have hnode : node.isDirectory = true := by rw [Node.isDirectory, hdirectory]; rfl
    have hdepth : ¬((w.traversal fs).options.maxDepth == some item.depth) = true := by
      rw [show (w.traversal fs).options.maxDepth = none from h.maxDepth]
      exact Bool.false_ne_true
    have hprunes : listPrunes (w.rulesAt item.names)
        (canonical ((w.traversal fs).pathOf item.names))
        = !(w.sieve.entering (w.pathOf item.names)).enters :=
      listPrunes_eq hsound.numbered (w.pathOf item.names)
    obtain ⟨entries, hlist, hperm⟩ := h.shows.list _ node hat hdirectory
    have hlisted : ((w.traversal fs).files.list ((w.traversal fs).pathOf item.names)).run
        = .ok entries := hlist
    rw [hdir, hnode, if_pos rfl, Traversal.sightOfDirectory]
    simp only [hlisted, hprunes]
    rw [if_neg hdepth]
    split
    · rename_i hpruned
      exact .prunes hdirectory (by simpa using hpruned)
    · cases entries with
      | nil =>
        have hnone : node.entries = [] := List.map_eq_nil_iff.mp (List.nil_perm.mp hperm)
        simp only
        split
        · rename_i hempty
          rw [← hnode]
          exact .considers (fun _ => ⟨hempty, hnone⟩) hnone
        · rename_i hempty
          refine .opens (fun hcounts => hempty (hcounts hdirectory).1)
            (fun _ hr => absurd hr List.not_mem_nil) ?_ (fun _ hc => absurd hc List.not_mem_nil)
          rw [hnone]
          exact List.Perm.refl _
      | cons entry rest =>
        have hentries : ∀ listed ∈ entry :: rest, listed.name ∈ node.entries.map (·.1) :=
          fun listed hl => hperm.subset (List.mem_map_of_mem hl)
        obtain ⟨hnames, hnodes⟩ := h.children_nodes hat real hentries
        refine .opens ?_ (h.ownRules_brackets hroot hat hentries) ?_ hnodes
        · intro hcounts
          rw [(hcounts hdirectory).2] at hperm
          exact absurd (List.perm_nil.mp hperm) (List.cons_ne_nil _ _)
        · rw [hnames]
          have hmap := hperm.map (item.names ++ [·])
          rwa [List.map_map, List.map_map] at hmap
  · have hnode : node.isDirectory = false := beq_eq_false_iff_ne.mpr hdirectory
    have hleaf := Node.entries_eq_nil hdirectory
    rw [hdir, hnode, if_neg Bool.false_ne_true, ← hnode]
    exact .considers (fun hkind => absurd hkind hdirectory) hleaf

end Nodes

end Walk

end TreeSieve

import TreeSieve.Listing.Directory
import TreeSieve.Proofs.Files.Disk
import TreeSieve.Proofs.Walk.Calling

/-!
# Walks that stay indoors

A walk that follows no links lists and reads only what stands below its root, wherever links in the
tree lead to.

* `Node.Indoors` holds of a path that leads below a root through directories that are no links.
* `Node.Inner` holds of the names of a directory that is reached like that, and `Walk.Waits` of an
  entry that was looked up in one. `Walk.Accounts.indoors` says that a step keeps to such entries.
* `Walk.walkThrough_indoors` says that all that a walk lists and reads is indoors.
-/

namespace TreeSieve

namespace Node

/-- A path that leads below a root that leads to the address `a`: `names` lead there from the root,
all of them but the last are directories and no links, and so the path leads to the address that the
names make up behind `a`. -/
structure Indoors (files : Node) (rules : PathRules) (top : Path) (asked : Text) (a : Address)
    (names : List Text) : Prop where
  root : ∃ directory, files.resolve rules true top.toText = .ok (a, directory)
  path : asked = (top.descend names).toText
  found : ∃ node, files.resolve rules true asked = .ok (a ++ names, node)
  way : ∀ above, above ≠ [] → above <+: names → above ≠ names →
    ∃ directory, files.resolve rules false (top.descend above).toText
        = .ok (a ++ above, directory) ∧ directory.kind = .directory

/-- The names of a directory that is reached from the root through directories that are no links. -/
structure Inner (files : Node) (rules : PathRules) (top : Path) (a : Address)
    (directory : List Text) : Prop where
  names : ∀ part ∈ directory, Path.IsEntryName part
  place : ∃ node,
    files.resolve rules true (top.descend directory).toText = .ok (a ++ directory, node)
  way : ∀ above, above ≠ [] → above <+: directory →
    ∃ node, files.resolve rules false (top.descend above).toText = .ok (a ++ above, node) ∧
      node.kind = .directory

section Inner

variable {files : Node} {rules : PathRules} {top : Path} {a : Address} {directory : List Text}

/-- A directory that is reached indoors is indoors itself. -/
theorem Inner.indoors (h : files.Inner rules top a directory)
    (hroot : ∃ node, files.resolve rules true top.toText = .ok (a, node)) :
    files.Indoors rules top (top.descend directory).toText a directory :=
  ⟨hroot, rfl, h.place, fun above hne hprefix _ => h.way above hne hprefix⟩

variable (hrules : rules.Reads) (htop : top.IsRooted)

include hrules htop

/-- An entry that is no link is found where its directory is. -/
theorem Inner.resolve_concat (h : files.Inner rules top a directory) {name : Text}
    (hname : Path.IsEntryName name) {address : Address} {node : Node}
    (hfound : files.resolve rules false (top.descend (directory ++ [name])).toText
      = .ok (address, node)) : address = a ++ (directory ++ [name]) := by
  obtain ⟨parent, hplace⟩ := h.place
  rw [Path.descend_append] at hfound
  rw [eq_of_resolve_concat hrules (htop.descend h.names) hname hplace hfound, List.append_assoc]

/-- A directory in a directory that is reached indoors is reached indoors. -/
theorem Inner.concat (h : files.Inner rules top a directory) {name : Text}
    (hname : Path.IsEntryName name) {address : Address} {node : Node}
    (hfound : files.resolve rules false (top.descend (directory ++ [name])).toText
      = .ok (address, node)) (hkind : node.kind = .directory) :
    files.Inner rules top a (directory ++ [name]) := by
  obtain rfl := h.resolve_concat hrules htop hname hfound
  refine ⟨Path.isEntryName_concat h.names hname, ⟨node, ?_⟩, fun above hne hprefix => ?_⟩
  · exact resolve_of_unfollowed hfound (by rw [hkind]; decide)
  · rcases List.prefix_concat_iff.mp hprefix with rfl | hprefix
    · exact ⟨node, hfound, hkind⟩
    · exact h.way above hne hprefix

/-- A file in a directory that is reached indoors is indoors. -/
theorem Inner.indoors_concat (h : files.Inner rules top a directory) {name : Text}
    (hname : Path.IsEntryName name) {address : Address} {node : Node}
    (hroot : ∃ node, files.resolve rules true top.toText = .ok (a, node))
    (hfound : files.resolve rules false (top.descend (directory ++ [name])).toText
      = .ok (address, node)) (hkind : node.kind ≠ .symlink) :
    files.Indoors rules top (top.descend (directory ++ [name])).toText a (directory ++ [name]) := by
  obtain rfl := h.resolve_concat hrules htop hname hfound
  refine ⟨hroot, rfl, ⟨node, resolve_of_unfollowed hfound hkind⟩, ?_⟩
  intro above hne hprefix hproper
  rcases List.prefix_concat_iff.mp hprefix with rfl | hprefix
  · exact absurd rfl hproper
  · exact h.way above hne hprefix

end Inner

end Node

namespace Walk

/-- An entry that is the root, or that was looked up in a directory that is reached indoors. -/
structure Waits (fs : FileSystem Id) (files : Node) (rules : PathRules) (top : Path) (a : Address)
    (item : Candidate) : Prop where
  names : ∀ part ∈ item.names, Path.IsEntryName part
  stands : item.names = [] ∨ ∃ directory name, item.names = directory ++ [name] ∧
    files.Inner rules top a directory ∧
    (fs.lstat (top.descend item.names).toText).run = .ok item.stats

/-- A walk that follows no links, and in which only such entries wait. -/
structure Minds (fs : FileSystem Id) (files : Node) (rules : PathRules) (top : Path) (a : Address)
    (w : Walk) : Prop where
  root : w.root = top
  place : ∃ node, files.resolve rules true top.toText = .ok (a, node)
  options : w.options.followLinks = false
  queue : ∀ item ∈ w.queue, Waits fs files rules top a item

section Staying

variable {fs : FileSystem Id} {files : Node} {rules : PathRules} {top : Path} {a : Address}
  (hfiles : files.IsProper) (hserves : fs.Serves files rules) (hrules : rules.Reads)
  (htop : top.IsRooted)

include hfiles hserves hrules htop

/-- A directory that waits is reached indoors. -/
theorem Waits.inner {item : Candidate} (h : Waits fs files rules top a item)
    (hplace : ∃ node, files.resolve rules true top.toText = .ok (a, node))
    (hdirectory : item.stats.isDirectory = true) : files.Inner rules top a item.names := by
  rcases h.stands with hnil | ⟨directory, name, hnames, hinner, hlstat⟩
  · rw [hnil]
    refine ⟨fun _ hmem => (nomatch hmem), ?_, fun above hne hprefix => ?_⟩
    · rw [Path.descend_nil, List.append_nil]
      exact hplace
    · exact absurd (List.prefix_nil.mp hprefix) hne
  · obtain ⟨address, node, hfound, hstats⟩ := hserves.of_lstat hlstat
    have hname : Path.IsEntryName name := h.names name (by rw [hnames]; simp)
    have hkind : node.kind = .directory :=
      (hfiles.at? (Node.at?_of_resolve hfound)).2.isDirectory_stats.mp (hstats ▸ hdirectory)
    rw [hnames] at hfound ⊢
    exact hinner.concat hrules htop hname hfound hkind

section Gathering

variable {w w' : Walk} {directory : List Text} {entries : List ListedEntry}
  {below : List Exchange} {items : List Candidate}
  (gathers : w.Gathers directory entries below items w') (hroot : w.root = top)
  (hinner : files.Inner rules top a directory)
  (hnames : ∀ entry ∈ entries, Path.IsEntryName entry.name)
  (hfrom : ∀ call ∈ below, call.IsFrom fs)

include gathers hroot hinner hnames hfrom

/-- What is read in a directory was found to be a regular file, and so is no link. -/
theorem Gathers.indoors (hplace : ∃ node, files.resolve rules true top.toText = .ok (a, node))
    {call : Exchange} (hcall : call ∈ below)
    (hop : call.operation = .list ∨ call.operation = .read) :
    ∃ names, files.Indoors rules top call.path a names := by
  rcases gathers.operation call hcall with hasked | ⟨-, stats, hmem, hfile⟩
  · rw [hasked] at hop
    rcases hop with hop | hop
    · cases hop
    · cases hop
  · obtain ⟨entry, hentry, hpath⟩ := gathers.path call hcall
    obtain ⟨address, node, hfound, hstats⟩ := hserves.of_lstat (hfrom _ hmem)
    have hkind : node.kind ≠ .symlink := by
      rw [← (hfiles.at? (Node.at?_of_resolve hfound)).2.kind_stats, hstats]
      rw [FileStats.isFile, beq_iff_eq] at hfile
      rw [hfile]
      decide
    rw [hpath, pathOf, hroot] at hfound ⊢
    exact ⟨_, hinner.indoors_concat hrules htop (hnames entry hentry) hplace hfound hkind⟩

omit hfiles hserves hrules htop in
/-- What is queued was looked up in the directory. -/
theorem Gathers.waits (hdirectory : ∀ part ∈ directory, Path.IsEntryName part)
    {child : Candidate} (hchild : child ∈ items) : Waits fs files rules top a child := by
  obtain ⟨entry, hentry, heq⟩ :=
    List.mem_map.mp (gathers.names.subset (List.mem_map_of_mem (f := (·.names)) hchild))
  have hall := Path.isEntryName_concat hdirectory (hnames entry hentry)
  have hlstat := hfrom _ (gathers.known child hchild)
  rw [pathOf, hroot] at hlstat
  exact ⟨heq ▸ hall, .inr ⟨directory, entry.name, heq.symm, hinner, hlstat⟩⟩

end Gathering

/-- **A step stays indoors**: what it lists and reads is indoors, and so is what it queues. -/
theorem Accounts.indoors {w w' : Walk} {outcome : StepOutcome} {calls : List Exchange}
    (hw : Minds fs files rules top a w) (h : w.Accounts outcome calls w')
    (hfrom : ∀ call ∈ calls, call.IsFrom fs) :
    (∀ call ∈ calls, call.operation = .list ∨ call.operation = .read →
      ∃ names, files.Indoors rules top call.path a names) ∧
    (w'.phase = .running → Minds fs files rules top a w') := by
  obtain rfl := hw.root
  cases h with
  | finishes rests phase =>
    exact ⟨fun _ hmem => (nomatch hmem),
      fun hrunning => absurd (phase.symm.trans hrunning) (by decide)⟩
  | @looks item rest _ _ _ queue shallow attends =>
    have hitem := hw.queue item (queue ▸ List.mem_cons_self)
    have hrest : ∀ other ∈ rest, Waits fs files rules w.root a other :=
      fun other hmem => hw.queue other (queue ▸ List.mem_cons_of_mem item hmem)
    obtain ⟨-, -, own, below, rfl, hown, hfound, henqueues⟩ := attends
    have howns : ∀ call ∈ own, call.operation = .list ∨ call.operation = .read →
        ∃ names, files.Indoors rules w.root call.path a names :=
      fun call hcall hop => absurd hop (hown call hcall).not_listed
    cases henqueues with
    | leaves rests =>
      refine ⟨?_, fun hrunning => ⟨rests.root, hw.place, ?_, ?_⟩⟩
      · rw [List.append_nil]
        exact howns
      · rw [rests.options]
        exact hw.options
      · rcases rests.queue with hsame | ⟨hended, -⟩
        · rw [hsame]
          exact hrest
        · exact absurd (hended.symm.trans hrunning) (by decide)
    | @lists answer below items _ _ _ gathers queue =>
      have hdirectory : item.stats.isDirectory = true := by
        rcases hfound (List.cons_ne_nil _ _) with hdirectory | ⟨hfollows, -⟩
        · exact hdirectory
        · exact absurd (hw.options.symm.trans hfollows) (by decide)
      have hinner := hitem.inner hfiles hserves hrules htop hw.place hdirectory
      have hnames : ∀ entry ∈ answer.toOption.getD [], Path.IsEntryName entry.name := by
        intro entry hentry
        have hlist := hfrom _ (List.mem_append_right own List.mem_cons_self)
        cases answer with
        | error e => exact nomatch hentry
        | ok entries => exact (hserves.isListing hfiles hlist).names entry hentry
      have hbelow : ∀ call ∈ below, call.IsFrom fs := fun call hmem =>
        hfrom call (List.mem_append_right own (List.mem_cons_of_mem _ hmem))
      refine ⟨List.forall_mem_append.mpr ⟨howns, List.forall_mem_cons.mpr ⟨fun _ => ?_, ?_⟩⟩,
        fun _ => ⟨gathers.root, hw.place, ?_, ?_⟩⟩
      · exact ⟨item.names, hinner.indoors hw.place⟩
      · exact fun call hcall hop => gathers.indoors hfiles hserves hrules htop rfl hinner hnames
          hbelow hw.place hcall hop
      · rw [gathers.options]
        exact hw.options
      · rw [queue]
        exact List.forall_mem_append.mpr ⟨hrest, fun child hchild =>
          gathers.waits rfl hinner hnames hbelow hitem.names hchild⟩

/-- Whatever is made of its entries, a walk stays indoors. -/
theorem visit_indoors {β : Type} (f : Entry → β → ForInStep β) (steps : Nat) :
    ∀ (acc : β) {w : Walk},
      (w.looking.phase = .running → Minds fs files rules top a w.looking) →
      Notes (Exchange.IsFrom fs) (visit fs.noted f steps acc w) fun calls _ =>
        ∀ call ∈ calls, call.operation = .list ∨ call.operation = .read →
          ∃ names, files.Indoors rules top call.path a names := by
  induction steps with
  | zero => exact fun acc _ _ => .pure fun _ hmem => nomatch hmem
  | succ steps ih =>
    intro acc w hw
    have hlist : ∀ call, Exchange.IsFrom fs call → call.ListsEntryNames := by
      rintro call hcall path entries rfl
      exact (hserves.isListing hfiles hcall).names
    have hlooking : w.looking.phase = .running → w.looking.root.IsRooted ∧
        ∀ item ∈ w.looking.queue, ∀ part ∈ item.names, Path.IsEntryName part :=
      fun hrunning => ⟨(hw hrunning).root ▸ htop,
        fun item hitem => ((hw hrunning).queue item hitem).names⟩
    rw [visit]
    refine Notes.bind (step_notes fs.answers_isFrom hlist hlooking).answered ?_
    rintro calls ⟨outcome, next⟩ ⟨hfrom, hidle, haccounts⟩
    have hstep : (∀ call ∈ calls, call.operation = .list ∨ call.operation = .read →
        ∃ names, files.Indoors rules top call.path a names) ∧
        (next.looking.phase = .running → Minds fs files rules top a next.looking) := by
      by_cases hrunning : w.looking.phase = .running
      · have haccount := haccounts hrunning
        rw [haccount.looking_eq hrunning]
        exact haccount.indoors hfiles hserves hrules htop (hw hrunning) hfrom
      · obtain ⟨rfl, hresult⟩ := hidle hrunning
        obtain ⟨rfl, rfl⟩ := Prod.mk.inj hresult
        exact ⟨fun _ hmem => (nomatch hmem), hw⟩
    have hlast : ∀ call ∈ calls ++ [], call.operation = .list ∨ call.operation = .read →
        ∃ names, files.Indoors rules top call.path a names := by
      rw [List.append_nil]
      exact hstep.1
    have hmore : ∀ acc, Notes (Exchange.IsFrom fs) (visit fs.noted f steps acc next)
        fun later _ => ∀ call ∈ calls ++ later, call.operation = .list ∨ call.operation = .read →
          ∃ names, files.Indoors rules top call.path a names :=
      fun acc => (ih acc hstep.2).mono fun later _ hlater =>
        List.forall_mem_append.mpr ⟨hstep.1, hlater⟩
    cases outcome with
    | yielded entry =>
      simp only
      split
      · exact .pure hlast
      · exact hmore _
    | withheld names isDirectory => exact hmore acc
    | quiet => exact hmore acc
    | finished => exact .pure hlast
    | failed e => exact .pure hlast

end Staying

/-- A walk whose root has been accepted begins indoors. -/
theorem Starts.minds {fs : FileSystem Id} {files : Node} {rules : PathRules} {top : Path}
    {options : Walk.Options} {calls : List Exchange} {w : Walk} (h : Starts top options calls w)
    (hfiles : files.IsProper) (hserves : fs.Serves files rules)
    (hlinks : options.followLinks = false) (hfrom : ∀ call ∈ calls, call.IsFrom fs) :
    ∃ a, w.looking.phase = .running → Minds fs files rules top a w.looking := by
  rcases h.phase with hphase | ⟨hphase, stats, hdirectory, hroot⟩
  · refine ⟨[], fun hrunning => ?_⟩
    rw [h.phase_eq hrunning] at hphase
    cases hphase
  · obtain ⟨a, node, hplace⟩ : ∃ a node, files.resolve rules true top.toText = .ok (a, node) := by
      rcases hroot with hlstat | hstat
      · obtain ⟨a, node, hfound, hstats⟩ := hserves.of_lstat (hfrom _ hlstat)
        have hkind : node.kind = .directory :=
          (hfiles.at? (Node.at?_of_resolve hfound)).2.isDirectory_stats.mp (hstats ▸ hdirectory)
        exact ⟨a, node, Node.resolve_of_unfollowed hfound (by rw [hkind]; decide)⟩
      · obtain ⟨a, node, hfound, -⟩ := hserves.of_stat (hfrom _ hstat)
        exact ⟨a, node, hfound⟩
    refine ⟨a, fun _ => ?_⟩
    rw [looking, if_pos hphase]
    refine ⟨h.root, ⟨node, hplace⟩, h.options ▸ hlinks, fun item hitem => ?_⟩
    rw [List.mem_singleton.mp hitem]
    exact ⟨fun _ hmem => (nomatch hmem), .inl rfl⟩

section Runs

variable {files : Node} (hfiles : files.IsProper) {rules : PathRules} (hrules : rules.Reads)
  {fs : FileSystem Id} (hserves : fs.Serves files rules) {top : Path} (htop : top.IsRooted)
  {options : Walk.Options} (hlinks : options.followLinks = false)

include hfiles hrules hserves htop hlinks

theorem walkThrough_notes {β : Type} (f : Entry → β → ForInStep β) (acc : β) (steps : Nat) :
    Notes (Exchange.IsFrom fs) (walkThrough fs.noted steps f acc (Walk.new top options))
      fun calls _ => ∀ call ∈ calls, call.operation = .list ∨ call.operation = .read →
        ∃ a names, files.Indoors rules top call.path a names := by
  unfold walkThrough
  refine Notes.bind (start_notes fs.answers_isFrom top options).answered ?_
  rintro calls ⟨started, w⟩ ⟨hfrom, hstarts⟩
  have hasked : ∀ call ∈ calls, call.operation = .list ∨ call.operation = .read →
      ∃ a names, files.Indoors rules top call.path a names := by
    intro call hcall hop
    rcases hstarts.operation call hcall with hother | hother <;> rw [hother] at hop <;>
      rcases hop with hop | hop <;> cases hop
  cases started with
  | error e =>
    refine .pure ?_
    rw [List.append_nil]
    exact hasked
  | ok started =>
    obtain ⟨a, hw⟩ := hstarts.minds hfiles hserves hlinks hfrom
    refine Notes.bind (visit_indoors hfiles hserves hrules htop f steps acc hw) ?_
    rintro later ⟨found, last⟩ hlater
    refine .pure (List.forall_mem_append.mpr ⟨hasked, ?_⟩)
    rw [List.append_nil]
    exact fun call hcall hop => ⟨a, hlater call hcall hop⟩

/-- **A walk that follows no links never leaves its root.** Whatever the links of a tree lead to, be
the root itself a link, each path that a walk lists or reads on the tree leads below the address
that the root leads to: names lead there from the root, and all of them but the last are directories
and no links. This holds for any options without links to be followed, whatever is made of the
entries that are given out, and after any number of steps. -/
theorem walkThrough_indoors {β : Type} (f : Entry → β → ForInStep β) (acc : β) (steps : Nat) :
    ∀ call ∈ ((walkThrough fs.noted steps f acc (Walk.new top options)).run []).run.2,
      call.operation = .list ∨ call.operation = .read →
        ∃ a names, files.Indoors rules top call.path a names := by
  obtain ⟨calls, hcalls, -, hindoors⟩ :=
    walkThrough_notes hfiles hrules hserves htop hlinks f acc steps []
  rw [hcalls]
  exact hindoors

end Runs

/-- A directory behind a link, with links that lead out of it, one of them named like an ignore
file. -/
def shelteredTree : Node :=
  .directory 0o755 0 [
    (Text.lit "l", .link 0o777 0 (Text.lit "/r")),
    (Text.lit "o", .directory 0o755 0 [(Text.lit "f", .file .file 0o644 1 [49])]),
    (Text.lit "r", .directory 0o755 0 [
      (Text.lit ".gitignore", .file .file 0o644 1 [49]),
      (Text.lit "d", .directory 0o755 0 [(Text.lit ".gitignore", .link 0o777 0 (Text.lit "/o/f"))]),
      (Text.lit "x", .link 0o777 0 (Text.lit "/o"))])]

/-- The walk of the link lists two directories and reads the ignore file that is none. -/
theorem walkThrough_indoors_shelteredTree :
    let fs : FileSystem Id := shelteredTree.fileSystem
    let calls := ((walkThrough fs.noted 9 (fun _ acc => .yield acc) () (Walk.new
      ⟨.root, [Text.lit "l"]⟩ .plain)).run []).run.2
    (calls.filter fun call => call.operation = .list ∨ call.operation = .read).map (·.path)
        = ["/l", "/l/.gitignore", "/l/d"].map Text.lit ∧
      ∀ call ∈ calls, call.operation = .list ∨ call.operation = .read →
        ∃ a names, shelteredTree.Indoors .plain ⟨.root, [Text.lit "l"]⟩ call.path a names :=
  ⟨by decide +kernel, walkThrough_indoors (by decide) PathRules.plain_reads
    (Node.fileSystem_serves shelteredTree) ⟨rfl, by decide⟩ rfl (fun _ acc => .yield acc) () 9⟩

end Walk

end TreeSieve

import TreeSieve.Proofs.Sieve.Pruning
import TreeSieve.Proofs.Walk.Exploring
import TreeSieve.Proofs.Walk.Refinement

/-!
# What is given out is what is kept

A walk through a tree gives out the entries that its sieve does not ignore in the end, each once:
what is below a pruned directory is ignored, and everything else is looked at.

* `Walk.Explores` is the invariant: what has been left behind has been given out if it is kept.
* `Walk.Explores.advance` says that a step keeps it and leaves fewer nodes to be looked at.
* `Walk.entries_exact` says what a whole walk gives out.
-/

namespace TreeSieve

namespace Walk

/-! ### What decides about an entry -/

/-- A directory that is not entered is ignored. -/
theorem isIgnored_of_pruned {s : Sieve} {directory : Text}
    (h : (s.entering directory).enters = false) : s.isIgnored directory true = true := by
  obtain ⟨entry, hdeciding, hnegated, -⟩ := Sieve.enters_eq_false_iff.mp h
  rw [Sieve.isIgnored, Verdict.ignored, hdeciding]
  simp [hnegated]

/-- Everything in a directory that is pruned is ignored. -/
theorem Front.isIgnored_below {w : Walk} (hf : w.Front) (hstart : w.root.start = .root)
    (hsound : w.sieve.Sound)
    (hbrackets : ∀ b ∈ w.sieve.rulebook.blocks, ∀ rule ∈ b.rules, '[' ∉ rule.pattern)
    {item : Candidate} (hitem : item ∈ w.queue)
    (hpruned : (w.sieve.entering (w.pathOf item.names)).enters = false) {more : List Text}
    (hn : ∀ part ∈ item.names ++ more, Path.IsEntryName part) (hmore : more ≠ [])
    (isDirectory : Bool) :
    w.sieve.isIgnored (w.pathOf (item.names ++ more)) isDirectory = true := by
  have hscopes : w.sieve.KnowsNothingBelow (w.pathOf item.names) := by
    intro b hb hin
    obtain ⟨scope, hs, hscope, hout⟩ := hf.scopes b hb
    rw [hscope, inScope_pathOf hf.root hs (hf.names item hitem)] at hin
    have hnone := hout item hitem hin
    rw [hnone, List.prefix_nil] at hin
    rw [hscope, hnone, hin]
  have hparts : (w.root.descend (item.names ++ more)).parts
      = (w.root.descend item.names).parts ++ more := (List.append_assoc _ _ _).symm
  exact hsound.isIgnored_below hbrackets (hf.root.descend (hf.names item hitem))
    (hf.root.descend hn) hstart hstart hmore hparts rfl rfl hscopes hpruned isDirectory

/-! ### The invariant -/

/-- The invariant of a walk through a tree, `given` being what it has given out. Its queue holds
nodes of the tree; what it has given out are nodes that are not ignored, each of them once, and none
that anything in the queue leads to; and of the nodes that nothing in the queue leads to, those that
count have been given out exactly if they are not ignored. -/
structure Explores (fs : FileSystem Id) (tree : Node) (w : Walk) (given : List Entry) : Prop
    extends w.UnderWay, w.Setting fs tree where
  nodes : ∀ item ∈ w.queue, ∃ node, tree.at? item.names = some node ∧
    item.stats.kind = node.kind
  bracketFree : ∀ b ∈ w.sieve.rulebook.blocks, ∀ rule ∈ b.rules, '[' ∉ rule.pattern
  once : (given.map (·.names)).Nodup
  left : ∀ e ∈ given, w.LeftBehind e.names
  kept : ∀ e ∈ given, e.names ≠ [] ∧ (∃ node, tree.at? e.names = some node) ∧
    e.fullPath = w.pathOf e.names ∧ w.sieve.isIgnored e.fullPath e.stats.isDirectory = false
  settled : ∀ names node, names ≠ [] → tree.at? names = some node → w.LeftBehind names →
    node.Counts w.options.includeEmpty →
      (names ∈ given.map (·.names) ↔
        w.sieve.isIgnored (w.pathOf names) node.isDirectory = false)

/-- The number of nodes that lie at or below the entries of the queue. -/
def remaining (w : Walk) (tree : Node) : Nat :=
  (w.queue.map fun item => tree.weight item.names).sum

/-! ### One step -/

section Step

variable {fs : FileSystem Id} {tree : Node} {w : Walk} {item : Candidate} {node : Node} {s : Sight}

/-- An offer of an entry gives out the entry itself, if it is not the root and the rules for it do
not ignore it. -/
theorem mem_offer {stats : FileStats} {isDirectory : Bool} {e : Entry} :
    e ∈ (w.traversal fs).offer (w.rulesAt item.names) item stats isDirectory ↔
      e = ⟨item.names, w.pathOf item.names, stats⟩ ∧ item.names ≠ [] ∧
        w.sieve.isIgnored (w.pathOf item.names) isDirectory = false := by
  rw [Traversal.mem_offer, ← listIgnores_rulesAt]
  rfl

/-- If something is given out at a node then it is the node, which is not the root and not ignored,
and neither rules nor entries are seen there. -/
theorem Visits.of_mem_given (h : Visits fs tree w item node s) {e : Entry} (he : e ∈ s.given) :
    e = ⟨item.names, w.pathOf item.names, item.stats⟩ ∧ s.rules = [] ∧ s.entries = [] ∧
      item.names ≠ [] ∧ w.sieve.isIgnored (w.pathOf item.names) node.isDirectory = false := by
  cases h with
  | prunes _ _ => exact nomatch he
  | opens _ _ _ _ => exact nomatch he
  | considers _ _ =>
    obtain ⟨hentry, hne, hkept⟩ := mem_offer.mp he
    exact ⟨hentry, rfl, rfl, hne, hkept⟩

/-- What is given out at a node has no name twice. -/
theorem Visits.given_nodup (h : Visits fs tree w item node s) :
    (s.given.map (·.names)).Nodup := by
  cases h with
  | prunes _ _ => exact List.nodup_nil
  | opens _ _ _ _ => exact List.nodup_nil
  | considers _ _ =>
    show (((w.traversal fs).offer (w.rulesAt item.names) item item.stats
      node.isDirectory).map (·.names)).Nodup
    rw [Traversal.offer]
    split
    · exact List.nodup_nil
    · exact List.nodup_singleton _

/-- The names of what is queued at a node begin with the names of the node. -/
theorem Visits.prefix_of_mem (h : Visits fs tree w item node s) {child : Candidate}
    (hchild : child ∈ s.entries) : item.names <+: child.names := by
  cases h with
  | prunes _ _ => exact nomatch hchild
  | considers _ _ => exact nomatch hchild
  | opens _ _ names _ =>
    obtain ⟨entry, -, heq⟩ := List.mem_map.mp (names.subset (List.mem_map_of_mem hchild))
    exact heq ▸ List.prefix_append item.names [entry.1]

/-- The nodes below what is queued at a node are fewer than those at and below the node. -/
theorem Visits.sum_weight_lt (h : Visits fs tree w item node s)
    (hat : tree.at? item.names = some node) (hnodup : (node.entries.map (·.1)).Nodup) :
    (s.entries.map fun child => tree.weight child.names).sum < tree.weight item.names := by
  rw [Node.weight_of_at? hat]
  cases h with
  | prunes _ _ => exact node.one_le_count
  | considers _ _ => exact node.one_le_count
  | opens _ _ names _ =>
    rename_i rules items _ _ _
    have hsum := Node.sum_weight hat hnodup
    have hsame : (items.map fun child => tree.weight child.names).sum
        = ((node.entries.map (·.1)).map fun name => tree.weight (item.names ++ [name])).sum := by
      have hperm := (names.map tree.weight).sum_nat
      rw [List.map_map, List.map_map] at hperm
      rw [List.map_map]
      exact hperm
    show (items.map fun child => tree.weight child.names).sum < node.count
    omega

/-- What is queued at a node are nodes of the tree, and is known as what they are. -/
theorem Visits.exists_node (h : Visits fs tree w item node s) {child : Candidate}
    (hchild : child ∈ s.entries) :
    ∃ below, tree.at? child.names = some below ∧ child.stats.kind = below.kind := by
  cases h with
  | prunes _ _ => exact nomatch hchild
  | considers _ _ => exact nomatch hchild
  | opens _ _ _ nodes => exact nodes child hchild

theorem Visits.bracketFree (h : Visits fs tree w item node s) :
    ∀ rule ∈ s.rules, '[' ∉ rule.pattern := by
  cases h with
  | prunes _ _ => exact fun rule hrule => nomatch hrule
  | considers _ _ => exact fun rule hrule => nomatch hrule
  | opens _ brackets _ _ => exact brackets

theorem Setting.of_eq {w' : Walk} (h : w.Setting fs tree) (hroot : w'.root = w.root)
    (hoptions : w'.options = w.options) : w'.Setting fs tree :=
  ⟨hroot ▸ h.shows, hroot ▸ h.start, hoptions ▸ h.followLinks, hoptions ▸ h.maxDepth,
    hoptions ▸ h.maxEntries, hoptions ▸ h.brackets⟩

variable {w' : Walk} {rest : List Candidate} {given : List Entry}

/-- Let nothing in the queue lead to some names. Then nothing does so after a step, and they are
ignored after it exactly if they were before. -/
theorem Explores.leftBehind (h : Explores fs tree w given) (hqueue : w.queue = item :: rest)
    (hvisits : Visits fs tree w item node s)
    (hgrows : (w.popped rest).Grows item.names s.rules s.entries w') {names : List Text}
    (hn : ∀ part ∈ names, Path.IsEntryName part) (hleft : w.LeftBehind names) :
    w'.LeftBehind names ∧ ∀ isDirectory, w'.sieve.isIgnored (w'.pathOf names) isDirectory
      = w.sieve.isIgnored (w.pathOf names) isDirectory := by
  have hitem : item ∈ w.queue := hqueue ▸ List.mem_cons_self
  have hnot := hleft item hitem
  refine ⟨fun other ho hp => ?_, fun isDirectory => ?_⟩
  · rw [hgrows.queue] at ho
    rcases List.mem_append.mp ho with ho | ho
    · exact hleft other (hqueue ▸ List.mem_cons_of_mem item ho) hp
    · exact hnot ((hvisits.prefix_of_mem ho).trans hp)
  · refine isIgnored_congr hgrows.root ?_ isDirectory
    exact hgrows.rulesAt_elsewhere h.root (h.names item hitem) hn hnot

/-- A node at or below the one that a step has looked at, if nothing in the queue leads to it after
the step and it counts, has been given out by the step exactly if it is not ignored. -/
theorem Explores.settles (h : Explores fs tree w given) (hqueue : w.queue = item :: rest)
    (hat : tree.at? item.names = some node) (hvisits : Visits fs tree w item node s)
    (hgrows : (w.popped rest).Grows item.names s.rules s.entries w') {more : List Text}
    {below : Node} (hbelow : tree.at? (item.names ++ more) = some below)
    (hne : item.names ++ more ≠ []) (hleft : w'.LeftBehind (item.names ++ more))
    (hcounts : below.Counts w.options.includeEmpty) :
    item.names ++ more ∈ s.given.map (·.names) ↔
      w'.sieve.isIgnored (w'.pathOf (item.names ++ more)) below.isDirectory = false := by
  have hitem : item ∈ w.queue := hqueue ▸ List.mem_cons_self
  have hin : node.at? more = some below := by
    rwa [Node.at?_append, hat] at hbelow
  cases hvisits with
  | prunes directory pruned =>
    have hsame : ∀ isDirectory, w'.sieve.isIgnored (w'.pathOf (item.names ++ more)) isDirectory
        = w.sieve.isIgnored (w.pathOf (item.names ++ more)) isDirectory :=
      isIgnored_congr hgrows.root (hgrows.rulesAt_eq _)
    have hignored : w.sieve.isIgnored (w.pathOf (item.names ++ more)) below.isDirectory = true := by
      by_cases hmore : more = []
      · subst hmore
        rw [Node.at?_nil] at hin
        obtain rfl := Option.some.inj hin
        rw [Node.isDirectory, directory, List.append_nil]
        exact isIgnored_of_pruned pruned
      · exact h.toFront.isIgnored_below h.start h.sound h.bracketFree hitem pruned
          (h.shows.names _ below hbelow) hmore _
    rw [hsame, hignored]
    simp
  | opens uncounted brackets names nodes =>
    exfalso
    cases more with
    | nil =>
      rw [Node.at?_nil] at hin
      exact uncounted (Option.some.inj hin ▸ hcounts)
    | cons name more =>
      rw [Node.at?_cons] at hin
      obtain ⟨entry, hentry, -⟩ := Option.bind_eq_some_iff.mp hin
      obtain ⟨found, hfound, rfl⟩ := List.mem_map.mp (Node.mem_of_entry? hentry)
      -- the entry on the way has been queued, so that nothing in it is left behind
      have hchild : item.names ++ [found.1] ∈ _ := names.symm.subset
        (List.mem_map_of_mem (f := fun entry : Text × Node => item.names ++ [entry.1]) hfound)
      obtain ⟨child, hmem, heq⟩ := List.mem_map.mp hchild
      refine hleft child ?_ ?_
      · rw [hgrows.queue]
        exact List.mem_append_right _ hmem
      · rw [heq]
        exact ⟨more, by simp⟩
  | considers counts leaf =>
    obtain rfl := Node.eq_nil_of_at? leaf hin
    rw [Node.at?_nil] at hin
    obtain rfl := Option.some.inj hin
    rw [List.append_nil] at hne ⊢
    have hsame : w'.sieve.isIgnored (w'.pathOf item.names) node.isDirectory
        = w.sieve.isIgnored (w.pathOf item.names) node.isDirectory :=
      isIgnored_congr hgrows.root (hgrows.rulesAt_eq _) _
    rw [hsame, List.mem_map]
    constructor
    · rintro ⟨e, he, -⟩
      exact (mem_offer.mp he).2.2
    · intro hkept
      exact ⟨_, mem_offer.mpr ⟨rfl, hne, hkept⟩, rfl⟩

/-- After a step, nothing in the queue leads to what has been given out, by the step or before it.
-/
theorem Explores.left_step (h : Explores fs tree w given) (hqueue : w.queue = item :: rest)
    (hvisits : Visits fs tree w item node s)
    (hgrows : (w.popped rest).Grows item.names s.rules s.entries w') {e : Entry}
    (he : e ∈ s.given.reverse ++ given) : w'.LeftBehind e.names := by
  rcases List.mem_append.mp he with he | he
  · obtain ⟨rfl, -, hentries, -, -⟩ := hvisits.of_mem_given (List.mem_reverse.mp he)
    rw [LeftBehind, hgrows.queue, hentries, List.append_nil]
    exact (h.toFront.popped hqueue).2
  · obtain ⟨-, ⟨below, hbelow⟩, -, -⟩ := h.kept e he
    exact (h.leftBehind hqueue hvisits hgrows (h.shows.names _ below hbelow) (h.left e he)).1

/-- After a step, what has been given out, by the step or before it, is a node of the tree that is
not ignored. -/
theorem Explores.kept_step (h : Explores fs tree w given) (hqueue : w.queue = item :: rest)
    (hat : tree.at? item.names = some node) (hkind : item.stats.kind = node.kind)
    (hvisits : Visits fs tree w item node s)
    (hgrows : (w.popped rest).Grows item.names s.rules s.entries w') {e : Entry}
    (he : e ∈ s.given.reverse ++ given) :
    e.names ≠ [] ∧ (∃ node, tree.at? e.names = some node) ∧ e.fullPath = w'.pathOf e.names ∧
      w'.sieve.isIgnored e.fullPath e.stats.isDirectory = false := by
  have hpath : w'.pathOf = w.pathOf := by
    funext names
    rw [pathOf, pathOf, show w'.root = w.root from hgrows.root]
  rw [hpath]
  rcases List.mem_append.mp he with he | he
  · obtain ⟨rfl, hrules, -, hne, hkept⟩ := hvisits.of_mem_given (List.mem_reverse.mp he)
    refine ⟨hne, ⟨node, hat⟩, rfl, ?_⟩
    have hsame := isIgnored_congr hgrows.root ((hrules ▸ hgrows).rulesAt_eq item.names)
      item.stats.isDirectory
    rw [hpath] at hsame
    rw [hsame, FileStats.isDirectory, hkind]
    exact hkept
  · obtain ⟨hne, ⟨below, hbelow⟩, hfull, hkept⟩ := h.kept e he
    have hsame := (h.leftBehind hqueue hvisits hgrows (h.shows.names _ below hbelow)
      (h.left e he)).2 e.stats.isDirectory
    rw [hpath] at hsame
    refine ⟨hne, ⟨below, hbelow⟩, hfull, ?_⟩
    rw [hfull, hsame, ← hfull]
    exact hkept

/-- After a step, a node that counts and that nothing in the queue leads to has been given out, by
the step or before it, exactly if it is not ignored. -/
theorem Explores.settled_step (h : Explores fs tree w given) (hqueue : w.queue = item :: rest)
    (hat : tree.at? item.names = some node) (hvisits : Visits fs tree w item node s)
    (hgrows : (w.popped rest).Grows item.names s.rules s.entries w') {names : List Text}
    {below : Node} (hne : names ≠ []) (hbelow : tree.at? names = some below)
    (hleft : w'.LeftBehind names) (hcounts : below.Counts w.options.includeEmpty) :
    names ∈ (s.given.reverse ++ given).map (·.names) ↔
      w'.sieve.isIgnored (w'.pathOf names) below.isDirectory = false := by
  have hitem : item ∈ w.queue := hqueue ▸ List.mem_cons_self
  rw [List.map_append, List.mem_append, List.map_reverse, List.mem_reverse]
  by_cases hbefore : w.LeftBehind names
  · -- the verdict was reached before, and the node is another one
    rw [(h.leftBehind hqueue hvisits hgrows (h.shows.names _ below hbelow) hbefore).2,
      ← h.settled names below hne hbelow hbefore hcounts, or_iff_right]
    intro hmem
    obtain ⟨e, he, rfl⟩ := List.mem_map.mp hmem
    obtain ⟨rfl, -⟩ := hvisits.of_mem_given he
    exact hbefore item hitem (List.prefix_refl _)
  · have hpre : item.names <+: names := by
      by_contra hnot
      refine hbefore fun other ho => ?_
      rw [hqueue] at ho
      rcases List.mem_cons.mp ho with rfl | ho
      · exact hnot
      · refine hleft other ?_
        rw [hgrows.queue]
        exact List.mem_append_left _ ho
    obtain ⟨more, rfl⟩ := hpre
    rw [← h.settles hqueue hat hvisits hgrows hbelow hne hleft hcounts, or_iff_left]
    intro hmem
    obtain ⟨e, he, hsame⟩ := List.mem_map.mp hmem
    exact h.left e he item hitem (hsame ▸ List.prefix_append _ _)

/-- Looking at a node keeps `Explores`, with what is given out there added. -/
theorem Explores.step (h : Explores fs tree w given) (hqueue : w.queue = item :: rest)
    (hat : tree.at? item.names = some node) (hkind : item.stats.kind = node.kind)
    (hvisits : Visits fs tree w item node s)
    (hgrows : (w.popped rest).Grows item.names s.rules s.entries w') (hnext : w'.UnderWay) :
    Explores fs tree w' (s.given.reverse ++ given) := by
  refine ⟨hnext, h.toSetting.of_eq hgrows.root hgrows.options, ?_, ?_, ?_,
    fun e => h.left_step hqueue hvisits hgrows,
    fun e => h.kept_step hqueue hat hkind hvisits hgrows, ?_⟩
  · intro other hother
    rw [hgrows.queue] at hother
    rcases List.mem_append.mp hother with hother | hother
    · exact h.nodes other (hqueue ▸ List.mem_cons_of_mem item hother)
    · exact hvisits.exists_node hother
  · intro b hb rule hrule
    obtain ⟨more, hblocks, -, hrules⟩ := hgrows.blocks
    rw [hblocks] at hb
    rcases List.mem_append.mp hb with hb | hb
    · exact h.bracketFree b hb rule hrule
    · exact hvisits.bracketFree rule (hrules ▸ List.mem_flatMap.mpr ⟨b, hb, hrule⟩)
  · rw [List.map_append, List.map_reverse]
    refine List.nodup_append'.mpr ⟨List.nodup_reverse.mpr hvisits.given_nodup, h.once, ?_⟩
    -- what was given out before is left behind, and the node is not
    intro names hnew hold
    obtain ⟨e, he, rfl⟩ := List.mem_map.mp (List.mem_reverse.mp hnew)
    obtain ⟨rfl, -⟩ := hvisits.of_mem_given he
    obtain ⟨other, hother, hsame⟩ := List.mem_map.mp hold
    exact h.left other hother item (hqueue ▸ List.mem_cons_self) (hsame ▸ List.prefix_refl _)
  · intro names below hne hbelow hleft hcounts
    exact h.settled_step hqueue hat hvisits hgrows hne hbelow hleft (hgrows.options ▸ hcounts)

/-- Looking at a node leaves fewer nodes at and below the entries of the queue. -/
theorem Explores.remaining_lt (h : Explores fs tree w given) (hqueue : w.queue = item :: rest)
    (hat : tree.at? item.names = some node) (hvisits : Visits fs tree w item node s)
    (hgrows : (w.popped rest).Grows item.names s.rules s.entries w') :
    w'.remaining tree < w.remaining tree := by
  have hnodup : (node.entries.map (·.1)).Nodup := by
    by_cases hkind : node.kind = .directory
    · obtain ⟨entries, hlist, hperm⟩ := h.shows.list _ node hat hkind
      exact hperm.nodup (h.shows.listing _ entries hlist).nodup
    · rw [Node.entries_eq_nil hkind]
      exact List.nodup_nil
  have hless := hvisits.sum_weight_lt hat hnodup
  have hpopped : (w.popped rest).queue = rest := rfl
  rw [remaining, remaining, hgrows.queue, hqueue, hpopped, List.map_append, List.sum_append,
    List.map_cons, List.sum_cons]
  omega

end Step

/-! ### Whole runs -/

section Runs

variable {fs : FileSystem Id} {tree : Node} {w : Walk} {given : List Entry}

/-- A step that has a node in the queue to look at gives out something or nothing, but does not
fail; it keeps `Explores`, and fewer nodes remain. -/
theorem Explores.advance (h : Explores fs tree w given) {item : Candidate} {rest : List Candidate}
    (hqueue : w.queue = item :: rest) :
    ∃ more, (w.step fs).run.1.given = some more ∧
      Explores fs tree (w.step fs).run.2 (more.reverse ++ given) ∧
      (w.step fs).run.2.remaining tree < w.remaining tree ∧
      (w.step fs).run.2.root = w.root ∧ (w.step fs).run.2.options = w.options := by
  obtain ⟨node, hat, hkind⟩ := h.nodes item (hqueue ▸ List.mem_cons_self)
  have hreal : ∃ real, (fs.realPath (w.pathOf [])).run = .ok real := by
    rw [pathOf, Path.descend_nil]
    exact h.shows.realPath
  obtain ⟨hsees, hnext⟩ := h.toUnderWay.advance h.shows.listing h.maxEntries hreal hqueue
  have hvisits := h.toSetting.visits h.root h.sound hat hkind
  have hstep : w.step fs = w.advance fs := by rw [Walk.step, h.phase]
  rw [hstep]
  exact ⟨_, hsees.given, h.step hqueue hat hkind hvisits hsees.toGrows hnext,
    h.remaining_lt hqueue hat hvisits hsees.toGrows, hsees.root, hsees.options⟩

/-- A walk with an empty queue ends with the next step, and what has been given out stays. -/
theorem Explores.visit_nil (h : Explores fs tree w given) (hqueue : w.queue = []) (steps : Nat) :
    (visit fs (fun entry acc => .yield (entry :: acc)) (steps + 1) given w).run
      = (.ok given, w.finish) := by
  rw [visit, Walk.step, h.phase]
  simp only [Walk.advance, hqueue]
  rfl

/-- A walk through a tree comes to its end. -/
theorem Explores.exists_ended (h : Explores fs tree w given) : ∃ steps,
    (visit fs (fun entry acc => .yield (entry :: acc)) steps given w).run.2.phase = .ended := by
  induction hnodes : w.remaining tree using Nat.strong_induction_on generalizing w given with
  | _ nodes ih =>
    cases hqueue : w.queue with
    | nil =>
      refine ⟨1, ?_⟩
      rw [h.visit_nil hqueue]
      rfl
    | cons item rest =>
      obtain ⟨more, hgiven, hnext, hless, -⟩ := h.advance hqueue
      obtain ⟨steps, hend⟩ := ih _ (hnodes ▸ hless) hnext rfl
      refine ⟨steps + 1, ?_⟩
      rw [visit_of_given steps given hgiven]
      exact hend

/-- A walk through a tree that has come to its end has not failed, and is left with `Explores` and
an empty queue. -/
theorem Explores.visit_ended (steps : Nat) : ∀ {w : Walk} {given : List Entry},
    Explores fs tree w given →
    (visit fs (fun entry acc => .yield (entry :: acc)) steps given w).run.2.phase = .ended →
    ∃ last found, Explores fs tree last found ∧ last.queue = [] ∧ last.root = w.root ∧
      last.options = w.options ∧
      (visit fs (fun entry acc => .yield (entry :: acc)) steps given w).run
        = (.ok found, last.finish) := by
  induction steps with
  | zero =>
    intro w given h hend
    exact absurd (h.phase.symm.trans hend) (by decide)
  | succ steps ih =>
    intro w given h hend
    cases hqueue : w.queue with
    | nil => exact ⟨w, given, h, hqueue, rfl, rfl, h.visit_nil hqueue steps⟩
    | cons item rest =>
      obtain ⟨more, hgiven, hnext, -, hroot, hsame⟩ := h.advance hqueue
      rw [visit_of_given steps given hgiven] at hend ⊢
      obtain ⟨last, found, hlast, hempty, hlastRoot, hoptions, hrun⟩ := ih hnext hend
      exact ⟨last, found, hlast, hempty, hlastRoot.trans hroot, hoptions.trans hsame, hrun⟩

/-- The root is accepted if it shows a directory. -/
theorem start_of_shows {root : Path} (hshows : fs.Shows root tree)
    (htree : tree.kind = .directory) (options : Walk.Options) :
    ∃ stats w₀, stats.kind = tree.kind ∧
      ((Walk.new root options).start fs).run = (.ok (), w₀) ∧
      (Walk.new root options).Accepted stats w₀ := by
  obtain ⟨stats, hstats, hkind⟩ := hshows.lstat [] tree (Node.at?_nil tree)
  rw [Path.descend_nil] at hstats
  have hlink : stats.isSymlink = false := by
    rw [FileStats.isSymlink, hkind, htree]
    rfl
  have hdirectory : stats.isDirectory = true := by
    rw [FileStats.isDirectory, hkind, htree]
    rfl
  have hlook : (lookAtRoot fs root.toText).run = .ok stats := by
    rw [lookAtRoot, Id.run_bind, hstats]
    simp only [hlink, hdirectory]
    rfl
  exact ⟨stats, _, hkind, start_of_lookAtRoot hlook options, rfl, rfl, rfl, rfl, rfl⟩

/-- A walk that begins keeps `Explores`: the queue holds the root, which leads to everything, and
nothing has been given out. -/
theorem begin_explores {w : Walk} (hsetting : w.Setting fs tree) (hroot : w.root.IsRooted)
    (hsieve : w.sieve = Sieve.empty) (hkind : w.rootStats.kind = tree.kind) :
    Explores fs tree w.begin [] := by
  refine ⟨begin_underWay hroot (hsieve ▸ Sieve.empty_sound) (by rw [hsieve]; rfl),
    hsetting.of_eq rfl rfl, ?_, ?_, List.nodup_nil, fun e he => (nomatch he),
    fun e he => (nomatch he), ?_⟩
  · intro item hitem
    rw [List.mem_singleton.mp hitem]
    exact ⟨tree, Node.at?_nil tree, hkind⟩
  · intro b hb rule hrule hbracket
    have hblocks : w.begin.sieve.rulebook.blocks = w.sieve.rulebook.blocks
        ++ [w.sieve.rulebook.nextBlock w.rootText (IgnoreFile.parse w.sieve.cache w.rootText
          (.text metadataRule) none).1.rules none] := rfl
    have hempty : w.sieve.rulebook.blocks = [] := by rw [hsieve]; rfl
    rw [hblocks, hempty, List.nil_append] at hb
    rw [List.mem_singleton.mp hb] at hrule
    have hchars : '[' ∉ (Content.text metadataRule).decoded := by decide
    exact hchars (IgnoreFile.mem_of_mem_pattern hrule hbracket)
  · intro names node _ _ hleft
    exact absurd List.nil_prefix (hleft ⟨[], w.rootStats, [], []⟩ List.mem_cons_self)

/-- A walk through a tree from its root that has come to its end has not failed, and is left with
`Explores` and an empty queue. -/
theorem Setting.exists_explores {w₀ : Walk} (hsetting : w₀.Setting fs tree)
    (hroot : w₀.root.IsRooted) (hphase : w₀.phase = .ready) (hsieve : w₀.sieve = Sieve.empty)
    (hkind : w₀.rootStats.kind = tree.kind) {steps : Nat}
    (hend : (w₀.entries fs steps).run.2.phase = .ended) :
    ∃ last found, Explores fs tree last found ∧ last.queue = [] ∧ last.root = w₀.root ∧
      last.options = w₀.options ∧
      (w₀.entries fs steps).run = (.ok found.reverse, last.finish) := by
  cases steps with
  | zero => exact absurd (hphase.symm.trans hend) (by decide)
  | succ steps =>
    rw [entries_of_ready fs hphase] at hend ⊢
    obtain ⟨last, found, hlast, hempty, hlastRoot, hoptions, hrun⟩ :=
      (begin_explores hsetting hroot hsieve hkind).visit_ended (steps + 1) hend
    refine ⟨last, found, hlast, hempty, hlastRoot, hoptions, ?_⟩
    rw [hrun]
    rfl

/-- **What is given out is what is kept.** Let a file system show a tree without failures below an
absolute path, in any order, and let no ignore file in it hold a bracket. A walk through the tree
that follows no links and has no limits begins and comes to its end, and has not failed then. It has
given out each entry once that is no directory and that its final sieve does not ignore, and each
directory without entries that the sieve does not ignore if such directories count. Nothing that it
has given out is ignored. -/
theorem entries_exact {fs : FileSystem Id} {tree : Node} (current : Path) (root : Text)
    (hstart : Path.startOf root = .root) (options : Walk.Options)
    (hlinks : options.followLinks = false) (hdepth : options.maxDepth = none)
    (hlimit : options.maxEntries = none)
    (hshows : fs.Shows (Path.absolute current root) tree) (htree : tree.kind = .directory)
    (hbrackets : tree.BracketFree options.ignoreNames) :
    ∃ w₀, ((Walk.new (Path.absolute current root) options).start fs).run = (.ok (), w₀) ∧
      (∃ steps, (w₀.entries fs steps).run.2.phase = .ended) ∧
      ∀ steps final, (w₀.entries fs steps).run.2 = final → final.phase = .ended →
        ∃ found, (w₀.entries fs steps).run.1 = .ok found ∧ (found.map (·.names)).Nodup ∧
          (∀ names node, names ≠ [] → tree.at? names = some node → node.kind ≠ .directory →
            (names ∈ found.map (·.names) ↔
              final.sieve.isIgnored (final.pathOf names) false = false)) ∧
          (options.includeEmpty = true → ∀ names node, names ≠ [] → tree.at? names = some node →
            node.kind = .directory → node.entries = [] →
            (names ∈ found.map (·.names) ↔
              final.sieve.isIgnored (final.pathOf names) true = false)) ∧
          ∀ e ∈ found, (∃ node, tree.at? e.names = some node) ∧
            final.sieve.isIgnored e.fullPath e.stats.isDirectory = false := by
  obtain ⟨stats, w₀, hkind, hbegun, haccepted⟩ := start_of_shows hshows htree options
  have hone : (Path.absolute current root).start = .root := by
    rw [Path.absolute_of_startOf hstart]
    exact hstart
  have hrooted : (Path.absolute current root).IsRooted := by
    rw [Path.absolute_of_startOf hstart]
    exact Path.collapse_ofText_isRooted (by rw [hstart]; decide)
  have hsetting : (Walk.new (Path.absolute current root) options).Setting fs tree :=
    ⟨hshows, hone, hlinks, hdepth, hlimit, hbrackets⟩
  have hexplores : Explores fs tree w₀.begin [] :=
    begin_explores (hsetting.of_eq haccepted.root haccepted.options) (haccepted.root ▸ hrooted)
      haccepted.sieve (haccepted.rootStats ▸ hkind)
  refine ⟨w₀, hbegun, ?_, ?_⟩
  · obtain ⟨steps, hend⟩ := hexplores.exists_ended
    cases steps with
    | zero => exact absurd (hexplores.phase.symm.trans hend) (by decide)
    | succ steps =>
      refine ⟨steps + 1, ?_⟩
      rw [entries_of_ready fs haccepted.phase]
      exact hend
  · intro steps final hfinal hend
    cases steps with
    | zero =>
      rw [← hfinal] at hend
      exact absurd (haccepted.phase.symm.trans hend) (by decide)
    | succ steps =>
      rw [entries_of_ready fs haccepted.phase] at hfinal ⊢
      have hended := hend
      rw [← hfinal] at hended
      obtain ⟨last, found, hlast, hempty, -, hoptions, hrun⟩ :=
        hexplores.visit_ended (steps + 1) hended
      rw [hrun] at hfinal ⊢
      obtain rfl : last.finish = final := hfinal
      have hleft : ∀ names, last.LeftBehind names := by
        intro names other hother
        rw [hempty] at hother
        exact nomatch hother
      have hinclude : last.options.includeEmpty = options.includeEmpty := by
        rw [hoptions, show w₀.begin.options = w₀.options from rfl, haccepted.options]
        rfl
      refine ⟨found.reverse, rfl, ?_, ?_, ?_, ?_⟩
      · rw [List.map_reverse]
        exact List.nodup_reverse.mpr hlast.once
      · intro names node hne hat hkind
        have hsettled := hlast.settled names node hne hat (hleft names)
          fun hdirectory => absurd hdirectory hkind
        rw [Node.isDirectory, beq_eq_false_iff_ne.mpr hkind] at hsettled
        rw [List.map_reverse, List.mem_reverse]
        exact hsettled
      · intro hcount names node hne hat hkind hnone
        have hsettled := hlast.settled names node hne hat (hleft names)
          fun _ => ⟨hinclude.trans hcount, hnone⟩
        rw [Node.isDirectory, hkind] at hsettled
        rw [List.map_reverse, List.mem_reverse]
        exact hsettled
      · intro e he
        obtain ⟨-, hnode, -, hkept⟩ := hlast.kept e (List.mem_reverse.mp he)
        exact ⟨hnode, hkept⟩

/-- A file with the given text. -/
def plainFile (content : String) : Node :=
  .file .file 0o644 1 (content.toList.map (·.toNat.toUInt8))

/-- A directory whose ignore file names `a` and a directory in it, with another directory whose
ignore file takes its own `a` back. -/
def reopenedTree : Node :=
  .directory 0o755 0 [
    (Text.lit ".gitignore", plainFile "a\nd/\n"),
    (Text.lit "a", plainFile ""),
    (Text.lit "d", .directory 0o755 0 [(Text.lit "b", plainFile "")]),
    (Text.lit "e", .directory 0o755 0 [
      (Text.lit ".gitignore", plainFile "!a\n"), (Text.lit "a", plainFile "")])]

/-- Files with this directory in their root. -/
def reopenedFiles : FileSystem Id :=
  (Node.directory 0o755 0 [(Text.lit "r", reopenedTree)]).fileSystem

theorem plainFile_bracketFree {content : String}
    (h : '[' ∉ (Content.bytes (content.toList.map (·.toNat.toUInt8))).decoded) (name : Text)
    (ignoreNames : List Text) : (plainFile content).BracketFree ignoreNames ∧
      ∀ permissions size bytes, name ∈ ignoreNames →
        plainFile content = .file .file permissions size bytes →
        '[' ∉ (Content.bytes bytes).decoded := by
  refine ⟨Node.bracketFree_of_entries fun entry hentry => absurd hentry List.not_mem_nil, ?_⟩
  intro permissions size bytes _ hsame
  cases hsame
  exact h

theorem reopenedTree_bracketFree (ignoreNames : List Text) :
    reopenedTree.BracketFree ignoreNames := by
  refine Node.bracketFree_of_entries fun entry hentry => ?_
  simp only [reopenedTree, Node.entries, List.mem_cons, List.not_mem_nil, or_false] at hentry
  rcases hentry with rfl | rfl | rfl | rfl
  · exact plainFile_bracketFree (by decide +kernel) _ ignoreNames
  · exact plainFile_bracketFree (by decide +kernel) _ ignoreNames
  · refine ⟨Node.bracketFree_of_entries fun entry hentry => ?_,
      fun _ _ _ _ hsame => by cases hsame⟩
    rw [List.mem_singleton.mp hentry]
    exact plainFile_bracketFree (by decide +kernel) _ ignoreNames
  · refine ⟨Node.bracketFree_of_entries fun entry hentry => ?_,
      fun _ _ _ _ hsame => by cases hsame⟩
    simp only [Node.entries, List.mem_cons, List.not_mem_nil, or_false] at hentry
    rcases hentry with rfl | rfl
    · exact plainFile_bracketFree (by decide +kernel) _ ignoreNames
    · exact plainFile_bracketFree (by decide +kernel) _ ignoreNames

/-- The name that is taken back is given out, and nothing in the ignored directory is. -/
theorem entries_exact_reopenedTree :
    let w₀ := ((Walk.new (Path.absolute Path.rootDirectory (Text.lit "/r")) .plain).start
      reopenedFiles).run.2
    let finished := (w₀.entries reopenedFiles 9).run
    finished.2.phase = .ended ∧ ∃ found, finished.1 = .ok found ∧
      [Text.lit "e", Text.lit "a"] ∈ found.map (·.names) ∧
      [Text.lit "d", Text.lit "b"] ∉ found.map (·.names) := by
  intro w₀ finished
  have hend : finished.2.phase = .ended := by decide +kernel
  refine ⟨hend, ?_⟩
  have hproper : (Node.directory 0o755 0 [(Text.lit "r", reopenedTree)]).IsProper := by
    simp [reopenedTree, plainFile, Node.IsProper, Node.AreProper, Path.IsEntryName, Path.IsName,
      Path.dot, Path.dotDot, Text.lit]
  have hshows : reopenedFiles.Shows (Path.absolute Path.rootDirectory (Text.lit "/r"))
      reopenedTree := by
    refine hproper.shows (Path.absolute_isRooted rfl ?_ _) rfl rfl
    simp [Path.rootDirectory]
  obtain ⟨started, hstarted, -, hall⟩ := entries_exact Path.rootDirectory (Text.lit "/r") rfl .plain
    rfl rfl rfl hshows rfl (reopenedTree_bracketFree _)
  obtain rfl : w₀ = started := congrArg Prod.snd hstarted
  obtain ⟨found, hfound, -, hfiles, -⟩ := hall 9 finished.2 rfl hend
  refine ⟨found, hfound, ?_, ?_⟩
  · rw [hfiles _ _ (by decide) rfl (by decide)]
    decide +kernel
  · rw [hfiles _ _ (by decide) rfl (by decide)]
    decide +kernel

end Runs

end Walk

end TreeSieve

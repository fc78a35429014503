import TreeSieve.Proofs.Walk.Finality
import TreeSieve.Proofs.Walk.Seeing

/-!
# A walk is a recursive traversal

A walk keeps all rules in one list and asks for each path which of them hold there. On files that do
not change this comes to the same as passing rules on from directory to directory.

* `Walk.places` are the entries in the queue with the rules that hold for them;
  `Walk.Sees.places_eq` says that these are the inherited rules.
* `Walk.Follows` holds of a walk that makes a traversal, `Walk.Follows.step` says that a step looks
  at the first of its places, and `Walk.visit_drains` that a walk to its end goes through them all.
* `Walk.entries_eq_sorted` says that a walk gives out what the recursive traversal gives out, sorted
  by depth.
-/

namespace TreeSieve

/-- The place that a traversal begins with: the root, what is known of it, and the first rules. -/
def Traversal.rootPlace (t : Traversal) (stats : FileStats) : Place :=
  ⟨t.firstRules, ⟨[], stats, [], []⟩⟩

namespace Walk

/-! ### The places of a queue -/

/-- The entries in the queue with the rules that hold for them. -/
def places (w : Walk) : List Place := w.queue.map fun item => ⟨w.rulesAt item.names, item⟩

theorem rulesAt_append {w w' : Walk} (hroot : w'.root = w.root) {more : List RuleBlock}
    (hblocks : w'.sieve.rulebook.blocks = w.sieve.rulebook.blocks ++ more) (names : List Text) :
    w'.rulesAt names = w.rulesAt names ++
      (more.filter (·.appliesTo (canonical (w.pathOf names)))).flatMap (·.rules) := by
  have hpath : w'.pathOf names = w.pathOf names := by rw [pathOf, pathOf, hroot]
  rw [rulesAt, rulesAt, hpath, Sieve.rulesFor, Rulebook.rulesFor_append hblocks, List.map_append,
    ← Sieve.rulesFor, List.map_flatMap]
  simp only [RuleBlock.map_snd_numbered]

/-- The rules that are learned in a directory leave the rules that hold for other entries as they
are. -/
theorem Grows.rulesAt_elsewhere {w w' : Walk} {names : List Text} {rules : List Rule}
    {items : List Candidate} (h : w.Grows names rules items w') (hroot : w.root.IsRooted)
    {other : List Text} (hn : ∀ part ∈ names, Path.IsEntryName part)
    (ho : ∀ part ∈ other, Path.IsEntryName part) (hnot : ¬names <+: other) :
    w'.rulesAt other = w.rulesAt other := by
  obtain ⟨more, hmore, hscope, -⟩ := h.blocks
  have hnone : more.filter (·.appliesTo (canonical (w.pathOf other))) = [] := by
    rw [List.filter_eq_nil_iff]
    intro b hb
    rw [RuleBlock.appliesTo, hscope b hb, outside_of_leftBehind hroot ho hn hnot]
    exact Bool.false_ne_true
  rw [rulesAt_append h.root hmore, hnone, List.flatMap_nil, List.append_nil]

/-- If no rules are learned then the rules that hold for any entry stay. -/
theorem Grows.rulesAt_eq {w w' : Walk} {names : List Text} {items : List Candidate}
    (h : w.Grows names [] items w') (other : List Text) : w'.rulesAt other = w.rulesAt other := by
  obtain ⟨more, hmore, -, hrules⟩ := h.blocks
  have hnone : (more.filter (·.appliesTo (canonical (w.pathOf other)))).flatMap (·.rules) = [] := by
    rw [List.flatMap_eq_nil_iff] at hrules ⊢
    exact fun b hb => hrules b (List.mem_of_mem_filter hb)
  rw [rulesAt_append h.root hmore, hnone, List.append_nil]

/-- The rules that hold for an entry of a directory are those that hold for the directory and,
behind them, those that are learned in it. -/
theorem Grows.rulesAt_child {w w' : Walk} {names : List Text} {rules : List Rule}
    {items : List Candidate} (h : w.Grows names rules items w') (hroot : w.root.IsRooted)
    {name : Text} (hn : ∀ part ∈ names, Path.IsEntryName part) (hname : Path.IsEntryName name)
    (hscopes : ∀ b ∈ w.sieve.rulebook.blocks, ∃ scope, (∀ part ∈ scope, Path.IsEntryName part) ∧
      b.scope = canonical (w.pathOf scope) ∧ (names <+: scope → scope = [])) :
    w'.rulesAt (names ++ [name]) = w.rulesAt names ++ rules := by
  obtain ⟨more, hmore, hscope, hrules⟩ := h.blocks
  have hchild := Path.isEntryName_concat hn hname
  have hall : more.filter (·.appliesTo (canonical (w.pathOf (names ++ [name])))) = more := by
    rw [List.filter_eq_self]
    intro b hb
    rw [RuleBlock.appliesTo, hscope b hb, inScope_pathOf hroot hchild hn]
    exact List.prefix_append names [name]
  have hold : w.rulesAt (names ++ [name]) = w.rulesAt names := by
    rw [rulesAt, rulesAt, Sieve.rulesFor, Sieve.rulesFor]
    refine congrArg (List.map (·.2)) (Rulebook.rulesFor_congr fun b hb => ?_)
    obtain ⟨scope, hs, heq, hout⟩ := hscopes b hb
    rw [RuleBlock.appliesTo, RuleBlock.appliesTo, heq, Bool.eq_iff_iff,
      inScope_pathOf hroot hchild hs, inScope_pathOf hroot hn hs, List.prefix_concat_iff]
    constructor
    · rintro (hsame | hpre)
      · -- no rules of the entry itself are known yet
        rw [hout (hsame ▸ List.prefix_append names [name])]
        exact List.nil_prefix
      · exact hpre
    · exact Or.inr
  rw [rulesAt_append h.root hmore, hall, hold, hrules]

theorem isIgnored_congr {w w' : Walk} (hroot : w'.root = w.root) {names : List Text}
    (hrules : w'.rulesAt names = w.rulesAt names) (isDirectory : Bool) :
    w'.sieve.isIgnored (w'.pathOf names) isDirectory
      = w.sieve.isIgnored (w.pathOf names) isDirectory := by
  have hpath : w'.pathOf names = w.pathOf names := by rw [pathOf, pathOf, hroot]
  rw [← listIgnores_rulesAt, hrules, hpath, listIgnores_rulesAt]

/-- A walk that goes on, none of whose entries lies too deep. -/
structure UnderWay (w : Walk) : Prop extends w.Front where
  phase : w.phase = .running
  sound : w.sieve.Sound
  depth : ∀ item ∈ w.queue, ∀ depth, w.options.maxDepth = some depth → item.depth ≤ depth

/-- A walk with an empty queue ends with its next step. -/
theorem step_of_queue_nil {m : Type → Type} [Monad m] {fs : FileSystem m} {w : Walk}
    (hphase : w.phase = .running) (hqueue : w.queue = []) :
    w.step fs = pure (.finished, w.finish) := by
  have hadvance : w.advance fs = pure (.finished, w.finish) := by rw [advance, hqueue]
  rw [step, hphase]
  exact hadvance

section Static

variable {fs : FileSystem Id}
  (hlist : ∀ path entries, (fs.list path).run = .ok entries → IsListing entries)

include hlist

/-- After a step the places are the same without the first one, and behind them the places that are
seen in that one. -/
theorem Sees.places_eq {w : Walk} {result : StepOutcome × Walk} {item : Candidate}
    {rest : List Candidate} (hf : w.Front) (hqueue : w.queue = item :: rest)
    (hsees : (w.popped rest).Sees item.names
      ((w.traversal fs).sight (w.rulesAt item.names) item) result) :
    result.2.places = rest.map (fun other => ⟨w.rulesAt other.names, other⟩) ++
      ((w.traversal fs).look ⟨w.rulesAt item.names, item⟩).2 := by
  have hitem : item ∈ w.queue := hqueue ▸ List.mem_cons_self
  have hapart := hf.apart
  rw [hqueue, List.pairwise_cons] at hapart
  rw [places, hsees.queue, List.map_append, Traversal.look]
  refine congrArg₂ (· ++ ·) (List.map_congr_left fun other ho => ?_)
    (List.map_congr_left fun child hchild => ?_)
  · have hother : other ∈ w.queue := hqueue ▸ List.mem_cons_of_mem item ho
    rw [hsees.rulesAt_elsewhere hf.root (hf.names item hitem) (hf.names other hother)
      (hapart.1 other ho).1]
    rfl
  · obtain ⟨-, entries, hentries, entry, hentry, hnames⟩ := Traversal.exists_of_mem_sight _ hchild
    have hname := (hlist _ entries hentries).names entry hentry
    have hscopes : ∀ b ∈ (w.popped rest).sieve.rulebook.blocks, ∃ scope,
        (∀ part ∈ scope, Path.IsEntryName part) ∧
        b.scope = canonical ((w.popped rest).pathOf scope) ∧
          (item.names <+: scope → scope = []) := by
      intro b hb
      obtain ⟨scope, hs, heq, hout⟩ := hf.scopes b hb
      exact ⟨scope, hs, heq, hout item hitem⟩
    rw [hnames, hsees.rulesAt_child hf.root (hf.names item hitem) hname hscopes]
    rfl

/-- A step of a walk under way that has something in its queue gives out, learns and queues what the
traversal sees at the first entry, and leaves the walk under way. -/
theorem UnderWay.advance {w : Walk} (hw : w.UnderWay) (hentries : w.options.maxEntries = none)
    (hreal : ∃ real, (fs.realPath (w.pathOf [])).run = .ok real) {item : Candidate}
    {rest : List Candidate} (hqueue : w.queue = item :: rest) :
    (w.popped rest).Sees item.names ((w.traversal fs).sight (w.rulesAt item.names) item)
        (w.advance fs).run ∧
      (w.advance fs).run.2.UnderWay := by
  have hitem : item ∈ w.queue := hqueue ▸ List.mem_cons_self
  have hsees := advance_sees fs hlist hw.root hw.sound hentries hreal hqueue (hw.names item hitem)
    (hw.depth item hitem)
  have hphase : (w.advance fs).run.2.phase = .running := hsees.phase.trans hw.phase
  have hmoves : w.Moves (w.advance fs).run.1 (w.advance fs).run.2 :=
    advance_moves fs (fun path entries => hlist path entries) hw.root hw.names
  have hfront := (hmoves.front hw.toFront).resolve_left fun hend =>
    absurd (hphase.symm.trans hend) (by decide)
  refine ⟨hsees, hfront, hphase, hsees.sound hw.sound, ?_⟩
  intro other hother depth hmax
  rw [hsees.options] at hmax
  rw [hsees.queue] at hother
  rcases List.mem_append.mp hother with hother | hother
  · exact hw.depth other (hqueue ▸ List.mem_cons_of_mem item hother) depth hmax
  · obtain ⟨hne, entries, -, entry, -, hnames⟩ := Traversal.exists_of_mem_sight _ hother
    have hle := hw.depth item hitem depth hmax
    have hlt := hne depth hmax
    rw [Candidate.depth, hnames, List.length_append, List.length_singleton]
    rw [Candidate.depth] at hle hlt
    omega

/-- A walk under way that makes a traversal: no entry limit is set, and the root has a real path. -/
structure Follows (fs : FileSystem Id) (t : Traversal) (w : Walk) : Prop extends w.UnderWay where
  traversal : w.traversal fs = t
  maxEntries : w.options.maxEntries = none
  realPath : ∃ real, (fs.realPath (w.pathOf [])).run = .ok real

omit hlist in
theorem Follows.pathOf {t : Traversal} {w : Walk} (h : Follows fs t w) : w.pathOf = t.pathOf := by
  rw [← h.traversal]
  rfl

/-- A step of a walk that makes a traversal gives out, learns and queues what the traversal sees at
the first entry, and leaves a walk that makes it. -/
theorem Follows.advance {t : Traversal} {w : Walk} (h : Follows fs t w) {item : Candidate}
    {rest : List Candidate} (hqueue : w.queue = item :: rest) :
    (w.popped rest).Sees item.names (t.sight (w.rulesAt item.names) item) (w.advance fs).run ∧
      Follows fs t (w.advance fs).run.2 := by
  obtain ⟨hsees, hnext⟩ := h.toUnderWay.advance hlist h.maxEntries h.realPath hqueue
  have hpath : (w.advance fs).run.2.pathOf [] = w.pathOf [] := by
    rw [Walk.pathOf, Walk.pathOf, hsees.root]
    rfl
  exact ⟨h.traversal ▸ hsees, hnext, (hsees.traversal_eq fs).trans h.traversal,
    hsees.options ▸ h.maxEntries, hpath ▸ h.realPath⟩

/-- A step of a walk that makes a traversal gives out what is seen at the first place, and goes on
to the places in it behind all others. -/
theorem Follows.step {t : Traversal} {w : Walk} (h : Follows fs t w) {place : Place}
    {queue : List Place} (hplaces : w.places = place :: queue) :
    (w.step fs).run.1.given = some (t.look place).1 ∧ Follows fs t (w.step fs).run.2 ∧
      (w.step fs).run.2.places = queue ++ (t.look place).2 := by
  obtain ⟨item, rest, hqueue, rfl, rfl⟩ := List.map_eq_cons_iff.mp hplaces
  have hstep : w.step fs = w.advance fs := by rw [Walk.step, h.phase]
  obtain ⟨hsees, hnext⟩ := h.advance hlist hqueue
  rw [hstep]
  refine ⟨hsees.given, hnext, ?_⟩
  rw [← h.traversal] at hsees ⊢
  exact hsees.places_eq hlist h.toFront hqueue

/-! ### Whole runs -/

omit hlist in
/-- If a step gives out something or nothing, but does not end the walk, then the walk goes on
behind it, with what was given out put in front. -/
theorem visit_of_given {w : Walk} {given : List Entry} (steps : Nat) (acc : List Entry)
    (h : (w.step fs).run.1.given = some given) :
    (visit fs (fun entry acc => .yield (entry :: acc)) (steps + 1) acc w).run
      = (visit fs (fun entry acc => .yield (entry :: acc)) steps (given.reverse ++ acc)
        (w.step fs).run.2).run := by
  rw [visit]
  simp only [Id.run_bind]
  generalize (w.step fs).run = result at h ⊢
  obtain ⟨outcome, w'⟩ := result
  cases outcome with
  | yielded entry => rw [← Option.some.inj h]; rfl
  | withheld names isDirectory => rw [← Option.some.inj h]; rfl
  | quiet => rw [← Option.some.inj h]; rfl
  | finished => cases h
  | failed e => cases h

omit hlist in
/-- If a walk has not failed after some steps then the first of them did not fail: the walk has gone
on behind it, or that step has ended it. -/
theorem visit_of_ok {w last : Walk} {steps : Nat} {acc out : List Entry}
    (h : (visit fs (fun entry acc => .yield (entry :: acc)) (steps + 1) acc w).run
      = (.ok out, last)) :
    (∃ given, (w.step fs).run.1.given = some given ∧
      (visit fs (fun entry acc => .yield (entry :: acc)) steps (given.reverse ++ acc)
        (w.step fs).run.2).run = (.ok out, last)) ∨
    (w.step fs).run = (.finished, last) ∧ out = acc := by
  cases hgiven : (w.step fs).run.1.given with
  | some given => exact Or.inl ⟨given, rfl, visit_of_given steps acc hgiven ▸ h⟩
  | none =>
    rw [visit] at h
    simp only [Id.run_bind] at h
    generalize (w.step fs).run = result at h hgiven ⊢
    obtain ⟨outcome, w'⟩ := result
    cases outcome with
    | finished =>
      obtain ⟨hout, hlast⟩ := Prod.mk.inj h
      exact Or.inr ⟨congrArg _ hlast, (Except.ok.inj hout).symm⟩
    | failed e => cases (Prod.mk.inj h).1
    | yielded entry => cases hgiven
    | withheld names isDirectory => cases hgiven
    | quiet => cases hgiven

/-- A walk that makes a traversal and has come to its end has given out what is seen at the places
of its queue, taken one after the other with their own places at the end. -/
theorem visit_drains {t : Traversal} (steps : Nat) : ∀ {w : Walk} (acc : List Entry),
    Follows fs t w →
    (visit fs (fun entry acc => .yield (entry :: acc)) steps acc w).run.2.phase = .ended →
    ∃ out, Drains t.look w.places out ∧
      (visit fs (fun entry acc => .yield (entry :: acc)) steps acc w).run.1
        = .ok (out.reverse ++ acc) := by
  induction steps with
  | zero =>
    intro w acc hw hend
    exact absurd (hw.phase.symm.trans hend) (by decide)
  | succ steps ih =>
    intro w acc hw hend
    cases hplaces : w.places with
    | nil =>
      refine ⟨[], Drains.done, ?_⟩
      rw [visit, step_of_queue_nil hw.phase (List.map_eq_nil_iff.mp hplaces)]
      rfl
    | cons place queue =>
      obtain ⟨hgiven, hnext, hqueue⟩ := hw.step hlist hplaces
      rw [visit_of_given steps acc hgiven] at hend ⊢
      obtain ⟨out, hdrains, hout⟩ := ih _ hnext hend
      rw [hqueue] at hdrains
      refine ⟨(t.look place).1 ++ out, Drains.next hdrains, ?_⟩
      rw [hout, List.reverse_append, List.append_assoc]

end Static

/-- A walk that begins has one place: the root, with the first rules of the traversal. -/
theorem begin_places (fs : FileSystem Id) {w : Walk} (hroot : w.root.IsRooted)
    (hrules : w.sieve.rulebook = Rulebook.empty) :
    w.begin.places = [⟨(w.traversal fs).firstRules, ⟨[], w.rootStats, [], []⟩⟩] := by
  have hnone : w.rulesAt [] = [] := by
    rw [rulesAt, Sieve.rulesFor, hrules]
    rfl
  have hempty : ∀ part ∈ ([] : List Text), Path.IsEntryName part :=
    fun part hp => absurd hp List.not_mem_nil
  obtain ⟨b, hblocks, hscope, hown⟩ : ∃ b : RuleBlock,
      w.begin.sieve.rulebook.blocks = w.sieve.rulebook.blocks ++ [b] ∧
      b.scope = canonical w.rootText ∧ b.rules = (IgnoreFile.parse w.sieve.cache w.rootText
        (.text metadataRule) none).1.rules := ⟨_, rfl, rfl, rfl⟩
  have happlies : b.appliesTo (canonical (w.pathOf [])) = true := by
    rw [RuleBlock.appliesTo, hscope, rootText, ← Path.descend_nil w.root]
    exact (inScope_pathOf hroot hempty hempty).mpr (List.prefix_refl [])
  have hall : [b].filter (·.appliesTo (canonical (w.pathOf []))) = [b] :=
    List.filter_cons_of_pos happlies
  have hrulesAt : w.begin.rulesAt [] = (w.traversal fs).firstRules := by
    have hsame : w.begin.root = w.root := rfl
    rw [rulesAt_append hsame hblocks, hnone, hall, List.nil_append, List.flatMap_singleton, hown,
      IgnoreFile.parse_eq w.sieve.cache MatcherCache.empty]
    rfl
  rw [places, ← hrulesAt]
  rfl

/-- A walk that begins is under way. -/
theorem begin_underWay {w : Walk} (hroot : w.root.IsRooted) (hsound : w.sieve.Sound)
    (hrules : w.sieve.rulebook = Rulebook.empty) : w.begin.UnderWay := by
  refine ⟨begin_front hroot hrules, rfl,
    hsound.insert w.rootText (.text metadataRule) none, ?_⟩
  intro item hitem depth _
  rw [List.mem_singleton.mp hitem]
  exact Nat.zero_le depth

/-- A walk that is ready and knows its root as `stats`, with the root, the options and the rules of
the one that was started. -/
structure Accepted (w : Walk) (stats : FileStats) (w' : Walk) : Prop where
  root : w'.root = w.root
  options : w'.options = w.options
  sieve : w'.sieve = w.sieve
  phase : w'.phase = .ready
  rootStats : w'.rootStats = stats

/-- If a root is accepted then it was looked at without failing; the walk knows the answer and is
ready, and nothing else has changed but its notes. -/
theorem start_eq_of_ok {fs : FileSystem Id} {w w' : Walk} (h : (w.start fs).run = (.ok (), w')) :
    ∃ stats, (lookAtRoot fs w.rootText).run = .ok stats ∧
      w' = { w with phase := .ready, rootStats := stats }.note [w.startLog] := by
  unfold start at h
  split at h
  · cases (Prod.mk.inj h).1
  · simp only [Id.run_bind] at h
    cases hlook : (lookAtRoot fs w.rootText).run with
    | error fault =>
      rw [hlook] at h
      cases (Prod.mk.inj h).1
    | ok stats =>
      rw [hlook] at h
      exact ⟨stats, rfl, (Prod.mk.inj h).2.symm⟩

theorem start_accepted {fs : FileSystem Id} {w w' : Walk} (h : (w.start fs).run = (.ok (), w')) :
    ∃ stats, (lookAtRoot fs w.rootText).run = .ok stats ∧ w.Accepted stats w' := by
  obtain ⟨stats, hlook, rfl⟩ := start_eq_of_ok h
  exact ⟨stats, hlook, rfl, rfl, rfl, rfl, rfl⟩

/-- If a root is looked at without failing then it is accepted, whatever the options are. -/
theorem start_of_lookAtRoot {fs : FileSystem Id} {root : Path} {stats : FileStats}
    (h : (lookAtRoot fs root.toText).run = .ok stats) (options : Walk.Options) :
    ((Walk.new root options).start fs).run
      = (.ok (), { Walk.new root options with phase := .ready, rootStats := stats }.note
        [(Walk.new root options).startLog]) := by
  have hphase : ((Walk.new root options).phase != .unstarted) = false := rfl
  have hlook : (lookAtRoot fs (Walk.new root options).rootText).run = .ok stats := h
  rw [start, hphase, if_neg Bool.false_ne_true, Id.run_bind, hlook]
  rfl

section New

variable {root : Path} {options : Walk.Options} {stats : FileStats} {w₀ : Walk}
  (h : (Walk.new root options).Accepted stats w₀)

include h

theorem Accepted.traversal_eq (fs : FileSystem Id) : w₀.traversal fs = ⟨fs, root, options⟩ := by
  rw [traversal, h.root, h.options]
  rfl

theorem Accepted.pathOf_eq (names : List Text) : w₀.pathOf names = (root.descend names).toText := by
  rw [pathOf, h.root]
  rfl

/-- A walk that has looked at its root only has no rules. -/
theorem Accepted.rulebook_eq : w₀.sieve.rulebook = Rulebook.empty := by
  rw [h.sieve]
  rfl

theorem Accepted.sound : w₀.sieve.Sound := by
  rw [h.sieve]
  exact Sieve.empty_sound

end New

/-- The steps of a walk whose root has been accepted are those of the walk that has begun. -/
theorem visit_of_ready {m : Type → Type} [Monad m] (fs : FileSystem m) {β : Type}
    (f : Entry → β → ForInStep β) {w : Walk} (h : w.phase = .ready) (steps : Nat) (acc : β) :
    visit fs f (steps + 1) acc w = visit fs f (steps + 1) acc w.begin := by
  rw [visit, visit, step, step, h]
  rfl

theorem entries_of_ready (fs : FileSystem Id) {w : Walk} (h : w.phase = .ready) (steps : Nat) :
    (w.entries fs (steps + 1)).run
      = ((visit fs (fun entry acc => .yield (entry :: acc)) (steps + 1) [] w.begin).run.1.map
          List.reverse,
        (visit fs (fun entry acc => .yield (entry :: acc)) (steps + 1) [] w.begin).run.2) := by
  rw [entries, visit_of_ready fs _ h]
  rfl

/-- If a root is accepted and has a real path then the walk makes its traversal from when it begins,
and has the root as its only place. -/
theorem start_follows {fs : FileSystem Id} {root : Path} (hroot : root.IsRooted)
    {options : Walk.Options} (hlimit : options.maxEntries = none) {w₀ : Walk}
    (hstart : ((Walk.new root options).start fs).run = (.ok (), w₀))
    (hreal : ∃ real, (fs.realPath root.toText).run = .ok real) :
    Follows fs ⟨fs, root, options⟩ w₀.begin ∧
      w₀.begin.places = [Traversal.rootPlace ⟨fs, root, options⟩ w₀.rootStats] := by
  obtain ⟨stats, -, haccepted⟩ := start_accepted hstart
  have hrooted : w₀.root.IsRooted := haccepted.root ▸ hroot
  have htraversal : w₀.begin.traversal fs = ⟨fs, root, options⟩ := haccepted.traversal_eq fs
  have hpath : w₀.begin.pathOf [] = root.toText := by
    rw [show w₀.begin.pathOf [] = w₀.pathOf [] from rfl, haccepted.pathOf_eq, Path.descend_nil]
  refine ⟨⟨begin_underWay hrooted haccepted.sound haccepted.rulebook_eq, htraversal, ?_,
    hpath ▸ hreal⟩, ?_⟩
  · show w₀.options.maxEntries = none
    rw [haccepted.options]
    exact hlimit
  · rw [begin_places fs hrooted haccepted.rulebook_eq, ← htraversal]
    rfl

/-- A walk from a root with a real path that has come to its end has not failed. It has given out
what is seen at the places of a queue that begins with the root. -/
theorem entries_drains {fs : FileSystem Id}
    (hlist : ∀ path entries, (fs.list path).run = .ok entries → IsListing entries) {root : Path}
    (hroot : root.IsRooted) {options : Walk.Options} (hlimit : options.maxEntries = none)
    {w₀ : Walk} (hstart : ((Walk.new root options).start fs).run = (.ok (), w₀))
    (hreal : ∃ real, (fs.realPath root.toText).run = .ok real) {steps : Nat}
    (hend : (w₀.entries fs steps).run.2.phase = .ended) :
    ∃ out, Drains (Traversal.look ⟨fs, root, options⟩)
        [Traversal.rootPlace ⟨fs, root, options⟩ w₀.rootStats] out ∧
      (w₀.entries fs steps).run.1 = .ok out := by
  obtain ⟨stats, -, haccepted⟩ := start_accepted hstart
  obtain ⟨hfollows, hplaces⟩ := start_follows hroot hlimit hstart hreal
  cases steps with
  | zero => exact absurd (haccepted.phase.symm.trans hend) (by decide)
  | succ steps =>
    rw [entries_of_ready fs haccepted.phase] at hend ⊢
    obtain ⟨out, hdrains, hout⟩ := visit_drains hlist (steps + 1) [] hfollows hend
    rw [hplaces] at hdrains
    refine ⟨out, hdrains, ?_⟩
    rw [hout, List.append_nil]
    exact congrArg Except.ok out.reverse_reverse

/-- **A walk is a recursive traversal.** Let the files not change, let listings be made of distinct
names, and let the root be accepted and have a real path. If a walk without an entry limit comes to
its end, then it has not failed, and what it has given out is what the recursive traversal gives
out, stably sorted by depth; the traversal gives out the same with any fuel that is enough. -/
theorem entries_eq_sorted (fs : FileSystem Id)
    (hlist : ∀ path entries, (fs.list path).run = .ok entries → IsListing entries)
    {current : Path} (habs : current.isAbsolute)
    (hcur : ∀ part ∈ current.parts, Path.IsName part) (root : Text) {options : Walk.Options}
    (hlimit : options.maxEntries = none) {w₀ : Walk}
    (hstart : ((Walk.new (Path.absolute current root) options).start fs).run = (.ok (), w₀))
    (hreal : ∃ real, (fs.realPath (Path.absolute current root).toText).run = .ok real)
    (steps : Nat) (hend : (w₀.entries fs steps).run.2.phase = .ended) :
    let t : Traversal := ⟨fs, Path.absolute current root, options⟩
    ∃ given, (w₀.entries fs steps).run.1 = .ok (given.mergeSort (keyLe Entry.depth)) ∧
      (∃ fuel, t.entries fuel = some given) ∧
      ∀ fuel other, t.entries fuel = some other → other = given := by
  intro t
  obtain ⟨stats, hstats, haccepted⟩ := start_accepted hstart
  have hentries : ∀ fuel, t.entries fuel
      = t.visit fuel t.firstRules ⟨[], w₀.rootStats, [], []⟩ := by
    intro fuel
    have hlook : (lookAtRoot t.files t.root.toText).run = .ok stats := hstats
    rw [Traversal.entries, hlook, haccepted.rootStats]
  obtain ⟨out, hdrains, hout⟩ := entries_drains hlist (Path.absolute_isRooted habs hcur root)
    hlimit hstart hreal hend
  obtain ⟨fuel, given, hgiven, hsorted⟩ := hdrains.exists_gather t.depth_given t.depth_below
  refine ⟨given, hsorted ▸ hout, ⟨fuel, (hentries fuel).trans hgiven⟩, ?_⟩
  intro fuel' other hother
  rw [hentries] at hother
  exact gather_unique hother hgiven

/-- A directory with an ignore file, and another one with an ignore file of its own in it. -/
def nestedFiles : FileSystem Id where
  list path := pure (.ok (
    if path = Text.lit "/r" then
      [⟨Text.lit "d", .directory⟩, ⟨Text.lit ".gitignore", .file⟩, ⟨Text.lit "a", .file⟩]
    else [⟨Text.lit ".gitignore", .file⟩, ⟨Text.lit "a", .file⟩, ⟨Text.lit "b", .file⟩]))
  read path := pure (.ok (if path = Text.lit "/r/.gitignore" then [97] else [33, 97]))
  lstat path := pure (.ok (.ofMode
    (if path = Text.lit "/r" || path = Text.lit "/r/d" then 0o40755 else 0o100644) 1))
  stat _ := pure (.ok (.ofMode 0o40755 1))
  realPath path := pure (.ok path)

theorem nestedFiles_isListing :
    ∀ path entries, (nestedFiles.list path).run = .ok entries → IsListing entries := by
  intro path entries h
  have hnames : ∀ entry ∈ entries, entry.name ∈ ["d", ".gitignore", "a", "b"].map Text.lit := by
    rw [← Except.ok.inj h]
    split <;> decide
  refine ⟨?_, fun entry he => ?_⟩
  · rw [← Except.ok.inj h]
    split <;> decide
  · have hname : ∀ name ∈ ["d", ".gitignore", "a", "b"].map Text.lit, Path.IsEntryName name := by
      simp [Path.IsEntryName, Path.IsName, Path.dot, Path.dotDot, Text.lit]
    exact hname _ (hnames entry he)

/-- The entries of the inner directory come first in the recursion and last in the walk. -/
theorem entries_eq_sorted_nestedFiles :
    let started := ((Walk.new (Path.absolute Path.rootDirectory (Text.lit "/r")) .plain).start
      nestedFiles).run
    let finished := (started.2.entries nestedFiles 8).run
    finished.2.phase = .ended ∧ ∃ given : List Entry,
      finished.1 = .ok (given.mergeSort (keyLe Entry.depth)) ∧
      given.map (·.path) = ["d/.gitignore", "d/a", "d/b", ".gitignore"].map Text.lit := by
  intro started finished
  have hfinished : finished = (started.2.entries nestedFiles 8).run := rfl
  have hend : finished.2.phase = .ended := by decide +kernel
  refine ⟨hend, ?_⟩
  -- the walk is not to be run again where only its name is unfolded
  rw [hfinished] at hend ⊢
  have hok : started.1 = .ok () := rfl
  have hstart : started = (.ok (), started.2) := by rw [← hok]
  obtain ⟨given, hsorted, -, hunique⟩ := entries_eq_sorted nestedFiles
    nestedFiles_isListing rfl
    (by simp [Path.rootDirectory]) (Text.lit "/r") rfl hstart ⟨_, rfl⟩ 8 hend
  have hgiven : ((Traversal.entries ⟨nestedFiles, Path.absolute Path.rootDirectory (Text.lit "/r"),
      .plain⟩ 3).map fun given => given.map (·.path))
      = some (["d/.gitignore", "d/a", "d/b", ".gitignore"].map Text.lit) := by
    decide +kernel
  obtain ⟨other, hother, hpaths⟩ := Option.map_eq_some_iff.mp hgiven
  exact ⟨given, hsorted, hunique 3 other hother ▸ hpaths⟩

end Walk

end TreeSieve

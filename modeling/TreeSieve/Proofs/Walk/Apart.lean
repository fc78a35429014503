import TreeSieve.Proofs.Walk.Ending

/-!
# Entries that lead to no other

An entry that a walk gives out is a leaf: a directory is given out only where the walk does not go
into it. So the names of one entry are never the first names of another one, and entries are told by
their paths.

* `IsApart` holds of names that part somewhere.
* `Walk.Spread` holds of a walk and of what it has given out so far; `Walk.Spread.advance` says that
  a step keeps to it, and `Walk.exists_entries` that any number of steps does, without a failure.
* `Walk.visit_forIn` says that what goes through the entries of a walk may stop wherever it likes:
  it is handed the entries in their order.
* `Walk.entries_prefix` says that more steps give out the same entries, and then more of them.
-/

namespace TreeSieve

/-! ### Names -/

/-- Lists of names neither of which is the beginning of the other one. -/
def IsApart (a b : List Text) : Prop := ¬a <+: b ∧ ¬b <+: a

namespace IsApart

variable {a b : List Text}

theorem symm (h : IsApart a b) : IsApart b a := ⟨h.2, h.1⟩

theorem ne (h : IsApart a b) : a ≠ b := fun hsame => h.1 (hsame ▸ List.prefix_refl a)

/-- Lists that are apart are so whatever is added to one of them. -/
theorem append (h : IsApart a b) (more : List Text) : IsApart a (b ++ more) := by
  refine ⟨fun hpre => ?_, fun hpre => h.2 ((List.prefix_append b more).trans hpre)⟩
  rcases List.prefix_or_prefix_of_prefix hpre (List.prefix_append b more) with hab | hba
  · exact h.1 hab
  · exact h.2 hba

/-- Lists with the same first name are apart if the lists of the other names are. -/
theorem cons_iff {name : Text} : IsApart (name :: a) (name :: b) ↔ IsApart a b := by
  rw [IsApart, IsApart, List.cons_prefix_cons, List.cons_prefix_cons]
  simp

end IsApart

/-- Entries with different names have different paths. -/
theorem joinWith_injective {a b : List Text} (ha : a ≠ [] ∧ ∀ part ∈ a, Path.IsEntryName part)
    (hb : b ≠ [] ∧ ∀ part ∈ b, Path.IsEntryName part)
    (h : Text.joinWith '/' a = Text.joinWith '/' b) : a = b := by
  rw [← Text.split_joinWith ha.1 fun part hp => (ha.2 part hp).1.2.2, h,
    Text.split_joinWith hb.1 fun part hp => (hb.2 part hp).1.2.2]

/-- At an entry nothing is given out, or the entry itself is, which is not the root then, and
nothing in it is entered. -/
theorem Traversal.given_eq_nil_or (t : Traversal) (rules : List Rule) (item : Candidate) :
    (t.sight rules item).given = [] ∨
      ∃ e, (t.sight rules item).given = [e] ∧ e.names = item.names ∧ item.names ≠ [] ∧
        (t.sight rules item).entries = [] := by
  rcases t.sight_cases rules item with ⟨stats, isDirectory, hs⟩ | hs | ⟨_, _, -, -, -, hs⟩
  · rw [hs]
    simp only [Traversal.offer]
    split
    · exact Or.inl rfl
    · rename_i hkept
      rw [Bool.or_eq_true, not_or, decide_eq_true_eq] at hkept
      exact Or.inr ⟨_, rfl, rfl, fun hnone => hkept.2 (List.length_eq_zero_iff.mpr hnone), trivial⟩
  · rw [hs]
    exact Or.inl rfl
  · rw [hs]
    exact Or.inl rfl

namespace Walk

/-! ### What has been given out -/

/-- What a walk has given out, the last entry first: none of it is the root, and neither in it nor
in the queue does one entry lead to another. -/
structure Spread (w : Walk) (given : List Entry) : Prop where
  names : ∀ e ∈ given, e.names ≠ [] ∧ ∀ part ∈ e.names, Path.IsEntryName part
  apart : given.Pairwise fun a b => IsApart a.names b.names
  queue : ∀ e ∈ given, ∀ item ∈ w.queue, IsApart e.names item.names

section Static

variable {fs : FileSystem Id} {t : Traversal}

/-- A step gives out an entry apart from all that were given out before, and goes on to entries
apart from all that have been given out. -/
theorem Spread.advance {w : Walk} {given : List Entry} (h : w.Spread given) (hf : w.Front)
    {item : Candidate} {rest : List Candidate} (hqueue : w.queue = item :: rest)
    {rules : List Rule} {result : StepOutcome × Walk}
    (hsees : (w.popped rest).Sees item.names (t.sight rules item) result) :
    result.2.Spread ((t.sight rules item).given.reverse ++ given) := by
  have hitem : item ∈ w.queue := hqueue ▸ List.mem_cons_self
  have hrest : ∀ other ∈ rest, other ∈ w.queue :=
    fun other ho => hqueue ▸ List.mem_cons_of_mem item ho
  have hold : ∀ e ∈ given, ∀ other ∈ result.2.queue, IsApart e.names other.names := by
    intro e he other hother
    rw [hsees.queue] at hother
    rcases List.mem_append.mp hother with hother | hother
    · exact h.queue e he other (hrest other hother)
    · obtain ⟨-, _, -, entry, -, hnames⟩ := t.exists_of_mem_sight hother
      rw [hnames]
      exact (h.queue e he item hitem).append [entry.name]
  rcases t.given_eq_nil_or rules item with hnone | ⟨e, hone, hnames, hne, hleaf⟩
  · rw [hnone]
    exact ⟨h.names, h.apart, hold⟩
  · have hapart := hf.apart
    rw [hqueue, List.pairwise_cons] at hapart
    rw [hone]
    refine ⟨?_, ?_, ?_⟩
    · exact List.forall_mem_cons.mpr ⟨hnames ▸ ⟨hne, hf.names item hitem⟩, h.names⟩
    · refine List.pairwise_cons.mpr ⟨fun other hother => ?_, h.apart⟩
      rw [hnames]
      exact (h.queue other hother item hitem).symm
    · refine List.forall_mem_cons.mpr ⟨fun other hother => ?_, hold⟩
      rw [hsees.queue, hleaf, List.append_nil] at hother
      rw [hnames]
      exact hapart.1 other hother

variable (hlist : ∀ path entries, (fs.list path).run = .ok entries → IsListing entries)

include hlist

/-- A walk that makes a traversal does not fail, and what it gives out stays spread. -/
theorem Follows.visit_spread (steps : Nat) : ∀ {w : Walk} {given : List Entry}, Follows fs t w →
    w.Spread given → ∃ out last,
      (visit fs (fun entry acc => .yield (entry :: acc)) steps given w).run = (.ok out, last) ∧
        last.Spread out := by
  induction steps with
  | zero => exact fun _ h => ⟨_, _, rfl, h⟩
  | succ steps ih =>
    intro w given hw h
    cases hqueue : w.queue with
    | nil =>
      refine ⟨given, w.finish, ?_, h.names, h.apart, fun _ _ _ hitem => nomatch hitem⟩
      rw [visit, step_of_queue_nil hw.phase hqueue]
      rfl
    | cons item rest =>
      obtain ⟨hsees, hnext⟩ := hw.advance hlist hqueue
      have hstep : w.step fs = w.advance fs := by rw [Walk.step, hw.phase]
      rw [visit_of_given steps given (hstep ▸ hsees.given), hstep]
      exact ih hnext (h.advance hw.toFront hqueue hsees)

end Static

/-! ### Going through what is given out -/

/-- A loop over the entries of a walk comes to what the same loop comes to over the list of those
that the walk gives out in as many steps, as long as that does not fail. -/
theorem visit_forIn (fs : FileSystem Id) {β : Type} (f : Entry → β → ForInStep β) (steps : Nat) :
    ∀ (acc out : List Entry) (first : β) (w last : Walk),
      (visit fs (fun entry acc => .yield (entry :: acc)) steps acc w).run = (.ok out, last) →
      ∃ given : List Entry, out = given.reverse ++ acc ∧
        (visit fs f steps first w).run.1
          = .ok (forIn given first fun entry acc => (pure (f entry acc) : Id _)).run := by
  induction steps with
  | zero =>
    intro acc out first w last h
    exact ⟨[], (Except.ok.inj (Prod.mk.inj h).1).symm, rfl⟩
  | succ steps ih =>
    intro acc out first w last h
    rw [visit] at h ⊢
    simp only [Id.run_bind] at h ⊢
    generalize (w.step fs).run = result at h ⊢
    obtain ⟨outcome, w'⟩ := result
    cases outcome with
    | yielded entry =>
      simp only at h ⊢
      cases hstep : f entry first with
      | done value =>
        obtain ⟨given, hout, -⟩ := ih (entry :: acc) out first w' last h
        refine ⟨entry :: given, by rw [hout, List.reverse_cons, List.append_assoc]; rfl, ?_⟩
        rw [List.forIn_cons, hstep]
        rfl
      | yield value =>
        obtain ⟨given, hout, hgiven⟩ := ih (entry :: acc) out value w' last h
        refine ⟨entry :: given, by rw [hout, List.reverse_cons, List.append_assoc]; rfl, ?_⟩
        rw [List.forIn_cons, hstep]
        exact hgiven
    | withheld names isDirectory => exact ih acc out first w' last h
    | quiet => exact ih acc out first w' last h
    | finished => exact ⟨[], (Except.ok.inj (Prod.mk.inj h).1).symm, rfl⟩
    | failed e => cases (Prod.mk.inj h).1

/-- A walk that has made more steps has collected the same entries before the others, and so they
stand behind the others in the collection, which has the last entry first. -/
theorem visit_suffix {fs : FileSystem Id} (steps more : Nat) :
    ∀ {acc out out' : List Entry} {w last last' : Walk},
      (visit fs (fun entry acc => .yield (entry :: acc)) steps acc w).run = (.ok out, last) →
      (visit fs (fun entry acc => .yield (entry :: acc)) (steps + more) acc w).run
        = (.ok out', last') → out <:+ out' := by
  induction steps with
  | zero =>
    intro acc out out' w last last' h h'
    obtain ⟨given, hout, -⟩ :=
      visit_forIn fs (fun entry acc => .yield (entry :: acc)) _ acc out' acc w last' h'
    rw [← Except.ok.inj (Prod.mk.inj h).1, hout]
    exact List.suffix_append given.reverse acc
  | succ steps ih =>
    intro acc out out' w last last' h h'
    rw [Nat.succ_add] at h'
    rw [visit] at h h'
    simp only [Id.run_bind] at h h'
    generalize (w.step fs).run = result at h h'
    obtain ⟨outcome, w'⟩ := result
    cases outcome with
    | yielded entry => exact ih h h'
    | withheld names isDirectory => exact ih h h'
    | quiet => exact ih h h'
    | finished =>
      rw [← Except.ok.inj (Prod.mk.inj h).1, ← Except.ok.inj (Prod.mk.inj h').1]
    | failed e => cases (Prod.mk.inj h).1

/-! ### Whole walks -/

/-- The collection behind `entries` is the list of entries in reverse, with the last entry first. -/
theorem visit_eq_of_entries {fs : FileSystem Id} {w last : Walk} {steps : Nat}
    {given : List Entry} (h : (w.entries fs steps).run = (.ok given, last)) :
    (visit fs (fun entry acc => .yield (entry :: acc)) steps [] w).run
      = (.ok given.reverse, last) := by
  rw [entries] at h
  simp only [Id.run_bind] at h
  generalize (visit fs (fun entry acc => .yield (entry :: acc)) steps [] w).run = result at h ⊢
  obtain ⟨answer, w'⟩ := result
  obtain ⟨hanswer, rfl⟩ := Prod.mk.inj h
  cases answer with
  | error e => cases hanswer
  | ok out => rw [← Except.ok.inj hanswer, List.reverse_reverse]

/-- A loop over the entries of a walk, in a number of steps, is a loop over the list that `entries`
gives for as many. -/
theorem visit_of_entries {fs : FileSystem Id} {w last : Walk} {steps : Nat} {given : List Entry}
    (h : (w.entries fs steps).run = (.ok given, last)) {β : Type} (f : Entry → β → ForInStep β)
    (first : β) : (visit fs f steps first w).run.1
      = .ok (forIn given first fun entry acc => (pure (f entry acc) : Id _)).run := by
  obtain ⟨given', hout, hgiven⟩ :=
    visit_forIn fs f steps [] given.reverse first w last (visit_eq_of_entries h)
  rw [List.append_nil] at hout
  rw [List.reverse_injective hout]
  exact hgiven

/-- What a walk gives out in a number of steps is the beginning of what it gives out in more. -/
theorem entries_prefix {fs : FileSystem Id} {w last last' : Walk} {steps more : Nat}
    {given given' : List Entry} (h : (w.entries fs steps).run = (.ok given, last))
    (h' : (w.entries fs (steps + more)).run = (.ok given', last')) : given <+: given' :=
  List.reverse_suffix.mp
    (visit_suffix steps more (visit_eq_of_entries h) (visit_eq_of_entries h'))

/-- A walk whose root is accepted does not fail, unless it looks at the root and this has no real
path; and of what it gives out no entry leads to another one. -/
theorem exists_entries {fs : FileSystem Id}
    (hlist : ∀ path entries, (fs.list path).run = .ok entries → IsListing entries) {root : Path}
    (hroot : root.IsRooted) {options : Walk.Options} (hlimit : options.maxEntries = none)
    {w₀ : Walk} (hstart : ((Walk.new root options).start fs).run = (.ok (), w₀)) {steps : Nat}
    (hreal : steps ≠ 0 → ∃ real, (fs.realPath root.toText).run = .ok real) :
    ∃ given last, (w₀.entries fs steps).run = (.ok given, last) ∧
      (∀ e ∈ given, e.names ≠ [] ∧ ∀ part ∈ e.names, Path.IsEntryName part) ∧
      given.Pairwise fun a b => IsApart a.names b.names := by
  cases steps with
  | zero => exact ⟨[], w₀, rfl, List.forall_mem_nil _, List.Pairwise.nil⟩
  | succ steps =>
    obtain ⟨stats, -, haccepted⟩ := start_accepted hstart
    obtain ⟨hfollows, -⟩ := start_follows hroot hlimit hstart (hreal (Nat.succ_ne_zero steps))
    have hfirst : w₀.begin.Spread [] := ⟨List.forall_mem_nil _, .nil, List.forall_mem_nil _⟩
    obtain ⟨out, last, hvisit, hspread⟩ := hfollows.visit_spread hlist (steps + 1) hfirst
    refine ⟨out.reverse, last, ?_, fun e he => hspread.names e (List.mem_reverse.mp he), ?_⟩
    · rw [entries_of_ready fs haccepted.phase, hvisit]
      rfl
    · exact List.pairwise_reverse.mpr (hspread.apart.imp IsApart.symm)

end Walk

end TreeSieve

import TreeSieve.Proofs.Walk.Ending
import TreeSieve.Proofs.Walk.Reaching

/-!
# When an entry is looked at

A walk is as far on its tour as it has made steps, so that each place that its traversal reaches
stands first in the queue at some step, and no other place does.

* `Walk.Follows.runFor` says how far on its tour a walk is.
* `Walk.upNext` is the entry that the next step takes from the queue, and `Walk.exists_upNext_iff`
  says which ones there are.
* `Walk.Closes.isIgnored_eq` says that the rules that are passed on to an entry in which nothing
  else is seen decide about it in the end, too.
-/

namespace TreeSieve

/-- The first place of a queue is the first one of the tour. -/
theorem Drains.head?_eq {α ε : Type} {look : α → List ε × List α} {queue seen : List α}
    (h : Drains (tour look) queue seen) : queue.head? = seen.head? := by
  cases h with
  | done => rfl
  | next rest => rfl

namespace Walk

/-- The entry that the next step of a walk under way takes from the queue, as it is found to be when
a link may be followed. -/
def upNext (fs : FileSystem Id) (w : Walk) : Option Entry :=
  if w.phase = .running then
    w.queue.head?.map fun item =>
      ⟨item.names, w.pathOf item.names, (w.resolve fs item).run.1.stats⟩
  else none

variable {fs : FileSystem Id} {t : Traversal}

/-- The entry that is taken from the queue next is the one at the first place, as the traversal
finds it. -/
theorem Follows.upNext_eq {w : Walk} (h : Follows fs t w) :
    w.upNext fs = w.places.head?.map fun place => t.found place.item := by
  rw [upNext, if_pos h.phase, places, List.head?_map, Option.map_map]
  refine congrArg (Option.map · w.queue.head?) (funext fun item => ?_)
  rw [resolve_eq, h.traversal, Function.comp, Traversal.found, ← h.traversal]
  rfl

section Static

variable (hlist : ∀ path entries, (fs.list path).run = .ok entries → IsListing entries)

include hlist

/-- After some steps of a walk that makes a tour, the tour that is left is the one without as many
places. -/
theorem Follows.runFor {seen : List Place} (steps : Nat) : ∀ {w : Walk}, Follows fs t w →
    Drains (tour t.look) w.places seen → steps ≤ seen.length →
    Follows fs t (Walk.runFor fs steps w).run ∧
      Drains (tour t.look) (Walk.runFor fs steps w).run.places (seen.drop steps) := by
  induction steps generalizing seen with
  | zero => exact fun hw hdrains _ => ⟨hw, hdrains⟩
  | succ steps ih =>
    intro w hw hdrains hsteps
    rw [runFor_succ]
    generalize hplaces : w.places = places at hdrains
    cases hdrains with
    | done => exact absurd hsteps (Nat.not_succ_le_zero steps)
    | @next place queue seen rest =>
      obtain ⟨-, hnext, hqueue⟩ := hw.step hlist hplaces
      exact ih hnext (hqueue ▸ rest) (Nat.le_of_succ_le_succ hsteps)

/-- If neither rules nor entries are seen at the first place then, after its step and any more, the
entry there is ignored exactly if the rules that are passed on to it ignore it. -/
theorem Follows.isIgnored_runFor {w : Walk} (h : Follows fs t w) {place : Place}
    (hfirst : w.places.head? = some place)
    (hrules : (t.sight place.rules place.item).rules = [])
    (hentries : (t.sight place.rules place.item).entries = []) (isDirectory : Bool) (more : Nat) :
    (Walk.runFor fs (more + 1) w).run.sieve.isIgnored (t.pathOf place.item.names) isDirectory
      = listIgnores place.rules (canonical (t.pathOf place.item.names)) isDirectory := by
  obtain ⟨queue, hplaces⟩ := List.head?_eq_some_iff.mp hfirst
  obtain ⟨item, rest, hqueue, rfl, -⟩ := List.map_eq_cons_iff.mp hplaces
  obtain ⟨hsees, hnext⟩ := h.advance hlist hqueue
  have hstep : w.step fs = w.advance fs := by rw [Walk.step, h.phase]
  have hleft : (w.advance fs).run.2.LeftBehind item.names := by
    rw [LeftBehind, hsees.queue, hentries, List.append_nil]
    exact (h.toFront.popped hqueue).2
  have hlater : (Walk.runFor fs more (w.advance fs).run.2).run.sieve.verdict
      ((w.advance fs).run.2.pathOf item.names) isDirectory
      = (w.advance fs).run.2.sieve.verdict ((w.advance fs).run.2.pathOf item.names) isDirectory :=
    runFor_verdict fs (fun path entries => hlist path entries)
      (h.names item (hqueue ▸ List.mem_cons_self)) isDirectory more
      (Or.inr ⟨hnext.phase, hnext.toFront, hleft⟩)
  have hsame := isIgnored_congr hsees.root ((hrules ▸ hsees.toGrows).rulesAt_eq item.names)
    isDirectory
  rw [hnext.pathOf] at hlater
  rw [hnext.pathOf, show (w.popped rest).pathOf = w.pathOf from rfl, h.pathOf] at hsame
  rw [runFor_succ, hstep, Sieve.isIgnored, hlater, ← Sieve.isIgnored, hsame, ← h.pathOf]
  exact (listIgnores_rulesAt w item.names isDirectory).symm

end Static

/-! ### Whole walks -/

section Whole

variable {root : Path} {options : Walk.Options} {w₀ last : Walk}
  {answer : Except FileError (List Entry)}
  (hlist : ∀ path entries, (fs.list path).run = .ok entries → IsListing entries)
  (hroot : root.IsRooted) (hlimit : options.maxEntries = none)
  (hstart : ((Walk.new root options).start fs).run = (.ok (), w₀))
  (hreal : ∃ real, (fs.realPath root.toText).run = .ok real)

include hlist hroot hlimit hstart hreal

/-- A walk that comes to its end has given out exactly what is seen at the places that its root
leads to. -/
theorem Closes.mem_iff {given : List Entry} (h : Closes fs w₀ (.ok given) last) {e : Entry} :
    e ∈ given ↔ ∃ place, Reaches (Traversal.look ⟨fs, root, options⟩)
      (Traversal.rootPlace ⟨fs, root, options⟩ w₀.rootStats) place ∧
      e ∈ (Traversal.look ⟨fs, root, options⟩ place).1 := by
  obtain ⟨seen, final, hdrains, -, hgiven, -⟩ := h.exists_tours hlist hroot hlimit hstart hreal
  rw [Except.ok.inj hgiven, List.mem_flatMap]
  refine exists_congr fun place => and_congr_left fun _ => ?_
  exact hdrains.mem_iff_reaches_first

/-- After one step and some more, fewer than the tour has places, the place of the tour with that
number is the first one in the queue. -/
theorem start_runFor {seen : List Place}
    (hdrains : Drains (tour (Traversal.look ⟨fs, root, options⟩))
      [Traversal.rootPlace ⟨fs, root, options⟩ w₀.rootStats] seen) {steps : Nat}
    (hsteps : steps + 1 ≤ seen.length) :
    Follows fs ⟨fs, root, options⟩ (runFor fs (steps + 1) w₀).run ∧
      (runFor fs (steps + 1) w₀).run.places.head? = seen[steps + 1]? := by
  obtain ⟨_, -, haccepted⟩ := start_accepted hstart
  obtain ⟨hbegins, hplaces⟩ := start_follows hroot hlimit hstart hreal
  rw [runFor_of_ready haccepted.phase]
  obtain ⟨hfollows, hrest⟩ := hbegins.runFor hlist (steps + 1) (hplaces ▸ hdrains) hsteps
  exact ⟨hfollows, hrest.head?_eq.trans List.head?_drop⟩

/-- Each place below the root that the root leads to is the first one in the queue after some number
of steps, and one more step and some others lead from there to the end. -/
theorem Closes.exists_runFor (h : Closes fs w₀ answer last) {place : Place}
    (hplace : Reaches (Traversal.look ⟨fs, root, options⟩)
      (Traversal.rootPlace ⟨fs, root, options⟩ w₀.rootStats) place) (hne : place.item.names ≠ []) :
    ∃ steps more, Follows fs ⟨fs, root, options⟩ (runFor fs steps w₀).run ∧
      (runFor fs steps w₀).run.places.head? = some place ∧
      (runFor fs (more + 1) (runFor fs steps w₀).run).run = last := by
  obtain ⟨seen, final, hdrains, htours, -, rfl⟩ :=
    h.exists_tours hlist hroot hlimit hstart hreal
  obtain ⟨index, hindex⟩ := List.mem_iff_getElem?.mp (hdrains.mem_iff_reaches_first.mpr hplace)
  cases index with
  | zero =>
    have hfirst := hdrains.head?_eq
    rw [List.head?_cons, List.head?_eq_getElem?, hindex] at hfirst
    exact absurd (congrArg (·.item.names) (Option.some.inj hfirst)).symm hne
  | succ steps =>
    obtain ⟨hsteps, -⟩ := List.getElem?_eq_some_iff.mp hindex
    obtain ⟨hfollows, hhead⟩ :=
      start_runFor hlist hroot hlimit hstart hreal hdrains (Nat.le_of_lt hsteps)
    refine ⟨steps + 1, seen.length - (steps + 1), hfollows, hhead.trans hindex, ?_⟩
    have hafter := htours.after 0
    rwa [show seen.length + 1 + 0 = steps + 1 + (seen.length - (steps + 1) + 1) by omega,
      runFor_add] at hafter

/-- The entries below the root that a walk takes from its queue are those at the places that its
traversal reaches. -/
theorem Closes.exists_upNext_iff (h : Closes fs w₀ answer last) {e : Entry} (hne : e.names ≠ []) :
    (∃ steps, (runFor fs steps w₀).run.upNext fs = some e) ↔
      ∃ place, Reaches (Traversal.look ⟨fs, root, options⟩)
        (Traversal.rootPlace ⟨fs, root, options⟩ w₀.rootStats) place ∧
        e = Traversal.found ⟨fs, root, options⟩ place.item := by
  constructor
  · rintro ⟨steps, hnext⟩
    obtain ⟨seen, final, hdrains, htours, -⟩ := h.exists_tours hlist hroot hlimit hstart hreal
    obtain ⟨_, -, haccepted⟩ := start_accepted hstart
    cases steps with
    | zero =>
      have hphase : (runFor fs 0 w₀).run.phase = .ready := haccepted.phase
      rw [upNext, if_neg (by rw [hphase]; decide)] at hnext
      cases hnext
    | succ steps =>
      by_cases hsteps : steps + 1 ≤ seen.length
      · obtain ⟨hfollows, hhead⟩ := start_runFor hlist hroot hlimit hstart hreal hdrains hsteps
        rw [hfollows.upNext_eq, hhead] at hnext
        obtain ⟨place, hplace, rfl⟩ := Option.map_eq_some_iff.mp hnext
        exact ⟨place, hdrains.mem_iff_reaches_first.mp (List.mem_of_getElem? hplace), rfl⟩
      · have hafter := htours.after (steps - seen.length)
        rw [show seen.length + 1 + (steps - seen.length) = steps + 1 by omega] at hafter
        rw [hafter] at hnext
        cases hnext
  · rintro ⟨place, hplace, rfl⟩
    obtain ⟨steps, _, hfollows, hhead, -⟩ :=
      h.exists_runFor hlist hroot hlimit hstart hreal hplace hne
    refine ⟨steps, ?_⟩
    rw [hfollows.upNext_eq, hhead]
    rfl

/-- Let neither rules nor entries be seen at a place below the root. The rules that are known in the
end ignore the entry there exactly if the rules that are passed on to it do. -/
theorem Closes.isIgnored_eq (h : Closes fs w₀ answer last) {place : Place}
    (hplace : Reaches (Traversal.look ⟨fs, root, options⟩)
      (Traversal.rootPlace ⟨fs, root, options⟩ w₀.rootStats) place) (hne : place.item.names ≠ [])
    (hrules : (Traversal.sight ⟨fs, root, options⟩ place.rules place.item).rules = [])
    (hentries : (Traversal.sight ⟨fs, root, options⟩ place.rules place.item).entries = [])
    (isDirectory : Bool) :
    last.sieve.isIgnored (Traversal.pathOf ⟨fs, root, options⟩ place.item.names) isDirectory
      = listIgnores place.rules
        (canonical (Traversal.pathOf ⟨fs, root, options⟩ place.item.names)) isDirectory := by
  obtain ⟨steps, more, hfollows, hhead, rfl⟩ :=
    h.exists_runFor hlist hroot hlimit hstart hreal hplace hne
  exact hfollows.isIgnored_runFor hlist hhead hrules hentries isDirectory more

end Whole

end Walk

end TreeSieve

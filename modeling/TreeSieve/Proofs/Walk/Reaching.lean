import TreeSieve.Proofs.Walk.Always
import TreeSieve.Proofs.Walk.Recursive
import TreeSieve.Proofs.Walk.Tour

/-!
# The places that a traversal reaches

A traversal names each place after the one that leads to it, and nothing else is told apart.

* `Traversal.eq_of_reaches` says that places with the same names are the same.
* `Traversal.given_names_eq_nil`, `Traversal.below_names_eq_nil` and `Traversal.filter_names_eq_nil`
  say that all that is found from a place is named after it.
-/

namespace TreeSieve

namespace Traversal

variable {t : Traversal}

/-- An entry of a directory has been looked up without failing, and what is known of it is the
answer; the real path of the directory is kept with it. -/
theorem exists_stats_of_mem_children {item : Candidate} {real : Text} {entries : List ListedEntry}
    {child : Candidate} (h : child ∈ t.children item real entries) :
    ∃ stats, (t.files.lstat (t.pathOf child.names)).run = .ok stats ∧
      child = ⟨child.names, stats, real, real :: item.visited⟩ := by
  obtain ⟨entry, -, hentry⟩ := List.mem_filterMap.mp h
  cases hstats : (t.files.lstat (t.pathOf (item.names ++ [entry.name]))).run with
  | error e =>
    rw [hstats] at hentry
    cases hentry
  | ok stats =>
    rw [hstats] at hentry
    obtain rfl := Option.some.inj hentry
    exact ⟨stats, hstats, rfl⟩

/-- Two entries of a directory with the same names are the same. -/
theorem eq_of_mem_children {item : Candidate} {real : Text} {entries : List ListedEntry}
    {child other : Candidate} (hchild : child ∈ t.children item real entries)
    (hother : other ∈ t.children item real entries) (hnames : child.names = other.names) :
    child = other := by
  obtain ⟨stats, hstats, heq⟩ := exists_stats_of_mem_children hchild
  obtain ⟨stats', hstats', heq'⟩ := exists_stats_of_mem_children hother
  rw [hnames, hstats'] at hstats
  rw [heq, heq', hnames, Except.ok.inj hstats]

/-- Two places in a place with the same names are the same. -/
theorem eq_of_mem_look {place below other : Place} (hbelow : below ∈ (t.look place).2)
    (hother : other ∈ (t.look place).2) (hnames : below.item.names = other.item.names) :
    below = other := by
  rw [look] at hbelow hother
  obtain ⟨child, hchild, rfl⟩ := List.mem_map.mp hbelow
  obtain ⟨child', hchild', rfl⟩ := List.mem_map.mp hother
  rcases t.sight_cases place.rules place.item with ⟨_, _, hs⟩ | hs | ⟨real, entries, -, -, -, hs⟩
  · rw [hs] at hchild
    exact absurd hchild List.not_mem_nil
  · rw [hs] at hchild
    exact absurd hchild List.not_mem_nil
  · rw [hs] at hchild hchild'
    rw [eq_of_mem_children hchild hchild' hnames]

/-- A place has at most the depth of those that it leads to. -/
theorem depth_le_of_reaches {first place : Place} (h : Reaches t.look first place) :
    first.item.depth ≤ place.item.depth := by
  induction h with
  | refl => exact Nat.le_refl _
  | tail _ hbelow ih =>
    rw [t.depth_below _ _ hbelow]
    exact Nat.le_succ_of_le ih

/-- Two places with the same names that one place leads to are the same. -/
theorem eq_of_reaches {first place other : Place} (h : Reaches t.look first place)
    (h' : Reaches t.look first other) (hnames : place.item.names = other.item.names) :
    place = other := by
  have hdeeper : ∀ {x y : Place}, Reaches t.look first x → y ∈ (t.look x).2 →
      first.item.names ≠ y.item.names := by
    intro x y hx hy hsame
    have hle := depth_le_of_reaches hx
    have hdepth := t.depth_below x y hy
    rw [Candidate.depth, ← hsame, ← Candidate.depth] at hdepth
    omega
  induction h generalizing other with
  | refl =>
    rcases h'.cases_tail with rfl | ⟨y, hy, hother⟩
    · rfl
    · exact absurd hnames (hdeeper hy hother)
  | @tail x z hx hz ih =>
    rcases h'.cases_tail with rfl | ⟨y, hy, hother⟩
    · exact absurd hnames.symm (hdeeper hx hz)
    · obtain ⟨name, hname⟩ := t.names_below x z hz
      obtain ⟨name', hname'⟩ := t.names_below y other hother
      rw [hname, hname'] at hnames
      obtain rfl := ih hy (List.append_inj' hnames rfl).1
      refine eq_of_mem_look hz hother ?_
      rw [hname, hname', hnames]

/-- If listings are made of names of entries then so are the names of all places that one place
leads to, if its own names are. -/
theorem isEntryName_of_reaches
    (hlist : ∀ path entries, (t.files.list path).run = .ok entries → IsListing entries)
    {first place : Place} (h : Reaches t.look first place)
    (hfirst : ∀ part ∈ first.item.names, Path.IsEntryName part) :
    ∀ part ∈ place.item.names, Path.IsEntryName part := by
  induction h with
  | refl => exact hfirst
  | tail _ hbelow ih =>
    obtain ⟨child, hchild, rfl⟩ := List.mem_map.mp hbelow
    obtain ⟨-, entries, hentries, entry, hentry, hnames⟩ := t.exists_of_mem_sight hchild
    rw [hnames]
    exact Path.isEntryName_concat ih ((hlist _ entries hentries).names entry hentry)

/-! ### Names that lead on -/

section Names

variable {p : List Text → Bool} {place : Place}

/-- If the names of a place have a property then so have those of all that is given out there. -/
theorem given_names_eq_nil (hplace : p place.item.names = true) :
    ((t.look place).1.filter fun e => !p e.names) = [] := by
  rw [List.filter_eq_nil_iff]
  intro e he
  rw [t.names_given place e he, hplace]
  decide

variable (hp : ∀ names name, p names = true → p (names ++ [name]) = true)

include hp

/-- If the names of a place have a property that is passed on to what lies below, then the places in
it have it. -/
theorem below_names_eq_nil (hplace : p place.item.names = true) :
    ((t.look place).2.filter fun y => !p y.item.names) = [] := by
  rw [List.filter_eq_nil_iff]
  intro y hy
  obtain ⟨name, hname⟩ := t.names_below place y hy
  rw [hname, hp _ name hplace]
  decide

/-- If the names of a place have a property that is passed on to what lies below, then all that
recursion finds from there has it. -/
theorem filter_names_eq_nil (fuel : Nat) (hplace : (!p place.item.names) = false)
    (found : List Entry) (h : gather t.look fuel place = some found) :
    (found.filter fun e => !p e.names) = [] := by
  rw [Bool.not_eq_false'] at hplace
  refine gather_filter_eq_nil (Q := fun x => p x.item.names = true)
    (fun x hx => given_names_eq_nil hx) (fun x hx y hy => ?_) fuel place hplace found h
  obtain ⟨name, hname⟩ := t.names_below x y hy
  rw [hname]
  exact hp x.item.names name hx

end Names

end Traversal

end TreeSieve

import Mathlib.Logic.Relation
import TreeSieve.Proofs.Walk.Breadth

/-!
# Tours

The places that are gone through, instead of what they give out.

* `tour` gives out each place itself, and `Drains.of_tour` says what the places of a tour give out.
* `Reaches` holds of places that lead to each other, and `Drains.mem_iff_reaches` says that a tour
  goes through the places that its queue leads to.
* `exists_gather_of_rank` says that recursion comes to its end where a rank decreases, and
  `spread` bounds the places that it goes through; `exists_gather_of_subset` says that it does so
  where another one does that goes through all of its places.
* `exists_drains_of_gather` says that going through a queue comes to its end where recursion does,
  and goes through the same places.
* `gather_tour_perm` says that the order of further places does not matter, and `gather_filter` that
  places do not matter from which nothing is found that is kept.
-/

namespace TreeSieve

variable {α ε : Type}

/-- Going through places and giving out each place itself. -/
def tour (look : α → List ε × List α) (x : α) : List α × List α := ([x], (look x).2)

@[simp] theorem tour_fst (look : α → List ε × List α) (x : α) : (tour look x).1 = [x] := rfl

section Queues

variable {look : α → List ε × List α}

/-- A queue that makes a tour gives out what is given out at the places of the tour, one after the
other. -/
theorem Drains.of_tour {queue seen : List α} (h : Drains (tour look) queue seen) :
    Drains look queue (seen.flatMap fun x => (look x).1) := by
  induction h with
  | done => exact Drains.done
  | @next x queue seen _ ih =>
    rw [tour_fst, List.singleton_append, List.flatMap_cons]
    exact Drains.next ih

/-- A place leads to another one through places each of which is in the one before. -/
def Reaches (look : α → List ε × List α) : α → α → Prop :=
  Relation.ReflTransGen fun x y => y ∈ (look x).2

/-- The places of a tour are those that the places of its queue lead to, themselves included. -/
theorem Drains.mem_iff_reaches {queue seen : List α} (h : Drains (tour look) queue seen) {z : α} :
    z ∈ seen ↔ ∃ y ∈ queue, Reaches look y z := by
  induction h with
  | done => simp
  | @next x queue seen _ ih =>
    rw [tour_fst, List.singleton_append, List.mem_cons, ih]
    constructor
    · rintro (rfl | ⟨y, hy, hreach⟩)
      · exact ⟨z, List.mem_cons_self, .refl⟩
      · rcases List.mem_append.mp hy with hy | hy
        · exact ⟨y, List.mem_cons_of_mem x hy, hreach⟩
        · exact ⟨x, List.mem_cons_self, hreach.head hy⟩
    · rintro ⟨y, hy, hreach⟩
      rcases List.mem_cons.mp hy with rfl | hy
      · rcases hreach.cases_head with rfl | ⟨w, hw, hrest⟩
        · exact Or.inl rfl
        · exact Or.inr ⟨w, List.mem_append_right queue hw, hrest⟩
      · exact Or.inr ⟨y, List.mem_append_left _ hy, hreach⟩

/-- The places of a tour from one place are those that it leads to, itself included. -/
theorem Drains.mem_iff_reaches_first {x : α} {seen : List α} (h : Drains (tour look) [x] seen)
    {z : α} : z ∈ seen ↔ Reaches look x z := by
  rw [h.mem_iff_reaches]
  simp only [List.mem_singleton, exists_eq_left]

/-- A tour has at least as many places as the queue that it begins with. -/
theorem Drains.length_le {queue seen : List α} (h : Drains (tour look) queue seen) :
    queue.length ≤ seen.length := by
  induction h with
  | done => exact Nat.le_refl 0
  | @next x queue seen _ ih =>
    rw [List.length_append] at ih
    rw [tour_fst, List.singleton_append, List.length_cons, List.length_cons]
    omega

/-- A queue comes to its end where recursion does, and the same places are gone through. The
induction is on their number: each place makes room for its further places. -/
theorem exists_drains_of_gather (count : Nat) : ∀ (fuel : Nat) (queue found : List α),
    found.length = count → concatAll (gather (tour look) fuel) queue = some found →
      ∃ seen, Drains (tour look) queue seen ∧ seen.Perm found := by
  induction count with
  | zero =>
    intro fuel queue found hlength h
    cases queue with
    | nil =>
      obtain rfl : [] = found := Option.some.inj h
      exact ⟨[], Drains.done, List.Perm.refl _⟩
    | cons x rest =>
      obtain ⟨first, more, hx, -, rfl⟩ := concatAll_cons_eq_some.mp h
      cases fuel with
      | zero => cases hx
      | succ fuel =>
        obtain ⟨below, -, rfl⟩ := gather_succ_eq_some.mp hx
        simp at hlength
  | succ count ih =>
    intro fuel queue found hlength h
    cases queue with
    | nil =>
      obtain rfl : [] = found := Option.some.inj h
      simp at hlength
    | cons x rest =>
      obtain ⟨first, more, hx, hmore, rfl⟩ := concatAll_cons_eq_some.mp h
      cases fuel with
      | zero => cases hx
      | succ fuel =>
        obtain ⟨below, hbelow, rfl⟩ := gather_succ_eq_some.mp hx
        have hrest := concatAll_append hmore (concatAll_mono (fun _ _ => gather_succ) hbelow)
        have hcount : (more ++ below).length = count := by
          simp only [tour_fst, List.length_append, List.length_singleton] at hlength ⊢
          omega
        obtain ⟨seen, hseen, hperm⟩ := ih (fuel + 1) _ _ hcount hrest
        refine ⟨(tour look x).1 ++ seen, Drains.next hseen, ?_⟩
        rw [tour_fst, List.append_assoc]
        exact (hperm.trans List.perm_append_comm).append_left [x]

/-! ### Places that recursion comes to the end of -/

/-- The most places that lie fewer than `depth` places deep, where no place has more than `width`
further ones. -/
def spread (width : Nat) : Nat → Nat
  | 0 => 0
  | depth + 1 => 1 + width * spread width depth

theorem length_concatAll_le {f : α → Option (List ε)} {most : Nat} {l : List α} {found : List ε}
    (h : concatAll f l = some found)
    (hf : ∀ x ∈ l, ∀ given, f x = some given → given.length ≤ most) :
    found.length ≤ l.length * most := by
  induction l generalizing found with
  | nil =>
    obtain rfl : [] = found := Option.some.inj h
    exact Nat.zero_le _
  | cons x l ih =>
    obtain ⟨first, more, hx, hmore, rfl⟩ := concatAll_cons_eq_some.mp h
    have hfirst := hf x List.mem_cons_self first hx
    have hrest := ih hmore fun y hy => hf y (List.mem_cons_of_mem x hy)
    rw [List.length_append, List.length_cons, Nat.succ_mul]
    omega

theorem exists_concatAll {f : α → Option (List ε)} {l : List α}
    (h : ∀ x ∈ l, ∃ found, f x = some found) : ∃ found, concatAll f l = some found := by
  induction l with
  | nil => exact ⟨[], rfl⟩
  | cons x l ih =>
    obtain ⟨first, hx⟩ := h x List.mem_cons_self
    obtain ⟨more, hmore⟩ := ih fun y hy => h y (List.mem_cons_of_mem x hy)
    exact ⟨first ++ more, concatAll_cons_eq_some.mpr ⟨first, more, hx, hmore, rfl⟩⟩

/-- Let each place have a rank, the places in it lower ones, and no more than `width` places be in
it. With more fuel than the rank of a place, recursion comes to its end there, with at most `spread`
places. -/
theorem exists_gather_of_rank (Ranked : α → Nat → Prop) {width : Nat}
    (hwidth : ∀ x rank, Ranked x rank → (look x).2.length ≤ width)
    (hbelow : ∀ x rank, Ranked x rank → ∀ y ∈ (look x).2, ∃ less < rank, Ranked y less)
    (fuel : Nat) : ∀ x rank, Ranked x rank → rank < fuel → ∃ found,
      gather (tour look) fuel x = some found ∧ found.length ≤ spread width fuel := by
  induction fuel with
  | zero => exact fun x rank _ hrank => absurd hrank (Nat.not_lt_zero _)
  | succ fuel ih =>
    intro x rank hx hrank
    have hnext : ∀ y ∈ (look x).2, ∃ found,
        gather (tour look) fuel y = some found ∧ found.length ≤ spread width fuel := by
      intro y hy
      obtain ⟨less, hless, hranked⟩ := hbelow x rank hx y hy
      exact ih y less hranked (by omega)
    obtain ⟨below, hall⟩ := exists_concatAll fun y hy =>
      (hnext y hy).imp fun found hfound => hfound.1
    refine ⟨[x] ++ below, gather_succ_eq_some.mpr ⟨below, hall, rfl⟩, ?_⟩
    have hlength : below.length ≤ (look x).2.length * spread width fuel := by
      refine length_concatAll_le hall fun y hy given hgiven => ?_
      obtain ⟨found, hfound, hle⟩ := hnext y hy
      obtain rfl := Option.some.inj (hgiven.symm.trans hfound)
      exact hle
    have hmost : (look x).2.length * spread width fuel ≤ width * spread width fuel :=
      Nat.mul_le_mul_right _ (hwidth x rank hx)
    rw [List.length_append, List.length_singleton, spread]
    omega

theorem exists_of_mem_concatAll {f : α → Option (List ε)} {l : List α} {found : List ε}
    (h : concatAll f l = some found) : ∀ x ∈ l, ∃ given, f x = some given := by
  induction l generalizing found with
  | nil => exact fun x hx => nomatch hx
  | cons x l ih =>
    obtain ⟨first, more, hx, hmore, -⟩ := concatAll_cons_eq_some.mp h
    exact List.forall_mem_cons.mpr ⟨⟨first, hx⟩, ih hmore⟩

/-- If recursion comes to its end from a place then so does one that leads from each place to some
of the same places only. -/
theorem exists_gather_of_subset {δ : Type} {look' : α → List δ × List α} {P : α → Prop}
    (hsub : ∀ x, P x → (look' x).2 ⊆ (look x).2) (hnext : ∀ x, P x → ∀ y ∈ (look' x).2, P y)
    (fuel : Nat) : ∀ x, P x → ∀ found, gather look fuel x = some found →
      ∃ found', gather look' fuel x = some found' := by
  induction fuel with
  | zero => exact fun x _ found h => nomatch h
  | succ fuel ih =>
    intro x hx found h
    obtain ⟨below, hall, -⟩ := gather_succ_eq_some.mp h
    obtain ⟨below', hall'⟩ : ∃ below', concatAll (gather look' fuel) (look' x).2 = some below' := by
      refine exists_concatAll fun y hy => ?_
      obtain ⟨given, hgiven⟩ := exists_of_mem_concatAll hall y (hsub x hx hy)
      exact ih y (hnext x hx y hy) given hgiven
    exact ⟨_, gather_succ_eq_some.mpr ⟨below', hall', rfl⟩⟩

/-- If recursion comes to its end from a place then so does the one that finds the places
themselves. -/
theorem exists_gather_tour {fuel : Nat} {x : α} {found : List ε}
    (h : gather look fuel x = some found) : ∃ seen, gather (tour look) fuel x = some seen := by
  have hsub : ∀ y, True → (tour look y).2 ⊆ (look y).2 := fun y _ => List.Subset.refl _
  exact exists_gather_of_subset hsub (fun _ _ _ _ => trivial) fuel x trivial found h

end Queues

/-! ### Two ways to look at places -/

section Two

variable {look look' : α → List ε × List α}

theorem concatAll_perm {f : α → Option (List ε)} {l l' : List α} (hperm : l.Perm l') :
    ∀ {found : List ε}, concatAll f l = some found →
      ∃ found', concatAll f l' = some found' ∧ found.Perm found' := by
  induction hperm with
  | nil => exact fun h => ⟨_, h, List.Perm.refl _⟩
  | cons x _ ih =>
    intro found h
    obtain ⟨first, more, hx, hmore, rfl⟩ := concatAll_cons_eq_some.mp h
    obtain ⟨more', hmore', hsame⟩ := ih hmore
    exact ⟨first ++ more', concatAll_cons_eq_some.mpr ⟨first, more', hx, hmore', rfl⟩,
      hsame.append_left first⟩
  | swap x y l =>
    intro found h
    obtain ⟨first, rest, hy, hrest, rfl⟩ := concatAll_cons_eq_some.mp h
    obtain ⟨second, more, hx, hmore, rfl⟩ := concatAll_cons_eq_some.mp hrest
    refine ⟨second ++ (first ++ more), ?_, ?_⟩
    · exact concatAll_cons_eq_some.mpr ⟨second, first ++ more, hx,
        concatAll_cons_eq_some.mpr ⟨first, more, hy, hmore, rfl⟩, rfl⟩
    · rw [← List.append_assoc, ← List.append_assoc]
      exact List.perm_append_comm.append_right more
  | trans _ _ ih ih' =>
    intro found h
    obtain ⟨middle, hmiddle, hsame⟩ := ih h
    obtain ⟨found', hfound', hsame'⟩ := ih' hmiddle
    exact ⟨found', hfound', hsame.trans hsame'⟩

theorem concatAll_perm_of_forall {f f' : α → Option (List ε)} {l : List α}
    (hf : ∀ x ∈ l, ∀ found, f x = some found → ∃ found', f' x = some found' ∧ found.Perm found')
    {found : List ε} (h : concatAll f l = some found) :
    ∃ found', concatAll f' l = some found' ∧ found.Perm found' := by
  induction l generalizing found with
  | nil => exact ⟨found, h, List.Perm.refl _⟩
  | cons x l ih =>
    obtain ⟨first, more, hx, hmore, rfl⟩ := concatAll_cons_eq_some.mp h
    obtain ⟨first', hx', hfirst⟩ := hf x List.mem_cons_self first hx
    obtain ⟨more', hmore', hrest⟩ := ih (fun y hy => hf y (List.mem_cons_of_mem x hy)) hmore
    exact ⟨first' ++ more', concatAll_cons_eq_some.mpr ⟨first', more', hx', hmore', rfl⟩,
      hfirst.append hrest⟩

/-- If the places in each place are the same in another order, then recursion goes through the same
places, in another order. -/
theorem gather_tour_perm (hbelow : ∀ x, (look x).2.Perm (look' x).2) (fuel : Nat) :
    ∀ {x : α} {found : List α}, gather (tour look) fuel x = some found →
      ∃ found', gather (tour look') fuel x = some found' ∧ found.Perm found' := by
  induction fuel with
  | zero => exact fun h => nomatch h
  | succ fuel ih =>
    intro x found h
    obtain ⟨below, hall, rfl⟩ := gather_succ_eq_some.mp h
    obtain ⟨middle, hmiddle, hsame⟩ := concatAll_perm_of_forall (fun y _ found => ih) hall
    obtain ⟨below', hall', hsame'⟩ := concatAll_perm (hbelow x) hmiddle
    exact ⟨[x] ++ below', gather_succ_eq_some.mpr ⟨below', hall', rfl⟩,
      (hsame.trans hsame').append_left _⟩

variable {keep : ε → Bool}

/-- If places of a kind give out nothing that is kept, and lead to places of this kind only, then
nothing that is kept is found from them. -/
theorem gather_filter_eq_nil {Q : α → Prop} (hgiven : ∀ x, Q x → (look x).1.filter keep = [])
    (hbelow : ∀ x, Q x → ∀ y ∈ (look x).2, Q y) (fuel : Nat) :
    ∀ x, Q x → ∀ found, gather look fuel x = some found → found.filter keep = [] := by
  intro x hx found h
  rw [List.filter_eq_nil_iff]
  exact forall_of_gather (fun y hy => List.filter_eq_nil_iff.mp (hgiven y hy)) hbelow fuel x hx
    found h

theorem concatAll_filter {f f' : α → Option (List ε)} {l : List α}
    (hf : ∀ x ∈ l, ∀ found found', f x = some found → f' x = some found' →
      found.filter keep = found'.filter keep) {found found' : List ε}
    (h : concatAll f l = some found) (h' : concatAll f' l = some found') :
    found.filter keep = found'.filter keep := by
  induction l generalizing found found' with
  | nil =>
    obtain rfl : [] = found := Option.some.inj h
    obtain rfl : [] = found' := Option.some.inj h'
    rfl
  | cons x l ih =>
    obtain ⟨first, more, hx, hmore, rfl⟩ := concatAll_cons_eq_some.mp h
    obtain ⟨first', more', hx', hmore', rfl⟩ := concatAll_cons_eq_some.mp h'
    rw [List.filter_append, List.filter_append, hf x List.mem_cons_self first first' hx hx',
      ih (fun y hy => hf y (List.mem_cons_of_mem x hy)) hmore hmore']

/-- If nothing that is kept is given for members outside of `Q` then a list may be reduced to those
in `Q`: the same is kept of what is given. -/
theorem exists_concatAll_filter {Q : α → Bool} {f : α → Option (List ε)} {l : List α}
    (hf : ∀ x ∈ l, Q x = false → ∀ found, f x = some found → found.filter keep = [])
    {found : List ε} (h : concatAll f l = some found) :
    ∃ found', concatAll f (l.filter Q) = some found' ∧
      found.filter keep = found'.filter keep := by
  induction l generalizing found with
  | nil => exact ⟨found, h, rfl⟩
  | cons x l ih =>
    obtain ⟨first, more, hx, hmore, rfl⟩ := concatAll_cons_eq_some.mp h
    obtain ⟨more', hmore', hsame⟩ := ih (fun y hy => hf y (List.mem_cons_of_mem x hy)) hmore
    cases hlive : Q x with
    | true =>
      rw [List.filter_cons_of_pos hlive]
      refine ⟨first ++ more', concatAll_cons_eq_some.mpr ⟨first, more', hx, hmore', rfl⟩, ?_⟩
      rw [List.filter_append, List.filter_append, hsame]
    | false =>
      rw [List.filter_cons_of_neg (by rw [hlive]; decide)]
      refine ⟨more', hmore', ?_⟩
      rw [List.filter_append, hf x List.mem_cons_self hlive first hx, List.nil_append, hsame]

/-- Let two ways of looking give out the same of what is kept at each place, and lead to the same
further places in `Q`. If they find nothing that is kept from places outside of `Q`, then they find
the same of what is kept. -/
theorem gather_filter {P : α → Prop} {Q : α → Bool}
    (hgiven : ∀ x, P x → (look x).1.filter keep = (look' x).1.filter keep)
    (hbelow : ∀ x, P x → (look x).2.filter Q = (look' x).2.filter Q)
    (hnext : ∀ x, P x → ∀ y ∈ (look x).2, Q y = true → P y)
    (hnone : ∀ fuel x, Q x = false → ∀ found, gather look fuel x = some found →
      found.filter keep = [])
    (hnone' : ∀ fuel x, Q x = false → ∀ found, gather look' fuel x = some found →
      found.filter keep = [])
    (fuel : Nat) : ∀ x, P x → ∀ found found', gather look fuel x = some found →
      gather look' fuel x = some found' → found.filter keep = found'.filter keep := by
  induction fuel with
  | zero => exact fun x _ found found' h => nomatch h
  | succ fuel ih =>
    intro x hx found found' h h'
    obtain ⟨below, hall, rfl⟩ := gather_succ_eq_some.mp h
    obtain ⟨below', hall', rfl⟩ := gather_succ_eq_some.mp h'
    obtain ⟨kept, hkept, hsame⟩ := exists_concatAll_filter (fun y _ => hnone fuel y) hall
    obtain ⟨kept', hkept', hsame'⟩ := exists_concatAll_filter (fun y _ => hnone' fuel y) hall'
    rw [← hbelow x hx] at hkept'
    have hboth : kept.filter keep = kept'.filter keep := by
      refine concatAll_filter (fun y hy => ih y ?_) hkept hkept'
      obtain ⟨hmem, hlive⟩ := List.mem_filter.mp hy
      exact hnext x hx y hmem hlive
    rw [List.filter_append, List.filter_append, hgiven x hx, hsame, hsame', hboth]

/-- As `gather_filter`, where one way leads to some of the places of the other one only, so that its
recursion comes to an end as well. -/
theorem exists_gather_filter {P : α → Prop} {Q : α → Bool}
    (hgiven : ∀ x, P x → (look x).1.filter keep = (look' x).1.filter keep)
    (hbelow : ∀ x, P x → (look x).2.filter Q = (look' x).2.filter Q)
    (hsub : ∀ x, P x → (look' x).2 ⊆ (look x).2) (hnext : ∀ x, P x → ∀ y ∈ (look x).2, P y)
    (hnone : ∀ fuel x, Q x = false → ∀ found, gather look fuel x = some found →
      found.filter keep = [])
    (hnone' : ∀ fuel x, Q x = false → ∀ found, gather look' fuel x = some found →
      found.filter keep = [])
    {fuel : Nat} {x : α} (hx : P x) {found : List ε} (h : gather look fuel x = some found) :
    ∃ found', gather look' fuel x = some found' ∧ found.filter keep = found'.filter keep := by
  obtain ⟨found', h'⟩ :=
    exists_gather_of_subset hsub (fun y hy z hz => hnext y hy z (hsub y hy hz)) fuel x hx found h
  exact ⟨found', h', gather_filter hgiven hbelow (fun y hy z hz _ => hnext y hy z hz) hnone hnone'
    fuel x hx found found' h h'⟩

end Two

/-- If the same is kept, in the same order, of two lists then the same is kept of the two lists
sorted. -/
theorem filter_mergeSort_congr (key : ε → Nat) {keep : ε → Bool} {l l' : List ε}
    (h : l.filter keep = l'.filter keep) :
    (l.mergeSort (keyLe key)).filter keep = (l'.mergeSort (keyLe key)).filter keep := by
  have hsorted : ∀ other : List ε,
      ((other.mergeSort (keyLe key)).filter keep).Pairwise fun a b => key a ≤ key b := by
    intro other
    refine List.Pairwise.filter keep ?_
    refine (List.pairwise_mergeSort (keyLe_trans key) (keyLe_total key) other).imp fun hab => ?_
    rwa [keyLe, decide_eq_true_eq] at hab
  have hswap : ∀ (other : List ε) (k : Nat),
      (((other.mergeSort (keyLe key)).filter keep).filter fun a => key a = k)
        = (other.filter keep).filter fun a => key a = k := by
    intro other k
    rw [List.filter_comm, filter_mergeSort, List.filter_comm]
  refine eq_of_filter_key key (hsorted l) (hsorted l') fun k => ?_
  rw [hswap, hswap, h]

end TreeSieve

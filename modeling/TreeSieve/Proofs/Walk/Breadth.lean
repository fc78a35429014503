import Mathlib.Data.List.Sort

/-!
# Breadth first and depth first

A place gives something out and leads to further places. Going through the places with a queue gives
out the same as going through them by recursion, only sorted by depth.

* `Drains` goes through a queue of places, `gather` through one place and all below it.
* `eq_mergeSort_of_filter` characterizes stable sorting: sorted, and for each key the same elements
  in the same order.
* `Levels.next` is what one place adds, and `Drains.exists_gather` relates the two ways.
-/

namespace TreeSieve

/-! ### Stable sorting -/

section Sorting

variable {ε : Type} (key : ε → Nat)

/-- Whether the key of an element is at most that of another one. -/
def keyLe (a b : ε) : Bool := key a ≤ key b

/-- Sorted lists with the same elements in the same order for each key are equal. -/
theorem eq_of_filter_key {l l' : List ε} (hl : l.Pairwise fun a b => key a ≤ key b)
    (hl' : l'.Pairwise fun a b => key a ≤ key b)
    (h : ∀ k, (l.filter fun a => key a = k) = l'.filter fun a => key a = k) : l = l' := by
  induction l generalizing l' with
  | nil =>
    cases l' with
    | nil => rfl
    | cons b l' => simpa using h (key b)
  | cons a l ih =>
    cases l' with
    | nil => simpa using h (key a)
    | cons b l' =>
      rw [List.pairwise_cons] at hl hl'
      -- each head occurs in the other list, so that neither key is less than the other
      have hkey : key a = key b := by
        have ha : a ∈ (b :: l').filter fun x => key x = key a := by
          rw [← h (key a)]
          simp
        have hb : b ∈ (a :: l).filter fun x => key x = key b := by
          rw [h (key b)]
          simp
        have hba : key b ≤ key a := by
          rcases List.mem_cons.mp (List.mem_filter.mp ha).1 with rfl | ha
          · exact Nat.le_refl _
          · exact hl'.1 a ha
        have hab : key a ≤ key b := by
          rcases List.mem_cons.mp (List.mem_filter.mp hb).1 with rfl | hb
          · exact Nat.le_refl _
          · exact hl.1 b hb
        omega
      have hhead : a = b := by
        have hfirst := h (key a)
        rw [List.filter_cons_of_pos (by simp), List.filter_cons_of_pos (by simp [hkey])] at hfirst
        exact (List.cons.inj hfirst).1
      subst hhead
      rw [ih hl.2 hl'.2]
      intro k
      have hk := h k
      by_cases ha : key a = k
      · rw [List.filter_cons_of_pos (by simp [ha]), List.filter_cons_of_pos (by simp [ha])] at hk
        exact (List.cons.inj hk).2
      · rwa [List.filter_cons_of_neg (by simp [ha]), List.filter_cons_of_neg (by simp [ha])] at hk

theorem keyLe_trans (a b c : ε) (hab : keyLe key a b = true) (hbc : keyLe key b c = true) :
    keyLe key a c = true := by
  rw [keyLe, decide_eq_true_eq] at *
  omega

theorem keyLe_total (a b : ε) : (keyLe key a b || keyLe key b a) = true := by
  rw [Bool.or_eq_true, keyLe, keyLe, decide_eq_true_eq, decide_eq_true_eq]
  omega

/-- Sorting keeps the elements of each key in their order. -/
theorem filter_mergeSort (l : List ε) (k : Nat) :
    ((l.mergeSort (keyLe key)).filter fun a => key a = k) = l.filter fun a => key a = k := by
  have hsame : (l.filter fun a => key a = k).Pairwise fun a b => keyLe key a b = true := by
    refine List.pairwise_of_forall_mem_list fun a ha b hb => ?_
    have hak := (List.mem_filter.mp ha).2
    have hbk := (List.mem_filter.mp hb).2
    rw [decide_eq_true_eq] at hak hbk
    rw [keyLe, decide_eq_true_eq, hak, hbk]
  have hsub := (List.sublist_mergeSort (keyLe_trans key) (keyLe_total key) hsame
    List.filter_sublist).filter fun a => key a = k
  rw [List.filter_filter] at hsub
  simp only [Bool.and_self] at hsub
  exact (hsub.eq_of_length ((List.mergeSort_perm l _).filter _).length_eq.symm).symm

/-- A list is the stable sort of another one if it is sorted and has the same elements in the same
order for each key. -/
theorem eq_mergeSort_of_filter {l l' : List ε} (hl : l.Pairwise fun a b => key a ≤ key b)
    (h : ∀ k, (l.filter fun a => key a = k) = l'.filter fun a => key a = k) :
    l = l'.mergeSort (keyLe key) := by
  refine eq_of_filter_key key hl ?_ fun k => (h k).trans (filter_mergeSort key l' k).symm
  refine (List.pairwise_mergeSort (keyLe_trans key) (keyLe_total key) l').imp fun hab => ?_
  rwa [keyLe, decide_eq_true_eq] at hab

end Sorting

/-! ### Going through places -/

section Places

variable {α ε : Type} (look : α → List ε × List α)

/-- Going through places with a queue: what each gives out, and its further places at the end. -/
inductive Drains : List α → List ε → Prop
  | done : Drains [] []
  | next {x : α} {queue : List α} {found : List ε} (rest : Drains (queue ++ (look x).2) found) :
      Drains (x :: queue) ((look x).1 ++ found)

/-- What a function gives for all members of a list together, unless it fails for one of them. -/
def concatAll (f : α → Option (List ε)) : List α → Option (List ε)
  | [] => some []
  | x :: rest => do return (← f x) ++ (← concatAll f rest)

/-- Going through a place and all below it by recursion, at most `fuel` places deep. -/
def gather : Nat → α → Option (List ε)
  | 0, _ => none
  | fuel + 1, x => do return (look x).1 ++ (← concatAll (gather fuel) (look x).2)

variable {look}

theorem concatAll_cons_eq_some {f : α → Option (List ε)} {x : α} {l : List α} {found : List ε} :
    concatAll f (x :: l) = some found ↔
      ∃ first more, f x = some first ∧ concatAll f l = some more ∧ first ++ more = found := by
  rw [concatAll]
  cases f x with
  | none => simp
  | some first =>
    cases concatAll f l with
    | none => simp
    | some more => simp

theorem gather_succ_eq_some {fuel : Nat} {x : α} {found : List ε} :
    gather look (fuel + 1) x = some found ↔
      ∃ below, concatAll (gather look fuel) (look x).2 = some below ∧
        (look x).1 ++ below = found := by
  rw [gather]
  cases concatAll (gather look fuel) (look x).2 with
  | none => simp
  | some below => simp

theorem concatAll_append {f : α → Option (List ε)} {l l' : List α} {found found' : List ε}
    (h : concatAll f l = some found) (h' : concatAll f l' = some found') :
    concatAll f (l ++ l') = some (found ++ found') := by
  induction l generalizing found with
  | nil =>
    obtain rfl : [] = found := Option.some.inj h
    exact h'
  | cons x l ih =>
    obtain ⟨first, more, hx, hl, rfl⟩ := concatAll_cons_eq_some.mp h
    rw [List.cons_append, concatAll_cons_eq_some]
    exact ⟨first, more ++ found', hx, ih hl, (List.append_assoc first more found').symm⟩

/-- What is given for a row of lists is given for the first of them, followed by what is given for
the others. -/
theorem exists_of_concatAll_append {f : α → Option (List ε)} {l l' : List α} {found : List ε}
    (h : concatAll f (l ++ l') = some found) : ∃ front back, found = front ++ back ∧
      concatAll f l = some front ∧ concatAll f l' = some back := by
  induction l generalizing found with
  | nil => exact ⟨[], found, rfl, rfl, h⟩
  | cons x l ih =>
    obtain ⟨first, more, hx, hl, rfl⟩ := concatAll_cons_eq_some.mp h
    obtain ⟨front, back, rfl, hfront, hback⟩ := ih hl
    exact ⟨first ++ front, back, (List.append_assoc first front back).symm,
      concatAll_cons_eq_some.mpr ⟨first, front, hx, hfront, rfl⟩, hback⟩

theorem concatAll_mono {f g : α → Option (List ε)}
    (h : ∀ x found, f x = some found → g x = some found) {l : List α} {found : List ε}
    (hl : concatAll f l = some found) : concatAll g l = some found := by
  induction l generalizing found with
  | nil => exact hl
  | cons x l ih =>
    obtain ⟨first, more, hx, hrest, rfl⟩ := concatAll_cons_eq_some.mp hl
    exact concatAll_cons_eq_some.mpr ⟨first, more, h x first hx, ih hrest, rfl⟩

/-- If recursion comes to an end then it finds the same with more fuel. -/
theorem gather_succ {fuel : Nat} {x : α} {found : List ε} (h : gather look fuel x = some found) :
    gather look (fuel + 1) x = some found := by
  induction fuel generalizing x found with
  | zero => cases h
  | succ fuel ih =>
    obtain ⟨below, hbelow, rfl⟩ := gather_succ_eq_some.mp h
    exact gather_succ_eq_some.mpr ⟨below, concatAll_mono (fun _ _ => ih) hbelow, rfl⟩

theorem gather_mono {fuel fuel' : Nat} (hle : fuel ≤ fuel') {x : α} {found : List ε}
    (h : gather look fuel x = some found) : gather look fuel' x = some found := by
  induction hle with
  | refl => exact h
  | step _ ih => exact gather_succ ih

/-- Recursion finds the same with all fuels with which it comes to an end. -/
theorem gather_unique {fuel fuel' : Nat} {x : α} {found found' : List ε}
    (h : gather look fuel x = some found) (h' : gather look fuel' x = some found') :
    found = found' := by
  have hmax := gather_mono (Nat.le_max_left fuel fuel') h
  rw [gather_mono (Nat.le_max_right fuel fuel') h'] at hmax
  exact (Option.some.inj hmax).symm

/-- A property of all that is given for each member of a list is one of all that is given for the
list. -/
theorem forall_of_concatAll {f : α → Option (List ε)} {P : ε → Prop} {l : List α}
    (hf : ∀ x ∈ l, ∀ found, f x = some found → ∀ e ∈ found, P e) {found : List ε}
    (h : concatAll f l = some found) : ∀ e ∈ found, P e := by
  induction l generalizing found with
  | nil =>
    obtain rfl : [] = found := Option.some.inj h
    exact fun e he => nomatch he
  | cons x l ih =>
    obtain ⟨first, more, hx, hrest, rfl⟩ := concatAll_cons_eq_some.mp h
    intro e he
    rcases List.mem_append.mp he with he | he
    · exact hf x List.mem_cons_self first hx e he
    · exact ih (fun y hy => hf y (List.mem_cons_of_mem x hy)) hrest e he

/-- What holds of all that is given out at places of a kind holds of all that is found from such a
place, if it leads to places of this kind only. -/
theorem forall_of_gather {P : ε → Prop} {Q : α → Prop} (hgiven : ∀ x, Q x → ∀ e ∈ (look x).1, P e)
    (hbelow : ∀ x, Q x → ∀ y ∈ (look x).2, Q y) (fuel : Nat) :
    ∀ x, Q x → ∀ found, gather look fuel x = some found → ∀ e ∈ found, P e := by
  induction fuel with
  | zero => exact fun x _ found h => nomatch h
  | succ fuel ih =>
    intro x hx found h e he
    obtain ⟨below, hall, rfl⟩ := gather_succ_eq_some.mp h
    rcases List.mem_append.mp he with he | he
    · exact hgiven x hx e he
    · exact forall_of_concatAll (fun y hy => ih y (hbelow x hx y hy)) hall e he

/-! ### The two ways -/

variable {depth : α → Nat} {key : ε → Nat}

/-- What recursion finds from a place has at least the depth of the place. -/
theorem le_key_of_gather (hgiven : ∀ x, ∀ e ∈ (look x).1, key e = depth x)
    (hbelow : ∀ x, ∀ y ∈ (look x).2, depth y = depth x + 1) (fuel : Nat) :
    ∀ x found, gather look fuel x = some found → ∀ e ∈ found, depth x ≤ key e := by
  intro x
  refine forall_of_gather (Q := fun y => depth x ≤ depth y) (fun y hy e he => ?_)
    (fun y hy z hz => ?_) fuel x (Nat.le_refl _)
  · rw [hgiven y e he]
    exact hy
  · rw [hbelow y z hz]
    exact Nat.le_succ_of_le hy

/-- A list that holds what recursion finds from the given places, sorted by a key that is at least
`level`, and with the elements of each key in the order of the recursion. -/
structure Levels (look : α → List ε × List α) (key : ε → Nat) (level : Nat) (places : List α)
    (out : List ε) : Prop where
  sorted : out.Pairwise fun a b => key a ≤ key b
  deep : ∀ e ∈ out, level ≤ key e
  found : ∃ fuel found, concatAll (gather look fuel) places = some found ∧
    ∀ k, (out.filter fun e => key e = k) = found.filter fun e => key e = k

/-- A list for `back`, the further places of `x` and `front` becomes one for `back`, `x` and `front`
if what is given out at `x` is put first. It stays sorted since all that is found from `back` lies
deeper than `x`. -/
theorem Levels.next (hgiven : ∀ x, ∀ e ∈ (look x).1, key e = depth x)
    (hbelow : ∀ x, ∀ y ∈ (look x).2, depth y = depth x + 1) {level : Nat} {x : α}
    {front back : List α} {out : List ε}
    (h : Levels look key level (back ++ (look x).2 ++ front) out) (hx : depth x = level)
    (hback : ∀ y ∈ back, depth y = level + 1) :
    Levels look key level (back ++ x :: front) ((look x).1 ++ out) := by
  have hkey : ∀ e ∈ (look x).1, key e = level := fun e he => (hgiven x e he).trans hx
  refine ⟨?_, ?_, ?_⟩
  · rw [List.pairwise_append]
    refine ⟨List.pairwise_of_forall_mem_list fun a ha b hb => ?_, h.sorted, fun a ha b hb => ?_⟩
    · rw [hkey a ha, hkey b hb]
    · rw [hkey a ha]
      exact h.deep b hb
  · intro e he
    rcases List.mem_append.mp he with he | he
    · exact Nat.le_of_eq (hkey e he).symm
    · exact h.deep e he
  · obtain ⟨fuel, found, hfound, hfilter⟩ := h.found
    obtain ⟨deep, flat, rfl, hdeep, hflat⟩ := exists_of_concatAll_append hfound
    obtain ⟨old, new, rfl, hold, hnew⟩ := exists_of_concatAll_append hdeep
    have hmore : ∀ y found, gather look fuel y = some found →
        gather look (fuel + 1) y = some found := fun y found => gather_succ
    have hown : gather look (fuel + 1) x = some ((look x).1 ++ new) :=
      gather_succ_eq_some.mpr ⟨new, hnew, rfl⟩
    have hrow : concatAll (gather look (fuel + 1)) (x :: front)
        = some ((look x).1 ++ new ++ flat) :=
      concatAll_cons_eq_some.mpr ⟨_, flat, hown, concatAll_mono hmore hflat, rfl⟩
    refine ⟨fuel + 1, _, concatAll_append (concatAll_mono hmore hold) hrow, fun k => ?_⟩
    have hk := hfilter k
    simp only [List.filter_append] at hk ⊢
    rw [hk]
    by_cases hlevel : k = level
    · -- what was reached earlier lies deeper than the place
      have hnone : (old.filter fun e => key e = k) = [] := by
        rw [List.filter_eq_nil_iff]
        intro e he
        have hlow : level + 1 ≤ key e := by
          refine forall_of_concatAll (P := fun e => level + 1 ≤ key e)
            (fun y hy found hfound e he => ?_) hold e he
          rw [← hback y hy]
          exact le_key_of_gather hgiven hbelow fuel y found hfound e he
        rw [decide_eq_true_eq]
        omega
      rw [hnone]
      simp
    · have hnone : ((look x).1.filter fun e => key e = k) = [] := by
        rw [List.filter_eq_nil_iff]
        intro e he
        rw [decide_eq_true_eq, hkey e he]
        exact fun hsame => hlevel hsame.symm
      rw [hnone]
      simp

/-- Going through the places with a queue of two depths finds what recursion finds: the deeper ones
first, since they were reached from places in front of the others. -/
theorem Drains.levels (hgiven : ∀ x, ∀ e ∈ (look x).1, key e = depth x)
    (hbelow : ∀ x, ∀ y ∈ (look x).2, depth y = depth x + 1) {queue : List α} {out : List ε}
    (h : Drains look queue out) :
    ∀ (front back : List α) (level : Nat), queue = front ++ back → (∀ x ∈ front, depth x = level) →
      (∀ x ∈ back, depth x = level + 1) → Levels look key level (back ++ front) out := by
  induction h with
  | done =>
    intro front back level hqueue _ _
    obtain ⟨rfl, rfl⟩ := List.nil_eq_append_iff.mp hqueue
    exact ⟨List.Pairwise.nil, fun e he => (nomatch he), 0, [], rfl, fun k => rfl⟩
  | @next x queue out rest ih =>
    intro front back level hqueue hfront hback
    cases front with
    | nil =>
      -- the places of one depth are done, and the next depth begins
      rw [List.nil_append] at hqueue
      subst hqueue
      have hx : depth x = level + 1 := hback x List.mem_cons_self
      have hnext : Levels look key (level + 1) ([] ++ (look x).2 ++ queue) out :=
        ih queue (look x).2 (level + 1) rfl (fun y hy => hback y (List.mem_cons_of_mem x hy))
          (hx ▸ hbelow x)
      have hlevels := hnext.next hgiven hbelow hx fun y hy => nomatch hy
      rw [List.append_nil]
      exact ⟨hlevels.sorted, fun e he => (Nat.le_succ level).trans (hlevels.deep e he),
        hlevels.found⟩
    | cons y front =>
      obtain ⟨rfl, rfl⟩ := List.cons.inj hqueue
      have hx : depth x = level := hfront x List.mem_cons_self
      have hdeeper : ∀ y ∈ back ++ (look x).2, depth y = level + 1 := by
        intro y hy
        rcases List.mem_append.mp hy with hy | hy
        · exact hback y hy
        · rw [hbelow x y hy, hx]
      exact (ih front (back ++ (look x).2) level (List.append_assoc front back _)
        (fun z hz => hfront z (List.mem_cons_of_mem x hz)) hdeeper).next hgiven hbelow hx hback

/-- Going through a place with a queue finds what recursion finds, sorted by depth. -/
theorem Drains.exists_gather (hgiven : ∀ x, ∀ e ∈ (look x).1, key e = depth x)
    (hbelow : ∀ x, ∀ y ∈ (look x).2, depth y = depth x + 1) {x : α} {out : List ε}
    (h : Drains look [x] out) :
    ∃ fuel found, gather look fuel x = some found ∧ out = found.mergeSort (keyLe key) := by
  have hlevels := h.levels hgiven hbelow [x] [] (depth x) rfl (by simp) (by simp)
  obtain ⟨fuel, found, hfound, hfilter⟩ := hlevels.found
  obtain ⟨first, more, hx, hnone, rfl⟩ := concatAll_cons_eq_some.mp hfound
  obtain rfl : [] = more := Option.some.inj hnone
  rw [List.append_nil] at hfilter
  exact ⟨fuel, first, hx, eq_mergeSort_of_filter key hlevels.sorted hfilter⟩

end Places

end TreeSieve

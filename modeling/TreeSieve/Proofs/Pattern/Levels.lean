import TreeSieve.Proofs.Pattern.Laying

/-!
# Patterns that name a level

The segments of a pattern that begins with a slash are laid along the first names of a path, one on
each. What they find is then found in the path down to the name under the last segment, and whatever
follows there says no more than that this is a directory. Brackets are allowed here, as long as a
slash is taken only where a name has begun, that is never.

* `Segment.takesSlashInside` tells a segment that could take a slash behind its first character, and
  `Segment.canBeEmpty` one that could take nothing.
* `Glob.EndsAt` says that segments behind a name look at a given number of names only; there is a
  lemma for each kind of segment that can come next.
* `Glob.matches_iff_take` concludes for whole patterns, and `Glob.not_matches_of_empty` for those
  in which two slashes stand next to each other.
-/

namespace TreeSieve

/-! ### Slashes within a segment -/

/-- Whether a piece could take a slash. -/
def Piece.takesSlash : Piece → Bool
  | literal c => c == '/'
  | anyRun => false
  | anyOne => false
  | oneOf negated body =>
    match bracketItems 0 body with
    | .ok items => (⟨negated, false, items⟩ : CharSet).contains '/'
    | .error _ => false

theorem Piece.Takes.not_mem {p : Piece} {taken : Text} (h : p.Takes taken)
    (hp : p.takesSlash = false) : '/' ∉ taken := by
  cases p with
  | literal c =>
    rw [show taken = [c] from h, List.mem_singleton]
    rintro rfl
    exact nomatch hp
  | anyRun => exact h
  | anyOne =>
    obtain ⟨c, hc, rfl⟩ := h
    rw [List.mem_singleton]
    exact fun e => hc e.symm
  | oneOf negated body =>
    obtain ⟨items, c, hitems, hc, rfl⟩ := h
    rw [List.mem_singleton]
    rintro rfl
    simp only [takesSlash, hitems, hc] at hp
    exact nomatch hp

/-- If what a piece takes holds a slash then it begins with one. -/
theorem Piece.Takes.not_mem_of_head {p : Piece} {taken : Text} (h : p.Takes taken)
    (hhead : taken.head? ≠ some '/') : '/' ∉ taken := by
  have hone : ∀ c : Char, taken = [c] → '/' ∉ taken := by
    rintro c rfl hmem
    exact hhead (by rw [List.mem_singleton.mp hmem]; rfl)
  cases p with
  | literal c => exact hone c h
  | anyRun => exact h
  | anyOne =>
    obtain ⟨c, -, hc⟩ := h
    exact hone c hc
  | oneOf negated body =>
    obtain ⟨-, c, -, -, hc⟩ := h
    exact hone c hc

namespace Segment

/-- Whether a segment has a piece behind the first one that could take a slash. -/
def takesSlashInside : Segment → Bool
  | shape pieces => pieces.tail.any Piece.takesSlash
  | _ => false

/-- Whether a segment for a name could take nothing. -/
def canBeEmpty : Segment → Bool
  | shape pieces => pieces.all (· == .anyRun)
  | _ => false

/-- A segment for one name. -/
structure IsLevel (s : Segment) : Prop where
  ne_anyDepth : s ≠ .anyDepth
  inside : s.takesSlashInside = false

instance decidableIsLevel (s : Segment) : Decidable s.IsLevel :=
  decidable_of_iff (s ≠ .anyDepth ∧ s.takesSlashInside = false)
    ⟨fun h => ⟨h.1, h.2⟩, fun h => ⟨h.ne_anyDepth, h.inside⟩⟩

theorem takeAll_not_mem {pieces : List Piece} (h : ∀ p ∈ pieces, p.takesSlash = false)
    {taken : Text} (htaken : Piece.TakeAll pieces taken) : '/' ∉ taken := by
  induction pieces generalizing taken with
  | nil =>
    rw [show taken = [] from htaken]
    exact List.not_mem_nil
  | cons p pieces ih =>
    obtain ⟨first, rest, rfl, hfirst, hrest⟩ := htaken
    rw [List.mem_append, not_or]
    refine ⟨hfirst.not_mem (h p List.mem_cons_self), ih ?_ hrest⟩
    exact fun q hq => h q (List.mem_cons_of_mem p hq)

/-- If what a segment for a name takes holds a slash then it begins with one. -/
theorem IsLevel.slash_not_mem {s : Segment} (hs : s.IsLevel) {taken : Text} (h : s.Fits taken)
    (hhead : taken.head? ≠ some '/') : '/' ∉ taken := by
  have hinside := hs.inside
  cases s with
  | anyDepth => exact absurd rfl hs.ne_anyDepth
  | anyName => exact h.2
  | shape pieces =>
    cases pieces with
    | nil =>
      rw [show taken = [] from h]
      exact List.not_mem_nil
    | cons p pieces =>
      obtain ⟨first, rest, rfl, hfirst, hrest⟩ := h
      rw [takesSlashInside, List.tail_cons, List.any_eq_false] at hinside
      rw [List.mem_append, not_or]
      refine ⟨hfirst.not_mem_of_head ?_, takeAll_not_mem ?_ hrest⟩
      · intro hslash
        cases first with
        | nil => exact nomatch hslash
        | cons c first => exact hhead hslash
      · exact fun q hq => Bool.not_eq_true _ ▸ hinside q hq

/-- A segment for a name that cannot be empty does not fit the empty text. -/
theorem not_fits_nil {s : Segment} (hs : s ≠ .anyDepth) (hempty : s.canBeEmpty = false) :
    ¬s.Fits [] := by
  cases s with
  | anyDepth => exact absurd rfl hs
  | anyName => exact fun h => h.1 rfl
  | shape pieces =>
    rw [← Bool.not_eq_true] at hempty
    refine fun h => hempty ?_
    rw [canBeEmpty]
    replace h : Piece.TakeAll pieces [] := h
    clear hs hempty
    induction pieces with
    | nil => rfl
    | cons p pieces ih =>
      obtain ⟨first, rest, hsplit, hfirst, hrest⟩ := h
      obtain ⟨rfl, rfl⟩ := List.nil_eq_append_iff.mp hsplit
      rw [List.all_cons, ih hrest, Bool.and_true, beq_iff_eq]
      cases p with
      | literal c => exact nomatch (show ([] : Text) = [c] from hfirst)
      | anyRun => rfl
      | anyOne =>
        obtain ⟨c, -, hc⟩ := hfirst
        exact nomatch hc
      | oneOf negated body =>
        obtain ⟨-, c, -, -, hc⟩ := hfirst
        exact nomatch hc

end Segment

namespace Glob

variable {s : Segment} {name : Text} {names : List Text} {isDirectory : Bool} {before : Text}

/-! ### One segment -/

/-- Where a name begins, what a segment for a name takes holds no slash. -/
theorem not_mem_of_fits (hs : s.IsLevel) (hname : Path.IsEntryName name) {text taken rest : Text}
    (h : s.Fits taken) (hsplit : name ++ text = taken ++ rest) : '/' ∉ taken := by
  refine hs.slash_not_mem h fun hslash => ?_
  cases taken with
  | nil => exact nomatch hslash
  | cons c taken =>
    obtain ⟨d, more, hd⟩ := List.exists_cons_of_ne_nil hname.ne_nil
    rw [hd, List.cons_append, List.cons_append, List.cons.injEq] at hsplit
    refine hname.slash_not_mem ?_
    rw [hd, hsplit.1, Option.some.inj hslash]
    exact List.mem_cons_self

/-- Where a name begins, a segment for a name that takes something up to a slash takes the name. -/
theorem eq_of_fits (hs : s.IsLevel) (hname : Path.IsEntryName name) {taken rest : Text}
    (h : s.Fits taken) (hsplit : name ++ Path.behind names isDirectory = taken ++ '/' :: rest) :
    taken = name ∧ Path.behind names isDirectory = '/' :: rest := by
  have htaken := not_mem_of_fits hs hname h hsplit
  rcases Path.behind_cases names isDirectory with ⟨-, -, hb⟩ | ⟨more, hmore⟩
  · refine absurd ?_ hname.slash_not_mem
    rw [hb, List.append_nil] at hsplit
    rw [hsplit]
    simp
  · rw [hmore] at hsplit ⊢
    obtain ⟨hsame, hbehind⟩ := Path.eq_of_append_slash hname.slash_not_mem htaken hsplit
    exact ⟨hsame.symm, by rw [hbehind]⟩

/-- A segment with others behind it takes the next name, and these look behind the name. -/
theorem takeFrom_next (hs : s.IsLevel) {segments : List Segment} (hne : segments ≠ [])
    (hname : Path.IsEntryName name) :
    GlobPart.TakeFrom (partsAfter .ignoring false (s :: segments)) before
        (name ++ Path.behind names isDirectory) ↔
      s.Fits name ∧ GlobPart.TakeFrom (partsAfter .ignoring true segments) (name.reverse ++ before)
        (Path.behind names isDirectory) := by
  rw [partsAfter_cons hs.ne_anyDepth hne, if_neg Bool.false_ne_true, List.nil_append,
    GlobPart.takeFrom_segment]
  constructor
  · rintro ⟨taken, rest, hsplit, hfits, htake⟩
    obtain ⟨more, rfl⟩ := htake.slash hne
    obtain ⟨rfl, hbehind⟩ := eq_of_fits hs hname hfits hsplit
    rw [hbehind]
    exact ⟨hfits, htake⟩
  · rintro ⟨hfits, htake⟩
    exact ⟨name, _, rfl, hfits, htake⟩

/-- Where the name of a directory begins, the last segment takes something exactly if it fits this
name. -/
theorem takeFrom_last (hs : s.IsLevel) (hname : Path.IsEntryName name)
    (hdirectory : names ≠ [] ∨ isDirectory = true) :
    GlobPart.TakeFrom (partsAfter .ignoring false [s]) before
        (name ++ Path.behind names isDirectory) ↔ s.Fits name := by
  rw [partsAfter_single hs.ne_anyDepth, if_neg Bool.false_ne_true, List.nil_append,
    GlobPart.takeFrom_segment]
  obtain ⟨more, hmore⟩ := Path.exists_behind_iff.mpr hdirectory
  constructor
  · rintro ⟨taken, rest, hsplit, hfits, htake⟩
    obtain ⟨ending, after, rfl, hending, -⟩ := GlobPart.takeFrom_cons.mp htake
    rcases hending with rfl | ⟨rfl, hend⟩
    · rw [← (eq_of_fits hs hname hfits hsplit).1]
      exact hfits
    · -- a slash behind the name, which the segment does not take, is not the end
      exfalso
      have hmem : '/' ∈ taken ++ ([] ++ after) := by
        rw [← hsplit, hmore]
        simp
      rcases List.mem_append.mp hmem with hmem | hmem
      · exact not_mem_of_fits hs hname hfits hsplit hmem
      · rcases hend with rfl | rfl <;> simp at hmem
  · intro hfits
    refine ⟨name, _, rfl, hfits, GlobPart.takeFrom_cons.mpr ?_⟩
    exact ⟨['/'], more, hmore, .inl rfl, GlobPart.takeFrom_nil _ _⟩

/-! ### Segments in a row -/

/-- Segments behind a name that look at the next `count` names, and whether something lies below
these. -/
def EndsAt (segments : List Segment) (count : Nat) : Prop :=
  ∀ names : List Text, (∀ name ∈ names, Path.IsEntryName name) → ∀ isDirectory before,
    GlobPart.TakeFrom (partsAfter .ignoring true segments) before
        (Path.behind names isDirectory) ↔
      count ≤ names.length ∧ GlobPart.TakeFrom (partsAfter .ignoring true segments) before
        (Path.behind (names.take count) (isDirectory || decide (count < names.length)))

/-- `**` at the end looks at no more names, and only at whether something lies below. -/
theorem endsAt_anyDepth : EndsAt [.anyDepth] 0 := by
  intro names _ isDirectory before
  have hslash : ∀ text, GlobPart.TakeFrom (partsAfter .ignoring true [.anyDepth]) before text ↔
      ∃ rest, text = '/' :: rest := by
    intro text
    show GlobPart.TakeFrom [.slash] before text ↔ _
    rw [GlobPart.takeFrom_slash]
    apply exists_congr
    intro rest
    exact and_iff_left (GlobPart.takeFrom_nil _ _)
  rw [hslash, hslash, Path.exists_behind_iff, Path.exists_behind_iff, List.take_zero,
    Bool.or_eq_true, decide_eq_true_eq, List.length_pos_iff]
  simp [or_comm]

/-- Where the names of a path end, a segment for a name finds nothing, unless it is the last one and
may take nothing. -/
theorem not_takeFrom_behind_nil (hs : s.IsLevel) {segments : List Segment}
    (hempty : segments = [] → ¬s.Fits []) :
    ¬GlobPart.TakeFrom (partsAfter .ignoring true (s :: segments)) before
      (Path.behind [] isDirectory) := by
  rw [partsAfter_true hs.ne_anyDepth, GlobPart.takeFrom_slash]
  rintro ⟨text, htext, htake⟩
  obtain rfl : text = [] := by
    cases isDirectory with
    | false => exact nomatch htext
    | true => exact (List.cons.inj htext).2.symm
  rcases eq_or_ne segments [] with rfl | hne
  · rw [partsAfter_single hs.ne_anyDepth, if_neg Bool.false_ne_true, List.nil_append,
      GlobPart.takeFrom_segment] at htake
    obtain ⟨taken, rest, hsplit, hfits, -⟩ := htake
    rw [(List.nil_eq_append_iff.mp hsplit).1] at hfits
    exact hempty rfl hfits
  · rw [partsAfter_cons hs.ne_anyDepth hne, if_neg Bool.false_ne_true, List.nil_append,
      GlobPart.takeFrom_segment] at htake
    obtain ⟨taken, rest, hsplit, -, hrest⟩ := htake
    obtain ⟨more, rfl⟩ := hrest.slash hne
    simp at hsplit

/-- Segments behind a name take something exactly if they do so behind the slash, where the next
name begins. -/
theorem takeFrom_behind_cons (hs : s.IsLevel) {segments : List Segment} :
    GlobPart.TakeFrom (partsAfter .ignoring true (s :: segments)) before
        (Path.behind (name :: names) isDirectory) ↔
      GlobPart.TakeFrom (partsAfter .ignoring false (s :: segments)) ('/' :: before)
        (name ++ Path.behind names isDirectory) := by
  rw [partsAfter_true hs.ne_anyDepth, GlobPart.takeFrom_slash, Path.behind]
  simp only [List.cons.injEq, true_and, exists_eq_left']

/-- Whether something lies below the first names of a path does not change if one more name is put
in front and counted. -/
theorem below_take_succ (count : Nat) :
    (isDirectory || decide (count + 1 < (name :: names).length))
      = (isDirectory || decide (count < names.length)) := by
  simp only [List.length_cons, Nat.add_lt_add_iff_right]

/-- Where a name begins, a last segment looks at this name only, and at whether something lies below
it. -/
theorem takeFrom_single_iff (hs : s.IsLevel) (hname : Path.IsEntryName name) :
    GlobPart.TakeFrom (partsAfter .ignoring false [s]) before
        (name ++ Path.behind names isDirectory) ↔
      GlobPart.TakeFrom (partsAfter .ignoring false [s]) before
        (name ++ Path.behind [] (isDirectory || decide (0 < names.length))) := by
  by_cases hdirectory : names ≠ [] ∨ isDirectory = true
  · have hone : (isDirectory || decide (0 < names.length)) = true := by
      rw [Bool.or_eq_true, decide_eq_true_eq, List.length_pos_iff]
      exact hdirectory.symm
    rw [hone, takeFrom_last hs hname hdirectory, takeFrom_last hs hname (.inr rfl)]
  · -- nothing follows the name
    rw [not_or, not_not, Bool.not_eq_true] at hdirectory
    obtain ⟨rfl, rfl⟩ := hdirectory
    exact Iff.rfl

/-- A segment in front of others looks at one name more than these. -/
theorem EndsAt.takeFrom_cons_iff (hs : s.IsLevel) {segments : List Segment} (hne : segments ≠ [])
    {count : Nat} (h : EndsAt segments count) (hname : Path.IsEntryName name)
    (hn : ∀ name ∈ names, Path.IsEntryName name) :
    GlobPart.TakeFrom (partsAfter .ignoring false (s :: segments)) before
        (name ++ Path.behind names isDirectory) ↔
      count ≤ names.length ∧ GlobPart.TakeFrom (partsAfter .ignoring false (s :: segments)) before
        (name ++ Path.behind (names.take count)
          (isDirectory || decide (count < names.length))) := by
  rw [takeFrom_next hs hne hname, takeFrom_next hs hne hname, h names hn]
  exact and_left_comm

/-- A last segment that takes something looks at one name. -/
theorem endsAt_single (hs : s.IsLevel) (hempty : ¬s.Fits []) : EndsAt [s] 1 := by
  intro names hn isDirectory before
  cases names with
  | nil => exact iff_of_false (not_takeFrom_behind_nil hs fun _ => hempty) (by simp)
  | cons name names =>
    have hname := hn name List.mem_cons_self
    rw [List.take_succ_cons, List.take_zero, below_take_succ, takeFrom_behind_cons hs,
      takeFrom_behind_cons hs, takeFrom_single_iff hs hname]
    exact (and_iff_right (Nat.le_add_left 1 _)).symm

theorem EndsAt.cons (hs : s.IsLevel) {segments : List Segment} (hne : segments ≠ []) {count : Nat}
    (h : EndsAt segments count) : EndsAt (s :: segments) (count + 1) := by
  intro names hn isDirectory before
  cases names with
  | nil => exact iff_of_false (not_takeFrom_behind_nil hs fun e => absurd e hne) (by simp)
  | cons name names =>
    have hname := hn name List.mem_cons_self
    rw [List.take_succ_cons, below_take_succ, takeFrom_behind_cons hs, takeFrom_behind_cons hs,
      h.takeFrom_cons_iff hs hne hname (List.forall_mem_cons.mp hn).2, List.length_cons,
      Nat.add_le_add_iff_right]

/-- Segments for names in front of others look at one name each. -/
theorem EndsAt.append {segments last : List Segment} (hs : ∀ s ∈ segments, s.IsLevel)
    (hne : last ≠ []) {count : Nat} (h : EndsAt last count) :
    EndsAt (segments ++ last) (segments.length + count) := by
  induction segments with
  | nil =>
    rw [List.nil_append, List.length_nil, Nat.zero_add]
    exact h
  | cons s segments ih =>
    have hmore := ih fun q hq => hs q (List.mem_cons_of_mem s hq)
    rw [List.cons_append, List.length_cons, Nat.add_right_comm]
    exact hmore.cons (hs s List.mem_cons_self) (by simp [hne])

/-- **A pattern for a level matches a path if it matches the path down to that level.** -/
theorem matches_iff_take {segments : List Segment} {directory : Bool} {count : Nat}
    (hs : s.IsLevel) (h : segments = [] ∧ count = 0 ∨ segments ≠ [] ∧ EndsAt segments count)
    (hn : ∀ name ∈ names, Path.IsEntryName name) (hne : names ≠ []) :
    Matches .ignoring ⟨s :: segments, directory⟩ (Rule.asked names isDirectory) ↔
      count + 1 ≤ names.length ∧ Matches .ignoring ⟨s :: segments, directory⟩
        (Rule.asked (names.take (count + 1))
          (isDirectory || decide (count + 1 < names.length))) := by
  obtain ⟨name, names, rfl⟩ := List.exists_cons_of_ne_nil hne
  have hname := hn name List.mem_cons_self
  rw [matches_of_start (parts_of_head hs.ne_anyDepth),
    matches_of_start (parts_of_head hs.ne_anyDepth), List.take_succ_cons, below_take_succ,
    Path.asked_cons, Path.asked_cons]
  rcases h with ⟨rfl, rfl⟩ | ⟨hsegments, h⟩
  · rw [List.take_zero, takeFrom_single_iff hs hname]
    exact (and_iff_right (Nat.le_add_left 1 _)).symm
  · rw [h.takeFrom_cons_iff hs hsegments hname (List.forall_mem_cons.mp hn).2, List.length_cons,
      Nat.add_le_add_iff_right]

/-- Each segment with others behind it fits a name of a path that is matched. -/
theorem fits_of_takeFrom {segments last : List Segment} (hs : ∀ s ∈ segments, s.IsLevel)
    (hne : last ≠ []) (hn : ∀ name ∈ names, Path.IsEntryName name)
    (h : GlobPart.TakeFrom (partsAfter .ignoring true (segments ++ last)) before
      (Path.behind names isDirectory)) : ∀ s ∈ segments, ∃ name ∈ names, s.Fits name := by
  induction segments generalizing names before with
  | nil => exact fun s hmem => nomatch hmem
  | cons s segments ih =>
    have hlevel := hs s List.mem_cons_self
    have hmore : segments ++ last ≠ [] := by simp [hne]
    rw [List.cons_append] at h
    cases names with
    | nil => exact absurd h (not_takeFrom_behind_nil hlevel fun e => absurd e hmore)
    | cons name names =>
      obtain ⟨hname, hnames⟩ := List.forall_mem_cons.mp hn
      rw [takeFrom_behind_cons hlevel, takeFrom_next hlevel hmore hname] at h
      have hrest := ih (fun q hq => hs q (List.mem_cons_of_mem s hq)) hnames h.2
      refine List.forall_mem_cons.mpr ⟨⟨name, List.mem_cons_self, h.1⟩, fun q hq => ?_⟩
      obtain ⟨other, hother, hfits⟩ := hrest q hq
      exact ⟨other, List.mem_cons_of_mem name hother, hfits⟩

/-- A pattern with an empty segment that is not the last one matches no path. -/
theorem not_matches_of_empty {segments : List Segment} {last : Segment} {directory : Bool}
    (hs : ∀ s ∈ segments, s.IsLevel) (hempty : Segment.shape [] ∈ segments)
    (hn : ∀ name ∈ names, Path.IsEntryName name) (hne : names ≠ []) :
    ¬Matches .ignoring ⟨segments ++ [last], directory⟩ (Rule.asked names isDirectory) := by
  have hnone : ∀ name : Text, Path.IsEntryName name → ¬(Segment.shape []).Fits name :=
    fun name hname h => hname.ne_nil h
  obtain ⟨name, names, rfl⟩ := List.exists_cons_of_ne_nil hne
  obtain ⟨hname, hnames⟩ := List.forall_mem_cons.mp hn
  cases segments with
  | nil => exact nomatch hempty
  | cons s segments =>
    obtain ⟨hlevel, hlevels⟩ := List.forall_mem_cons.mp hs
    rw [List.cons_append, matches_of_start (parts_of_head hlevel.ne_anyDepth), Path.asked_cons,
      takeFrom_next hlevel (by simp) hname]
    rintro ⟨hfits, htake⟩
    rcases List.mem_cons.mp hempty with rfl | hempty
    · exact hnone name hname hfits
    · obtain ⟨other, hother, hfit⟩ :=
        fits_of_takeFrom hlevels (List.cons_ne_nil last []) hnames htake _ hempty
      exact hnone other (hnames other hother) hfit

end Glob

end TreeSieve

import TreeSieve.Proofs.Pattern.Laying

/-!
# The grammar of lines

A line without brackets is written from segments, and means something for the names of a path: its
segments are laid along the first of them.

* `GlobElement`, `LineSegment` and `GlobLine` are the grammar, each with how it is written and what
  can be written.
* `GlobElement.matchesRow`, `LineSegment.fits` and `GlobLine.Covers` say what it means.
* `LineSegment.reach_iff` says that segments can be laid along names exactly if some of the first
  names fit them, and `GlobLine.reach_laid` that a line means what its segments mean when they are
  laid out, with `**` once where it comes repeatedly.
-/

namespace TreeSieve

/-! ### Elements -/

/-- An element of a segment: a character that stands for itself, a character behind a backslash, any
one character, or any run of characters. -/
inductive GlobElement where
  | plain (c : Char)
  | escaped (c : Char)
  | anyOne
  | anyRun
  deriving DecidableEq, Repr

namespace GlobElement

/-- How an element is written. -/
def text : GlobElement → Text
  | plain c => [c]
  | escaped c => ['\\', c]
  | anyOne => ['?']
  | anyRun => ['*']

/-- Whether an element can be written. A character with a meaning of its own needs a backslash to
stand for itself, and a slash does not even do so with one. -/
def IsWritable : GlobElement → Prop
  | plain c => c ∉ ['/', '\\', '*', '?', '[']
  | escaped c => c ≠ '/'
  | anyOne => True
  | anyRun => True

instance decidableIsWritable : DecidablePred IsWritable
  | plain c => inferInstanceAs (Decidable (c ∉ ['/', '\\', '*', '?', '[']))
  | escaped c => inferInstanceAs (Decidable (c ≠ '/'))
  | anyOne => isTrue trivial
  | anyRun => isTrue trivial

/-- Whether elements in a row match a name. -/
def matchesRow : List GlobElement → Text → Bool
  | [], name => name.isEmpty
  | .anyRun :: more, name => name.tails.any (matchesRow more)
  | _ :: _, [] => false
  | .anyOne :: more, _ :: rest => matchesRow more rest
  | .plain c :: more, d :: rest => d == c && matchesRow more rest
  | .escaped c :: more, d :: rest => d == c && matchesRow more rest

/-- The piece of a pattern that an element is read as. -/
def piece : GlobElement → Piece
  | plain c => .literal c
  | escaped c => .literal c
  | anyOne => .anyOne
  | anyRun => .anyRun

theorem IsWritable.piece_isPlain {e : GlobElement} (h : e.IsWritable) : e.piece.IsPlain := by
  cases e with
  | plain c =>
    intro hc
    exact h (by simp [hc])
  | escaped c => exact h
  | anyOne => exact trivial
  | anyRun => exact trivial

/-- A literal takes the first character. -/
theorem takeAll_literal {c : Char} {pieces : List Piece} {name : Text} :
    Piece.TakeAll (.literal c :: pieces) name ↔
      ∃ rest, name = c :: rest ∧ Piece.TakeAll pieces rest := by
  constructor
  · rintro ⟨_, rest, rfl, rfl, hrest⟩
    exact ⟨rest, rfl, hrest⟩
  · rintro ⟨rest, rfl, hrest⟩
    exact ⟨[c], rest, rfl, rfl, hrest⟩

/-- **The pieces of a row take what the row matches**, as long as it holds no slash. -/
theorem takeAll_piece {elements : List GlobElement} {name : Text} (hname : '/' ∉ name) :
    Piece.TakeAll (elements.map piece) name ↔ matchesRow elements name = true := by
  induction elements generalizing name with
  | nil => exact List.isEmpty_iff.symm
  | cons e more ih =>
    have hliteral : ∀ c : Char, Piece.TakeAll (.literal c :: more.map piece) name ↔
        ∃ rest, name = c :: rest ∧ matchesRow more rest = true := by
      intro c
      rw [takeAll_literal]
      refine exists_congr fun rest => and_congr_right fun hsplit => ih fun hmem => hname ?_
      exact hsplit ▸ List.mem_cons_of_mem c hmem
    rw [List.map_cons]
    cases e with
    | plain c =>
      rw [piece, hliteral]
      cases name <;> simp [matchesRow, and_assoc]
    | escaped c =>
      rw [piece, hliteral]
      cases name <;> simp [matchesRow, and_assoc]
    | anyOne =>
      cases name with
      | nil =>
        refine ⟨?_, fun h => nomatch h⟩
        rintro ⟨first, rest, hsplit, ⟨c, -, rfl⟩, -⟩
        exact nomatch hsplit
      | cons d rest =>
        rw [List.mem_cons, not_or] at hname
        show _ ↔ matchesRow more rest = true
        rw [← ih hname.2]
        constructor
        · rintro ⟨first, left, hsplit, ⟨c, -, rfl⟩, hleft⟩
          rw [(List.cons.inj hsplit).2]
          exact hleft
        · intro hrest
          exact ⟨[d], rest, rfl, ⟨d, Ne.symm hname.1, rfl⟩, hrest⟩
    | anyRun =>
      rw [matchesRow, List.any_eq_true]
      constructor
      · rintro ⟨run, rest, rfl, -, hrest⟩
        have hslash : '/' ∉ rest := fun hmem => hname (List.mem_append_right run hmem)
        exact ⟨rest, (List.mem_tails _ _).mpr (List.suffix_append run rest), (ih hslash).mp hrest⟩
      · rintro ⟨rest, hrest, hmatch⟩
        obtain ⟨run, rfl⟩ := (List.mem_tails _ _).mp hrest
        refine ⟨run, rest, rfl, fun hmem => hname (List.mem_append_left rest hmem), ?_⟩
        exact (ih fun hmem => hname (List.mem_append_right run hmem)).mpr hmatch

end GlobElement

/-! ### Segments -/

/-- A segment of a line: `**`, `*`, or elements in a row. -/
inductive LineSegment where
  | depths
  | whole
  | row (elements : List GlobElement)
  deriving DecidableEq, Repr

namespace LineSegment

/-- How a segment is written. -/
def text : LineSegment → Text
  | depths => Segment.anyDepthText
  | whole => ['*']
  | row elements => elements.flatMap GlobElement.text

/-- Whether a segment can be written: a row that is made of asterisks only would be read as
something else. -/
def IsWritable : LineSegment → Prop
  | row elements => (∀ e ∈ elements, e.IsWritable) ∧ ∃ e ∈ elements, e ≠ .anyRun
  | _ => True

instance decidableIsWritable : DecidablePred IsWritable
  | row elements => inferInstanceAs
    (Decidable ((∀ e ∈ elements, e.IsWritable) ∧ ∃ e ∈ elements, e ≠ .anyRun))
  | depths => isTrue trivial
  | whole => isTrue trivial

/-- Whether names fit segments: `**` stands for any number of them, and every other segment for one
that it matches as a whole. -/
def fits : List LineSegment → List Text → Bool
  | [], names => names.isEmpty
  | .depths :: more, names => names.tails.any (fits more)
  | _ :: _, [] => false
  | .whole :: more, name :: names => !name.isEmpty && fits more names
  | .row elements :: more, name :: names => GlobElement.matchesRow elements name && fits more names

/-- The segment of a pattern that a segment is read as. -/
def segment : LineSegment → Segment
  | depths => .anyDepth
  | whole => .anyName
  | row elements => .shape (elements.map GlobElement.piece)

theorem segment_eq_anyDepth {s : LineSegment} : s.segment = .anyDepth ↔ s = depths := by
  cases s <;> simp [segment]

theorem IsWritable.isPlain {s : LineSegment} (h : s.IsWritable) : s.segment.IsPlain := by
  cases s with
  | depths => exact trivial
  | whole => exact trivial
  | row elements =>
    intro p hp
    obtain ⟨e, he, rfl⟩ := List.mem_map.mp hp
    exact (h.1 e he).piece_isPlain

theorem IsWritable.isSolid {s : LineSegment} (h : s.IsWritable) : s.segment.IsSolid := by
  refine ⟨h.isPlain, ?_⟩
  cases s with
  | depths => exact fun hfits => nomatch (show ([] : Text) = ['/'] from hfits)
  | whole => exact fun hfits => hfits.1 rfl
  | row elements =>
    intro hfits
    replace hfits : Piece.TakeAll (elements.map GlobElement.piece) [] := hfits
    obtain ⟨-, e, he, hrun⟩ := h
    induction elements with
    | nil => exact nomatch he
    | cons first more ih =>
      obtain ⟨taken, rest, hsplit, htaken, hrest⟩ := hfits
      obtain ⟨rfl, rfl⟩ := List.nil_eq_append_iff.mp hsplit
      rcases List.mem_cons.mp he with rfl | he
      · cases e with
        | plain c => exact nomatch (show ([] : Text) = [c] from htaken)
        | escaped c => exact nomatch (show ([] : Text) = [c] from htaken)
        | anyOne =>
          obtain ⟨c, -, hc⟩ := htaken
          exact nomatch hc
        | anyRun => exact hrun rfl
      · exact ih hrest he

/-- Names fit `**` in front of segments if some of the last ones fit the segments. -/
theorem fits_depths {segments : List LineSegment} {names : List Text} :
    fits (.depths :: segments) names = true ↔
      ∃ passed rest, names = passed ++ rest ∧ fits segments rest = true := by
  rw [fits, List.any_eq_true]
  constructor
  · rintro ⟨rest, hrest, hfits⟩
    obtain ⟨passed, rfl⟩ := (List.mem_tails _ _).mp hrest
    exact ⟨passed, rest, rfl, hfits⟩
  · rintro ⟨passed, rest, rfl, hfits⟩
    exact ⟨rest, (List.mem_tails _ _).mpr (List.suffix_append passed rest), hfits⟩

/-- All names fit `**` alone. -/
theorem fits_depths_alone (names : List Text) : fits [.depths] names = true :=
  fits_depths.mpr ⟨names, [], (List.append_nil names).symm, rfl⟩

/-- The first name fits a segment for one name, and the others the segments behind it. -/
theorem fits_cons {s : LineSegment} (hs : s ≠ depths) {segments : List LineSegment}
    {names : List Text} (hn : ∀ name ∈ names, '/' ∉ name) :
    fits (s :: segments) names = true ↔ ∃ name rest, names = name :: rest ∧
      s.segment.Fits name ∧ fits segments rest = true := by
  cases names with
  | nil => cases s <;> simp [fits] at hs ⊢
  | cons name rest =>
    have hname : '/' ∉ name := hn name List.mem_cons_self
    have hone : fits (s :: segments) (name :: rest) = true ↔
        s.segment.Fits name ∧ fits segments rest = true := by
      cases s with
      | depths => exact absurd rfl hs
      | whole =>
        have hfits : Segment.anyName.Fits name ↔ name ≠ [] := and_iff_left hname
        simp [fits, segment, hfits]
      | row elements =>
        have hfits : (Segment.shape (elements.map GlobElement.piece)).Fits name ↔
            GlobElement.matchesRow elements name = true := GlobElement.takeAll_piece hname
        simp [fits, segment, hfits]
    rw [hone]
    constructor
    · intro h
      exact ⟨name, rest, rfl, h⟩
    · rintro ⟨_, _, hsplit, h⟩
      obtain ⟨rfl, rfl⟩ := List.cons.inj hsplit
      exact h

/-- Whether some of the first names fit segments, and the names that are left are as wanted. -/
def FitsFirst (segments : List LineSegment) (names : List Text) (wanted : List Text → Prop) :
    Prop :=
  ∃ front rest, names = front ++ rest ∧ fits segments front = true ∧ wanted rest

section FitsFirst

variable {segments : List LineSegment} {names : List Text} {wanted : List Text → Prop}

theorem fitsFirst_nil : FitsFirst [] names wanted ↔ wanted names := by
  constructor
  · rintro ⟨front, rest, rfl, hfront, hrest⟩
    rw [List.isEmpty_iff.mp hfront]
    exact hrest
  · intro h
    exact ⟨[], names, rfl, rfl, h⟩

theorem fitsFirst_depths : FitsFirst (.depths :: segments) names wanted ↔
    ∃ passed left, names = passed ++ left ∧ FitsFirst segments left wanted := by
  constructor
  · rintro ⟨_, rest, rfl, hfits, hrest⟩
    obtain ⟨passed, front, rfl, hfront⟩ := fits_depths.mp hfits
    exact ⟨passed, front ++ rest, List.append_assoc .., front, rest, rfl, hfront, hrest⟩
  · rintro ⟨passed, _, rfl, front, rest, rfl, hfront, hrest⟩
    exact ⟨passed ++ front, rest, (List.append_assoc ..).symm,
      fits_depths.mpr ⟨passed, front, rfl, hfront⟩, hrest⟩

theorem fitsFirst_cons {s : LineSegment} (hs : s ≠ depths) (hn : ∀ name ∈ names, '/' ∉ name) :
    FitsFirst (s :: segments) names wanted ↔ ∃ name left, names = name :: left ∧
      s.segment.Fits name ∧ FitsFirst segments left wanted := by
  constructor
  · rintro ⟨_, rest, rfl, hfits, hrest⟩
    obtain ⟨name, front, rfl, hname, hfront⟩ :=
      (fits_cons hs (List.forall_mem_append.mp hn).1).mp hfits
    exact ⟨name, front ++ rest, rfl, hname, front, rest, rfl, hfront, hrest⟩
  · rintro ⟨name, _, rfl, hname, front, rest, rfl, hfront, hrest⟩
    refine ⟨name :: front, rest, rfl, ?_, hrest⟩
    rw [← List.cons_append] at hn
    exact (fits_cons hs (List.forall_mem_append.mp hn).1).mpr ⟨name, front, rfl, hname, hfront⟩

/-- Names fit segments in a row if the first names fit the first segments, and the others the
segments behind them. -/
theorem fits_append {more : List LineSegment} (hn : ∀ name ∈ names, '/' ∉ name) :
    fits (segments ++ more) names = true ↔
      FitsFirst segments names fun rest => fits more rest = true := by
  induction segments generalizing names with
  | nil => rw [List.nil_append, fitsFirst_nil]
  | cons s segments ih =>
    rw [List.cons_append]
    by_cases hs : s = depths
    · subst hs
      rw [fits_depths, fitsFirst_depths]
      apply exists_congr
      intro passed
      apply exists_congr
      intro left
      apply and_congr_right
      rintro rfl
      exact ih (List.forall_mem_append.mp hn).2
    · rw [fits_cons hs hn, fitsFirst_cons hs hn]
      apply exists_congr
      intro name
      apply exists_congr
      intro left
      apply and_congr_right
      rintro rfl
      exact and_congr_right fun _ => ih (List.forall_mem_cons.mp hn).2

/-- **Segments can be laid along names if some of the first names fit them.** Behind a last `**`
something must be left: other names, or what is in a directory. -/
theorem reach_iff {isDirectory : Bool} (hn : ∀ name ∈ names, '/' ∉ name) :
    Segment.Reach (segments.map segment) names isDirectory ↔
      FitsFirst segments names fun rest =>
        segments.getLast? = some depths → rest ≠ [] ∨ isDirectory = true := by
  induction segments generalizing names with
  | nil => exact iff_of_true trivial (fitsFirst_nil.mpr fun h => nomatch h)
  | cons s segments ih =>
    by_cases hs : s = depths
    · subst hs
      rw [fitsFirst_depths]
      cases segments with
      | nil =>
        show (names ≠ [] ∨ isDirectory = true) ↔ _
        constructor
        · intro h
          exact ⟨[], names, rfl, fitsFirst_nil.mpr fun _ => h⟩
        · rintro ⟨passed, left, rfl, hleft⟩
          exact (fitsFirst_nil.mp hleft rfl).imp_left fun h => by simp [h]
      | cons next more =>
        rw [List.map_cons, show depths.segment = .anyDepth from rfl,
          Segment.reach_anyDepth (by simp), List.getLast?_cons_cons]
        apply exists_congr
        intro passed
        apply exists_congr
        intro left
        apply and_congr_right
        rintro rfl
        exact ih (List.forall_mem_append.mp hn).2
    · have hsegment : s.segment ≠ .anyDepth := fun h => hs (segment_eq_anyDepth.mp h)
      have hend : (s :: segments).getLast? = some depths ↔ segments.getLast? = some depths := by
        cases segments with
        | nil => simp [hs]
        | cons next more => rw [List.getLast?_cons_cons]
      rw [List.map_cons, Segment.reach_cons hsegment, fitsFirst_cons hs hn, hend]
      apply exists_congr
      intro name
      apply exists_congr
      intro left
      apply and_congr_right
      rintro rfl
      exact and_congr_right fun _ => ih (List.forall_mem_cons.mp hn).2

end FitsFirst

/-! ### `**` repeatedly -/

/-- Segments with one of neighbouring `**`. -/
def merge : List LineSegment → List LineSegment
  | [] => []
  | [last] => [last]
  | s :: next :: rest =>
    if s = depths ∧ next = depths then merge (next :: rest) else s :: merge (next :: rest)

theorem mem_merge {s : LineSegment} {segments : List LineSegment} :
    s ∈ merge segments ↔ s ∈ segments := by
  fun_induction merge segments with
  | case1 => exact Iff.rfl
  | case2 last => exact Iff.rfl
  | case3 first next rest h ih =>
    rw [ih, h.1, h.2]
    simp
  | case4 first next rest _ ih => rw [List.mem_cons, ih, List.mem_cons (b := first)]

theorem head?_merge (segments : List LineSegment) : (merge segments).head? = segments.head? := by
  fun_induction merge segments with
  | case1 => rfl
  | case2 last => rfl
  | case3 first next rest h ih => rw [ih, h.1, h.2]; rfl
  | case4 first next rest _ _ => rfl

theorem merge_ne_nil {segments : List LineSegment} (h : segments ≠ []) : merge segments ≠ [] := by
  intro he
  have hhead := head?_merge segments
  rw [he] at hhead
  exact h (List.head?_eq_none_iff.mp hhead.symm)

/-- Merged segments do not begin with `**` twice. -/
theorem merge_ne_twice (segments rest : List LineSegment) :
    merge segments ≠ depths :: depths :: rest := by
  fun_induction merge segments with
  | case1 => simp
  | case2 last => simp
  | case3 first next more _ ih => exact ih
  | case4 first next more hnot _ =>
    intro h
    obtain ⟨hfirst, hmore⟩ := List.cons.inj h
    have hnext := head?_merge (next :: more)
    rw [hmore] at hnext
    exact hnot ⟨hfirst, (Option.some.inj hnext).symm⟩

/-- Merging does not change what segments can be laid along. -/
theorem reach_merge {segments : List LineSegment} {isDirectory : Bool} (names : List Text) :
    Segment.Reach ((merge segments).map segment) names isDirectory ↔
      Segment.Reach (segments.map segment) names isDirectory := by
  fun_induction merge segments generalizing names with
  | case1 => exact Iff.rfl
  | case2 last => exact Iff.rfl
  | case3 first next rest h ih =>
    obtain ⟨rfl, rfl⟩ := h
    rw [ih]
    exact Segment.reach_twice.symm
  | case4 first next rest _ ih =>
    exact Segment.reach_congr (by simpa using merge_ne_nil (List.cons_ne_nil next rest))
      (by simp) ih names

end LineSegment

/-! ### Lines -/

/-- A line: whether it has an exclamation mark and a slash in front, its segments, and whether it
has a slash at its end. -/
structure GlobLine where
  negated : Bool
  anchored : Bool
  segments : List LineSegment
  directory : Bool
  deriving DecidableEq, Repr

namespace GlobLine

/-- The line behind the marks in front. -/
def body (l : GlobLine) : Text :=
  Text.joinWith '/' (l.segments.map LineSegment.text) ++ if l.directory then ['/'] else []

/-- How a line is written. -/
def text (l : GlobLine) : Text :=
  (if l.negated then ['!'] else []) ++ ((if l.anchored then ['/'] else []) ++ l.body)

/-- Whether a line can be written, and is read as a pattern: some segment names something, nothing
else is taken as an exclamation mark, and the line is neither a comment nor has it blanks at its
ends. -/
structure IsWellFormed (l : GlobLine) : Prop where
  writable : ∀ s ∈ l.segments, s.IsWritable
  named : ∃ s ∈ l.segments, s ≠ .depths
  mark : l.negated = false → l.anchored = false → l.body.head? ≠ some '!'
  start : ∀ c ∈ l.text.head?, Text.isBlank c = false ∧ c ≠ '#'
  ending : ∀ c ∈ l.text.getLast?, Text.isBlank c = false

theorem isWellFormed_iff {l : GlobLine} : l.IsWellFormed ↔
    (∀ s ∈ l.segments, s.IsWritable) ∧ (∃ s ∈ l.segments, s ≠ .depths) ∧
      (l.negated = false → l.anchored = false → l.body.head? ≠ some '!') ∧
        l.text.head?.all (fun c => !Text.isBlank c && c != '#') = true ∧
          l.text.getLast?.all (fun c => !Text.isBlank c) = true := by
  simp only [Option.all_eq_true, Bool.and_eq_true, Bool.not_eq_true', bne_iff_ne]
  constructor
  · intro h
    exact ⟨h.writable, h.named, h.mark, h.start, h.ending⟩
  · intro h
    exact ⟨h.1, h.2.1, h.2.2.1, h.2.2.2.1, h.2.2.2.2⟩

instance decidableIsWellFormed (l : GlobLine) : Decidable l.IsWellFormed :=
  decidable_of_iff _ isWellFormed_iff.symm

/-- The segments that names must fit: those of a line that is not anchored may begin anywhere. -/
def rows (l : GlobLine) : List LineSegment :=
  if l.anchored then l.segments else .depths :: l.segments

/-- Whether a line is about what lies in directories: about the directories themselves, but not
about files that stand in their place. -/
def IsForDirectories (l : GlobLine) : Prop :=
  l.directory = true ∨ l.segments.getLast? = some .depths

instance decidableIsForDirectories (l : GlobLine) : Decidable l.IsForDirectories :=
  inferInstanceAs (Decidable (l.directory = true ∨ l.segments.getLast? = some .depths))

/-- Whether a line covers the path with the given names: some of the first names fit its segments,
and if the line is for directories, these names lead to one. -/
def Covers (l : GlobLine) (names : List Text) (isDirectory : Bool) : Prop :=
  ∃ k ≤ names.length, LineSegment.fits l.rows (names.take k) = true ∧
    (l.IsForDirectories → k < names.length ∨ isDirectory = true)

instance decidableCovers (l : GlobLine) (names : List Text) (isDirectory : Bool) :
    Decidable (l.Covers names isDirectory) :=
  inferInstanceAs (Decidable (∃ k ≤ names.length, _ ∧ _))

/-- The segments that a line is laid out as. -/
def laid (l : GlobLine) : List LineSegment :=
  l.rows ++ if l.directory then [.depths] else []

variable {l : GlobLine} {names : List Text} {isDirectory : Bool}

theorem covers_iff : l.Covers names isDirectory ↔
    LineSegment.FitsFirst l.rows names fun rest =>
      l.IsForDirectories → rest ≠ [] ∨ isDirectory = true := by
  constructor
  · rintro ⟨k, -, hfits, hbelow⟩
    refine ⟨names.take k, names.drop k, (List.take_append_drop k names).symm, hfits, fun h => ?_⟩
    refine (hbelow h).imp_left fun hlong hnone => ?_
    have hlength := List.drop_eq_nil_iff.mp hnone
    omega
  · rintro ⟨front, rest, rfl, hfits, hbelow⟩
    refine ⟨front.length, by simp, by rwa [List.take_left], fun h => ?_⟩
    refine (hbelow h).imp_left fun hrest => ?_
    have hpos := List.length_pos_of_ne_nil hrest
    rw [List.length_append]
    omega

theorem IsWellFormed.ne_nil (h : l.IsWellFormed) : l.segments ≠ [] := by
  obtain ⟨s, hs, -⟩ := h.named
  exact List.ne_nil_of_mem hs

theorem rows_getLast? (hne : l.segments ≠ []) : l.rows.getLast? = l.segments.getLast? := by
  obtain ⟨s, more, hs⟩ := List.exists_cons_of_ne_nil hne
  rw [rows, hs]
  split
  · rfl
  · rw [List.getLast?_cons_cons]

/-- **A line covers what its segments can be laid along.** -/
theorem reach_laid (hne : l.segments ≠ []) (hn : ∀ name ∈ names, '/' ∉ name) :
    Segment.Reach ((LineSegment.merge l.laid).map LineSegment.segment) names isDirectory ↔
      l.Covers names isDirectory := by
  rw [LineSegment.reach_merge, LineSegment.reach_iff hn, covers_iff]
  by_cases hdirectory : l.directory = true
  · have hlaid : l.laid = l.rows ++ [.depths] := by rw [laid, if_pos hdirectory]
    rw [hlaid]
    constructor
    · rintro ⟨above, rest, rfl, hfits, hlast⟩
      obtain ⟨front, passed, rfl, hfront, -⟩ :=
        (LineSegment.fits_append (List.forall_mem_append.mp hn).1).mp hfits
      refine ⟨front, passed ++ rest, List.append_assoc .., hfront, fun _ => ?_⟩
      exact (hlast List.getLast?_concat).imp_left fun hrest => by simp [hrest]
    · rintro ⟨front, rest, rfl, hfront, hbelow⟩
      refine ⟨front, rest, rfl, ?_, fun _ => hbelow (Or.inl hdirectory)⟩
      exact (LineSegment.fits_append (List.forall_mem_append.mp hn).1).mpr
        ⟨front, [], (List.append_nil front).symm, hfront, LineSegment.fits_depths_alone []⟩
  · have hlaid : l.laid = l.rows := by rw [laid, if_neg hdirectory, List.append_nil]
    have hfor : l.IsForDirectories ↔ l.rows.getLast? = some .depths := by
      rw [rows_getLast? hne]
      exact or_iff_right hdirectory
    rw [hlaid, hfor]

end GlobLine

end TreeSieve

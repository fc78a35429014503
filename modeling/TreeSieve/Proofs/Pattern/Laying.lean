import TreeSieve.Proofs.Rule.Cover

/-!
# Segments laid along a path

What the expression of a pattern finds in the text of a path is found name by name: each segment is
laid on one name, and `**` on any number of them.

* `Path.behind` is the text behind a name of a path; `Path.exists_of_behind` cuts it at a slash, and
  `Path.exists_of_asked` the text of a whole path.
* `GlobPart.TakeFrom` says that parts in a row take something of a text from its start.
* `Segment.Reach` says that segments can be laid along the first names of a path; its cases are
  those of the parts that segments are laid out as.
* `Glob.findsBehind` follows these cases, by induction on the segments, with a lemma for each of
  them, and `Glob.matches_asked` concludes for whole patterns.
-/

namespace TreeSieve

/-! ### The text behind a name -/

namespace Path

/-- The text of a path behind a name, if the path goes on with the given names. -/
def behind : List Text → Bool → Text
  | [], isDirectory => if isDirectory then ['/'] else []
  | name :: names, isDirectory => '/' :: (name ++ behind names isDirectory)

theorem behind_append (names more : List Text) (isDirectory : Bool) :
    behind (names ++ more) isDirectory = trail names ++ behind more isDirectory := by
  induction names with
  | nil => rfl
  | cons name rest ih =>
    rw [List.cons_append, behind, ih, trail_cons]
    simp

theorem asked_cons (name : Text) (names : List Text) (isDirectory : Bool) :
    Rule.asked (name :: names) isDirectory = name ++ behind names isDirectory := by
  induction names generalizing name with
  | nil =>
    cases isDirectory with
    | false => simp [Rule.asked, behind, Text.joinWith]
    | true => simp [Rule.asked, behind]
  | cons next rest ih =>
    have hone : Rule.asked ([name] ++ next :: rest) isDirectory
        = reach [name] ++ Rule.asked (next :: rest) isDirectory :=
      Rule.asked_append (List.cons_ne_nil next rest) isDirectory
    rw [ih next] at hone
    rw [show name :: next :: rest = [name] ++ next :: rest from rfl, hone, behind]
    simp

/-- The text of a path behind a name is empty, if the path is that name and no directory, or begins
with a slash. -/
theorem behind_cases (names : List Text) (isDirectory : Bool) :
    (names = [] ∧ isDirectory = false ∧ behind names isDirectory = []) ∨
      ∃ rest, behind names isDirectory = '/' :: rest := by
  cases names with
  | nil =>
    cases isDirectory with
    | false => exact .inl ⟨rfl, rfl, rfl⟩
    | true => exact .inr ⟨[], rfl⟩
  | cons name rest => exact .inr ⟨_, rfl⟩

theorem exists_behind_iff {names : List Text} {isDirectory : Bool} :
    (∃ rest, behind names isDirectory = '/' :: rest) ↔ names ≠ [] ∨ isDirectory = true := by
  cases names with
  | nil => cases isDirectory <;> simp [behind]
  | cons name rest => simp [behind]

theorem slash_mem_behind {names : List Text} {isDirectory : Bool} :
    '/' ∈ behind names isDirectory ↔ names ≠ [] ∨ isDirectory = true := by
  cases names with
  | nil => cases isDirectory <;> simp [behind]
  | cons name rest => simp [behind]

/-- A slash behind a name is that in front of another name, or the last one. -/
theorem exists_of_behind {names : List Text} (hn : ∀ name ∈ names, '/' ∉ name)
    {isDirectory : Bool} {front rest : Text}
    (h : behind names isDirectory = front ++ '/' :: rest) :
    ∃ passed left, names = passed ++ left ∧ behind left isDirectory = '/' :: rest := by
  induction names generalizing front with
  | nil =>
    refine ⟨[], [], rfl, ?_⟩
    cases isDirectory with
    | false => simp [behind] at h
    | true =>
      have hone : front ++ '/' :: rest = [] ++ '/' :: [] := h.symm
      have hfront : '/' ∉ front := by
        intro hmem
        have hlength := congrArg List.length h
        have hpos := List.length_pos_of_mem hmem
        simp [behind] at hlength
        omega
      rw [(eq_of_append_slash hfront List.not_mem_nil hone).2]
      rfl
  | cons name names ih =>
    cases front with
    | nil => exact ⟨[], name :: names, rfl, h⟩
    | cons c front =>
      have hname : '/' ∉ name := hn name List.mem_cons_self
      have hcut : name ++ behind names isDirectory = front ++ '/' :: rest := (List.cons.inj h).2
      have hlater : ∃ more, behind names isDirectory = more ++ '/' :: rest := by
        rcases List.append_eq_append_iff.mp hcut with ⟨more, -, hmore⟩ | ⟨more, hmore, hrest⟩
        · exact ⟨more, hmore⟩
        · cases more with
          | nil => exact ⟨[], hrest.symm⟩
          | cons d more =>
            refine absurd ?_ hname
            rw [hmore, (List.cons.inj hrest).1]
            simp
      obtain ⟨more, hmore⟩ := hlater
      obtain ⟨passed, left, hsplit, hleft⟩ :=
        ih (List.forall_mem_cons.mp hn).2 hmore
      exact ⟨name :: passed, left, by rw [hsplit, List.cons_append], hleft⟩

theorem slash_reach (names : List Text) : '/' :: reach names = trail names ++ ['/'] := by
  induction names with
  | nil => rfl
  | cons name rest ih => rw [reach_cons, ih, trail_cons, List.cons_append, List.append_assoc]

/-- A slash in the text of a path stands behind the names of a directory on the way, or of the path
itself. -/
theorem exists_of_asked {names : List Text} (hn : ∀ name ∈ names, '/' ∉ name) (hne : names ≠ [])
    {isDirectory : Bool} {above below : Text}
    (h : Rule.asked names isDirectory = above ++ '/' :: below) :
    ∃ passed left, names = passed ++ left ∧ passed ≠ [] ∧ reach passed = above ++ ['/'] ∧
      behind left isDirectory = '/' :: below := by
  -- with a slash in front, the text is that behind a name
  have hbehind : behind names isDirectory = ('/' :: above) ++ '/' :: below := by
    obtain ⟨name, rest, rfl⟩ := List.exists_cons_of_ne_nil hne
    rw [behind, ← asked_cons, h, List.cons_append]
  obtain ⟨passed, left, rfl, hleft⟩ := exists_of_behind hn hbehind
  rw [behind_append, hleft] at hbehind
  have htrail : trail passed = '/' :: above := List.append_cancel_right hbehind
  refine ⟨passed, left, rfl, ?_, ?_, hleft⟩
  · rintro rfl
    exact nomatch htrail
  · have hreach := slash_reach passed
    rw [htrail, List.cons_append] at hreach
    exact (List.cons.inj hreach).2

/-- A name of one line. -/
structure IsLineName (name : Text) : Prop where
  ne_nil : name ≠ []
  slash : '/' ∉ name
  lineFeed : '\n' ∉ name

/-- If something without slashes is taken where a name begins, and a slash or the last end of a line
follows, then the name has been taken. -/
theorem eq_of_behind {name : Text} (hname : IsLineName name) {names : List Text}
    {isDirectory : Bool} {taken rest : Text} (ht : '/' ∉ taken)
    (h : name ++ behind names isDirectory = taken ++ rest)
    (hrest : (∃ more, rest = '/' :: more) ∨ AtLastLineEnd rest) :
    taken = name ∧ rest = behind names isDirectory := by
  rcases behind_cases names isDirectory with ⟨-, -, hb⟩ | ⟨more, hmore⟩
  · rw [hb, List.append_nil] at h
    rcases hrest with ⟨more, rfl⟩ | rfl | rfl
    · refine absurd ?_ hname.slash
      rw [h]
      simp
    · rw [hb, h, List.append_nil]
      exact ⟨rfl, rfl⟩
    · refine absurd ?_ hname.lineFeed
      rw [h]
      simp
  · have hslash : ∃ other, rest = '/' :: other := by
      rcases hrest with hrest | hend
      · exact hrest
      · -- the slash behind the name would have been taken
        exfalso
        have hmem : '/' ∈ taken ++ rest := by
          rw [← h, hmore]
          simp
        rcases List.mem_append.mp hmem with hmem | hmem
        · exact ht hmem
        · rcases hend with rfl | rfl <;> simp at hmem
    obtain ⟨other, rfl⟩ := hslash
    rw [hmore] at h ⊢
    obtain ⟨hsame, hbehind⟩ := eq_of_append_slash hname.slash ht h
    exact ⟨hsame.symm, by rw [hbehind]⟩

/-- The trail of names without line feeds is empty, or a slash and a text without line feeds. -/
theorem trail_cases {names : List Text} (hn : ∀ name ∈ names, IsLineName name) :
    trail names = [] ∨ ∃ above, above ≠ [] ∧ '\n' ∉ above ∧ trail names = '/' :: above := by
  cases names with
  | nil => exact .inl rfl
  | cons name rest =>
    have hname := hn name List.mem_cons_self
    refine .inr ⟨name ++ trail rest, by simp [hname.ne_nil], ?_, trail_cons name rest⟩
    rw [List.mem_append, not_or]
    refine ⟨hname.lineFeed, fun hmem => ?_⟩
    obtain ⟨other, hother, hin⟩ := List.mem_flatMap.mp hmem
    have hline := (hn other (List.mem_cons_of_mem name hother)).lineFeed
    rcases List.mem_cons.mp hin with hin | hin
    · exact absurd hin (by decide)
    · exact hline hin

/-- Names without line feeds, with a slash behind each, are no text, or a text without line feeds
and a slash. -/
theorem reach_cases {names : List Text} (hn : ∀ name ∈ names, IsLineName name) :
    reach names = [] ∨ ∃ above, above ≠ [] ∧ '\n' ∉ above ∧ reach names = above ++ ['/'] := by
  rcases List.eq_nil_or_concat names with rfl | ⟨before, last, rfl⟩
  · exact .inl rfl
  · rw [List.concat_eq_append] at hn ⊢
    have hlast := hn last (by simp)
    refine .inr ⟨reach before ++ last, by simp [hlast.ne_nil], ?_, by simp [reach_append]⟩
    rw [List.mem_append, not_or]
    refine ⟨fun hmem => ?_, hlast.lineFeed⟩
    obtain ⟨other, hother, hin⟩ := List.mem_flatMap.mp hmem
    have hline := (hn other (by simp [hother])).lineFeed
    rcases List.mem_append.mp hin with hin | hin
    · exact hline hin
    · exact absurd (List.mem_singleton.mp hin) (by decide)

end Path

/-! ### Taking from the start of a text -/

namespace GlobPart

/-- Parts in a row that take something of a text from its start. -/
def TakeFrom (parts : List GlobPart) (before text : Text) : Prop :=
  ∃ taken after, text = taken ++ after ∧ TakeAll parts before taken after

theorem takeFrom_nil (before text : Text) : TakeFrom [] before text := ⟨[], text, rfl, rfl⟩

theorem takeFrom_append {parts more : List GlobPart} {before text : Text} :
    TakeFrom (parts ++ more) before text ↔ ∃ front rest, text = front ++ rest ∧
      TakeAll parts before front rest ∧ TakeFrom more (front.reverse ++ before) rest := by
  constructor
  · rintro ⟨taken, after, rfl, htaken⟩
    obtain ⟨front, back, rfl, hfront, hback⟩ := takeAll_append.mp htaken
    exact ⟨front, back ++ after, List.append_assoc .., hfront, back, after, rfl, hback⟩
  · rintro ⟨front, _, rfl, hfront, back, after, rfl, hback⟩
    exact ⟨front ++ back, after, (List.append_assoc ..).symm,
      takeAll_append.mpr ⟨front, back, rfl, hfront, hback⟩⟩

theorem takeFrom_cons {part : GlobPart} {parts : List GlobPart} {before text : Text} :
    TakeFrom (part :: parts) before text ↔ ∃ first rest, text = first ++ rest ∧
      part.Takes before first rest ∧ TakeFrom parts (first.reverse ++ before) rest := by
  constructor
  · rintro ⟨_, after, rfl, first, back, rfl, hfirst, hback⟩
    exact ⟨first, back ++ after, List.append_assoc .., hfirst, back, after, rfl, hback⟩
  · rintro ⟨first, _, rfl, hfirst, back, after, rfl, hback⟩
    exact ⟨first ++ back, after, (List.append_assoc ..).symm, first, back, rfl, hfirst, hback⟩

theorem takeFrom_slash {parts : List GlobPart} {before text : Text} :
    TakeFrom (.slash :: parts) before text ↔
      ∃ rest, text = '/' :: rest ∧ TakeFrom parts ('/' :: before) rest := by
  rw [takeFrom_cons]
  constructor
  · rintro ⟨_, rest, rfl, rfl, hrest⟩
    exact ⟨rest, rfl, hrest⟩
  · rintro ⟨rest, rfl, hrest⟩
    exact ⟨['/'], rest, rfl, rfl, hrest⟩

/-- The parts of a segment take what the segment fits. -/
theorem takeFrom_segment {s : Segment} {parts : List GlobPart} {before text : Text} :
    TakeFrom (s.parts ++ parts) before text ↔ ∃ front rest, text = front ++ rest ∧
      s.Fits front ∧ TakeFrom parts (front.reverse ++ before) rest := by
  rw [takeFrom_append]
  simp only [Segment.takeAll_parts]

/-- If segments behind a name take something of a text then the text begins with a slash. -/
theorem TakeFrom.slash {kind : GlobKind} {segments : List Segment} (hne : segments ≠ [])
    {before text : Text} (h : TakeFrom (Glob.partsAfter kind true segments) before text) :
    ∃ more, text = '/' :: more := by
  obtain ⟨taken, after, rfl, htaken⟩ := h
  obtain ⟨more, rfl⟩ := Glob.slash_of_takeAll hne htaken
  exact ⟨more ++ after, rfl⟩

end GlobPart

/-! ### Segments along names -/

namespace Segment

/-- Segments that can be laid along the first names of a path, one on each and `**` on any number of
them. `**` at the end needs something below: names that are left, or a directory. -/
def Reach : List Segment → List Text → Bool → Prop
  | [], _, _ => True
  | [.anyDepth], names, isDirectory => names ≠ [] ∨ isDirectory = true
  | .anyDepth :: segments, names, isDirectory =>
    ∃ passed left, names = passed ++ left ∧ Reach segments left isDirectory
  | s :: segments, names, isDirectory =>
    ∃ name left, names = name :: left ∧ s.Fits name ∧ Reach segments left isDirectory

theorem reach_anyDepth {segments : List Segment} (hne : segments ≠ []) {names : List Text}
    {isDirectory : Bool} : Reach (.anyDepth :: segments) names isDirectory ↔
      ∃ passed left, names = passed ++ left ∧ Reach segments left isDirectory := by
  rw [Reach]
  exact hne

theorem reach_cons {s : Segment} (hs : s ≠ .anyDepth) {segments : List Segment}
    {names : List Text} {isDirectory : Bool} : Reach (s :: segments) names isDirectory ↔
      ∃ name left, names = name :: left ∧ s.Fits name ∧ Reach segments left isDirectory := by
  rw [Reach]
  · exact fun h _ => hs h
  · exact hs

/-- If two rows of segments can be laid along the same names then so can they behind one more
segment. -/
theorem reach_congr {s : Segment} {segments other : List Segment} {isDirectory : Bool}
    (hne : segments ≠ []) (ho : other ≠ [])
    (h : ∀ names, Reach segments names isDirectory ↔ Reach other names isDirectory)
    (names : List Text) :
    Reach (s :: segments) names isDirectory ↔ Reach (s :: other) names isDirectory := by
  by_cases hs : s = .anyDepth
  · subst hs
    rw [reach_anyDepth hne, reach_anyDepth ho]
    simp only [h]
  · rw [reach_cons hs, reach_cons hs]
    simp only [h]

/-- Two neighbouring `**` can be laid along the same names as one. -/
theorem reach_twice {segments : List Segment} {names : List Text} {isDirectory : Bool} :
    Reach (.anyDepth :: .anyDepth :: segments) names isDirectory ↔
      Reach (.anyDepth :: segments) names isDirectory := by
  rw [reach_anyDepth (List.cons_ne_nil _ _)]
  constructor
  · rintro ⟨passed, left, rfl, hleft⟩
    rcases eq_or_ne segments [] with rfl | hne
    · exact hleft.imp_left fun h => by simp [h]
    · rw [reach_anyDepth hne] at hleft ⊢
      obtain ⟨more, rest, rfl, hrest⟩ := hleft
      exact ⟨passed ++ more, rest, (List.append_assoc ..).symm, hrest⟩
  · intro h
    exact ⟨[], names, rfl, h⟩

/-- A segment that holds no slash and does not fit the empty text. -/
structure IsSolid (s : Segment) : Prop where
  plain : s.IsPlain
  fits : ¬s.Fits []

end Segment

namespace Glob

variable {names : List Text} {isDirectory : Bool}

/-- Whether segments behind a name find, in the text behind it, what they can be laid along. -/
def FindsBehind (segments : List Segment) (isDirectory : Bool) : Prop :=
  ∀ names : List Text, (∀ name ∈ names, Path.IsLineName name) → ∀ before : Text,
    GlobPart.TakeFrom (partsAfter .ignoring true segments) before (Path.behind names isDirectory) ↔
      Segment.Reach segments names isDirectory

/-- A segment that stands first takes the first name, and the segments behind it what stands behind
that name. -/
theorem takeFrom_name {s : Segment} (hs : s ≠ .anyDepth) (hsolid : s.IsSolid)
    {segments : List Segment} (hrest : segments ≠ [] → FindsBehind segments isDirectory)
    {name : Text} (hname : Path.IsLineName name) (hn : ∀ name ∈ names, Path.IsLineName name)
    (before : Text) :
    GlobPart.TakeFrom (partsAfter .ignoring false (s :: segments)) before
        (name ++ Path.behind names isDirectory) ↔
      s.Fits name ∧ Segment.Reach segments names isDirectory := by
  have hslash : ∀ {taken : Text}, s.Fits taken → '/' ∉ taken :=
    fun h => h.slash_not_mem hsolid.plain hs
  rcases eq_or_ne segments [] with rfl | hne
  · rw [partsAfter_single hs, if_neg Bool.false_ne_true, List.nil_append,
      GlobPart.takeFrom_segment]
    constructor
    · rintro ⟨taken, rest, hsplit, hfits, htake⟩
      obtain ⟨ending, after, rfl, hending, -⟩ := GlobPart.takeFrom_cons.mp htake
      have hat : (∃ more, ending ++ after = '/' :: more) ∨ AtLastLineEnd (ending ++ after) := by
        rcases hending with rfl | ⟨rfl, hend⟩
        · exact .inl ⟨after, rfl⟩
        · exact .inr hend
      obtain ⟨rfl, -⟩ := Path.eq_of_behind hname (hslash hfits) hsplit hat
      exact ⟨hfits, trivial⟩
    · rintro ⟨hfits, -⟩
      refine ⟨name, _, rfl, hfits, GlobPart.takeFrom_cons.mpr ?_⟩
      rcases Path.behind_cases names isDirectory with ⟨-, -, hb⟩ | ⟨more, hmore⟩
      · exact ⟨[], [], hb, .inr ⟨rfl, .inl rfl⟩, GlobPart.takeFrom_nil _ _⟩
      · exact ⟨['/'], more, hmore, .inl rfl, GlobPart.takeFrom_nil _ _⟩
  · rw [partsAfter_cons hs hne, if_neg Bool.false_ne_true, List.nil_append,
      GlobPart.takeFrom_segment]
    constructor
    · rintro ⟨taken, rest, hsplit, hfits, htake⟩
      obtain ⟨rfl, rfl⟩ :=
        Path.eq_of_behind hname (hslash hfits) hsplit (.inl (htake.slash hne))
      exact ⟨hfits, (hrest hne names hn _).mp htake⟩
    · rintro ⟨hfits, hreach⟩
      exact ⟨name, _, rfl, hfits, (hrest hne names hn _).mpr hreach⟩

/-- Segments that begin with a solid one take nothing of an empty text. -/
theorem not_takeFrom_nil {s : Segment} (hs : s ≠ .anyDepth) (hsolid : s.IsSolid)
    (segments : List Segment) (before : Text) :
    ¬GlobPart.TakeFrom (partsAfter .ignoring false (s :: segments)) before [] := by
  have hfirst : ∃ parts, partsAfter .ignoring false (s :: segments) = s.parts ++ parts := by
    rcases eq_or_ne segments [] with rfl | hne
    · exact ⟨_, partsAfter_single hs⟩
    · exact ⟨_, partsAfter_cons hs hne⟩
  obtain ⟨parts, hparts⟩ := hfirst
  intro h
  rw [hparts, GlobPart.takeFrom_segment] at h
  obtain ⟨taken, rest, hsplit, hfits, -⟩ := h
  rw [(List.nil_eq_append_iff.mp hsplit).1] at hfits
  exact hsolid.fits hfits

/-- `**` alone, behind a name, finds a slash exactly where it can be laid: if names are left, or the
path is a directory. -/
theorem findsBehind_anyDepth : FindsBehind [.anyDepth] isDirectory := by
  intro names _ before
  show GlobPart.TakeFrom [.slash] before _ ↔ names ≠ [] ∨ isDirectory = true
  rw [GlobPart.takeFrom_slash, ← Path.exists_behind_iff]
  apply exists_congr
  intro rest
  exact and_iff_left (GlobPart.takeFrom_nil _ _)

/-- If segments find behind a name what they can be laid along then so do they with `**` in front.
-/
theorem FindsBehind.parents {segments : List Segment} (hne : segments ≠ [])
    (h : FindsBehind segments isDirectory) : FindsBehind (.anyDepth :: segments) isDirectory := by
  intro names hn before
  rw [partsAfter_anyDepth hne, GlobPart.takeFrom_cons, Segment.reach_anyDepth hne]
  constructor
  · rintro ⟨first, rest, hsplit, hfirst, htake⟩
    rcases hfirst with rfl | ⟨above, -, -, rfl⟩
    · rw [List.nil_append] at hsplit
      subst hsplit
      exact ⟨[], names, rfl, (h names hn _).mp htake⟩
    · obtain ⟨more, rfl⟩ := htake.slash hne
      obtain ⟨passed, left, rfl, hleft⟩ :=
        Path.exists_of_behind (fun name hname => (hn name hname).slash) hsplit
      rw [← hleft] at htake
      refine ⟨passed, left, rfl, (h left ?_ _).mp htake⟩
      exact (List.forall_mem_append.mp hn).2
  · rintro ⟨passed, left, rfl, hreach⟩
    refine ⟨Path.trail passed, _, Path.behind_append passed left isDirectory,
      Path.trail_cases (List.forall_mem_append.mp hn).1, ?_⟩
    exact (h left (List.forall_mem_append.mp hn).2 _).mpr hreach

/-- If segments find behind a name what they can be laid along then so do they with a segment for
one name in front. -/
theorem FindsBehind.name {s : Segment} (hs : s ≠ .anyDepth) (hsolid : s.IsSolid)
    {segments : List Segment} (h : segments ≠ [] → FindsBehind segments isDirectory) :
    FindsBehind (s :: segments) isDirectory := by
  intro names hn before
  rw [partsAfter_true hs, GlobPart.takeFrom_slash, Segment.reach_cons hs]
  have hnext : ∀ {name left}, names = name :: left → ∀ before,
      GlobPart.TakeFrom (partsAfter .ignoring false (s :: segments)) before
        (name ++ Path.behind left isDirectory) ↔
      s.Fits name ∧ Segment.Reach segments left isDirectory := by
    rintro name left rfl
    exact takeFrom_name hs hsolid h (hn name List.mem_cons_self)
      (List.forall_mem_cons.mp hn).2
  constructor
  · rintro ⟨rest, hbehind, htake⟩
    cases names with
    | nil =>
      cases isDirectory with
      | false => exact nomatch hbehind
      | true =>
        rw [← (List.cons.inj hbehind).2] at htake
        exact absurd htake (not_takeFrom_nil hs hsolid segments _)
    | cons name left =>
      rw [← (List.cons.inj hbehind).2] at htake
      exact ⟨name, left, rfl, (hnext rfl _).mp htake⟩
  · rintro ⟨name, left, rfl, hfits, hreach⟩
    exact ⟨_, rfl, (hnext rfl _).mpr ⟨hfits, hreach⟩⟩

/-- **Segments behind a name find what they can be laid along.** The text behind the name is that of
the names which the path goes on with. -/
theorem findsBehind {segments : List Segment} (hne : segments ≠ [])
    (hsolid : ∀ s ∈ segments, s ≠ .anyDepth → s.IsSolid) : FindsBehind segments isDirectory := by
  induction segments with
  | nil => exact absurd rfl hne
  | cons s segments ih =>
    have hmore : segments ≠ [] → FindsBehind segments isDirectory :=
      fun hsegs => ih hsegs fun q hq => hsolid q (List.mem_cons_of_mem s hq)
    by_cases hs : s = .anyDepth
    · subst hs
      rcases eq_or_ne segments [] with rfl | hsegs
      · exact findsBehind_anyDepth
      · exact (hmore hsegs).parents hsegs
    · exact FindsBehind.name hs (hsolid s List.mem_cons_self hs) hmore

/-! ### Whole patterns -/

/-- A pattern matches a text if its parts take something from some place of the text on. -/
theorem matches_iff {kind : GlobKind} {g : Glob} {t : Text} :
    g.Matches kind t ↔
      ∃ front rest, t = front ++ rest ∧ GlobPart.TakeFrom (g.parts kind) front.reverse rest := by
  constructor
  · rintro ⟨front, taken, after, rfl, htaken⟩
    exact ⟨front, taken ++ after, rfl, taken, after, rfl, htaken⟩
  · rintro ⟨front, _, rfl, taken, after, rfl, htaken⟩
    exact ⟨front, taken, after, rfl, htaken⟩

theorem matches_of_start {kind : GlobKind} {g : Glob} {parts : List GlobPart}
    (h : g.parts kind = .start :: parts) {t : Text} :
    g.Matches kind t ↔ GlobPart.TakeFrom parts [] t := by
  rw [matches_iff, h]
  simp only [GlobPart.takeFrom_cons]
  constructor
  · rintro ⟨front, rest, rfl, _, _, rfl, ⟨hfront, rfl⟩, htake⟩
    rw [List.reverse_eq_nil_iff.mp hfront] at htake ⊢
    exact htake
  · intro htake
    exact ⟨[], t, rfl, [], t, rfl, ⟨rfl, rfl⟩, htake⟩

theorem matches_of_parents {kind : GlobKind} {g : Glob} {parts : List GlobPart}
    (h : g.parts kind = .parentsFromStart :: parts) {t : Text} :
    g.Matches kind t ↔ ∃ above rest, t = above ++ rest ∧
      GlobPart.parentsFromStart.Takes [] above rest ∧
      GlobPart.TakeFrom parts above.reverse rest := by
  rw [matches_iff, h]
  simp only [GlobPart.takeFrom_cons]
  constructor
  · rintro ⟨front, rest, rfl, above, after, rfl, ⟨hfront, habove⟩, htake⟩
    rw [List.reverse_eq_nil_iff.mp hfront] at htake ⊢
    rw [List.reverse_nil, List.append_nil] at htake
    exact ⟨above, after, rfl, ⟨rfl, habove⟩, htake⟩
  · rintro ⟨above, rest, rfl, habove, htake⟩
    exact ⟨[], _, rfl, above, rest, rfl, habove, by simpa using htake⟩

/-- A pattern that is a slash alone matches the texts that hold a slash. -/
theorem matches_of_slash {kind : GlobKind} {g : Glob} (h : g.parts kind = [.slash]) {t : Text} :
    g.Matches kind t ↔ '/' ∈ t := by
  rw [matches_iff, h]
  simp only [GlobPart.takeFrom_slash]
  constructor
  · rintro ⟨front, _, rfl, rest, rfl, -⟩
    simp
  · intro hmem
    obtain ⟨front, rest, rfl⟩ := List.append_of_mem hmem
    exact ⟨front, '/' :: rest, rfl, rest, rfl, GlobPart.takeFrom_nil _ _⟩

/-- Segments that begin with one for a name find what they can be laid along. -/
theorem takeFrom_asked {s : Segment} (hs : s ≠ .anyDepth) {segments : List Segment}
    (hsolid : ∀ q ∈ s :: segments, q ≠ .anyDepth → q.IsSolid)
    (hn : ∀ name ∈ names, Path.IsLineName name) (before : Text) :
    GlobPart.TakeFrom (partsAfter .ignoring false (s :: segments)) before
        (Rule.asked names isDirectory) ↔ Segment.Reach (s :: segments) names isDirectory := by
  have hown : s.IsSolid := hsolid s List.mem_cons_self hs
  rw [Segment.reach_cons hs]
  cases names with
  | nil =>
    have hnil : Rule.asked [] isDirectory = [] := by cases isDirectory <;> rfl
    rw [hnil]
    refine ⟨fun h => absurd h (not_takeFrom_nil hs hown segments before), ?_⟩
    rintro ⟨name, left, hnames, -⟩
    exact nomatch hnames
  | cons name names =>
    have hmore : segments ≠ [] → FindsBehind segments isDirectory :=
      fun hsegs => findsBehind hsegs fun q hq => hsolid q (List.mem_cons_of_mem s hq)
    rw [Path.asked_cons, takeFrom_name hs hown hmore (hn name List.mem_cons_self)
      (List.forall_mem_cons.mp hn).2]
    constructor
    · rintro ⟨hfits, hreach⟩
      exact ⟨name, names, rfl, hfits, hreach⟩
    · rintro ⟨_, _, hnames, hfits, hreach⟩
      obtain ⟨rfl, rfl⟩ := List.cons.inj hnames
      exact ⟨hfits, hreach⟩

/-- Segments behind `**` find what they can be laid along from some name on. -/
theorem matches_parents {s : Segment} (hs : s ≠ .anyDepth) {segments : List Segment}
    {directory : Bool} (hsolid : ∀ q ∈ s :: segments, q ≠ .anyDepth → q.IsSolid)
    (hparts : parts .ignoring ⟨.anyDepth :: s :: segments, directory⟩
      = .parentsFromStart :: partsAfter .ignoring false (s :: segments))
    (hn : ∀ name ∈ names, Path.IsLineName name) (hne : names ≠ []) :
    Matches .ignoring ⟨.anyDepth :: s :: segments, directory⟩ (Rule.asked names isDirectory) ↔
      Segment.Reach (.anyDepth :: s :: segments) names isDirectory := by
  rw [matches_of_parents hparts, Segment.reach_anyDepth (List.cons_ne_nil s segments)]
  constructor
  · rintro ⟨above, rest, hsplit, ⟨-, habove⟩, htake⟩
    rcases habove with rfl | ⟨above, -, -, rfl⟩
    · rw [List.nil_append] at hsplit
      subst hsplit
      exact ⟨[], names, rfl, (takeFrom_asked hs hsolid hn _).mp htake⟩
    · -- what was skipped is cut off at its last slash
      have hcut : Rule.asked names isDirectory = above ++ '/' :: rest := by
        rw [hsplit, List.append_assoc, List.singleton_append]
      obtain ⟨passed, left, rfl, -, -, hleft⟩ :=
        Path.exists_of_asked (fun name hname => (hn name hname).slash) hne hcut
      refine ⟨passed, left, rfl, ?_⟩
      cases left with
      | nil =>
        have hnil : rest = [] := by
          cases isDirectory with
          | false => exact nomatch hleft
          | true => exact (List.cons.inj hleft).2.symm
        rw [hnil] at htake
        exact absurd htake (not_takeFrom_nil hs (hsolid s List.mem_cons_self hs) segments _)
      | cons name left =>
        rw [Path.behind, ← Path.asked_cons] at hleft
        rw [← (List.cons.inj hleft).2] at htake
        exact (takeFrom_asked hs hsolid
          (List.forall_mem_append.mp hn).2 _).mp htake
  · rintro ⟨passed, left, rfl, hreach⟩
    have hleft : left ≠ [] := by
      obtain ⟨name, rest, rfl, -⟩ := (Segment.reach_cons hs).mp hreach
      exact List.cons_ne_nil name rest
    refine ⟨Path.reach passed, Rule.asked left isDirectory, Rule.asked_append hleft isDirectory,
      ⟨rfl, Path.reach_cases (List.forall_mem_append.mp hn).1⟩, ?_⟩
    exact (takeFrom_asked hs hsolid
      (List.forall_mem_append.mp hn).2 _).mpr hreach

/-- The pattern of `**` and `*`, which is laid out as any one character, matches the paths that its
segments can be laid along: all of them. -/
theorem matches_everything {directory : Bool} (hn : ∀ name ∈ names, Path.IsLineName name)
    (hne : names ≠ []) :
    Matches .ignoring ⟨[.anyDepth, .anyName], directory⟩ (Rule.asked names isDirectory) ↔
      Segment.Reach [.anyDepth, .anyName] names isDirectory := by
  obtain ⟨name, more, rfl⟩ := List.exists_cons_of_ne_nil hne
  have hname := hn name List.mem_cons_self
  refine ⟨fun _ => ⟨[], _, rfl, name, more, rfl, ⟨hname.ne_nil, hname.slash⟩, trivial⟩, ?_⟩
  intro _
  obtain ⟨c, rest, hc⟩ := List.exists_cons_of_ne_nil hname.ne_nil
  have hline : c ≠ '\n' := fun e => hname.lineFeed (by rw [hc, e]; simp)
  refine ⟨[], [c], rest ++ Path.behind more isDirectory, ?_, [c], [], rfl, ⟨c, hline, rfl⟩, rfl⟩
  rw [Path.asked_cons, hc]
  rfl

/-- The pattern of `*` between two `**`, which is laid out as a slash, matches the paths that its
segments can be laid along: those with more than one name and those of directories. -/
theorem matches_below {directory : Bool} (hn : ∀ name ∈ names, Path.IsLineName name)
    (hne : names ≠ []) :
    Matches .ignoring ⟨[.anyDepth, .anyName, .anyDepth], directory⟩
        (Rule.asked names isDirectory) ↔
      Segment.Reach [.anyDepth, .anyName, .anyDepth] names isDirectory := by
  obtain ⟨name, more, rfl⟩ := List.exists_cons_of_ne_nil hne
  have hname := hn name List.mem_cons_self
  rw [matches_of_slash rfl, Path.asked_cons, List.mem_append, or_iff_right hname.slash,
    Path.slash_mem_behind]
  constructor
  · intro hbelow
    exact ⟨[], _, rfl, name, more, rfl, ⟨hname.ne_nil, hname.slash⟩, hbelow⟩
  · rintro ⟨passed, left, hsplit, other, below, rfl, -, hbelow⟩
    refine hbelow.imp_left fun hmore hnone => ?_
    have hlength := congrArg List.length hsplit
    have hpos := List.length_pos_of_ne_nil hmore
    simp [hnone] at hlength
    omega

/-- **A pattern matches the paths along which its segments can be laid.** This holds of patterns in
which a solid segment stands, and which do not begin with `**` twice. -/
theorem matches_asked {segments : List Segment} {directory : Bool}
    (hsolid : ∀ s ∈ segments, s ≠ .anyDepth → s.IsSolid) (hname : ∃ s ∈ segments, s ≠ .anyDepth)
    (honce : ∀ rest, segments ≠ .anyDepth :: .anyDepth :: rest)
    (hn : ∀ name ∈ names, Path.IsLineName name) (hne : names ≠ []) :
    Matches .ignoring ⟨segments, directory⟩ (Rule.asked names isDirectory) ↔
      Segment.Reach segments names isDirectory := by
  cases segments with
  | nil => exact absurd hname (by simp)
  | cons s segments =>
  by_cases hs : s = .anyDepth
  · subst hs
    cases segments with
    | nil => exact absurd hname (by simp)
    | cons q segments =>
    have hq : q ≠ .anyDepth := fun e => honce segments (by rw [e])
    have hrest : ∀ t ∈ q :: segments, t ≠ .anyDepth → t.IsSolid :=
      fun t ht => hsolid t (List.mem_cons_of_mem _ ht)
    by_cases hall : q = .anyName ∧ segments = []
    · obtain ⟨rfl, rfl⟩ := hall
      exact matches_everything hn hne
    · by_cases hbelow : q = .anyName ∧ segments = [.anyDepth]
      · obtain ⟨rfl, rfl⟩ := hbelow
        exact matches_below hn hne
      · have hparts : parts .ignoring ⟨.anyDepth :: q :: segments, directory⟩
            = .parentsFromStart :: partsAfter .ignoring false (q :: segments) := by
          unfold parts
          split <;> simp_all
        exact matches_parents hq hrest hparts hn hne
  · rw [matches_of_start (parts_of_head hs), takeFrom_asked hs hsolid hn]

end Glob

end TreeSieve

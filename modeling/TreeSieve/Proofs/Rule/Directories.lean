import TreeSieve.Proofs.Pattern.Laying

/-!
# Rules for directories only

A line that ends in a slash stands for a pattern whose expression takes a slash at last, and takes
it whatever comes behind. The text of a path has its slashes behind the directories on the way to
it, so that such a rule covers something by covering a directory above it. No line is excluded here:
the expression may hold brackets, and may begin with any number of names.

* `Glob.exists_parts_concat` tells the last part of the pattern, and
  `Glob.matches_iff_exists_slash` what it matches.
* `Rule.covers_of_directoryOnly` is the law of these rules.
-/

namespace TreeSieve

namespace Glob

/-! ### The last part -/

/-- The last of the parts of segments that end with `**` is a slash. -/
theorem exists_partsAfter_concat (segments : List Segment) :
    ∀ afterName, ∃ front,
      partsAfter .ignoring afterName (segments ++ [.anyDepth]) = front ++ [.slash] := by
  induction segments with
  | nil => exact fun _ => ⟨[], rfl⟩
  | cons s segments ih =>
    intro afterName
    obtain ⟨front, hfront⟩ := ih true
    have hne : segments ++ [.anyDepth] ≠ [] := by simp
    rw [List.cons_append]
    by_cases hs : s = .anyDepth
    · refine ⟨.parents :: front, ?_⟩
      rw [hs, partsAfter_anyDepth hne, hfront, List.cons_append]
    · refine ⟨(if afterName then [.slash] else []) ++ s.parts ++ front, ?_⟩
      rw [partsAfter_cons hs hne, hfront, List.append_assoc _ front]

/-- The last of the parts of a pattern that ends in a slash is a slash. -/
theorem exists_parts_concat (segments : List Segment) :
    ∃ front, parts .ignoring ⟨segments ++ [.anyDepth], true⟩ = front ++ [.slash] := by
  cases segments with
  | nil => exact ⟨[], rfl⟩
  | cons s segments =>
    by_cases hs : s = .anyDepth
    · subst hs
      obtain ⟨front, hfront⟩ := exists_partsAfter_concat segments false
      unfold parts
      split
      · exact ⟨[], rfl⟩
      · rename_i hsegments
        have hlast : (Segment.anyDepth :: segments ++ [Segment.anyDepth]).getLast? =
            some Segment.anyName :=
          congrArg List.getLast? hsegments
        rw [List.getLast?_concat] at hlast
        exact nomatch hlast
      · exact ⟨[], rfl⟩
      · rename_i rest _ _ _ hsegments
        obtain rfl : segments ++ [.anyDepth] = rest := (List.cons.inj hsegments).2
        exact ⟨.parentsFromStart :: front, by rw [hfront, List.cons_append]⟩
      · rename_i hnone
        exact absurd rfl (hnone (segments ++ [.anyDepth]))
    · obtain ⟨front, hfront⟩ := exists_partsAfter_concat (s :: segments) false
      refine ⟨.start :: front, ?_⟩
      rw [List.cons_append, parts_of_head hs, ← List.cons_append, hfront, List.cons_append]

/-- No part of a pattern that ends in a slash asks what stands behind. -/
theorem not_looksAhead_of_directory (segments : List Segment) :
    ∀ part ∈ parts .ignoring ⟨segments ++ [.anyDepth], true⟩, ¬part.LooksAhead := by
  rcases parts_endWith ⟨segments ++ [.anyDepth], true⟩ with hnone | ⟨-, last, hlast, hdepth, -⟩
  · exact hnone
  · rw [List.getLast?_concat] at hlast
    exact absurd (Option.some.inj hlast).symm hdepth

/-- **A pattern that ends in a slash matches what goes on behind a slash from what it matches.** -/
theorem matches_iff_exists_slash {segments : List Segment} {t : Text} :
    Matches .ignoring ⟨segments ++ [.anyDepth], true⟩ t ↔ ∃ above below, t = above ++ '/' :: below ∧
      Matches .ignoring ⟨segments ++ [.anyDepth], true⟩ (above ++ ['/']) := by
  obtain ⟨parts, hparts⟩ := exists_parts_concat segments
  have hahead := not_looksAhead_of_directory segments
  constructor
  · rintro ⟨front, taken, after, rfl, htaken⟩
    have hlast := htaken
    rw [hparts, GlobPart.takeAll_append] at hlast
    obtain ⟨inner, _, rfl, -, _, _, rfl, rfl, rfl⟩ := hlast
    refine ⟨front ++ inner, after, by simp, front, inner ++ ['/'], [], by simp, ?_⟩
    exact htaken.of_after hahead []
  · rintro ⟨above, below, rfl, front, taken, after, hsplit, htaken⟩
    refine ⟨front, taken, after ++ below, ?_, htaken.of_after hahead _⟩
    have hlong := congrArg (· ++ below) hsplit
    simpa using hlong

end Glob

namespace Rule

/-! ### The law of rules for directories -/

/-- The expression of a line that ends in a slash is that of a pattern which ends in one. -/
theorem exists_segments_of_directoryOnly {read : RuleLine} (hdirectory : read.directoryOnly = true)
    {matchers : Matchers} (h : Matchers.ofGlob read.glob = .ok matchers) :
    ∃ segments,
      (⟨segments ++ [.anyDepth], true⟩ : Glob).regex .ignoring = .ok matchers.exact := by
  obtain ⟨body, hbody⟩ : ∃ body, read.body = body ++ ['/'] := by
    rw [RuleLine.directoryOnly, beq_iff_eq] at hdirectory
    exact List.getLast?_eq_some_iff.mp hdirectory
  obtain ⟨t, ht⟩ : ∃ t, read.glob = t ++ ['/'] := by
    rw [RuleLine.glob, hbody]
    split
    · exact ⟨'/' :: body, rfl⟩
    · exact ⟨'*' :: '*' :: '/' :: body, rfl⟩
  obtain ⟨-, segments, hread, hregex⟩ :=
    exists_segments_of_ignoringRegex (Matchers.ofGlob_exact h)
  rw [ht, Glob.trimPattern_append_slash] at hread hregex
  have hends : Glob.endsInSlash .ignoring (t ++ ['/']) = true := by
    simp [Glob.endsInSlash]
  rw [hends] at hregex
  obtain ⟨texts, htexts⟩ := List.getLast?_eq_some_iff.mp (Glob.segmentTexts_append_slash t)
  rw [htexts] at hread
  obtain ⟨before, s, rfl, -, hs⟩ := hread.of_concat
  obtain rfl : s = .anyDepth := (Except.ok.inj hs).symm
  exact ⟨before, hregex⟩

section Directory

variable {r : Rule} {scope path directory : Text} {segments : List Segment}

/-- If a rule with the expression of a pattern that ends in a slash covers a directory then it
covers all that lies below it. -/
theorem covers_below_directory
    (hregex : (⟨segments ++ [.anyDepth], true⟩ : Glob).regex .ignoring = .ok r.matchers.exact)
    (hr : r.scope = canonical scope) (hscope : Path.startOf scope ≠ .current)
    (hd : Path.LiesIn directory scope) (hp : Path.LiesIn path directory) (hne : path ≠ directory)
    (h : r.covers directory true = true) (isDirectory : Bool) :
    r.covers path isDirectory = true := by
  have hpath := hp.trans hd hscope
  obtain ⟨more, hmore, hself⟩ := hpath.exists_below hd hscope hp
  replace hself : more ≠ [] := fun e => hne (hself.mp e)
  obtain ⟨hnames, hmatch⟩ := (covers_iff_matches hregex hr hscope hd true).mp h
  have hreach : asked (Path.namesBelow scope directory) true
      = Text.joinWith '/' (Path.namesBelow scope directory) ++ ['/'] :=
    Path.reach_eq_joinWith hnames
  rw [hreach] at hmatch
  refine (covers_iff_matches hregex hr hscope hpath isDirectory).mpr ⟨by simp [hmore, hself], ?_⟩
  rw [hmore, asked_append hself, Path.reach_eq_joinWith hnames, Glob.matches_iff_exists_slash]
  exact ⟨_, asked more isDirectory, by simp, hmatch⟩

/-- If a rule with the expression of a pattern that ends in a slash covers what is no directory,
then it covers a directory above that, below its scope. -/
theorem exists_directory_of_covers
    (hregex : (⟨segments ++ [.anyDepth], true⟩ : Glob).regex .ignoring = .ok r.matchers.exact)
    (hr : r.scope = canonical scope) (hscope : Path.startOf scope ≠ .current)
    (hp : Path.LiesIn path scope) (h : r.covers path false = true) :
    ∃ directory, Path.LiesIn directory scope ∧ Path.namesBelow scope directory ≠ [] ∧
      Path.LiesIn path directory ∧ path ≠ directory ∧ r.covers directory true = true := by
  obtain ⟨hnames, hmatch⟩ := (covers_iff_matches hregex hr hscope hp false).mp h
  obtain ⟨above, below, hsplit, habove⟩ := Glob.matches_iff_exists_slash.mp hmatch
  obtain ⟨passed, left, hboth, hpassed, hreach, hleft⟩ := Path.exists_of_asked
    (fun name hn => (hp.isEntryName hscope name hn).slash_not_mem) hnames hsplit
  obtain ⟨directory, hd, hin, hbetween⟩ := hp.exists_above hscope hboth
  refine ⟨directory, hd, hbetween ▸ hpassed, hin, ?_, ?_⟩
  · rintro rfl
    have hnone : left = [] := by simpa [hbetween] using hboth
    rw [hnone] at hleft
    exact nomatch hleft
  · rw [covers_iff_matches hregex hr hscope hd true, hbetween]
    rw [← hreach] at habove
    exact ⟨hpassed, habove⟩

end Directory

/-- **Rules for directories only.** Such a rule covers what is no directory exactly if it covers a
directory on the way from its scope, and it covers everything below a directory that it covers. -/
theorem covers_of_directoryOnly {scope text : Text} {line : Int} {source : Option Text}
    {rule : Rule} (hcompile : compile scope text line source = .ok (some rule))
    (hdirectory : rule.directoryOnly = true) (hscope : Path.startOf scope ≠ .current) :
    (∀ path, Path.LiesIn path scope → (rule.covers path false = true ↔
      ∃ directory, Path.LiesIn directory scope ∧ Path.namesBelow scope directory ≠ [] ∧
        Path.LiesIn path directory ∧ path ≠ directory ∧ rule.covers directory true = true)) ∧
    ∀ directory path isDirectory, Path.LiesIn directory scope → Path.LiesIn path directory →
      path ≠ directory → rule.covers directory true = true →
        rule.covers path isDirectory = true := by
  obtain ⟨read, matchers, -, hmatchers, rfl⟩ := exists_ofLine_of_compile hcompile
  obtain ⟨segments, hregex⟩ := exists_segments_of_directoryOnly hdirectory hmatchers
  constructor
  · intro path hp
    constructor
    · intro h
      exact exists_directory_of_covers hregex rfl hscope hp h
    · rintro ⟨directory, hd, -, hin, hne, h⟩
      exact covers_below_directory hregex rfl hscope hd hin hne h false
  · intro directory path isDirectory hd hin hne h
    exact covers_below_directory hregex rfl hscope hd hin hne h isDirectory

/-- The line `[!x-z]?b/**/`, with a bracket that a slash could be taken for. -/
def libraryLine : Text := Text.lit "[!x-z]?b/**/"

/-- A file is covered through a directory two names above it, and covers nothing itself. -/
theorem covers_of_directoryOnly_libraryLine :
    ∃ rule, compile (Text.lit "/w") libraryLine 1 none = .ok (some rule) ∧
      rule.covers (Text.lit "/w/a/lib") true = true ∧
      rule.covers (Text.lit "/w/a/lib/b/f") false = true := by
  obtain ⟨rule, hcompile, hdirectory, hcovers⟩ :
      ∃ rule, compile (Text.lit "/w") libraryLine 1 none = .ok (some rule) ∧
        rule.directoryOnly = true ∧ rule.covers (Text.lit "/w/a/lib") true = true :=
    ⟨_, rfl, by decide +kernel, by decide +kernel⟩
  have hscope : Path.startOf (Text.lit "/w") ≠ .current := by decide
  have hlaw := covers_of_directoryOnly hcompile hdirectory hscope
  refine ⟨rule, hcompile, hcovers, (hlaw.1 _ (by decide)).mpr ?_⟩
  exact ⟨Text.lit "/w/a/lib", by decide, by decide, by decide, by decide, hcovers⟩

end Rule

end TreeSieve

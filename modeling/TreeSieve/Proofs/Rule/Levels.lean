import TreeSieve.Proofs.Pattern.Levels

/-!
# Rules that name a level

An anchored line without `**` names what lies at one depth below its scope, and covers what lies
below that.

* `RuleLine.levels` are what stands between the slashes of a line, and `RuleLine.IsLevelled` says
  when each of them is matched against one name: brackets must not take a slash, and the last one
  must be left, and take something, when the pattern is trimmed.
* `RuleLine.IsLevelled.exists_glob` says that the pattern of such a line is looked for in the first
  names of a path, as many as there are levels.
* `Rule.covers_iff_above` is the law for rules; `Rule.not_covers_iff_above_bracket` shows that it
  does not hold of a negated bracket.
-/

namespace TreeSieve

namespace RuleLine

/-! ### Levels of a line -/

/-- What stands between the slashes of a line, but for empty texts. -/
def levels (read : RuleLine) : List Text := (Text.split '/' read.body).filter (!·.isEmpty)

/-- What the levels of a line are read as, after its pattern has been trimmed. -/
def levelSegments (read : RuleLine) : List Segment :=
  ((Text.split '/' (Glob.trimPattern read.glob)).filter (!·.isEmpty)).filterMap fun text =>
    (Segment.ofText .ignoring text).toOption

/-- A line each level of which stands for one name: no level is lost when the pattern is trimmed,
none is `**` or could take a slash, and the last of several ones takes something, unless a slash
stands behind it. -/
structure IsLevelled (read : RuleLine) : Prop where
  count : read.levelSegments.length = read.levels.length
  level : ∀ s ∈ read.levelSegments, s.IsLevel
  ending : (Glob.trimPattern read.glob).getLast? ≠ some '/' → 1 < read.levels.length →
    ∀ s ∈ read.levelSegments.getLast?, s.canBeEmpty = false

instance decidableIsLevelled (read : RuleLine) : Decidable read.IsLevelled :=
  decidable_of_iff (read.levelSegments.length = read.levels.length ∧
      (∀ s ∈ read.levelSegments, s.IsLevel) ∧
      ((Glob.trimPattern read.glob).getLast? ≠ some '/' → 1 < read.levels.length →
        ∀ s ∈ read.levelSegments.getLast?, s.canBeEmpty = false))
    ⟨fun h => ⟨h.1, h.2.1, h.2.2⟩, fun h => ⟨h.count, h.level, h.ending⟩⟩

end RuleLine

namespace Segment

theorem Reads.exists_segment {texts : List Text} {segments : List Segment}
    (h : Reads texts segments) {text : Text} (htext : text ∈ texts) :
    ∃ s ∈ segments, ofText .ignoring text = .ok s := by
  induction h with
  | nil => exact nomatch htext
  | cons hread _ ih =>
    rcases List.mem_cons.mp htext with rfl | htext
    · exact ⟨_, List.mem_cons_self, hread⟩
    · obtain ⟨s, hs, hread⟩ := ih htext
      exact ⟨s, List.mem_cons_of_mem _ hs, hread⟩

theorem Reads.filterMap_eq {texts : List Text} {segments : List Segment}
    (h : Reads texts segments) :
    texts.filterMap (fun text => (ofText .ignoring text).toOption) = segments := by
  induction h with
  | nil => rfl
  | cons hread _ ih =>
    rw [List.filterMap_cons, hread, ih]
    rfl

theorem isLevel_shape_nil : (shape []).IsLevel := ⟨by simp, rfl⟩

end Segment

namespace RuleLine

variable {read : RuleLine}

theorem mem_levelSegments {text : Text} (htext : text ∈ Text.split '/' (Glob.trimPattern read.glob))
    (hne : text ≠ []) {s : Segment} (hs : Segment.ofText .ignoring text = .ok s) :
    s ∈ read.levelSegments := by
  rw [levelSegments, List.mem_filterMap]
  refine ⟨text, List.mem_filter.mpr ⟨htext, by simp [hne]⟩, ?_⟩
  rw [hs]
  rfl

/-- The texts between the slashes of an anchored pattern are read as segments for one name each, or
as `**` behind a slash at the end. -/
theorem IsLevelled.exists_segments (hlevels : read.IsLevelled) (hanchored : read.anchored = true)
    {r : Regex} (h : ignoringRegex read.glob = .ok r) :
    ∃ before last segments s directory,
      Text.split '/' (Glob.trimPattern read.glob) = [] :: (before ++ [last]) ∧
      Segment.Reads before segments ∧ (∀ q ∈ segments, q.IsLevel) ∧
      Segment.ofText .ignoring (if last = [] then Segment.anyDepthText else last) = .ok s ∧
      (⟨segments ++ [s], directory⟩ : Glob).regex .ignoring = .ok r := by
  obtain ⟨-, segments, hread, hregex⟩ := exists_segments_of_ignoringRegex h
  have hglob : read.glob = '/' :: read.body := if_pos hanchored
  obtain ⟨kept, tail, htrim, -, -⟩ := Glob.trimPattern_slash read.body
  rw [← hglob] at htrim
  obtain ⟨before, last, hkept⟩ : ∃ before last, Text.split '/' kept = before ++ [last] := by
    rcases List.eq_nil_or_concat (Text.split '/' kept) with hnil | ⟨before, last, hkept⟩
    · exact absurd hnil (Text.split_ne_nil '/' kept)
    · exact ⟨before, last, hkept.trans List.concat_eq_append⟩
  have hsplit : Text.split '/' (Glob.trimPattern read.glob) = [] :: (before ++ [last]) := by
    rw [htrim, Text.split, if_pos rfl, hkept]
  have hlevel : ∀ text ∈ before, ∀ q, Segment.ofText .ignoring text = .ok q → q.IsLevel := by
    intro text htext q hq
    rcases eq_or_ne text [] with rfl | hne
    · cases hq
      exact Segment.isLevel_shape_nil
    · refine hlevels.level q (mem_levelSegments ?_ hne hq)
      rw [hsplit]
      exact List.mem_cons_of_mem _ (List.mem_append_left _ htext)
  have hdepth : ∀ text ∈ before, text ≠ Segment.anyDepthText := by
    rintro text htext rfl
    exact (hlevel _ htext .anyDepth rfl).ne_anyDepth rfl
  rw [htrim, Glob.segmentTexts_slash hkept, Glob.mergeDepths_append hdepth (by simp)] at hread
  obtain ⟨segments, s, rfl, hbefore, hs⟩ := hread.of_concat
  refine ⟨before, last, segments, s, _, hsplit, hbefore, ?_, hs, hregex⟩
  intro q hq
  obtain ⟨text, htext, hqread⟩ := hbefore.exists_text hq
  exact hlevel text htext q hqread

/-- If no two slashes stand next to each other then the levels of a line are read as the segments in
front of the last slash, and the one behind it if there is a text. -/
theorem levelSegments_eq {before : List Text} {last : Text} {segments : List Segment} {s : Segment}
    (hsplit : Text.split '/' (Glob.trimPattern read.glob) = [] :: (before ++ [last]))
    (hempty : [] ∉ before) (hread : Segment.Reads before segments)
    (hs : Segment.ofText .ignoring (if last = [] then Segment.anyDepthText else last) = .ok s) :
    read.levelSegments = segments ++ if last = [] then [] else [s] := by
  have hbefore : before.filter (!·.isEmpty) = before := by
    apply List.filter_eq_self.mpr
    intro text htext
    have hne : text ≠ [] := fun e => hempty (e ▸ htext)
    simp [hne]
  rw [levelSegments, hsplit, List.filter_cons_of_neg (by simp), List.filter_append, hbefore,
    List.filterMap_append, hread.filterMap_eq]
  apply congrArg
  by_cases hlast : last = []
  · rw [if_pos hlast, hlast]
    rfl
  · rw [if_neg hlast] at hs ⊢
    rw [List.filter_cons_of_pos (by simp [hlast]), List.filter_nil, List.filterMap_cons, hs]
    rfl

/-- The segments of such a pattern are one for the first name, and others that look at as many names
as there are further levels. -/
theorem IsLevelled.exists_endsAt (hlevels : read.IsLevelled) (hnamed : read.levels ≠ [])
    {before : List Text} {last : Text} {segments : List Segment} {s : Segment}
    (hsplit : Text.split '/' (Glob.trimPattern read.glob) = [] :: (before ++ [last]))
    (hempty : [] ∉ before) (hread : Segment.Reads before segments)
    (hlevel : ∀ q ∈ segments, q.IsLevel)
    (hs : Segment.ofText .ignoring (if last = [] then Segment.anyDepthText else last) = .ok s) :
    ∃ q more count, segments ++ [s] = q :: more ∧ q.IsLevel ∧ read.levels.length = count + 1 ∧
      (more = [] ∧ count = 0 ∨ more ≠ [] ∧ Glob.EndsAt more count) := by
  have hall := levelSegments_eq hsplit hempty hread hs
  have hcount := hlevels.count
  by_cases hlast : last = []
  · -- `**` stands for the slash at the end
    rw [if_pos hlast] at hs hall
    cases hs
    rw [hall, List.append_nil] at hcount
    obtain ⟨q, segments, rfl⟩ :=
      List.exists_cons_of_length_pos (hcount ▸ List.length_pos_of_ne_nil hnamed)
    obtain ⟨hq, hmore⟩ := List.forall_mem_cons.mp hlevel
    exact ⟨q, segments ++ [.anyDepth], segments.length, rfl, hq, hcount.symm,
      .inr ⟨by simp, Glob.endsAt_anyDepth.append hmore (by simp)⟩⟩
  · rw [if_neg hlast] at hs hall
    have hown : s.IsLevel := hlevels.level s (by simp [hall])
    rw [hall, List.length_append, List.length_singleton] at hcount
    cases segments with
    | nil => exact ⟨s, [], 0, rfl, hown, hcount.symm, .inl ⟨rfl, rfl⟩⟩
    | cons q segments =>
      obtain ⟨hq, hmore⟩ := List.forall_mem_cons.mp hlevel
      have hending : (Glob.trimPattern read.glob).getLast? ≠ some '/' := by
        intro hend
        have hnil := Text.split_getLast?_of_sep hend
        rw [hsplit, ← List.cons_append, List.getLast?_concat] at hnil
        exact hlast (Option.some.inj hnil)
      have hsome : s.canBeEmpty = false := by
        apply hlevels.ending hending
        · rw [← hcount, List.length_cons]
          omega
        · rw [hall, List.getLast?_concat]
          rfl
      have hsingle := Glob.endsAt_single hown (Segment.not_fits_nil hown.ne_anyDepth hsome)
      exact ⟨q, segments ++ [s], segments.length + 1, rfl, hq, hcount.symm,
        .inr ⟨by simp, hsingle.append hmore (by simp)⟩⟩

/-- **The pattern of a levelled line looks at as many names as the line has levels.** -/
theorem IsLevelled.exists_glob (hlevels : read.IsLevelled) (hanchored : read.anchored = true)
    (hnamed : read.levels ≠ []) {r : Regex} (h : ignoringRegex read.glob = .ok r) :
    ∃ g : Glob, g.regex .ignoring = .ok r ∧
      ∀ names isDirectory, names ≠ [] → (∀ name ∈ names, Path.IsEntryName name) →
        (g.Matches .ignoring (Rule.asked names isDirectory) ↔
          read.levels.length ≤ names.length ∧
            g.Matches .ignoring (Rule.asked (names.take read.levels.length)
              (isDirectory || decide (read.levels.length < names.length)))) := by
  obtain ⟨before, last, segments, s, directory, hsplit, hread, hlevel, hs, hregex⟩ :=
    hlevels.exists_segments hanchored h
  refine ⟨_, hregex, ?_⟩
  intro names isDirectory hne hn
  by_cases hempty : [] ∈ before
  · -- nothing is matched between two slashes
    obtain ⟨q, hq, hqread⟩ := hread.exists_segment hempty
    cases hqread
    refine iff_of_false (Glob.not_matches_of_empty hlevel hq hn hne) ?_
    rintro ⟨hlen, htake⟩
    refine Glob.not_matches_of_empty hlevel hq (fun name hmem => hn name ?_) ?_ htake
    · exact List.mem_of_mem_take hmem
    · rw [Ne, List.take_eq_nil_iff, not_or]
      exact ⟨List.length_pos_of_ne_nil hnamed |>.ne', hne⟩
  · obtain ⟨q, more, count, hall, hq, hcount, hmore⟩ :=
      hlevels.exists_endsAt hnamed hsplit hempty hread hlevel hs
    rw [hall, hcount]
    exact Glob.matches_iff_take hq hmore hn hne

end RuleLine

/-- What lies at some depth on the way to a path is a directory, unless it is the path itself. -/
theorem Path.LiesIn.flag_above {scope path above : Text} (h : LiesIn path scope)
    (ha : LiesIn above scope) (hscope : startOf scope ≠ .current) (hin : LiesIn path above)
    (isDirectory : Bool) :
    (if above = path then isDirectory else true) = (isDirectory ||
      decide ((namesBelow scope above).length < (namesBelow scope path).length)) := by
  obtain ⟨below, hsplit, hself⟩ := h.exists_below ha hscope hin
  rw [hsplit, List.length_append]
  by_cases hsame : path = above
  · rw [if_pos hsame.symm, hself.mpr hsame]
    simp
  · have hbelow := List.length_pos_of_ne_nil (fun e => hsame (hself.mp e))
    rw [if_neg (fun e => hsame e.symm), eq_comm, Bool.or_eq_true, decide_eq_true_eq]
    right
    omega

namespace Rule

/-- **Rules that name a level.** A rule of an anchored line whose levels stand for one name each
covers a path exactly if the path lies at least as deep below the scope as the line has levels, and
the rule covers what lies at that depth on the way to the path: a directory, unless it is the path
itself. -/
theorem covers_iff_above {scope text : Text} {line : Int} {source : Option Text} {rule : Rule}
    {read : RuleLine} (hread : RuleLine.ofText? text = some read)
    (hcompile : compile scope text line source = .ok (some rule))
    (hanchored : read.anchored = true) (hnamed : read.levels ≠ []) (hlevels : read.IsLevelled)
    (hscope : Path.startOf scope ≠ .current) {path : Text} (hp : Path.LiesIn path scope)
    (isDirectory : Bool) :
    rule.covers path isDirectory = true ↔ ∃ above, Path.LiesIn above scope ∧
      Path.LiesIn path above ∧ (Path.namesBelow scope above).length = read.levels.length ∧
      rule.covers above (if above = path then isDirectory else true) = true := by
  obtain ⟨other, matchers, hother, hmatchers, rfl⟩ := exists_ofLine_of_compile hcompile
  obtain rfl : read = other := Option.some.inj (hread.symm.trans hother)
  obtain ⟨g, hregex, hlaw⟩ :=
    hlevels.exists_glob hanchored hnamed (Matchers.ofGlob_exact hmatchers)
  have hpos : 0 < read.levels.length := List.length_pos_of_ne_nil hnamed
  rw [covers_iff_matches hregex rfl hscope hp]
  constructor
  · rintro ⟨hne, hmatch⟩
    obtain ⟨hlen, htake⟩ := (hlaw _ isDirectory hne (hp.isEntryName hscope)).mp hmatch
    obtain ⟨above, habove, hin, hnames⟩ := hp.exists_above hscope
      (List.take_append_drop read.levels.length (Path.namesBelow scope path)).symm
    have hdepth : (Path.namesBelow scope above).length = read.levels.length := by
      rw [hnames, List.length_take, Nat.min_eq_left hlen]
    refine ⟨above, habove, hin, hdepth, ?_⟩
    rw [hp.flag_above habove hscope hin, covers_iff_matches hregex rfl hscope habove, hdepth,
      hnames]
    refine ⟨?_, htake⟩
    rw [← hnames]
    exact List.ne_nil_of_length_pos (hdepth ▸ hpos)
  · rintro ⟨above, habove, hin, hdepth, h⟩
    rw [hp.flag_above habove hscope hin, covers_iff_matches hregex rfl hscope habove, hdepth] at h
    obtain ⟨below, hsplit, -⟩ := hp.exists_below habove hscope hin
    have hnames : Path.namesBelow scope path ≠ [] := by simp [hsplit, h.1]
    refine ⟨hnames, (hlaw _ isDirectory hnames (hp.isEntryName hscope)).mpr ⟨?_, ?_⟩⟩
    · rw [hsplit, List.length_append]
      omega
    · have htake : (Path.namesBelow scope path).take read.levels.length
          = Path.namesBelow scope above := by
        rw [hsplit, List.take_left' hdepth]
      rw [htake]
      exact h.2

/-- The line `/[!.]*/\*[0-9].c`, with a negated bracket that no slash can be taken for, as it stands
at the start of a level. -/
def numberedLine : Text := Text.lit "/[!.]*/\\*[0-9].c"

/-- What lies two names below the scope decides. -/
theorem covers_iff_above_numberedLine :
    ∃ rule, compile (Text.lit "/w") numberedLine 1 none = .ok (some rule) ∧
      rule.covers (Text.lit "/w/src/*7.c/x") false = true ∧
      rule.covers (Text.lit "/w/src") true = false := by
  obtain ⟨read, hread, hanchored, hcount, hlevels⟩ : ∃ read, RuleLine.ofText? numberedLine
      = some read ∧ read.anchored = true ∧ read.levels.length = 2 ∧ read.IsLevelled :=
    ⟨_, rfl, by decide, by decide, by decide +kernel⟩
  obtain ⟨rule, hcompile, hcovers⟩ : ∃ rule, compile (Text.lit "/w") numberedLine 1 none
      = .ok (some rule) ∧ rule.covers (Text.lit "/w/src/*7.c") true = true :=
    ⟨_, rfl, by decide +kernel⟩
  have hnamed : read.levels ≠ [] := List.ne_nil_of_length_pos (by omega)
  have hscope : Path.startOf (Text.lit "/w") ≠ .current := by decide
  refine ⟨rule, hcompile, ?_, ?_⟩
  · apply (covers_iff_above hread hcompile hanchored hnamed hlevels hscope (by decide) false).mpr
    exact ⟨Text.lit "/w/src/*7.c", by decide, by decide, by rw [hcount]; decide, hcovers⟩
  · rw [← Bool.not_eq_true]
    intro h
    have hp : Path.LiesIn (Text.lit "/w/src") (Text.lit "/w") := by decide
    obtain ⟨above, habove, hin, hdepth, -⟩ :=
      (covers_iff_above hread hcompile hanchored hnamed hlevels hscope hp true).mp h
    obtain ⟨below, hsplit, -⟩ := hp.exists_below habove hscope hin
    have hshort : (Path.namesBelow (Text.lit "/w") (Text.lit "/w/src")).length = 1 := by decide
    rw [hsplit, List.length_append] at hshort
    omega

/-- A negated bracket behind the first character of a level takes the slash behind a directory: the
line `/d[^a]` covers the directory `d`, at the depth of its level, and nothing in the directory. -/
theorem not_covers_iff_above_bracket :
    ∃ read rule, RuleLine.ofText? (Text.lit "/d[^a]") = some read ∧
      compile (Text.lit "/p") (Text.lit "/d[^a]") 0 none = .ok (some rule) ∧
      read.anchored = true ∧ read.levels = [Text.lit "d[^a]"] ∧
      Path.LiesIn (Text.lit "/p/d/x") (Text.lit "/p") ∧
      ¬(rule.covers (Text.lit "/p/d/x") false = true ↔ ∃ above, Path.LiesIn above (Text.lit "/p") ∧
        Path.LiesIn (Text.lit "/p/d/x") above ∧
        (Path.namesBelow (Text.lit "/p") above).length = read.levels.length ∧
        rule.covers above (if above = Text.lit "/p/d/x" then false else true) = true) := by
  refine ⟨_, _, rfl, rfl, by decide, by decide, by decide, fun h => ?_⟩
  have hbelow := h.mpr ⟨Text.lit "/p/d", by decide, by decide, by decide, by decide +kernel⟩
  revert hbelow
  decide +kernel

end Rule

end TreeSieve

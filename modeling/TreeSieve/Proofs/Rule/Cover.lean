import TreeSieve.Proofs.Path.Below
import TreeSieve.Proofs.Pattern.Cutting

/-!
# What rules cover below a directory

A pattern is compiled into several expressions, which do not know of each other. Two facts tie them
together, both for patterns without brackets.

* `ignoringRegex_extend`: a pattern that matches a directory matches everything below it.
* `Matchers.leading_search`: if an anchored pattern matches something below a directory and not the
  directory itself, then its leading expression for the depth of the directory matches the
  directory.
* `Rule.covers_below` and `Rule.mayCoverBelow_of_covers` say the same of rules.
-/

namespace TreeSieve

namespace Glob

/-- The first names of a path fit the first segments of a pattern that matches it. -/
theorem fits_of_matches {g : Glob} (hplain : ∀ s ∈ g.segments, s.IsPlain) {names : List Text}
    (hnames : ∀ name ∈ names, '/' ∉ name) {rest : Text}
    (h : g.Matches .ignoring (Path.reach names ++ rest)) (count : Nat)
    (hsegs : count ≤ g.segments.length) (hcount : count ≤ names.length)
    (hdepth : ∀ s ∈ g.segments.take count, s ≠ .anyDepth) :
    List.Forall₂ Segment.Fits (g.segments.take count) (names.take count) := by
  obtain ⟨segments, directory⟩ := g
  cases count with
  | zero =>
    rw [List.take_zero, List.take_zero]
    exact List.Forall₂.nil
  | succ count =>
    cases segments with
    | nil => exact absurd hsegs (Nat.not_succ_le_zero count)
    | cons s segments =>
      obtain ⟨front, taken, after, hsplit, htaken⟩ := h
      rw [parts_of_head (hdepth s (by simp))] at htaken
      obtain ⟨first, taken, rfl, ⟨hfront, rfl⟩, htaken⟩ := htaken
      obtain rfl : front = [] := List.reverse_eq_nil_iff.mp hfront
      replace hsplit : Path.reach names ++ rest = taken ++ after := hsplit
      exact fits_of_takeAll (count + 1) hplain hnames hsplit htaken hsegs hcount hdepth

/-- Segments that names fit match these names, and so they do in front of a last segment for any
depth. -/
theorem matches_of_fits {segments : List Segment} {names : List Text}
    (h : List.Forall₂ Segment.Fits segments names) (hne : segments ≠ [])
    (hdepth : ∀ s ∈ segments, s ≠ .anyDepth) (directory : Bool) (rest : Text) :
    Matches .ignoring ⟨segments, directory⟩ (Path.reach names ++ rest) ∧
      Matches .ignoring ⟨segments ++ [.anyDepth], directory⟩ (Path.reach names ++ rest) := by
  obtain ⟨hone, hmore⟩ := takeAll_of_fits h hne hdepth [] rest
  obtain ⟨s, segments, rfl⟩ := List.exists_cons_of_ne_nil hne
  have hs : s ≠ .anyDepth := hdepth s List.mem_cons_self
  refine ⟨⟨[], Path.reach names, rest, rfl, ?_⟩, ⟨[], Path.reach names, rest, rfl, ?_⟩⟩
  · rw [parts_of_head hs]
    exact ⟨[], _, rfl, ⟨rfl, rfl⟩, hone⟩
  · rw [List.cons_append, parts_of_head hs]
    exact ⟨[], _, rfl, ⟨rfl, rfl⟩, hmore⟩

/-- As many of the first texts of a pattern as are not `**` are read as the first segments. -/
theorem reads_take {texts : List Text} {last : Text} {segments : List Segment}
    (hread : Segment.Reads (mergeDepths (texts ++ [last])) segments) {count : Nat}
    (hcount : count ≤ texts.length)
    (hdepth : ∀ text ∈ texts.take count, text ≠ Segment.anyDepthText) :
    Segment.Reads (texts.take count) (segments.take count) := by
  have hsplit : mergeDepths (texts ++ [last])
      = texts.take count ++ mergeDepths (texts.drop count ++ [last]) := by
    rw [← mergeDepths_append hdepth (by simp), ← List.append_assoc, List.take_append_drop]
  rw [hsplit] at hread
  have htake := List.forall₂_take count hread
  rwa [List.take_left' (by simp [hcount])] at htake

/-- The segment for any depth alone matches every directory. -/
theorem matches_anyDepth (directory : Bool) {names : List Text} (hne : names ≠ []) :
    Matches .ignoring ⟨[.anyDepth], directory⟩ (Path.reach names) := by
  obtain ⟨name, names, rfl⟩ := List.exists_cons_of_ne_nil hne
  refine ⟨name, ['/'], Path.reach names, Path.reach_cons name names, ?_⟩
  cases directory with
  | false => exact ⟨['/'], [], rfl, ⟨'/', by decide, rfl⟩, rfl⟩
  | true => exact ⟨['/'], [], rfl, rfl, rfl⟩

/-- A pattern that matches something below a directory which is at least as deep as the pattern has
segments matches the directory. -/
theorem Matches.of_deep {g : Glob} (hplain : ∀ s ∈ g.segments, s.IsPlain) {texts : List Text}
    {last : Text} (hread : Segment.Reads (texts ++ [last]) g.segments)
    (hdepth : ∀ text ∈ texts, text ≠ Segment.anyDepthText) {names : List Text}
    (hnames : ∀ name ∈ names, '/' ∉ name) (hlong : texts.length < names.length) {rest : Text}
    (h : g.Matches .ignoring (Path.reach names ++ rest)) :
    g.Matches .ignoring (Path.reach names) := by
  obtain ⟨segments, directory⟩ := g
  obtain ⟨before, s, hsegs, hbefore, -⟩ := hread.of_concat
  replace hsegs : segments = before ++ [s] := hsegs
  subst hsegs
  have hbeforeDepth := hbefore.ne_anyDepth hdepth
  have hlen : texts.length = before.length := hbefore.length_eq
  have hcut : ∀ count, Path.reach names
      = Path.reach (names.take count) ++ Path.reach (names.drop count) := by
    intro count
    rw [← Path.reach_append, List.take_append_drop]
  by_cases hs : s = .anyDepth
  · subst hs
    rcases eq_or_ne before [] with rfl | hne
    · exact matches_anyDepth directory (List.ne_nil_of_length_pos (Nat.zero_lt_of_lt hlong))
    · have htake : (before ++ [Segment.anyDepth]).take before.length = before := List.take_left
      have hfits := fits_of_matches hplain hnames h before.length (by simp) (by omega)
        (by rw [htake]; exact hbeforeDepth)
      rw [htake] at hfits
      rw [hcut before.length]
      exact (matches_of_fits hfits hne hbeforeDepth directory _).2
  · have hall : ∀ q ∈ before ++ [s], q ≠ .anyDepth := by
      intro q hq
      rcases List.mem_append.mp hq with hq | hq
      · exact hbeforeDepth q hq
      · exact List.mem_singleton.mp hq ▸ hs
    have htake : (before ++ [s]).take (before ++ [s]).length = before ++ [s] := List.take_length
    have hfits := fits_of_matches hplain hnames h (before ++ [s]).length (Nat.le_refl _)
      (by simp; omega) (by rw [htake]; exact hall)
    rw [htake] at hfits
    rw [hcut (before ++ [s]).length]
    exact (matches_of_fits hfits (by simp) hall directory _).1

end Glob

/-- A pattern that matches a directory matches everything below it. -/
theorem ignoringRegex_extend {pattern : Text} {r : Regex} (h : ignoringRegex pattern = .ok r)
    (hbracket : '[' ∉ pattern) {t : Text} (hs : r.search (t ++ ['/']) = true) (rest : Text) :
    r.search (t ++ '/' :: rest) = true := by
  obtain ⟨-, g, hread, hregex⟩ := ignoringRegex_ok h
  rw [Glob.search_regex hregex] at hs ⊢
  exact hs.extend (hread.isPlain hbracket) rest

namespace Matchers

/-- Whether a text between slashes is one of the leading segments. -/
def isLeading (segment : Text) : Bool := !segment.isEmpty && segment != Segment.anyDepthText

theorem isLeading_iff {segment : Text} :
    isLeading segment = true ↔ segment ≠ [] ∧ segment ≠ Segment.anyDepthText := by
  rw [isLeading, Bool.and_eq_true, bne_iff_ne]
  simp

/-- Slashes at the end of a pattern add no leading segments. -/
theorem takeWhile_split_dropEndWhile (t : Text) :
    (Text.split '/' (Text.dropEndWhile (· == '/') t)).takeWhile isLeading
      = (Text.split '/' t).takeWhile isLeading := by
  induction t using List.reverseRecOn with
  | nil => rfl
  | append_singleton t c ih =>
    rw [Text.dropEndWhile_concat]
    split
    · rename_i hc
      rw [beq_iff_eq] at hc
      rw [ih, hc, Text.split_append_singleton, List.takeWhile_append]
      split
      · rename_i hall
        have hself :=
          (List.takeWhile_prefix (p := isLeading) (l := Text.split '/' t)).eq_of_length hall
        simp [hself, isLeading]
      · rfl
    · rfl

theorem leadingSegments_slash {body : Text} (h : body.head? ≠ some '/') :
    leadingSegments ('/' :: body) = (Text.split '/' body).takeWhile isLeading := by
  have hdrop : ('/' :: body).dropWhile (· == '/') = body := by
    cases body with
    | nil => rfl
    | cons c rest =>
      have hc : c ≠ '/' := fun e => h (by rw [e]; rfl)
      simp [hc]
  rw [leadingSegments, hdrop]
  exact takeWhile_split_dropEndWhile body

/-- The patterns of the directories that lead to what an anchored pattern names. -/
theorem leadingGlobs_slash {body : Text} (h : body.head? ≠ some '/') :
    leadingGlobs ('/' :: body)
      = (List.range ((Text.split '/' body).takeWhile isLeading).length).map fun depth =>
        '/' :: Text.joinWith '/' (((Text.split '/' body).takeWhile isLeading).take (depth + 1))
          ++ ['/'] := by
  rw [leadingGlobs, leadingSegments_slash h]

theorem ofGlob_exact {glob : Text} {matchers : Matchers} (h : ofGlob glob = .ok matchers) :
    ignoringRegex glob = .ok matchers.exact := by
  rw [ofGlob] at h
  cases hexact : ignoringRegex glob with
  | error e => rw [hexact] at h; cases h
  | ok found =>
    rw [hexact] at h
    split at h
    · cases hleading : (leadingGlobs glob).mapM ignoringRegex with
      | error e =>
        simp only [hleading] at h
        cases h
      | ok more =>
        simp only [hleading] at h
        cases h
        rfl
    · cases h
      rfl

theorem ofGlob_leading {body : Text} {matchers : Matchers}
    (h : ofGlob ('/' :: body) = .ok matchers) :
    (leadingGlobs ('/' :: body)).mapM ignoringRegex = .ok matchers.leading := by
  have hexact := ofGlob_exact h
  rw [ofGlob, hexact] at h
  cases hleading : (leadingGlobs ('/' :: body)).mapM ignoringRegex with
  | error e =>
    simp only [List.head?_cons, if_true, hleading] at h
    cases h
  | ok more =>
    simp only [List.head?_cons, if_true, hleading] at h
    have hsame : (⟨matchers.exact, more⟩ : Matchers) = matchers := Except.ok.inj h
    rw [← hsame]

/-- The leading expression of segments that names fit matches these names. -/
theorem search_leading {texts : List Text} {segments : List Segment} {names : List Text}
    {regex : Regex} (hread : Segment.Reads texts segments) (hne : texts ≠ [])
    (hslash : ∀ text ∈ texts, '/' ∉ text) (hdepth : ∀ text ∈ texts, text ≠ Segment.anyDepthText)
    (hfits : List.Forall₂ Segment.Fits segments names)
    (h : ignoringRegex ('/' :: Text.joinWith '/' texts ++ ['/']) = .ok regex) (rest : Text) :
    regex.search (Path.reach names ++ rest) = true := by
  obtain ⟨-, ⟨found, directory⟩, hfound, hregex⟩ := ignoringRegex_ok h
  have hsplit : Text.split '/' (Text.joinWith '/' texts ++ ['/']) = texts ++ [[]] := by
    rw [Text.split_append_singleton, Text.split_joinWith hne hslash]
  rw [Glob.trimPattern_append_slash, List.cons_append, Glob.segmentTexts_slash hsplit, if_pos rfl,
    Glob.mergeDepths_append hdepth (by simp)] at hfound
  have hsame : found = segments ++ [.anyDepth] :=
    hfound.unique (List.rel_append hread (List.Forall₂.cons rfl List.Forall₂.nil))
  subst hsame
  have hsegs : segments ≠ [] := by
    rintro rfl
    exact hne (List.forall₂_nil_right_iff.mp hread)
  rw [Glob.search_regex hregex]
  exact (Glob.matches_of_fits hfits hsegs (hread.ne_anyDepth hdepth) directory rest).2

/-- A pattern that begins with two slashes matches no path. -/
theorem not_search_slashes {kept : Text} {g : Glob} (hplain : ∀ s ∈ g.segments, s.IsPlain)
    (hread : Segment.Reads (Glob.segmentTexts ('/' :: '/' :: kept)) g.segments) {names : List Text}
    (hnames : ∀ name ∈ names, Path.IsEntryName name) (hne : names ≠ []) (rest : Text) :
    ¬g.Matches .ignoring (Path.reach names ++ rest) := by
  intro hmatch
  obtain ⟨before, last, hsplit⟩ : ∃ before last, Text.split '/' kept = before ++ [last] := by
    rcases List.eq_nil_or_concat (Text.split '/' kept) with h | ⟨before, last, h⟩
    · exact absurd h (Text.split_ne_nil '/' kept)
    · exact ⟨before, last, h.trans List.concat_eq_append⟩
  have hsplit' : Text.split '/' ('/' :: kept) = ([] :: before) ++ [last] := by
    rw [Text.split, if_pos rfl, hsplit, List.cons_append]
  rw [Glob.segmentTexts_slash hsplit', List.cons_append, ← List.singleton_append,
    Glob.mergeDepths_append (by simp [Segment.anyDepthText]) (by simp), List.singleton_append]
    at hread
  obtain ⟨name, names, rfl⟩ := List.exists_cons_of_ne_nil hne
  obtain ⟨segments, directory⟩ := g
  cases hread with
  | cons hfirst hmore =>
    cases hfirst
    -- the segment in front of the second slash is empty, and no name fits it
    have hfits := Glob.fits_of_matches hplain
      (fun name hn => (hnames name hn).slash_not_mem) hmatch 1 (by simp) (by simp) (by simp)
    cases hfits with
    | cons hfit _ => exact (hnames name List.mem_cons_self).ne_nil hfit

/-- How an anchored pattern has been read: as `texts` between its slashes and as `last` behind the
last one, which stands for `whole` before blanks were trimmed off. The leading expressions are those
of the first texts, as far as these are leading segments. -/
structure IsReadAs (matchers : Matchers) (texts : List Text) (last whole : Text) (g : Glob) :
    Prop where
  exact_search : ∀ t, matchers.exact.search t = true ↔ g.Matches .ignoring t
  plain : g.IsPlain
  slash_not_mem : ∀ text ∈ texts, '/' ∉ text
  reads : Segment.Reads (Glob.mergeDepths (texts ++ [last])) g.segments
  leading : List.Forall₂ (fun glob regex => ignoringRegex glob = .ok regex)
    ((List.range ((texts ++ [whole]).takeWhile isLeading).length).map fun depth =>
      '/' :: Text.joinWith '/' (((texts ++ [whole]).takeWhile isLeading).take (depth + 1)) ++ ['/'])
    matchers.leading

/-- An anchored pattern that matches something has been read from its texts between the slashes. -/
theorem exists_isReadAs {body : Text} {matchers : Matchers}
    (h : ofGlob ('/' :: body) = .ok matchers) (hbracket : '[' ∉ body) {names : List Text}
    (hnames : ∀ name ∈ names, Path.IsEntryName name) (hne : names ≠ []) {rest : Text}
    (hbelow : matchers.exact.search (Path.reach names ++ rest) = true) :
    ∃ texts last whole g, matchers.IsReadAs texts last whole g := by
  obtain ⟨-, g, hread, hregex⟩ := ignoringRegex_ok (ofGlob_exact h)
  have hplain : g.IsPlain := hread.isPlain (by simpa using hbracket)
  have hmatch := (Glob.search_regex hregex _).mp hbelow
  have hglobs := forall₂_of_mapM (ofGlob_leading h)
  -- trimming can only have changed the last text between the slashes
  obtain ⟨kept, tail, htrim, rfl, htail⟩ := Glob.trimPattern_slash body
  obtain ⟨texts, last, hkept, hwhole⟩ := Text.split_append_of_not_mem htail kept
  rw [htrim] at hread
  have hhead : (kept ++ tail).head? ≠ some '/' := by
    intro hb
    cases kept with
    | nil => exact htail (List.mem_of_head? hb)
    | cons c kept =>
      obtain rfl : c = '/' := Option.some.inj hb
      exact not_search_slashes hplain.segments hread hnames hne rest hmatch
  rw [Glob.segmentTexts_slash hkept] at hread
  rw [leadingGlobs_slash hhead, hwhole] at hglobs
  refine ⟨texts, _, last ++ tail, g, Glob.search_regex hregex, hplain, ?_, hread, hglobs⟩
  intro text htext
  have hmem : text ∈ Text.split '/' kept := by
    rw [hkept]
    exact List.mem_append_left _ htext
  exact Text.not_mem_of_mem_split hmem

namespace IsReadAs

variable {matchers : Matchers} {texts : List Text} {last whole : Text} {g : Glob}
  (h : matchers.IsReadAs texts last whole g)

include h

/-- There is one leading expression for each leading segment. -/
theorem length_leading :
    matchers.leading.length = ((texts ++ [whole]).takeWhile isLeading).length := by
  rw [← h.leading.length_eq, List.length_map, List.length_range]

/-- The leading expression for a depth is that of as many texts, if there are as many. -/
theorem ignoringRegex_leading {count : Nat} {regex : Regex}
    (hget : matchers.leading[count]? = some regex) (hcount : count < texts.length) :
    (∀ text ∈ texts.take (count + 1), text ≠ Segment.anyDepthText) ∧
      ignoringRegex ('/' :: Text.joinWith '/' (texts.take (count + 1)) ++ ['/']) = .ok regex := by
  obtain ⟨hindex, rfl⟩ := List.getElem?_eq_some_iff.mp hget
  have hlength := h.length_leading
  have hprefix := List.takeWhile_prefix isLeading (l := texts ++ [whole])
  have htake : ((texts ++ [whole]).takeWhile isLeading).take (count + 1)
      = texts.take (count + 1) := by
    rw [List.prefix_iff_eq_take.mp hprefix, List.take_take, Nat.min_eq_left (by omega),
      List.take_append_of_le_length hcount]
  have hcompiled := h.leading.get (i := count) (by simp; omega) hindex
  simp only [List.get_eq_getElem, List.getElem_map, List.getElem_range] at hcompiled
  refine ⟨fun text htext => ?_, htake ▸ hcompiled⟩
  rw [← htake] at htext
  exact (isLeading_iff.mp (List.mem_takeWhile_imp (List.mem_of_mem_take htext))).2

variable {names : List Text} (hnames : ∀ name ∈ names, '/' ∉ name) {rest : Text}
  (hmatch : g.Matches .ignoring (Path.reach names ++ rest))

include hnames hmatch

/-- The leading expression for a depth up to that of the last slash matches a directory that is at
least as deep, if the pattern matches something below the directory. -/
theorem search_of_shallow {count : Nat} {regex : Regex}
    (hget : matchers.leading[count]? = some regex) (hcount : count < texts.length)
    (hlong : count < names.length) : regex.search (Path.reach names) = true := by
  obtain ⟨hdepth, hcompiled⟩ := h.ignoringRegex_leading hget hcount
  have hfront := Glob.reads_take h.reads hcount hdepth
  have hlength := hfront.length_eq
  rw [List.length_take, List.length_take] at hlength
  have hfits := Glob.fits_of_matches h.plain.segments hnames hmatch (count + 1) (by omega) hlong
    (hfront.ne_anyDepth hdepth)
  have hsome : texts.take (count + 1) ≠ [] :=
    List.ne_nil_of_length_pos (by rw [List.length_take]; omega)
  have hsearch := search_leading hfront hsome
    (fun text htext => h.slash_not_mem text (List.mem_of_mem_take htext)) hdepth hfits hcompiled
    (Path.reach (names.drop (count + 1)))
  rwa [← Path.reach_append, List.take_append_drop] at hsearch

/-- If all texts are leading segments, then the pattern matches a directory that is deeper than its
last slash, if it matches something below the directory. -/
theorem exact_search_of_deep (hall : texts.length < matchers.leading.length)
    (hlong : texts.length < names.length) : matchers.exact.search (Path.reach names) = true := by
  rw [h.length_leading] at hall
  have hprefix := List.takeWhile_prefix isLeading (l := texts ++ [whole])
  have hwhole : (texts ++ [whole]).takeWhile isLeading = texts ++ [whole] :=
    hprefix.eq_of_length_le (by rw [List.length_append, List.length_singleton]; omega)
  have hdepth : ∀ text ∈ texts, text ≠ Segment.anyDepthText := by
    intro text htext
    have hmem : text ∈ (texts ++ [whole]).takeWhile isLeading := by
      rw [hwhole]
      exact List.mem_append_left _ htext
    exact (isLeading_iff.mp (List.mem_takeWhile_imp hmem)).2
  have hread := h.reads
  rw [Glob.mergeDepths_append hdepth (by simp), Glob.mergeDepths] at hread
  exact (h.exact_search _).mpr (hmatch.of_deep h.plain.segments hread hdepth hnames hlong)

end IsReadAs

/-- If an anchored pattern matches something below a directory and not the directory, then its
leading expression for the depth of the directory matches the directory. -/
theorem leading_search {body : Text} {matchers : Matchers}
    (h : ofGlob ('/' :: body) = .ok matchers) (hbracket : '[' ∉ body) {names : List Text}
    (hnames : ∀ name ∈ names, Path.IsEntryName name) (hne : names ≠ []) {rest : Text}
    (hbelow : matchers.exact.search (Path.reach names ++ rest) = true)
    (hnot : matchers.exact.search (Path.reach names) = false) {regex : Regex}
    (hget : matchers.leading[min names.length matchers.leading.length - 1]? = some regex) :
    regex.search (Path.reach names) = true := by
  obtain ⟨texts, last, whole, g, hread⟩ := exists_isReadAs h hbracket hnames hne hbelow
  have hslash : ∀ name ∈ names, '/' ∉ name := fun name hn => (hnames name hn).slash_not_mem
  have hmatch := (hread.exact_search _).mp hbelow
  have hindex := (List.getElem?_eq_some_iff.mp hget).1
  have hpos : 0 < names.length := List.length_pos_iff.mpr hne
  by_cases hshallow : min names.length matchers.leading.length - 1 < texts.length
  · exact hread.search_of_shallow hslash hmatch hget hshallow (by omega)
  · -- the directory is as deep as the pattern, which then matches the directory itself
    have hself := hread.exact_search_of_deep hslash hmatch (by omega) (by omega)
    exact Bool.noConfusion (hnot.symm.trans hself)

end Matchers

/-! ### Rules -/

theorem RuleLine.mem_of_mem_takeMark {mark c : Char} {t : Text} (h : c ∈ (takeMark mark t).2) :
    c ∈ t := by
  unfold takeMark at h
  split at h
  · exact h
  · split at h
    · exact List.mem_cons_of_mem _ h
    · exact h

/-- The characters of the body of a line are characters of its text. -/
theorem RuleLine.mem_text_of_mem_body {line : Text} {read : RuleLine} (h : ofText? line = some read)
    {c : Char} (hc : c ∈ read.body) : c ∈ read.text := by
  unfold ofText? at h
  simp only at h
  split at h
  · cases h
  · split at h
    · cases h
    · cases h
      exact mem_of_mem_takeMark (mem_of_mem_takeMark hc)

/-- The text of a path below a directory is the names of the directory, with a slash behind each,
and the other names. -/
theorem Path.joinWith_append {names more : List Text} (h : more ≠ []) :
    Text.joinWith '/' (names ++ more) = Path.reach names ++ Text.joinWith '/' more := by
  induction names with
  | nil => rfl
  | cons name rest ih =>
    obtain ⟨next, behind, hbehind⟩ :=
      List.exists_cons_of_ne_nil (show rest ++ more ≠ [] by simp [h])
    rw [List.cons_append, hbehind, Text.joinWith, ← hbehind, ih, Path.reach_cons]
    simp

theorem Path.count_joinWith {names : List Text} (h : ∀ name ∈ names, '/' ∉ name)
    (hne : names ≠ []) :
    (Text.joinWith '/' names).count '/' + 1 = names.length := by
  induction names with
  | nil => exact absurd rfl hne
  | cons name rest ih =>
    have hname : name.count '/' = 0 := List.count_eq_zero.mpr (h name List.mem_cons_self)
    cases rest with
    | nil => rw [Text.joinWith, hname, List.length_singleton]
    | cons next more =>
      have hmore := ih (fun q hq => h q (List.mem_cons_of_mem name hq)) (List.cons_ne_nil next more)
      rw [Text.joinWith, List.count_append, List.count_cons_self, hname, List.length_cons, ← hmore]
      omega

namespace Rule

/-- Whether a rule comes from a line of an ignore file for the given scope. -/
def ComesFrom (r : Rule) (scope : Text) : Prop :=
  ∃ text line source, compile scope text line source = .ok (some r)

/-- A rule that was compiled is that of the line as it is read, with the compiled pattern. -/
theorem exists_ofLine_of_compile {scope text : Text} {line : Int} {source : Option Text} {r : Rule}
    (h : compile scope text line source = .ok (some r)) :
    ∃ read matchers, RuleLine.ofText? text = some read ∧
      Matchers.ofGlob read.glob = .ok matchers ∧ r = ofLine read matchers scope line source := by
  rw [compile] at h
  cases hread : RuleLine.ofText? text with
  | none => rw [hread] at h; cases h
  | some read =>
    rw [hread] at h
    simp only at h
    split at h
    · rename_i matchers hmatchers
      cases h
      exact ⟨read, matchers, rfl, hmatchers, rfl⟩
    · cases h

/-- A rule that was compiled has the compiled pattern of the line as it was read, its text and
whether it is anchored, and the canonical text of the scope. -/
theorem exists_read_of_compile {scope text : Text} {line : Int} {source : Option Text} {r : Rule}
    (h : compile scope text line source = .ok (some r)) :
    ∃ read, RuleLine.ofText? text = some read ∧ Matchers.ofGlob read.glob = .ok r.matchers ∧
      r.pattern = read.text ∧ r.anchored = read.anchored ∧ r.scope = canonical scope := by
  obtain ⟨read, matchers, hread, hmatchers, rfl⟩ := exists_ofLine_of_compile h
  exact ⟨read, hread, hmatchers, rfl, rfl, rfl⟩

theorem ComesFrom.exists_read {r : Rule} {scope : Text} (h : r.ComesFrom scope) :
    ∃ line read, RuleLine.ofText? line = some read ∧ Matchers.ofGlob read.glob = .ok r.matchers ∧
      r.pattern = read.text ∧ r.anchored = read.anchored ∧ r.scope = canonical scope := by
  obtain ⟨text, line, source, hcompile⟩ := h
  exact ⟨text, exists_read_of_compile hcompile⟩

section Below

variable {r : Rule} {p : Path} {front back : List Text}

/-- The text of names as a rule is asked about it: those of a directory end in a slash. -/
def asked (names : List Text) (isDirectory : Bool) : Text :=
  if isDirectory then Path.reach names else Text.joinWith '/' names

/-- A rule covers a path if its expression matches what is left of the path below its scope. -/
theorem covers_canonical (hp : p.IsRooted) (hs : p.start = .root) (hsplit : p.parts = front ++ back)
    (hstem : scopeStem r.scope = Path.trail front) (isDirectory : Bool) :
    r.covers (canonical p.toText) isDirectory = true ↔
      back ≠ [] ∧ r.matchers.exact.search (asked back isDirectory) = true := by
  rw [covers, Path.relativePath?_canonical hp hs hsplit hstem]
  rcases eq_or_ne back [] with rfl | hne
  · simp [Text.joinWith]
  · have hnames : ∀ name ∈ back, Path.IsEntryName name :=
      fun name hn => hp.names name (hsplit ▸ List.mem_append_right front hn)
    obtain ⟨c, rest, hjoin⟩ := List.exists_cons_of_ne_nil
      (Path.joinWith_ne_nil (fun name hn => (hnames name hn).1) hne)
    rw [hjoin]
    simp only [asked, Path.reach_eq_joinWith hne, hjoin]
    exact (and_iff_right hne).symm

/-- A rule covers a path in its scope exactly if there are names below the scope and its pattern
matches their text. -/
theorem covers_iff_matches {scope path : Text} {g : Glob}
    (hregex : g.regex .ignoring = .ok r.matchers.exact) (hr : r.scope = canonical scope)
    (hscope : Path.startOf scope ≠ .current) (h : Path.LiesIn path scope) (isDirectory : Bool) :
    r.covers path isDirectory = true ↔ Path.namesBelow scope path ≠ [] ∧
      g.Matches .ignoring (asked (Path.namesBelow scope path) isDirectory) := by
  obtain ⟨hparts, hstem⟩ := h.parts_eq hscope
  rw [← hr] at hstem
  have hcovers := covers_canonical h.isRooted h.root hparts hstem isDirectory
  rwa [h.canonical_toText, Glob.search_regex hregex] at hcovers

theorem asked_append {names more : List Text} (hmore : more ≠ []) (isDirectory : Bool) :
    asked (names ++ more) isDirectory = Path.reach names ++ asked more isDirectory := by
  cases isDirectory with
  | false => exact Path.joinWith_append hmore
  | true => exact Path.reach_append names more

/-- The pattern of a rule without brackets has none once it is completed. -/
theorem bracket_not_mem_glob {line : Text} {read : RuleLine}
    (hread : RuleLine.ofText? line = some read) (h : '[' ∉ read.text) : '[' ∉ read.glob := by
  have hbody : '[' ∉ read.body := fun hmem => h (RuleLine.mem_text_of_mem_body hread hmem)
  rw [RuleLine.glob]
  split <;> simpa using hbody

/-- A rule that covers a directory covers everything below it. -/
theorem covers_below {scope : Text} (hr : r.ComesFrom scope) (hbracket : '[' ∉ r.pattern)
    {d : Path} (hd : d.IsRooted) (hp : p.IsRooted) (hds : d.start = .root) (hps : p.start = .root)
    (hsplit : d.parts = front ++ back) (hstem : scopeStem r.scope = Path.trail front)
    {more : List Text} (hmore : more ≠ []) (hbelow : p.parts = d.parts ++ more)
    (h : r.covers (canonical d.toText) true = true) (isDirectory : Bool) :
    r.covers (canonical p.toText) isDirectory = true := by
  obtain ⟨line, read, hread, hmatchers, hpattern, -, -⟩ := hr.exists_read
  obtain ⟨hback, hsearch⟩ := (covers_canonical hd hds hsplit hstem true).mp h
  have hglob := bracket_not_mem_glob hread (hpattern ▸ hbracket)
  have hjoin : asked back true = Text.joinWith '/' back ++ ['/'] := Path.reach_eq_joinWith hback
  rw [hjoin] at hsearch
  have hextend := ignoringRegex_extend (Matchers.ofGlob_exact hmatchers) hglob hsearch
    (asked more isDirectory)
  have hparts : p.parts = front ++ (back ++ more) := by rw [hbelow, hsplit, List.append_assoc]
  refine (covers_canonical hp hps hparts hstem isDirectory).mpr ⟨by simp [hmore], ?_⟩
  rw [asked_append hmore, Path.reach_eq_joinWith hback]
  simpa using hextend

/-- If a rule covers something below a directory, and not the directory, then it is among those that
may cover something below it. -/
theorem mayCoverBelow_of_covers {scope : Text} (hr : r.ComesFrom scope)
    (hbracket : '[' ∉ r.pattern) {d : Path} (hd : d.IsRooted) (hp : p.IsRooted)
    (hds : d.start = .root) (hps : p.start = .root) (hsplit : d.parts = front ++ back)
    (hstem : scopeStem r.scope = Path.trail front) {more : List Text} (hmore : more ≠ [])
    (hbelow : p.parts = d.parts ++ more) {isDirectory : Bool}
    (h : r.covers (canonical p.toText) isDirectory = true)
    (hnot : r.covers (canonical d.toText) true = false) :
    r.mayCoverBelow (canonical d.toText) = true := by
  obtain ⟨line, read, hread, hmatchers, hpattern, hanchored, -⟩ := hr.exists_read
  have hparts : p.parts = front ++ (back ++ more) := by rw [hbelow, hsplit, List.append_assoc]
  obtain ⟨-, hsearch⟩ := (covers_canonical hp hps hparts hstem isDirectory).mp h
  rw [asked_append hmore] at hsearch
  rw [mayCoverBelow, Path.relativePath?_canonical hd hds hsplit hstem]
  rcases eq_or_ne back [] with rfl | hback
  · rfl
  · have hnames : ∀ name ∈ back, Path.IsEntryName name :=
      fun name hn => hd.names name (hsplit ▸ List.mem_append_right front hn)
    have hcount := Path.count_joinWith (fun name hn => (hnames name hn).slash_not_mem) hback
    have hself : r.matchers.exact.search (Path.reach back) = false := by
      rw [← Bool.not_eq_true]
      intro hmatch
      rw [(covers_canonical hd hds hsplit hstem true).mpr ⟨hback, hmatch⟩] at hnot
      exact Bool.noConfusion hnot
    simp only [hcount]
    split
    · rfl
    · rename_i hopen
      rw [Bool.or_eq_true, not_or, Bool.not_eq_true, Bool.not_eq_true, Bool.not_eq_false'] at hopen
      rw [RuleLine.glob, ← hanchored, hopen.2, if_pos rfl] at hmatchers
      split
      · rfl
      · rename_i regex hregex
        rw [← Path.reach_eq_joinWith hback]
        refine Matchers.leading_search hmatchers ?_ hnames hback hsearch hself hregex
        exact fun hmem => hbracket (hpattern ▸ RuleLine.mem_text_of_mem_body hread hmem)

end Below

end Rule

end TreeSieve

import TreeSieve.Proofs.Pattern.Compiling
import TreeSieve.Proofs.Pattern.Grammar
import TreeSieve.Proofs.Pattern.Trimming

/-!
# How lines are spelled

What is written for a line is read back as this line.

* `GlobElement.piecesFrom_text` and `LineSegment.ofText_text` say so of segments, and
  `GlobLine.ofText?_text` of the marks in front of a line and of its body.
* `GlobLine.segmentTexts_glob` tells the texts of the segments of the pattern that the line stands
  for.
* `GlobLine.exists_matchers`: the pattern is compiled, and its expression finds what the line
  covers.
-/

namespace TreeSieve

/-- Nothing is put in front of a pattern that begins with `**`. -/
theorem Glob.placeFirst_anyDepth (texts : List Text) :
    placeFirst (Segment.anyDepthText :: texts) = Segment.anyDepthText :: texts := by
  cases texts with
  | nil => rfl
  | cons t rest =>
    cases t with
    | nil => cases rest <;> rfl
    | cons c cs => rfl

/-! ### Elements -/

namespace GlobElement

theorem IsWritable.slash_not_mem {e : GlobElement} (h : e.IsWritable) : '/' ∉ e.text := by
  cases e with
  | plain c =>
    intro hmem
    apply h
    simp [← List.mem_singleton.mp hmem]
  | escaped c =>
    intro hmem
    apply h
    simpa [text, eq_comm] using hmem
  | anyOne => decide
  | anyRun => decide

/-- Only the element for any run is written with asterisks alone. -/
theorem IsWritable.exists_mem {e : GlobElement} (h : e.IsWritable) (hrun : e ≠ .anyRun) :
    ∃ c ∈ e.text, c ≠ '*' := by
  cases e with
  | plain c =>
    refine ⟨c, List.mem_cons_self, fun hc => h ?_⟩
    simp [hc]
  | escaped c => exact ⟨'\\', List.mem_cons_self, by decide⟩
  | anyOne => exact ⟨'?', List.mem_cons_self, by decide⟩
  | anyRun => exact absurd rfl hrun

/-- **What is written for elements is read as their pieces.** -/
theorem piecesFrom_text {elements : List GlobElement} (h : ∀ e ∈ elements, e.IsWritable) :
    Segment.piecesFrom .ignoring 0 (elements.flatMap text) = .ok (elements.map piece) := by
  induction elements with
  | nil => rfl
  | cons e more ih =>
    have hmore := ih fun q hq => h q (List.mem_cons_of_mem e hq)
    rw [List.flatMap_cons, List.map_cons]
    cases e with
    | plain c =>
      have hc : c ∉ ['/', '\\', '*', '?', '['] := h _ List.mem_cons_self
      simp only [List.mem_cons, not_or] at hc
      show Segment.piecesFrom .ignoring 0 (c :: more.flatMap text) = _
      rw [Segment.piecesFrom, if_neg hc.2.2.1, if_neg hc.2.2.2.1, if_neg hc.2.2.2.2.1, hmore]
      · rfl
      · exact fun hbackslash => absurd hbackslash hc.2.1
      · exact fun _ _ hbackslash => absurd hbackslash hc.2.1
    | escaped c =>
      show Segment.piecesFrom .ignoring 0 ('\\' :: c :: more.flatMap text) = _
      rw [Segment.piecesFrom, hmore]
      rfl
    | anyOne =>
      show Segment.piecesFrom .ignoring 0 ('?' :: more.flatMap text) = _
      rw [Segment.piecesFrom, if_neg (by decide), if_pos rfl, hmore]
      · rfl
      · exact fun hbackslash => absurd hbackslash (by decide)
      · exact fun _ _ hbackslash => absurd hbackslash (by decide)
    | anyRun =>
      show Segment.piecesFrom .ignoring 0 ('*' :: more.flatMap text) = _
      rw [Segment.piecesFrom, if_pos rfl, hmore]
      · rfl
      · exact fun hbackslash => absurd hbackslash (by decide)
      · exact fun _ _ hbackslash => absurd hbackslash (by decide)

end GlobElement

/-! ### Segments -/

namespace LineSegment

theorem IsWritable.slash_not_mem {s : LineSegment} (h : s.IsWritable) : '/' ∉ s.text := by
  cases s with
  | depths => decide
  | whole => decide
  | row elements =>
    intro hmem
    obtain ⟨e, he, hin⟩ := List.mem_flatMap.mp hmem
    exact (h.1 e he).slash_not_mem hin

/-- A row is not written with asterisks alone. -/
theorem exists_mem_row {elements : List GlobElement} (h : (row elements).IsWritable) :
    ∃ c ∈ (row elements).text, c ≠ '*' := by
  obtain ⟨hall, e, he, hrun⟩ := h
  obtain ⟨c, hc, hne⟩ := (hall e he).exists_mem hrun
  exact ⟨c, List.mem_flatMap.mpr ⟨e, he, hc⟩, hne⟩

theorem IsWritable.text_ne_nil {s : LineSegment} (h : s.IsWritable) : s.text ≠ [] := by
  cases s with
  | depths => decide
  | whole => decide
  | row elements =>
    obtain ⟨c, hc, -⟩ := exists_mem_row h
    exact List.ne_nil_of_mem hc

theorem IsWritable.text_eq {s : LineSegment} (h : s.IsWritable) :
    s.text = Segment.anyDepthText ↔ s = depths := by
  cases s with
  | depths => exact iff_of_true rfl rfl
  | whole => decide
  | row elements =>
    obtain ⟨c, hc, hne⟩ := exists_mem_row h
    refine iff_of_false (fun htext => hne ?_) (by simp)
    rw [htext] at hc
    simpa [Segment.anyDepthText] using hc

/-- **What is written for a segment is read as this segment.** -/
theorem ofText_text {s : LineSegment} (h : s.IsWritable) :
    Segment.ofText .ignoring s.text = .ok s.segment := by
  cases s with
  | depths => rfl
  | whole => rfl
  | row elements =>
    obtain ⟨c, hc, hne⟩ := exists_mem_row h
    have hdepth : (row elements).text ≠ Segment.anyDepthText := by
      rw [Ne, h.text_eq]
      simp
    have hname : (row elements).text ≠ ['*'] := by
      intro htext
      rw [htext] at hc
      exact hne (List.mem_singleton.mp hc)
    rw [Segment.ofText, if_neg hdepth, if_neg hname, text, GlobElement.piecesFrom_text h.1]
    rfl

theorem reads_text {segments : List LineSegment} (h : ∀ s ∈ segments, s.IsWritable) :
    Segment.Reads (segments.map text) (segments.map segment) := by
  induction segments with
  | nil => exact List.Forall₂.nil
  | cons s segments ih =>
    exact List.Forall₂.cons (ofText_text (h s List.mem_cons_self))
      (ih fun q hq => h q (List.mem_cons_of_mem s hq))

/-- Merging neighbouring `**` in what is written for segments gives what is written for the merged
segments. -/
theorem mergeDepths_text {segments : List LineSegment} (h : ∀ s ∈ segments, s.IsWritable) :
    Glob.mergeDepths (segments.map text) = (merge segments).map text := by
  fun_induction merge segments with
  | case1 => rfl
  | case2 last => rfl
  | case3 first next rest hboth ih =>
    obtain ⟨rfl, rfl⟩ := hboth
    rw [← ih fun s hs => h s (List.mem_cons_of_mem _ hs)]
    rfl
  | case4 first next rest hnot ih =>
    have hfirst := (h first List.mem_cons_self).text_eq
    have hnext := (h next (by simp)).text_eq
    have hkept : ¬(decide (first.text = Segment.anyDepthText)
        && decide (next.text = Segment.anyDepthText)) = true := by
      simpa [hfirst, hnext] using hnot
    rw [List.map_cons (l := merge (next :: rest)), ← ih fun s hs => h s (List.mem_cons_of_mem _ hs)]
    show Glob.mergeDepths (first.text :: next.text :: rest.map text) = _
    rw [Glob.mergeDepths, if_neg hkept]
    rfl

end LineSegment

namespace GlobLine

variable {l : GlobLine} {names : List Text} {isDirectory : Bool}

/-! ### Bodies -/

/-- The body of a line is not empty, and does not begin with a slash. -/
theorem exists_body (hw : ∀ s ∈ l.segments, s.IsWritable) (hne : l.segments ≠ []) :
    ∃ c rest, l.body = c :: rest ∧ c ≠ '/' := by
  obtain ⟨s, more, hs⟩ := List.exists_cons_of_ne_nil hne
  have hwrite : s.IsWritable := hw s (hs ▸ List.mem_cons_self)
  obtain ⟨c, rest, hc⟩ := List.exists_cons_of_ne_nil hwrite.text_ne_nil
  have hjoin := Path.slash_joinWith (List.cons_ne_nil s.text (more.map LineSegment.text))
  rw [Path.trail_cons, List.cons.injEq] at hjoin
  have hhead : c ≠ '/' := fun hslash => hwrite.slash_not_mem (by rw [hc, hslash]; simp)
  rw [body, hs, List.map_cons, hjoin.2, hc, List.cons_append, List.cons_append]
  exact ⟨c, _, rfl, hhead⟩

theorem split_body (hw : ∀ s ∈ l.segments, s.IsWritable) (hne : l.segments ≠ []) :
    Text.split '/' l.body
      = l.segments.map LineSegment.text ++ if l.directory then [[]] else [] := by
  have hsplit : Text.split '/' (Text.joinWith '/' (l.segments.map LineSegment.text))
      = l.segments.map LineSegment.text := by
    apply Text.split_joinWith
    · simpa using hne
    · intro t ht
      obtain ⟨s, hs, rfl⟩ := List.mem_map.mp ht
      exact (hw s hs).slash_not_mem
  rw [body]
  by_cases hdirectory : l.directory = true
  · rw [if_pos hdirectory, if_pos hdirectory, Text.split_append_singleton, hsplit]
  · rw [if_neg hdirectory, if_neg hdirectory, List.append_nil, List.append_nil, hsplit]

/-! ### Patterns -/

/-- What a line of the grammar is read as: its text, its marks and its body. -/
def read (l : GlobLine) : RuleLine := ⟨l.text, l.negated, l.anchored, l.body⟩

theorem laid_isWritable (hw : ∀ s ∈ l.segments, s.IsWritable) : ∀ s ∈ l.laid, s.IsWritable := by
  intro s hs
  have hmem : s = .depths ∨ s ∈ l.segments := by
    rw [laid, rows] at hs
    split at hs <;> split at hs <;> simp at hs <;> tauto
  rcases hmem with rfl | hmem
  · exact trivial
  · exact hw s hmem

/-- **A line stands for a pattern that is laid out as its segments.** -/
theorem segmentTexts_glob (hw : ∀ s ∈ l.segments, s.IsWritable) (hne : l.segments ≠ []) :
    Glob.segmentTexts l.read.glob = (LineSegment.merge l.laid).map LineSegment.text := by
  have hfirst : Glob.placeFirst (Text.split '/' l.read.glob)
      = l.rows.map LineSegment.text ++ if l.directory then [[]] else [] := by
    show Glob.placeFirst (Text.split '/'
      (if l.anchored then '/' :: l.body else Segment.anyDepthText ++ '/' :: l.body)) = _
    rw [rows]
    by_cases hanchored : l.anchored = true
    · rw [if_pos hanchored, if_pos hanchored, ← split_body hw hne]
      rfl
    · rw [if_neg hanchored, if_neg hanchored, List.map_cons, List.cons_append, ← split_body hw hne,
        Text.split_append_sep (by decide)]
      exact Glob.placeFirst_anyDepth _
  have hlaid := laid_isWritable hw
  rw [Glob.segmentTexts, hfirst, ← LineSegment.mergeDepths_text hlaid, laid, List.map_append]
  apply congrArg
  by_cases hdirectory : l.directory = true
  · rw [if_pos hdirectory, if_pos hdirectory, Glob.placeLast_concat, if_pos rfl]
    rfl
  · rw [if_neg hdirectory, if_neg hdirectory, List.append_nil, List.map_nil, List.append_nil]
    rcases List.eq_nil_or_concat l.rows with hnil | ⟨before, last, hrows⟩
    · rw [hnil]
      rfl
    · have hlast : last.IsWritable := by
        apply hlaid
        rw [laid, hrows]
        simp
      rw [hrows, List.concat_eq_append, List.map_append, List.map_singleton,
        Glob.placeLast_concat, if_neg hlast.text_ne_nil]

/-- The pattern that a line stands for is compiled as what it is laid out as. -/
theorem exists_regex_glob (hw : ∀ s ∈ l.segments, s.IsWritable) (hne : l.segments ≠ [])
    (hlast : ∀ c ∈ l.body.getLast?, Text.isBlank c = false) :
    ∃ r directory, ignoringRegex l.read.glob = .ok r ∧
      (⟨(LineSegment.merge l.laid).map LineSegment.segment, directory⟩ : Glob).regex .ignoring
        = .ok r := by
  obtain ⟨c, rest, hbody, -⟩ := exists_body hw hne
  have hglob : ∃ front, l.read.glob = front ++ l.body ∧ front ≠ [] := by
    show ∃ front, (if l.anchored then '/' :: l.body else '*' :: '*' :: '/' :: l.body) = _ ∧ _
    split
    · exact ⟨['/'], rfl, by decide⟩
    · exact ⟨['*', '*', '/'], rfl, by decide⟩
  obtain ⟨front, hsplit, hfront⟩ := hglob
  have htrim : Glob.trimPattern l.read.glob = l.read.glob := by
    apply Glob.trimPattern_of_last
    rw [hsplit, List.getLast?_append_of_ne_nil _ (by simp [hbody])]
    exact hlast
  have hlong : 1 < l.read.glob.length := by
    have hpos := List.length_pos_of_ne_nil hfront
    rw [hsplit, hbody, List.length_append, List.length_cons]
    omega
  have hmerged : ∀ s ∈ LineSegment.merge l.laid, s.IsWritable :=
    fun s hs => laid_isWritable hw s (LineSegment.mem_merge.mp hs)
  have hlaid : l.laid ≠ [] := by
    obtain ⟨s, more, hs⟩ := List.exists_cons_of_ne_nil hne
    rw [laid, rows]
    split <;> simp [hs]
  have hread : Segment.Reads (Glob.segmentTexts l.read.glob)
      ((LineSegment.merge l.laid).map LineSegment.segment) := by
    rw [segmentTexts_glob hw hne]
    exact LineSegment.reads_text hmerged
  obtain ⟨r, hr, hregex⟩ := exists_ignoringRegex htrim
    (fun h => by simp [h] at hlong) (fun h => by simp [h] at hlong) hread
    (by simpa using LineSegment.merge_ne_nil hlaid) (by
      intro s hs
      obtain ⟨t, ht, rfl⟩ := List.mem_map.mp hs
      exact (hmerged t ht).isPlain)
  exact ⟨r, _, hr, hregex⟩

/-- The patterns of the directories that lead to what an anchored line names are compiled: each is
that of a line with some of the first segments. -/
theorem exists_leading (hw : ∀ s ∈ l.segments, s.IsWritable) (hne : l.segments ≠ [])
    (hanchored : l.anchored = true) :
    ∃ leading, (Matchers.leadingGlobs l.read.glob).mapM ignoringRegex = .ok leading := by
  obtain ⟨c, rest, hbody, hslash⟩ := exists_body hw hne
  have hglob : l.read.glob = '/' :: l.body := if_pos hanchored
  have hprefix : (Text.split '/' l.body).takeWhile Matchers.isLeading
      <+: l.segments.map LineSegment.text := by
    have hend : (if l.directory then [([] : Text)] else []).takeWhile Matchers.isLeading = [] := by
      split <;> rfl
    rw [split_body hw hne, List.takeWhile_append, hend]
    split
    · rw [List.append_nil]
    · exact List.takeWhile_prefix _
  rw [hglob, Matchers.leadingGlobs_slash (by rw [hbody]; simp [hslash])]
  apply exists_mapM
  intro pattern hpattern
  obtain ⟨depth, hdepth, rfl⟩ := List.mem_map.mp hpattern
  rw [List.mem_range] at hdepth
  rw [List.prefix_iff_eq_take.mp hprefix, List.take_take, Nat.min_eq_left (by omega),
    ← List.map_take]
  -- this is how a line is written that has the first segments and a slash at its end
  obtain ⟨r, -, hr, -⟩ := exists_regex_glob
    (l := ⟨false, true, l.segments.take (depth + 1), true⟩)
    (fun s hs => hw s (List.mem_of_mem_take hs)) (by simp [hne])
    (by
      intro c hc
      rw [body, if_pos rfl, List.getLast?_concat, Option.mem_some_iff] at hc
      rw [← hc]
      decide)
  exact ⟨r, hr⟩

theorem exists_ofGlob (hw : ∀ s ∈ l.segments, s.IsWritable) (hne : l.segments ≠ [])
    (hlast : ∀ c ∈ l.body.getLast?, Text.isBlank c = false) :
    ∃ matchers directory, Matchers.ofGlob l.read.glob = .ok matchers ∧
      (⟨(LineSegment.merge l.laid).map LineSegment.segment, directory⟩ : Glob).regex .ignoring
        = .ok matchers.exact := by
  obtain ⟨exact, directory, hexact, hregex⟩ := exists_regex_glob hw hne hlast
  rw [Matchers.ofGlob, hexact]
  by_cases hanchored : l.anchored = true
  · obtain ⟨leading, hleading⟩ := exists_leading hw hne hanchored
    have hhead : l.read.glob.head? = some '/' := by
      show (if l.anchored then '/' :: l.body else _).head? = _
      rw [if_pos hanchored]
      rfl
    refine ⟨⟨exact, leading⟩, directory, ?_, hregex⟩
    simp only [hhead, if_true, hleading]
    rfl
  · have hhead : l.read.glob.head? ≠ some '/' := by
      show (if l.anchored then '/' :: l.body else '*' :: '*' :: '/' :: l.body).head? ≠ _
      rw [if_neg hanchored]
      simp
    refine ⟨⟨exact, []⟩, directory, ?_, hregex⟩
    simp only [hhead, if_false]
    rfl

/-- What a line is laid out as matches what the line covers. -/
theorem matches_laid (h : l.IsWellFormed) (directory : Bool)
    (hn : ∀ name ∈ names, Path.IsLineName name) (hne : names ≠ []) :
    Glob.Matches .ignoring ⟨(LineSegment.merge l.laid).map LineSegment.segment, directory⟩
      (Rule.asked names isDirectory) ↔ l.Covers names isDirectory := by
  rw [Glob.matches_asked ?_ ?_ ?_ hn hne]
  · exact reach_laid h.ne_nil fun name hname => (hn name hname).slash
  · intro s hs _
    obtain ⟨t, ht, rfl⟩ := List.mem_map.mp hs
    exact (laid_isWritable h.writable t (LineSegment.mem_merge.mp ht)).isSolid
  · obtain ⟨s, hs, hdepths⟩ := h.named
    have hin : s ∈ LineSegment.merge l.laid := by
      rw [LineSegment.mem_merge, laid, rows]
      split <;> simp [hs]
    exact ⟨s.segment, List.mem_map.mpr ⟨s, hin, rfl⟩,
      fun he => hdepths (LineSegment.segment_eq_anyDepth.mp he)⟩
  · intro more htwice
    obtain ⟨first, behind, hmerge, hfirst, hbehind⟩ := List.map_eq_cons_iff.mp htwice
    obtain ⟨second, others, hothers, hsecond, -⟩ := List.map_eq_cons_iff.mp hbehind
    rw [LineSegment.segment_eq_anyDepth.mp hfirst, hothers,
      LineSegment.segment_eq_anyDepth.mp hsecond] at hmerge
    exact LineSegment.merge_ne_twice _ _ hmerge

/-- **The pattern that a line stands for is compiled, and its expression finds what the line
covers.** -/
theorem exists_matchers (h : l.IsWellFormed) :
    ∃ matchers, Matchers.ofGlob l.read.glob = .ok matchers ∧
      ∀ names isDirectory, names ≠ [] → (∀ name ∈ names, Path.IsLineName name) →
        (matchers.exact.search (Rule.asked names isDirectory) = true ↔
          l.Covers names isDirectory) := by
  obtain ⟨c, rest, hbody, -⟩ := exists_body h.writable h.ne_nil
  have hlast : ∀ c ∈ l.body.getLast?, Text.isBlank c = false := by
    intro c hc
    apply h.ending
    rw [text, ← List.append_assoc, List.getLast?_append_of_ne_nil _ (by simp [hbody])]
    exact hc
  obtain ⟨matchers, directory, hmatchers, hregex⟩ := exists_ofGlob h.writable h.ne_nil hlast
  refine ⟨matchers, hmatchers, ?_⟩
  intro names isDirectory hne hn
  rw [Glob.search_regex hregex, matches_laid h directory hn hne]

/-! ### Lines -/

theorem isBlank_of_isLinePadding {c : Char} (h : isLinePadding c = true) :
    Text.isBlank c = true := by
  simp only [isLinePadding, Bool.or_eq_true, beq_iff_eq] at h
  rcases h with ((rfl | rfl) | rfl) | rfl <;> decide

/-- Trimming a line that neither begins nor ends with a blank changes nothing. -/
theorem lineContent_of_ends {t : Text} (hstart : ∀ c ∈ t.head?, Text.isBlank c = false)
    (hend : ∀ c ∈ t.getLast?, Text.isBlank c = false) : lineContent t = t := by
  have hdrop : dropPadding t.reverse = t.reverse := by
    apply dropPadding_of_head
    intro c hc
    rw [List.head?_reverse] at hc
    have hblank := hend c hc
    rw [Bool.eq_false_iff]
    intro hpadding
    rw [isBlank_of_isLinePadding hpadding] at hblank
    exact Bool.noConfusion hblank
  rw [lineContent, Text.trimStart_of_head hstart, hdrop, List.reverse_reverse]

/-- A mark that does not stand at the start of a text is not taken off. -/
theorem takeMark_of_head {mark : Char} {t : Text} (h : t.head? ≠ some mark) :
    RuleLine.takeMark mark t = (false, t) := by
  cases t with
  | nil => rfl
  | cons c rest =>
    have hc : c ≠ mark := fun e => h (by rw [e]; rfl)
    rw [RuleLine.takeMark, if_neg hc]

/-- **A line is read as its marks and its body.** -/
theorem ofText?_text (h : l.IsWellFormed) : RuleLine.ofText? l.text = some l.read := by
  obtain ⟨c, rest, hbody, hslash⟩ := exists_body h.writable h.ne_nil
  have hbang : RuleLine.takeMark '!' l.text
      = (l.negated, (if l.anchored then ['/'] else []) ++ l.body) := by
    rw [text]
    by_cases hnegated : l.negated = true
    · rw [if_pos hnegated, hnegated]
      rfl
    · rw [Bool.not_eq_true] at hnegated
      rw [if_neg (by simp [hnegated]), hnegated, List.nil_append]
      apply takeMark_of_head
      by_cases hanchored : l.anchored = true
      · rw [if_pos hanchored]
        simp
      · rw [if_neg hanchored]
        exact h.mark hnegated (by simpa using hanchored)
  have hanchor : RuleLine.takeMark '/' ((if l.anchored then ['/'] else []) ++ l.body)
      = (l.anchored, l.body) := by
    by_cases hanchored : l.anchored = true
    · rw [if_pos hanchored, hanchored]
      rfl
    · rw [if_neg hanchored, List.nil_append, takeMark_of_head (by rw [hbody]; simp [hslash])]
      simp [hanchored]
  have hcontent : lineContent l.text = l.text :=
    lineContent_of_ends (fun c hc => (h.start c hc).1) h.ending
  have hkept : ¬(l.text.isEmpty || isComment l.text) = true := by
    have hempty : l.text ≠ [] := by simp [text, hbody]
    have hcomment : l.text.head? ≠ some '#' := fun hhead => (h.start '#' hhead).2 rfl
    simp [isComment, hempty, hcomment]
  have hnamed : ¬(l.body.isEmpty || decide (l.body = ['/'])) = true := by
    simp [hbody, hslash]
  rw [RuleLine.ofText?]
  simp only [hcontent, hkept, hbang, hanchor, hnamed]
  rfl

end GlobLine

end TreeSieve

import Mathlib.Data.List.Forall2
import TreeSieve.Proofs.Pattern.Fitting
import TreeSieve.Rule.Basic

/-!
# How patterns are cut

* `Glob.trimPattern_slash` and `Text.split_append_of_not_mem` tell what trimming a pattern that
  begins with a slash does to the texts between its slashes: only the last one can change.
* `Glob.segmentTexts_slash` gives the texts of the segments of such a pattern.
* `ignoringRegex_ok` says what a pattern that was compiled has been read as, and
  `Segment.ofText_isPlain` that a text without brackets is read as a plain segment.
-/

namespace TreeSieve

namespace Text

/-- If a text without the separator is put behind another one then it is put behind the last piece
of that one. -/
theorem split_append_of_not_mem {sep : Char} {tail : Text} (h : sep ∉ tail) (t : Text) :
    ∃ before last, split sep t = before ++ [last] ∧
      split sep (t ++ tail) = before ++ [last ++ tail] := by
  induction t with
  | nil => exact ⟨[], [], rfl, split_of_not_mem h⟩
  | cons c cs ih =>
    obtain ⟨before, last, hcs, htail⟩ := ih
    by_cases hc : c = sep
    · refine ⟨[] :: before, last, ?_, ?_⟩
      · rw [split, if_pos hc, hcs, List.cons_append]
      · rw [List.cons_append, split, if_pos hc, htail, List.cons_append]
    · cases before with
      | nil =>
        refine ⟨[], c :: last, ?_, ?_⟩
        · rw [split, if_neg hc, hcs]
          rfl
        · rw [List.cons_append, split, if_neg hc, htail]
          rfl
      | cons piece before =>
        refine ⟨(c :: piece) :: before, last, ?_, ?_⟩
        · rw [split, if_neg hc, hcs]
          rfl
        · rw [List.cons_append, split, if_neg hc, htail]
          rfl

/-- A separator at the end of a text adds an empty piece. -/
theorem split_append_singleton (sep : Char) (t : Text) :
    split sep (t ++ [sep]) = split sep t ++ [[]] := by
  induction t with
  | nil => simp [split]
  | cons c cs ih =>
    rw [List.cons_append, split, split, ih]
    by_cases hc : c = sep
    · rw [if_pos hc, if_pos hc, List.cons_append]
    · rw [if_neg hc, if_neg hc]
      cases hs : split sep cs with
      | nil => exact absurd hs (split_ne_nil sep cs)
      | cons piece pieces => rfl

theorem split_getLast?_of_sep {sep : Char} {t : Text} (h : t.getLast? = some sep) :
    (split sep t).getLast? = some [] := by
  obtain ⟨front, rfl⟩ := List.getLast?_eq_some_iff.mp h
  rw [split_append_singleton, List.getLast?_concat]

/-- The pieces of a text are made of its characters. -/
theorem mem_of_mem_split {sep : Char} {t piece : Text} (h : piece ∈ split sep t) :
    ∀ c ∈ piece, c ∈ t := by
  induction t generalizing piece with
  | nil =>
    rw [split, List.mem_singleton] at h
    rw [h]
    exact fun c hc => absurd hc List.not_mem_nil
  | cons d cs ih =>
    rw [split] at h
    intro c hc
    by_cases hd : d = sep
    · rw [if_pos hd, List.mem_cons] at h
      rcases h with rfl | h
      · exact absurd hc List.not_mem_nil
      · exact List.mem_cons_of_mem d (ih h c hc)
    · rw [if_neg hd] at h
      cases hs : split sep cs with
      | nil => exact absurd hs (split_ne_nil sep cs)
      | cons first pieces =>
        rw [hs] at h ih
        rcases List.mem_cons.mp h with rfl | h
        · rcases List.mem_cons.mp hc with rfl | hc
          · exact List.mem_cons_self
          · exact List.mem_cons_of_mem d (ih List.mem_cons_self c hc)
        · exact List.mem_cons_of_mem d (ih (List.mem_cons_of_mem first h) c hc)

theorem dropEndWhile_concat (test : Char → Bool) (t : Text) (c : Char) :
    dropEndWhile test (t ++ [c]) = if test c then dropEndWhile test t else t ++ [c] := by
  rw [dropEndWhile, dropEndWhile, List.reverse_append, List.reverse_singleton,
    List.singleton_append, List.dropWhile_cons]
  split
  · rfl
  · rw [List.reverse_cons, List.reverse_reverse]

/-- What is dropped from the end of a text are characters that satisfy the test. -/
theorem dropEndWhile_append (test : Char → Bool) (t : Text) :
    ∃ tail, t = dropEndWhile test t ++ tail ∧ ∀ c ∈ tail, test c = true := by
  refine ⟨(t.reverse.takeWhile test).reverse, ?_, ?_⟩
  · rw [dropEndWhile, ← List.reverse_append, List.takeWhile_append_dropWhile, List.reverse_reverse]
  · intro c hc
    exact List.mem_takeWhile_imp (List.mem_reverse.mp hc)

end Text

/-! ### Segments of a pattern -/

namespace Glob

/-- Trimming a pattern that begins with a slash keeps this slash, and what is dropped holds no
slash. -/
theorem trimPattern_slash (body : Text) :
    ∃ kept tail, trimPattern ('/' :: body) = '/' :: kept ∧ body = kept ++ tail ∧ '/' ∉ tail := by
  unfold trimPattern
  split
  · exact ⟨body, [], rfl, (List.append_nil body).symm, List.not_mem_nil⟩
  · obtain ⟨tail, hsplit, htail⟩ := Text.dropEndWhile_append Text.isBlank ('/' :: body)
    have hslash : '/' ∉ tail := fun h => absurd (htail '/' h) (by decide)
    rw [Text.trimEnd]
    cases hkept : Text.dropEndWhile Text.isBlank ('/' :: body) with
    | nil =>
      rw [hkept, List.nil_append] at hsplit
      exact absurd (hsplit ▸ List.mem_cons_self) hslash
    | cons c kept =>
      rw [hkept, List.cons_append] at hsplit
      obtain ⟨rfl, hbody⟩ := List.cons.inj hsplit
      exact ⟨kept, tail, rfl, hbody, hslash⟩

/-- A pattern that does not end in a blank is trimmed already. -/
theorem trimPattern_of_last {t : Text} (h : ∀ c ∈ t.getLast?, Text.isBlank c = false) :
    trimPattern t = t := by
  unfold trimPattern
  split
  · rfl
  · rcases List.eq_nil_or_concat t with rfl | ⟨before, last, rfl⟩
    · rfl
    · rw [List.concat_eq_append] at h ⊢
      have hlast : Text.isBlank last = false := h last (by simp)
      rw [Text.trimEnd, Text.dropEndWhile_concat, if_neg (by simp [hlast])]

theorem trimPattern_append_slash (t : Text) : trimPattern (t ++ ['/']) = t ++ ['/'] := by
  apply trimPattern_of_last
  intro c hc
  rw [List.getLast?_concat, Option.mem_some_iff] at hc
  rw [← hc]
  decide

theorem placeLast_concat (texts : List Text) (last : Text) :
    placeLast (texts ++ [last])
      = texts ++ [if last = [] then Segment.anyDepthText else last] := by
  induction texts with
  | nil =>
    rw [List.nil_append, List.nil_append, placeLast]
    split <;> rfl
  | cons text rest ih =>
    obtain ⟨next, more, hmore⟩ := List.exists_cons_of_ne_nil
      (show rest ++ [last] ≠ [] by simp)
    rw [List.cons_append, hmore, placeLast, ← hmore, ih, List.cons_append]

/-- The last text of a pattern stays the last one when `**` is put in front. -/
theorem placeFirst_getLast? {texts : List Text} (hne : texts ≠ []) (last : Text) :
    (placeFirst (texts ++ [last])).getLast? = some last := by
  obtain ⟨first, more, rfl⟩ := List.exists_cons_of_ne_nil hne
  have hkept : (first :: (more ++ [last])).getLast? = some last := by
    rw [← List.cons_append, List.getLast?_concat]
  rw [List.cons_append]
  unfold placeFirst
  split
  · rename_i heq
    rw [← (List.cons.inj heq).2, List.getLast?_concat]
  · rename_i heq
    exact absurd (List.cons.inj heq).2 (by simp)
  · rename_i heq
    rw [heq, List.getLast?_cons_cons] at hkept
    split
    · rw [List.getLast?_cons_cons, hkept]
    · rw [List.getLast?_cons_cons, List.getLast?_cons_cons, hkept]
  · exact hkept

/-- Texts that are not `**` are kept in front when neighbouring `**` are merged. -/
theorem mergeDepths_append {texts : List Text} (h : ∀ text ∈ texts, text ≠ Segment.anyDepthText)
    {more : List Text} (hne : more ≠ []) :
    mergeDepths (texts ++ more) = texts ++ mergeDepths more := by
  induction texts with
  | nil => rfl
  | cons text rest ih =>
    obtain ⟨next, behind, hbehind⟩ := List.exists_cons_of_ne_nil
      (show rest ++ more ≠ [] by simp [hne])
    have htext : text ≠ Segment.anyDepthText := h text List.mem_cons_self
    rw [List.cons_append, hbehind, mergeDepths, ← hbehind,
      ih fun q hq => h q (List.mem_cons_of_mem text hq), List.cons_append]
    simp [htext]

theorem mergeDepths_sublist (texts : List Text) : (mergeDepths texts).Sublist texts := by
  fun_induction mergeDepths texts with
  | case1 => exact List.Sublist.refl _
  | case2 last => exact List.Sublist.refl _
  | case3 text next rest _ ih => exact ih.cons text
  | case4 text next rest _ ih => exact ih.cons_cons text

theorem mergeDepths_getLast? (texts : List Text) :
    (mergeDepths texts).getLast? = texts.getLast? := by
  fun_induction mergeDepths texts with
  | case1 => rfl
  | case2 last => rfl
  | case3 text next rest _ ih => rw [ih, List.getLast?_cons_cons]
  | case4 text next rest _ ih =>
    rw [List.getLast?_cons_cons, ← ih, List.getLast?_cons]
    cases hlast : (mergeDepths (next :: rest)).getLast? with
    | none =>
      rw [ih] at hlast
      simp at hlast
    | some last => rfl

/-- The segments of a pattern that begins with a slash, in front of its last text. -/
theorem segmentTexts_slash {body : Text} {texts : List Text} {last : Text}
    (h : Text.split '/' body = texts ++ [last]) :
    segmentTexts ('/' :: body)
      = mergeDepths (texts ++ [if last = [] then Segment.anyDepthText else last]) := by
  rw [segmentTexts, Text.split, if_pos rfl, placeFirst, h, placeLast_concat]

/-- A slash at the end of a pattern stands for everything below. -/
theorem segmentTexts_append_slash (t : Text) :
    (segmentTexts (t ++ ['/'])).getLast? = some Segment.anyDepthText := by
  have hlast := placeFirst_getLast? (Text.split_ne_nil '/' t) []
  rw [segmentTexts, mergeDepths_getLast?, Text.split_append_singleton]
  rcases List.eq_nil_or_concat (placeFirst (Text.split '/' t ++ [[]])) with h | ⟨before, last, h⟩
  · rw [h] at hlast
    exact nomatch hlast
  · rw [h, List.concat_eq_append, List.getLast?_concat, Option.some.injEq] at hlast
    rw [h, List.concat_eq_append, placeLast_concat, List.getLast?_concat, if_pos hlast]

/-- The last segment of a pattern is never empty. -/
theorem segmentTexts_getLast?_ne (pattern : Text) : (segmentTexts pattern).getLast? ≠ some [] := by
  rw [segmentTexts, mergeDepths_getLast?]
  rcases List.eq_nil_or_concat (placeFirst (Text.split '/' pattern)) with h | ⟨texts, last, h⟩
  · rw [h]
    simp [placeLast]
  · rw [h, List.concat_eq_append, placeLast_concat]
    split <;> simp [Segment.anyDepthText, *]

/-- The segments of a pattern are between its slashes, or `**`. -/
theorem mem_segmentTexts {pattern text : Text} (h : text ∈ segmentTexts pattern) :
    text = Segment.anyDepthText ∨ text ∈ Text.split '/' pattern := by
  have hplaced : ∀ texts : List Text, ∀ text ∈ placeLast texts,
      text = Segment.anyDepthText ∨ text ∈ texts := by
    intro texts text htext
    rcases List.eq_nil_or_concat texts with rfl | ⟨before, last, rfl⟩
    · exact nomatch htext
    · rw [List.concat_eq_append, placeLast_concat] at htext
      rw [List.concat_eq_append]
      rcases List.mem_append.mp htext with htext | htext
      · exact Or.inr (List.mem_append_left _ htext)
      · rw [List.mem_singleton] at htext
        split at htext
        · exact Or.inl htext
        · exact Or.inr (by simp [htext])
  have hfirst : ∀ texts : List Text, ∀ text ∈ placeFirst texts,
      text = Segment.anyDepthText ∨ text ∈ texts := by
    intro texts text htext
    unfold placeFirst at htext
    split at htext
    · exact Or.inr (List.mem_cons_of_mem _ htext)
    · split at htext
      · exact Or.inr htext
      · exact List.mem_cons.mp htext
    · split at htext
      · exact Or.inr htext
      · exact List.mem_cons.mp htext
    · exact Or.inr htext
  rcases hplaced _ text ((mergeDepths_sublist _).subset h) with h | h
  · exact Or.inl h
  · exact hfirst _ text h

end Glob

/-! ### Reading segments -/

namespace Segment

/-- If a plain piece is put in front of the pieces that are read, and all of those are plain, then
all that is read is plain. -/
theorem isPlain_of_map {read : Except SegmentFault (List Piece)} {first : Piece}
    {pieces : List Piece} (h : read.map (first :: ·) = .ok pieces) (hfirst : first.IsPlain)
    (hmore : ∀ more, read = .ok more → ∀ p ∈ more, p.IsPlain) : ∀ p ∈ pieces, p.IsPlain := by
  cases read with
  | error e => cases h
  | ok more =>
    cases h
    intro p hp
    rcases List.mem_cons.mp hp with rfl | hp
    · exact hfirst
    · exact hmore more rfl p hp

/-- Pieces that are read from a text without slashes and brackets are plain. -/
theorem piecesFrom_isPlain {kind : GlobKind} {skip : Nat} {t : Text} {pieces : List Piece}
    (h : piecesFrom kind skip t = .ok pieces) (hslash : '/' ∉ t) (hbracket : '[' ∉ t) :
    ∀ p ∈ pieces, p.IsPlain := by
  have hbehind : ∀ {c d : Char} {rest : Text}, d ∉ c :: rest → d ∉ rest :=
    fun h hmem => h (List.mem_cons_of_mem _ hmem)
  fun_induction piecesFrom kind skip t generalizing pieces with
  | case1 =>
    cases h
    exact fun p hp => nomatch hp
  | case2 skip c rest ih => exact ih h (hbehind hslash) (hbehind hbracket)
  | case3 => cases h
  | case4 c rest ih =>
    refine isPlain_of_map h ?_ fun more hmore =>
      ih hmore (hbehind (hbehind hslash)) (hbehind (hbehind hbracket))
    exact fun e => hslash (by rw [e]; simp)
  | case5 rest _ _ ih =>
    exact isPlain_of_map h trivial fun more hmore => ih hmore (hbehind hslash) (hbehind hbracket)
  | case6 rest _ _ _ ih =>
    exact isPlain_of_map h trivial fun more hmore => ih hmore (hbehind hslash) (hbehind hbracket)
  | case7 => exact absurd List.mem_cons_self hbracket
  | case8 => exact absurd List.mem_cons_self hbracket
  | case9 => exact absurd List.mem_cons_self hbracket
  | case10 c rest _ _ _ _ _ ih =>
    refine isPlain_of_map h ?_ fun more hmore => ih hmore (hbehind hslash) (hbehind hbracket)
    exact fun e => hslash (by rw [e]; simp)

/-- A text without slashes and brackets is read as a plain segment. -/
theorem ofText_isPlain {kind : GlobKind} {t : Text} {s : Segment} (h : ofText kind t = .ok s)
    (hslash : '/' ∉ t) (hbracket : '[' ∉ t) : s.IsPlain := by
  rw [ofText] at h
  split at h
  · cases h
    exact trivial
  · split at h
    · cases h
      exact trivial
    · cases hpieces : piecesFrom kind 0 t with
      | error e => rw [hpieces] at h; cases h
      | ok pieces =>
        rw [hpieces] at h
        cases h
        exact piecesFrom_isPlain hpieces hslash hbracket

/-- Only `**` is read as the segment for any depth. -/
theorem ofText_eq_anyDepth {kind : GlobKind} {t : Text} (h : ofText kind t = .ok .anyDepth) :
    t = anyDepthText := by
  rw [ofText] at h
  split at h
  · assumption
  · split at h
    · cases h
    · cases hpieces : piecesFrom kind 0 t with
      | error e => rw [hpieces] at h; cases h
      | ok pieces => rw [hpieces] at h; cases h

/-- A text that is not empty is not read as no pieces. -/
theorem piecesFrom_cons_ne_nil (kind : GlobKind) (c : Char) (rest : Text) :
    piecesFrom kind 0 (c :: rest) ≠ .ok [] := by
  have hmap : ∀ {read : Except SegmentFault (List Piece)} {first : Piece},
      read.map (first :: ·) ≠ .ok [] := by
    intro read first h
    cases read <;> cases h
  intro h
  unfold piecesFrom at h
  split at h
  · rename_i hnil
    cases hnil
  · rename_i hskip _
    cases hskip
  · cases h
  · exact hmap h
  · split at h
    · exact hmap h
    · split at h
      · exact hmap h
      · split at h
        · split at h
          · exact hmap h
          · split at h
            · cases h
            · exact hmap h
        · exact hmap h

/-- Only the empty text is read as a segment without pieces. -/
theorem ofText_eq_nil {kind : GlobKind} {t : Text} (h : ofText kind t = .ok (.shape [])) :
    t = [] := by
  rw [ofText] at h
  split at h
  · cases h
  · split at h
    · cases h
    · cases hpieces : piecesFrom kind 0 t with
      | error e => rw [hpieces] at h; cases h
      | ok pieces =>
        rw [hpieces] at h
        cases h
        cases t with
        | nil => rfl
        | cons c rest => exact absurd hpieces (piecesFrom_cons_ne_nil kind c rest)

/-- Texts that are read as the given segments, in a pattern of an ignore file. -/
def Reads (texts : List Text) (segments : List Segment) : Prop :=
  List.Forall₂ (fun text s => ofText .ignoring text = .ok s) texts segments

theorem Reads.exists_text {texts : List Text} {segments : List Segment} (h : Reads texts segments)
    {s : Segment} (hs : s ∈ segments) : ∃ text ∈ texts, ofText .ignoring text = .ok s := by
  induction h with
  | nil => exact nomatch hs
  | cons hread _ ih =>
    rcases List.mem_cons.mp hs with rfl | hs
    · exact ⟨_, List.mem_cons_self, hread⟩
    · obtain ⟨text, htext, hread⟩ := ih hs
      exact ⟨text, List.mem_cons_of_mem _ htext, hread⟩

/-- Texts are read as one list of segments only. -/
theorem Reads.unique {texts : List Text} {segments other : List Segment} (h : Reads texts segments)
    (ho : Reads texts other) : segments = other := by
  induction h generalizing other with
  | nil =>
    cases ho
    rfl
  | cons hread _ ih =>
    cases ho with
    | cons hread' hrest =>
      rw [hread] at hread'
      cases hread'
      rw [ih hrest]

theorem Reads.of_concat {texts : List Text} {last : Text} {segments : List Segment}
    (h : Reads (texts ++ [last]) segments) :
    ∃ before s, segments = before ++ [s] ∧ Reads texts before ∧ ofText .ignoring last = .ok s := by
  induction texts generalizing segments with
  | nil =>
    cases h with
    | cons hlast hnil =>
      cases hnil
      exact ⟨[], _, rfl, List.Forall₂.nil, hlast⟩
  | cons text texts ih =>
    cases h with
    | cons hread hrest =>
      obtain ⟨before, s, rfl, hbefore, hlast⟩ := ih hrest
      exact ⟨_ :: before, s, rfl, List.Forall₂.cons hread hbefore, hlast⟩

theorem Reads.ne_anyDepth {texts : List Text} {segments : List Segment} (h : Reads texts segments)
    (htexts : ∀ text ∈ texts, text ≠ anyDepthText) : ∀ s ∈ segments, s ≠ .anyDepth := by
  intro s hs hdepth
  obtain ⟨text, htext, hread⟩ := h.exists_text hs
  exact htexts text htext (ofText_eq_anyDepth (hdepth ▸ hread))

end Segment

/-! ### Compiled patterns -/

/-- If a function does not fail at a list then it does not fail at any member, and gives the results
one by one. -/
theorem forall₂_of_mapM {α β ε : Type} {f : α → Except ε β} {l : List α} {results : List β}
    (h : l.mapM f = .ok results) : List.Forall₂ (fun a b => f a = .ok b) l results := by
  induction l generalizing results with
  | nil =>
    cases h
    exact List.Forall₂.nil
  | cons a l ih =>
    rw [List.mapM_cons] at h
    cases ha : f a with
    | error e => rw [ha] at h; cases h
    | ok b =>
      cases hl : l.mapM f with
      | error e => rw [ha, hl] at h; cases h
      | ok more =>
        rw [ha, hl] at h
        cases h
        exact List.Forall₂.cons ha (ih hl)

/-- What a pattern of an ignore file has been read as, if it was compiled. -/
theorem exists_segments_of_ignoringRegex {pattern : Text} {r : Regex}
    (h : ignoringRegex pattern = .ok r) :
    Glob.trimPattern pattern ≠ ['/'] ∧ ∃ segments,
      Segment.Reads (Glob.segmentTexts (Glob.trimPattern pattern)) segments ∧
      (⟨segments, Glob.endsInSlash .ignoring (Glob.trimPattern pattern)⟩ : Glob).regex .ignoring
        = .ok r := by
  rw [ignoringRegex] at h
  simp only at h
  split at h
  · cases h
  · rename_i hne
    rw [Bool.or_eq_true, decide_eq_true_eq, not_or] at hne
    refine ⟨hne.2, ?_⟩
    cases hglob : Glob.ofTrimmed .ignoring pattern (Glob.trimPattern pattern) with
    | error e => rw [hglob] at h; cases h
    | ok g =>
      rw [hglob] at h
      unfold Glob.ofTrimmed at hglob
      split at hglob
      · cases hglob
      · split at hglob
        · rename_i hread
          cases hglob
          exact ⟨_, forall₂_of_mapM hread, h⟩
        · cases hglob
        · cases hglob

theorem ignoringRegex_ok {pattern : Text} {r : Regex} (h : ignoringRegex pattern = .ok r) :
    Glob.trimPattern pattern ≠ ['/'] ∧
      ∃ g : Glob, Segment.Reads (Glob.segmentTexts (Glob.trimPattern pattern)) g.segments ∧
        g.regex .ignoring = .ok r := by
  obtain ⟨hne, segments, hread, hregex⟩ := exists_segments_of_ignoringRegex h
  exact ⟨hne, _, hread, hregex⟩

theorem Glob.trimPattern_prefix (pattern : Text) : trimPattern pattern <+: pattern := by
  unfold trimPattern
  split
  · exact List.prefix_refl pattern
  · obtain ⟨tail, hsplit, -⟩ := Text.dropEndWhile_append Text.isBlank pattern
    exact ⟨tail, hsplit.symm⟩

/-- A pattern without brackets is plain. -/
theorem Segment.Reads.isPlain {pattern : Text} {g : Glob}
    (h : Segment.Reads (Glob.segmentTexts (Glob.trimPattern pattern)) g.segments)
    (hbracket : '[' ∉ pattern) : g.IsPlain := by
  refine ⟨?_, ?_⟩
  · intro s hs
    obtain ⟨text, htext, hread⟩ := h.exists_text hs
    rcases Glob.mem_segmentTexts htext with rfl | hsplit
    · exact Segment.ofText_isPlain hread (by decide) (by decide)
    · refine Segment.ofText_isPlain hread (Text.not_mem_of_mem_split hsplit) fun hmem => ?_
      have hin := Text.mem_of_mem_split hsplit _ hmem
      exact hbracket ((Glob.trimPattern_prefix pattern).subset hin)
  · intro hlast
    have hreverse := List.forall₂_reverse_iff.mpr h
    have hne := Glob.segmentTexts_getLast?_ne (Glob.trimPattern pattern)
    rw [← List.head?_reverse] at hlast hne
    cases hreverse' : g.segments.reverse with
    | nil =>
      rw [hreverse'] at hlast
      cases hlast
    | cons s rest =>
      rw [hreverse'] at hreverse hlast
      cases hlast
      cases htexts : (Glob.segmentTexts (Glob.trimPattern pattern)).reverse with
      | nil =>
        rw [htexts] at hreverse
        cases hreverse
      | cons text texts =>
        rw [htexts] at hreverse hne
        cases hreverse with
        | cons hread _ => exact hne (congrArg some (Segment.ofText_eq_nil hread))

end TreeSieve

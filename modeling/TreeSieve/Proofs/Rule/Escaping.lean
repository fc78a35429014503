import TreeSieve.Proofs.Path.Below
import TreeSieve.Proofs.Pattern.Spelling

/-!
# Names behind backslashes

Every name can be written as a line, with a backslash in front of each character. Such a line is a
rule for the name at every depth, but for what the blanks at the end of a line and the line feeds of
a path do to it.

* `escape` writes a name. `RuleLine.ofText?_escape` says that the line is read as it stands, and
  `Glob.trimPattern_escape` what is left of its pattern if there is a blank at the end.
* `Rule.FindsName` tells the paths that are found: behind a name with a line feed in it nothing is
  looked for, and in front of a line feed at the end of a path, the path ends.
* `Rule.compile_escape` is the law, with what becomes of names that end in another blank than a
  space; `Rule.not_covers_below_lineFeed` shows that line feeds matter.
-/

namespace TreeSieve

/-- A name with a backslash in front of each character. -/
def escape (name : Text) : Text := name.flatMap fun c => ['\\', c]

@[simp] theorem escape_nil : escape [] = [] := rfl

@[simp] theorem escape_cons (c : Char) (name : Text) :
    escape (c :: name) = '\\' :: c :: escape name := rfl

theorem escape_concat (front : Text) (c : Char) :
    escape (front ++ [c]) = escape front ++ ['\\', c] := by
  rw [escape, List.flatMap_append]
  rfl

theorem slash_not_mem_escape {name : Text} (h : '/' ∉ name) : '/' ∉ escape name := by
  rw [escape, List.mem_flatMap]
  rintro ⟨c, hc, hmem⟩
  rcases List.mem_cons.mp hmem with hmem | hmem
  · exact absurd hmem (by decide)
  · rw [List.mem_singleton.mp hmem] at h
    exact h hc

/-! ### Reading the line -/

/-- Trimming a line that is escaped from a name changes nothing: if it ends in a blank then a
backslash stands in front of that. -/
theorem lineContent_escape {name : Text} : lineContent (escape name) = escape name := by
  have htrim : Text.trimStart (escape name) = escape name := by
    cases name with
    | nil => rfl
    | cons c name => rfl
  have hdrop : dropPadding (escape name).reverse = (escape name).reverse := by
    rcases List.eq_nil_or_concat name with rfl | ⟨front, c, rfl⟩
    · rfl
    · rw [List.concat_eq_append, escape_concat, List.reverse_append]
      show dropPadding (c :: '\\' :: (escape front).reverse) = _
      rw [dropPadding, if_neg (by simp)]
      rfl
  rw [lineContent, htrim, hdrop, List.reverse_reverse]

namespace RuleLine

theorem ofText?_escape {name : Text} (hne : name ≠ []) :
    ofText? (escape name) = some ⟨escape name, false, false, escape name⟩ := by
  obtain ⟨c, rest, rfl⟩ := List.exists_cons_of_ne_nil hne
  have hbang : takeMark '!' (escape (c :: rest)) = (false, escape (c :: rest)) :=
    GlobLine.takeMark_of_head (by simp)
  have hslash : takeMark '/' (escape (c :: rest)) = (false, escape (c :: rest)) :=
    GlobLine.takeMark_of_head (by simp)
  rw [ofText?]
  simp only [lineContent_escape, hbang, hslash]
  rfl

end RuleLine

namespace Glob

/-- Trimming a pattern that ends in a backslash and a character takes this character off if it is a
blank other than a space, and otherwise nothing. -/
theorem trimPattern_backslash (t : Text) (c : Char) :
    trimPattern (t ++ ['\\', c])
      = if Text.isBlank c = true ∧ c ≠ ' ' then t ++ ['\\'] else t ++ ['\\', c] := by
  have hcut : t ++ ['\\', c] = (t ++ ['\\']) ++ [c] := by simp
  by_cases hspace : c = ' '
  · rw [if_neg (fun h => h.2 hspace), hspace, trimPattern, List.reverse_append]
    rfl
  · have htrim : trimPattern (t ++ ['\\', c]) = Text.trimEnd (t ++ ['\\', c]) := by
      rw [trimPattern]
      split
      · rename_i heq
        rw [hcut, List.reverse_concat] at heq
        exact absurd (List.cons.inj heq).1 hspace
      · rfl
    rw [htrim, hcut, Text.trimEnd, Text.dropEndWhile_concat]
    by_cases hblank : Text.isBlank c = true
    · rw [if_pos hblank, if_pos ⟨hblank, hspace⟩, Text.dropEndWhile_concat, if_neg (by decide)]
    · rw [if_neg hblank, if_neg (fun h => hblank h.1)]

/-- Trimming the pattern of a line that is escaped from a name takes the last character off if it is
a blank other than a space. -/
theorem trimPattern_escape (front : Text) (c : Char) :
    trimPattern (Segment.anyDepthText ++ '/' :: escape (front ++ [c]))
      = Segment.anyDepthText ++ '/' :: if Text.isBlank c = true ∧ c ≠ ' '
        then escape front ++ ['\\'] else escape (front ++ [c]) := by
  have hsplit : Segment.anyDepthText ++ '/' :: escape (front ++ [c])
      = (Segment.anyDepthText ++ '/' :: escape front) ++ ['\\', c] := by
    rw [escape_concat, List.append_assoc, List.cons_append]
  rw [hsplit, trimPattern_backslash]
  split
  · rw [List.append_assoc, List.cons_append]
  · exact hsplit.symm

/-- The texts of a pattern that is `**`, a slash and one text are these two. -/
theorem segmentTexts_anyDepth {text : Text} (hslash : '/' ∉ text) (hne : text ≠ [])
    (hdepth : text ≠ Segment.anyDepthText) :
    segmentTexts (Segment.anyDepthText ++ '/' :: text) = [Segment.anyDepthText, text] := by
  rw [segmentTexts, Text.split_append_sep (by decide), Text.split_of_not_mem hslash,
    placeFirst_anyDepth, placeLast, placeLast, if_neg hne, mergeDepths, if_neg (by simp [hdepth]),
    mergeDepths]

end Glob

theorem escape_ne_anyDepthText (name more : Text) :
    escape name ++ '\\' :: more ≠ Segment.anyDepthText := by
  intro h
  have hmem : '\\' ∈ Segment.anyDepthText := by
    rw [← h]
    simp
  revert hmem
  decide

/-! ### Lines that are refused -/

namespace Segment

theorem piecesFrom_escape_backslash (name : Text) :
    piecesFrom .ignoring 0 (escape name ++ ['\\']) = .error .loneBackslash := by
  induction name with
  | nil => rfl
  | cons c name ih =>
    show piecesFrom .ignoring 0 ('\\' :: c :: (escape name ++ ['\\'])) = _
    rw [piecesFrom, ih]
    rfl

theorem ofText_escape_backslash (name : Text) :
    ofText .ignoring (escape name ++ ['\\']) = .error .loneBackslash := by
  have hname : escape name ++ ['\\'] ≠ ['*'] := by
    cases name with
    | nil => decide
    | cons c name => simp
  rw [ofText, if_neg (escape_ne_anyDepthText name []), if_neg hname, piecesFrom_escape_backslash]
  rfl

end Segment

/-- The pattern of a line that is escaped from a name which ends in a blank other than a space is
refused: the last backslash has nothing behind it. -/
theorem ignoringRegex_escape_blank {front : Text} {c : Char} (hslash : '/' ∉ front)
    (hblank : Text.isBlank c = true) (hspace : c ≠ ' ') :
    ignoringRegex (Segment.anyDepthText ++ '/' :: escape (front ++ [c]))
      = .error (.unreadable (Segment.anyDepthText ++ '/' :: escape (front ++ [c]))) := by
  have hname : '/' ∉ escape front ++ ['\\'] := by
    rw [List.mem_append, not_or]
    exact ⟨slash_not_mem_escape hslash, by decide⟩
  have htexts : Glob.segmentTexts (Segment.anyDepthText ++ '/' :: (escape front ++ ['\\']))
      = [Segment.anyDepthText, escape front ++ ['\\']] :=
    Glob.segmentTexts_anyDepth hname (by simp) (escape_ne_anyDepthText front [])
  have hglob : Glob.ofTrimmed .ignoring (Segment.anyDepthText ++ '/' :: escape (front ++ [c]))
      (Segment.anyDepthText ++ '/' :: (escape front ++ ['\\']))
      = .error (.unreadable (Segment.anyDepthText ++ '/' :: escape (front ++ [c]))) := by
    unfold Glob.ofTrimmed
    rw [htexts]
    simp only [List.mapM_cons, Segment.ofText_escape_backslash]
    rfl
  have htrim := Glob.trimPattern_escape front c
  rw [if_pos ⟨hblank, hspace⟩] at htrim
  rw [ignoringRegex, htrim]
  simp only [hglob]
  rfl

/-! ### Lines that are compiled -/

theorem Segment.ofText_escape {name : Text} (hne : name ≠ []) :
    ofText .ignoring (escape name) = .ok (.shape (name.map .literal)) := by
  have hpieces : piecesFrom .ignoring 0 (escape name) = .ok (name.map .literal) := by
    clear hne
    induction name with
    | nil => rfl
    | cons c name ih =>
      rw [escape_cons, piecesFrom, ih]
      rfl
  obtain ⟨c, rest, rfl⟩ := List.exists_cons_of_ne_nil hne
  have hdepth : escape (c :: rest) ≠ anyDepthText := escape_ne_anyDepthText [] (c :: escape rest)
  rw [ofText, if_neg hdepth, if_neg (by simp), hpieces]
  rfl

/-- The pattern is left as it is if there is no other blank than a space at the end. -/
theorem Glob.trimPattern_escape_of_last {name : Text} (hne : name ≠ [])
    (hblank : ∀ c ∈ name.getLast?, Text.isBlank c = true → c = ' ') :
    trimPattern (Segment.anyDepthText ++ '/' :: escape name)
      = Segment.anyDepthText ++ '/' :: escape name := by
  rcases List.eq_nil_or_concat name with rfl | ⟨front, c, rfl⟩
  · exact absurd rfl hne
  · rw [List.concat_eq_append] at hblank ⊢
    have hc : ¬(Text.isBlank c = true ∧ c ≠ ' ') := by
      rintro ⟨hc, hspace⟩
      exact hspace (hblank c (by simp) hc)
    rw [trimPattern_escape, if_neg hc]

theorem Segment.reads_escape {name : Text} (hne : name ≠ []) (hslash : '/' ∉ name) :
    Reads (Glob.segmentTexts (anyDepthText ++ '/' :: escape name))
      [.anyDepth, .shape (name.map .literal)] := by
  obtain ⟨c, rest, hname⟩ := List.exists_cons_of_ne_nil hne
  have htexts : Glob.segmentTexts (anyDepthText ++ '/' :: escape name)
      = [anyDepthText, escape name] := by
    refine Glob.segmentTexts_anyDepth (slash_not_mem_escape hslash) ?_ ?_
    · rw [hname]
      simp
    · rw [hname]
      exact escape_ne_anyDepthText [] (c :: escape rest)
  rw [htexts]
  exact .cons rfl (.cons (ofText_escape hne) .nil)

theorem Segment.isPlain_literals {name : Text} (hslash : '/' ∉ name) :
    (shape (name.map .literal)).IsPlain := by
  intro p hp
  obtain ⟨c, hc, rfl⟩ := List.mem_map.mp hp
  exact fun e => hslash (e ▸ hc)

/-- The pattern of a line that is escaped from a name is compiled as `**` and the characters of the
name, unless the name ends in a blank other than a space. -/
theorem exists_matchers_escape {name : Text} (hne : name ≠ []) (hslash : '/' ∉ name)
    (hblank : ∀ c ∈ name.getLast?, Text.isBlank c = true → c = ' ') :
    ∃ matchers directory,
      Matchers.ofGlob (Segment.anyDepthText ++ '/' :: escape name) = .ok matchers ∧
      (⟨[.anyDepth, .shape (name.map .literal)], directory⟩ : Glob).regex .ignoring
        = .ok matchers.exact := by
  have hplain : ∀ s ∈ [Segment.anyDepth, .shape (name.map .literal)], s.IsPlain :=
    List.forall_mem_cons.mpr
      ⟨trivial, List.forall_mem_singleton.mpr (Segment.isPlain_literals hslash)⟩
  obtain ⟨r, hr, hregex⟩ :=
    exists_ignoringRegex (Glob.trimPattern_escape_of_last hne hblank)
      (by simp [Segment.anyDepthText]) (by simp [Segment.anyDepthText])
      (Segment.reads_escape hne hslash) (by simp) hplain
  refine ⟨⟨r, []⟩, _, ?_, hregex⟩
  rw [Matchers.ofGlob, hr]
  rfl

/-! ### What is found -/

namespace Rule

/-- Whether a name is found below the scope of a rule for it. A line feed in an earlier name hides
what comes behind, and one at the end of a path is not looked at. -/
def FindsName (name : Text) (names : List Text) (isDirectory : Bool) : Prop :=
  ∃ passed found rest, names = passed ++ found :: rest ∧ (∀ other ∈ passed, '\n' ∉ other) ∧
    (found = name ∨ found = name ++ ['\n'] ∧ rest = [] ∧ isDirectory = false)

/-- If no name of a path holds a line feed then a name is found in it exactly if it is one of them.
-/
theorem findsName_iff_mem {name : Text} {names : List Text} {isDirectory : Bool}
    (hn : ∀ other ∈ names, '\n' ∉ other) : FindsName name names isDirectory ↔ name ∈ names := by
  constructor
  · rintro ⟨passed, found, rest, rfl, -, rfl | ⟨rfl, -⟩⟩
    · simp
    · exact absurd (by simp) (hn (name ++ ['\n']) (by simp))
  · intro hmem
    obtain ⟨passed, rest, rfl⟩ := List.append_of_mem hmem
    exact ⟨passed, name, rest, rfl, (List.forall_mem_append.mp hn).1, .inl rfl⟩

end Rule

namespace Glob

variable {name : Text} {names : List Text} {isDirectory : Bool}

/-- A row of literals takes the text of their characters, and no other. -/
theorem takeAll_literals {taken : Text} :
    Piece.TakeAll (name.map .literal) taken ↔ taken = name := by
  induction name generalizing taken with
  | nil => exact Iff.rfl
  | cons c name ih =>
    rw [List.map_cons, GlobElement.takeAll_literal]
    simp only [ih]
    constructor
    · rintro ⟨rest, rfl, rfl⟩
      rfl
    · rintro rfl
      exact ⟨name, rfl, rfl⟩

/-- Literals at the end of a pattern take something of a text exactly if it begins with them, and a
slash or the last end of a line follows. -/
theorem takeFrom_literals {before text : Text} :
    GlobPart.TakeFrom (partsAfter .ignoring false [.shape (name.map .literal)]) before text ↔
      ∃ after, text = name ++ after ∧ ((∃ more, after = '/' :: more) ∨ AtLastLineEnd after) := by
  rw [partsAfter_single (by simp), if_neg Bool.false_ne_true, List.nil_append,
    GlobPart.takeFrom_segment]
  constructor
  · rintro ⟨taken, rest, rfl, hfits, htake⟩
    rw [takeAll_literals.mp hfits]
    obtain ⟨ending, after, rfl, hending, -⟩ := GlobPart.takeFrom_cons.mp htake
    refine ⟨_, rfl, ?_⟩
    rcases hending with rfl | ⟨rfl, hend⟩
    · exact .inl ⟨after, rfl⟩
    · exact .inr hend
  · rintro ⟨after, rfl, hafter⟩
    refine ⟨name, after, rfl, takeAll_literals.mpr rfl, GlobPart.takeFrom_cons.mpr ?_⟩
    rcases hafter with ⟨more, rfl⟩ | hend
    · exact ⟨['/'], more, rfl, .inl rfl, GlobPart.takeFrom_nil _ _⟩
    · exact ⟨[], after, rfl, .inr ⟨rfl, hend⟩, GlobPart.takeFrom_nil _ _⟩

/-- Where a name begins, a text that goes on with a slash or ends is this name, or this name without
a line feed at its end. -/
theorem behind_eq_iff {found : Text} (hslash : '/' ∉ name) (hfound : '/' ∉ found) :
    (∃ after, found ++ Path.behind names isDirectory = name ++ after ∧
        ((∃ more, after = '/' :: more) ∨ AtLastLineEnd after)) ↔
      found = name ∨ found = name ++ ['\n'] ∧ names = [] ∧ isDirectory = false := by
  constructor
  · rintro ⟨after, hsplit, hafter⟩
    rcases Path.behind_cases names isDirectory with ⟨hnames, hflag, hb⟩ | ⟨more, hmore⟩
    · rw [hb, List.append_nil] at hsplit
      rcases hafter with ⟨more, rfl⟩ | rfl | rfl
      · refine absurd ?_ hfound
        rw [hsplit]
        simp
      · exact .inl (by rw [hsplit, List.append_nil])
      · exact .inr ⟨hsplit, hnames, hflag⟩
    · have hmem : '/' ∈ name ++ after := by
        rw [← hsplit, hmore]
        simp
      rcases hafter with ⟨other, rfl⟩ | hend
      · rw [hmore] at hsplit
        exact .inl (Path.eq_of_append_slash hfound hslash hsplit).1
      · -- no slash stands behind the name, though one stands behind what is found
        exfalso
        rcases List.mem_append.mp hmem with hmem | hmem
        · exact hslash hmem
        · rcases hend with rfl | rfl <;> simp at hmem
  · rintro (rfl | ⟨rfl, rfl, rfl⟩)
    · refine ⟨_, rfl, ?_⟩
      rcases Path.behind_cases names isDirectory with ⟨-, -, hb⟩ | hslash
      · exact .inr (.inl hb)
      · exact .inl hslash
    · exact ⟨['\n'], by simp [Path.behind], .inr (.inr rfl)⟩

/-- If the text of names, without its last slash, holds no line feed then no name does. -/
theorem lineFeed_not_mem_of_reach {passed : List Text} {above : Text} (hline : '\n' ∉ above)
    (hreach : Path.reach passed = above ++ ['/']) : ∀ other ∈ passed, '\n' ∉ other := by
  intro other ho hfeed
  have hmem : '\n' ∈ Path.reach passed :=
    List.mem_flatMap.mpr ⟨other, ho, List.mem_append_left _ hfeed⟩
  rw [hreach, List.mem_append] at hmem
  rcases hmem with hmem | hmem
  · exact hline hmem
  · exact absurd hmem (by decide)

section Literals

variable {directory : Bool} (hslash : '/' ∉ name)
  (hn : ∀ other ∈ names, Path.IsEntryName other)
include hslash hn

theorem findsName_of_matches (hne : name ≠ []) (hnames : names ≠ [])
    (h : Matches .ignoring ⟨[.anyDepth, .shape (name.map .literal)], directory⟩
      (Rule.asked names isDirectory)) : Rule.FindsName name names isDirectory := by
  have hslashes : ∀ other ∈ names, '/' ∉ other := fun other ho => (hn other ho).slash_not_mem
  rw [matches_of_parents rfl] at h
  obtain ⟨above, rest, hsplit, ⟨-, habove⟩, htake⟩ := h
  rw [takeFrom_literals] at htake
  rcases habove with rfl | ⟨above, -, hline, rfl⟩
  · obtain ⟨found, more, rfl⟩ := List.exists_cons_of_ne_nil hnames
    rw [List.nil_append, Path.asked_cons] at hsplit
    rw [← hsplit, behind_eq_iff hslash (hslashes found List.mem_cons_self)] at htake
    exact ⟨[], found, more, rfl, fun other ho => (nomatch ho), htake⟩
  · have hcut : Rule.asked names isDirectory = above ++ '/' :: rest := by
      rw [hsplit, List.append_assoc, List.singleton_append]
    obtain ⟨passed, left, rfl, -, hreach, hleft⟩ := Path.exists_of_asked hslashes hnames hcut
    cases left with
    | nil =>
      -- nothing stands behind the last slash
      exfalso
      have hnil : rest = [] := by
        cases isDirectory with
        | false => exact nomatch hleft
        | true => exact (List.cons.inj hleft).2.symm
      obtain ⟨after, hafter, -⟩ := htake
      rw [hnil] at hafter
      exact hne (List.nil_eq_append_iff.mp hafter).1
    | cons found more =>
      have hrest : found ++ Path.behind more isDirectory = rest := (List.cons.inj hleft).2
      rw [← hrest, behind_eq_iff hslash (hslashes found (by simp))] at htake
      exact ⟨passed, found, more, rfl, lineFeed_not_mem_of_reach hline hreach, htake⟩

theorem matches_of_findsName (h : Rule.FindsName name names isDirectory) :
    Matches .ignoring ⟨[.anyDepth, .shape (name.map .literal)], directory⟩
      (Rule.asked names isDirectory) := by
  obtain ⟨passed, found, rest, rfl, hpassed, hfound⟩ := h
  obtain ⟨hentries, hmore⟩ := List.forall_mem_append.mp hn
  refine (matches_of_parents rfl).mpr ⟨Path.reach passed, _,
    Rule.asked_append (List.cons_ne_nil found rest) isDirectory,
    ⟨rfl, Path.reach_cases fun other ho => ?_⟩, ?_⟩
  · exact ⟨(hentries other ho).ne_nil, (hentries other ho).slash_not_mem, hpassed other ho⟩
  · rw [takeFrom_literals, Path.asked_cons,
      behind_eq_iff hslash (hmore found List.mem_cons_self).slash_not_mem]
    exact hfound

/-- **A pattern that is escaped from a name finds the name.** -/
theorem matches_literals (hne : name ≠ []) (hnames : names ≠ []) :
    Matches .ignoring ⟨[.anyDepth, .shape (name.map .literal)], directory⟩
        (Rule.asked names isDirectory) ↔ Rule.FindsName name names isDirectory :=
  ⟨findsName_of_matches hslash hn hne hnames, matches_of_findsName hslash hn⟩

end Literals

end Glob

namespace Rule

theorem compile_escape_eq {name : Text} (hne : name ≠ []) (scope : Text) (number : Int)
    (source : Option Text) : compile scope (escape name) number source =
      match Matchers.ofGlob (Segment.anyDepthText ++ '/' :: escape name) with
      | .ok matchers => .ok (some
        (ofLine ⟨escape name, false, false, escape name⟩ matchers scope number source))
      | .error fault => .error ⟨escape name, fault⟩ := by
  rw [compile, RuleLine.ofText?_escape hne]
  rfl

/-- **Names behind backslashes.** A line that is escaped from a name is refused if the name ends in
a blank that is no space. Otherwise it is compiled, and the rule covers the paths in which the name
is found: where there are no line feeds, those that lead through an entry of this name. -/
theorem compile_escape {name : Text} (hne : name ≠ []) (hslash : '/' ∉ name) {scope : Text}
    (hscope : Path.startOf scope ≠ .current) (number : Int) (source : Option Text) :
    ((∃ c ∈ name.getLast?, Text.isBlank c = true ∧ c ≠ ' ') →
      compile scope (escape name) number source = .error
        ⟨escape name, .unreadable (Segment.anyDepthText ++ '/' :: escape name)⟩) ∧
    ((∀ c ∈ name.getLast?, Text.isBlank c = true → c = ' ') →
      ∃ rule, compile scope (escape name) number source = .ok (some rule) ∧
        (∀ path isDirectory, Path.LiesIn path scope → (rule.covers path isDirectory = true ↔
          FindsName name (Path.namesBelow scope path) isDirectory)) ∧
        ∀ path isDirectory, Path.LiesIn path scope → '\n' ∉ path →
          (rule.covers path isDirectory = true ↔ name ∈ Path.namesBelow scope path)) := by
  constructor
  · rintro ⟨c, hc, hblank, hspace⟩
    obtain ⟨front, rfl⟩ := List.getLast?_eq_some_iff.mp hc
    have hfront : '/' ∉ front := fun hmem => hslash (List.mem_append_left _ hmem)
    have hrefused := ignoringRegex_escape_blank hfront hblank hspace
    rw [compile_escape_eq hne, Matchers.ofGlob, hrefused]
    rfl
  · intro hblank
    obtain ⟨matchers, directory, hmatchers, hregex⟩ := exists_matchers_escape hne hslash hblank
    have hcovers : ∀ path isDirectory, Path.LiesIn path scope →
        ((ofLine ⟨escape name, false, false, escape name⟩ matchers scope number source).covers path
          isDirectory = true ↔ FindsName name (Path.namesBelow scope path) isDirectory) := by
      intro path isDirectory h
      rw [covers_iff_matches hregex rfl hscope h]
      constructor
      · rintro ⟨hnames, hmatch⟩
        exact (Glob.matches_literals hslash (h.isEntryName hscope) hne hnames).mp hmatch
      · intro hfinds
        have hnames : Path.namesBelow scope path ≠ [] := by
          obtain ⟨passed, found, rest, hsplit, -⟩ := hfinds
          rw [hsplit]
          simp
        exact ⟨hnames, (Glob.matches_literals hslash (h.isEntryName hscope) hne hnames).mpr hfinds⟩
    refine ⟨_, ?_, hcovers, ?_⟩
    · rw [compile_escape_eq hne, hmatchers]
    · intro path isDirectory h hline
      rw [hcovers path isDirectory h, findsName_iff_mem]
      intro other hother hfeed
      have hpart := List.mem_of_mem_drop hother
      exact hline (Text.mem_of_mem_split (List.mem_of_mem_filter hpart) _ hfeed)

/-- A name that begins like a comment, holds an asterisk, and ends in a space. -/
def spacedName : Text := Text.lit "#* "

/-- The name is found at any depth, and only as it is spelled. -/
theorem compile_escape_spacedName :
    ∃ rule, compile (Text.lit "/w") (escape spacedName) 1 none = .ok (some rule) ∧
      rule.covers (Text.lit "/w/x/#* /f") false = true ∧
      rule.covers (Text.lit "/w/x/#*/f") false = false := by
  have hscope : Path.startOf (Text.lit "/w") ≠ .current := by decide
  have hne : spacedName ≠ [] := by decide
  have hlast : ∀ c ∈ spacedName.getLast?, Text.isBlank c = true → c = ' ' := by
    intro c hc _
    have hspace : spacedName.getLast? = some ' ' := by decide
    rw [hspace] at hc
    exact (Option.some.inj hc).symm
  have hlaw := compile_escape hne (by decide) hscope 1 none
  obtain ⟨rule, hcompile, -, hcovers⟩ := hlaw.2 hlast
  refine ⟨rule, hcompile, (hcovers _ _ (by decide) (by decide)).mpr (by decide), ?_⟩
  rw [← Bool.not_eq_true, hcovers _ _ (by decide) (by decide)]
  decide

/-- Below a directory with a line feed in its name, a name is not found: a rule for `a` does not
cover the file `a` there. -/
theorem not_covers_below_lineFeed :
    ∃ rule, compile (Text.lit "/p") (escape (Text.lit "a")) 0 none = .ok (some rule) ∧
      Path.LiesIn (Text.lit "/p/x\ny/a") (Text.lit "/p") ∧
      ¬(rule.covers (Text.lit "/p/x\ny/a") false = true ↔
        Text.lit "a" ∈ Path.namesBelow (Text.lit "/p") (Text.lit "/p/x\ny/a")) := by
  refine ⟨_, rfl, by decide, fun h => ?_⟩
  have hcovers := h.mpr (by decide)
  revert hcovers
  decide +kernel

end Rule

end TreeSieve

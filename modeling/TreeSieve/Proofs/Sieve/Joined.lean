import TreeSieve.Proofs.Sieve.Splitting
import TreeSieve.Proofs.Sieve.Written

/-!
# Patterns written one on a line

An ignore file may be written from patterns: each on a line of its own, with line feeds between
them. Reading it gives the rules of these patterns, as long as each pattern is still one line.

* `Text.lines_joinWith` says that the lines of what is written are the patterns, and
  `Text.isUnbroken_of_mem_lines` that no line holds a character that would end it.
* `LineReading.ofLine_of_compile` is what a line comes to that gives a rule.
* `IgnoreFile.ReadsBack` says that nothing of the patterns is lost. `IgnoreFile.parse_joined` says
  that this is so for patterns without line breaks, and `IgnoreFile.parse_joined_iff` that it is so
  for no others.
-/

namespace TreeSieve

/-! ### Lines -/

namespace Text

/-- A text without the characters that end a line. -/
def IsUnbroken (t : Text) : Prop := ∀ c ∈ t, isLineBreak c = false

instance (t : Text) : Decidable t.IsUnbroken :=
  List.decidableBAll (fun c => isLineBreak c = false) t

/-- A text without line breaks is added to the line that is being read. -/
theorem linesFrom_of_isUnbroken {t : Text} (h : t.IsUnbroken) (line rest : Text) :
    linesFrom line (t ++ rest) = linesFrom (t.reverse ++ line) rest := by
  induction t generalizing line with
  | nil => rfl
  | cons c t ih =>
    have hc : isLineBreak c = false := h c List.mem_cons_self
    have hpair : c = '\r' → (t ++ rest).head? ≠ some '\n' := by
      rintro rfl
      exact absurd hc (by decide)
    rw [List.cons_append, linesFrom_cons hpair, if_neg (by rw [hc]; decide),
      ih (fun d hd => h d (List.mem_cons_of_mem c hd)), List.reverse_cons, List.append_assoc]
    rfl

/-- What is joined begins with the first piece. -/
theorem head?_joinWith {sep : Char} {first : Text} (h : first ≠ []) (rest : List Text) :
    (joinWith sep (first :: rest)).head? = first.head? := by
  obtain ⟨c, t, rfl⟩ := List.exists_cons_of_ne_nil h
  cases rest <;> rfl

/-- Texts that are written one on a line are the lines of what is written. -/
theorem lines_joinWith {texts : List Text} (hne : ∀ t ∈ texts, t ≠ [])
    (h : ∀ t ∈ texts, t.IsUnbroken) : lines (joinWith '\n' texts) = texts := by
  induction texts with
  | nil => rfl
  | cons t texts ih =>
    have ht : t.IsUnbroken := h t List.mem_cons_self
    cases texts with
    | nil =>
      have hfull : ¬(t.reverse ++ []).isEmpty = true := by simp [hne t List.mem_cons_self]
      rw [joinWith, lines, ← List.append_nil t, linesFrom_of_isUnbroken ht, linesFrom,
        if_neg hfull, List.append_nil, List.append_nil, List.reverse_reverse]
    | cons next texts =>
      have hmore := ih (fun u hu => hne u (List.mem_cons_of_mem t hu))
        fun u hu => h u (List.mem_cons_of_mem t hu)
      rw [joinWith, lines, linesFrom_of_isUnbroken ht, List.append_nil,
        linesFrom_cons fun hc => absurd hc (by decide), if_pos (by decide),
        List.reverse_reverse, ← lines, hmore]

theorem isUnbroken_nil : IsUnbroken [] := List.forall_mem_nil _

theorem IsUnbroken.reverse {t : Text} (h : t.IsUnbroken) : IsUnbroken t.reverse :=
  fun c hc => h c (List.mem_reverse.mp hc)

theorem isUnbroken_of_mem_linesFrom (before t : Text) :
    before.IsUnbroken → ∀ line ∈ linesFrom before t, line.IsUnbroken := by
  fun_induction linesFrom before t with
  | case1 => exact fun _ => List.forall_mem_nil _
  | case2 before =>
    intro hbefore line hline
    rw [List.mem_singleton.mp hline]
    exact hbefore.reverse
  | case3 before rest ih =>
    intro hbefore line hline
    rcases List.mem_cons.mp hline with rfl | hline
    · exact hbefore.reverse
    · exact ih isUnbroken_nil line hline
  | case4 before c rest hpair hbreak ih =>
    intro hbefore line hline
    rcases List.mem_cons.mp hline with rfl | hline
    · exact hbefore.reverse
    · exact ih isUnbroken_nil line hline
  | case5 before c rest hpair hbreak ih =>
    intro hbefore
    apply ih
    intro d hd
    rcases List.mem_cons.mp hd with rfl | hd
    · exact Bool.eq_false_iff.mpr hbreak
    · exact hbefore d hd

/-- No line holds a character that ends a line. -/
theorem isUnbroken_of_mem_lines {t line : Text} (h : line ∈ lines t) : line.IsUnbroken :=
  isUnbroken_of_mem_linesFrom [] t isUnbroken_nil line h

end Text

/-! ### Rules -/

/-- Whether a line gives a rule does not depend on its number, nor on where it was read. -/
theorem Rule.exists_compile {scope text : Text} {line : Int} {source : Option Text} {r : Rule}
    (h : compile scope text line source = .ok (some r)) (line' : Int) (source' : Option Text) :
    ∃ r', compile scope text line' source' = .ok (some r') ∧ r'.line = line' := by
  obtain ⟨read, matchers, hread, hmatchers, -⟩ := exists_ofLine_of_compile h
  refine ⟨ofLine read matchers scope line' source', ?_, rfl⟩
  rw [compile, hread]
  simp only [hmatchers]

namespace LineReading

/-- A trimmed line that is compiled to a rule comes to this rule, whose pattern is the line. -/
theorem ofLine_of_compile {scope text : Text} {source : Option Text} {line : Nat} {r : Rule}
    (htrim : lineContent text = text) (h : Rule.compile scope text line source = .ok (some r)) :
    ofLine scope source line text = .pattern line text (.ok (some r)) ∧ r.pattern = text := by
  obtain ⟨read, hread, -, hpattern, -, -⟩ := Rule.exists_read_of_compile h
  obtain ⟨htext, hfull, hcomment⟩ := RuleLine.text_of_ofText? hread
  rw [htext, htrim] at hpattern hfull hcomment
  rw [ofLine, htrim, if_neg (by simpa using hfull), if_neg (by simp [hcomment]), h]
  exact ⟨rfl, hpattern⟩

end LineReading

namespace IgnoreFile

/-- A file that was written from patterns and gives all of them back: each is a rule, the one that
it is compiled to by itself, and the rules stand on the lines from the first to the last. -/
structure ReadsBack (f : IgnoreFile) (scope : Text) (source : Option Text) (texts : List Text) :
    Prop where
  errors : f.errors = []
  patterns : f.rules.map (·.pattern) = texts
  lines : f.rules.map (·.line) = (List.range' 1 texts.length).map fun line : Nat => (line : Int)
  rules : f.rules.map (fun rule => Except.ok (some rule))
    = (texts.zipIdx 1).map fun entry => Rule.compile scope entry.1 (entry.2 : Nat) source

/-- Patterns that are read back hold no line break: each of them comes from a line. -/
theorem ReadsBack.isUnbroken {cache : MatcherCache} {scope : Text} {content : Content}
    {source : Option Text} {patterns : List Text}
    (h : ReadsBack (parse cache scope content source).1 scope source patterns) :
    ∀ pattern ∈ patterns, pattern.IsUnbroken := by
  intro pattern hpattern c hc
  rw [← h.patterns] at hpattern
  obtain ⟨rule, hmem, rfl⟩ := List.mem_map.mp hpattern
  obtain ⟨line, hline, number, hcompile⟩ := exists_line_of_parse hmem
  exact Text.isUnbroken_of_mem_lines hline c
    (mem_of_mem_lineContent (Rule.mem_of_mem_pattern hcompile hc))

/-- A file each line of which is a rule has these rules, and nothing is wrong with it. -/
theorem ofReadings_rules (scope : Text) (source : Option Text) {rules : List Rule}
    (hcount : rules.length ≤ maxRules) :
    (ofReadings scope source
        (rules.map fun rule => .pattern rule.line.toNat rule.pattern (.ok (some rule)))).rules
          = rules ∧
      (ofReadings scope source
        (rules.map fun rule => .pattern rule.line.toNat rule.pattern (.ok (some rule)))).errors
          = [] := by
  have hrules : (rules.map fun rule => LineReading.pattern rule.line.toNat rule.pattern
      (.ok (some rule))).filterMap (·.rule?) = rules := by
    rw [List.filterMap_map]
    exact List.filterMap_some
  rw [ofReadings_of_le scope source (by rw [hrules]; exact hcount)]
  refine ⟨hrules, ?_⟩
  show (rules.map _).filterMap _ = []
  rw [List.filterMap_map]
  exact List.filterMap_eq_nil_iff.mpr fun _ _ => rfl

section Reading

variable {scope : Text} {patterns : List Text}
  (htrim : ∀ pattern ∈ patterns, lineContent pattern = pattern)
  (hrule : ∀ pattern ∈ patterns, ∃ rule, Rule.compile scope pattern 0 none = .ok (some rule))

include htrim hrule

/-- Lines each of which is compiled to a rule come to the rules with these patterns, in this order,
on the lines from `first` on. -/
theorem exists_rules (source : Option Text) (first : Nat) : ∃ rules : List Rule,
    (patterns.zipIdx first).map (fun entry => LineReading.ofLine scope source entry.2 entry.1)
        = rules.map (fun rule => .pattern rule.line.toNat rule.pattern (.ok (some rule))) ∧
      rules.map (·.pattern) = patterns ∧
      rules.map (·.line)
        = (List.range' first patterns.length).map (fun line : Nat => (line : Int)) ∧
      rules.map (fun rule => Except.ok (some rule))
        = (patterns.zipIdx first).map fun entry =>
            Rule.compile scope entry.1 (entry.2 : Nat) source := by
  induction patterns generalizing first with
  | nil => exact ⟨[], rfl, rfl, rfl, rfl⟩
  | cons text rest ih =>
    obtain ⟨rules, hreadings, hpatterns, hlines, hrules⟩ :=
      ih (fun p hp => htrim p (List.mem_cons_of_mem text hp))
        (fun p hp => hrule p (List.mem_cons_of_mem text hp)) (first + 1)
    obtain ⟨alone, halone⟩ := hrule text List.mem_cons_self
    obtain ⟨rule, hcompile, hline⟩ := Rule.exists_compile halone (first : Int) source
    obtain ⟨hreading, hpattern⟩ :=
      LineReading.ofLine_of_compile (htrim text List.mem_cons_self) hcompile
    refine ⟨rule :: rules, ?_, ?_, ?_, ?_⟩
    · rw [List.zipIdx_cons, List.map_cons, List.map_cons, hreadings, hreading, hpattern, hline,
        Int.toNat_natCast]
    · rw [List.map_cons, hpattern, hpatterns]
    · rw [List.map_cons, hline, hlines, List.length_cons, List.range'_succ, List.map_cons]
    · rw [List.map_cons, hrules, List.zipIdx_cons, List.map_cons, hcompile]

/-- Patterns without line breaks are read back. -/
theorem parse_joined {cache : MatcherCache} (source : Option Text)
    (hcount : patterns.length ≤ maxRules)
    (hmark : ∀ first ∈ patterns.head?, first.head? ≠ some '\uFEFF')
    (hunbroken : ∀ pattern ∈ patterns, pattern.IsUnbroken) :
    ReadsBack (parse cache scope (.text (Text.joinWith '\n' patterns)) source).1 scope source
      patterns := by
  have hfull : ∀ pattern ∈ patterns, pattern ≠ [] := by
    rintro pattern hpattern rfl
    obtain ⟨rule, hcompile⟩ := hrule [] hpattern
    exact nomatch hcompile
  have hhead : (Text.joinWith '\n' patterns).head? ≠ some '\uFEFF' := by
    cases patterns with
    | nil => exact fun h => nomatch h
    | cons first rest =>
      rw [Text.head?_joinWith (hfull first List.mem_cons_self)]
      exact hmark first rfl
  obtain ⟨rules, hreadings, hpatterns, hlines, hrules⟩ := exists_rules htrim hrule source 1
  have hread : (readLines scope source cache 1
        (Text.lines (Content.text (Text.joinWith '\n' patterns)).decoded)).1
      = rules.map fun rule => .pattern rule.line.toNat rule.pattern (.ok (some rule)) := by
    rw [Content.decoded_of_head hhead, Text.lines_joinWith hfull hunbroken,
      readLines_fst, hreadings]
  have hlength : rules.length ≤ maxRules := by
    rw [← List.length_map (·.pattern), hpatterns]
    exact hcount
  obtain ⟨hgiven, herrors⟩ := ofReadings_rules scope source hlength
  rw [← hread] at hgiven herrors
  have hfile : (parse cache scope (.text (Text.joinWith '\n' patterns)) source).1.rules = rules :=
    hgiven
  refine ⟨herrors, ?_, ?_, ?_⟩
  · rw [hfile, hpatterns]
  · rw [hfile, hlines]
  · rw [hfile, hrules]

end Reading

/-- **Patterns that are written one on a line are read back**, with as many of them as a file may
have rules, and with no byte order mark in front: precisely if none of them holds a character that
ends a line. These are more than the line feed and the carriage return, the only line ends that
`lineContent` knows. -/
theorem parse_joined_iff {cache : MatcherCache} {scope : Text} {patterns : List Text}
    (source : Option Text) (hcount : patterns.length ≤ maxRules)
    (hmark : ∀ first ∈ patterns.head?, first.head? ≠ some '\uFEFF')
    (htrim : ∀ pattern ∈ patterns, lineContent pattern = pattern)
    (hrule : ∀ pattern ∈ patterns, ∃ rule, Rule.compile scope pattern 0 none = .ok (some rule)) :
    ReadsBack (parse cache scope (.text (Text.joinWith '\n' patterns)) source).1 scope source
        patterns
      ↔ ∀ pattern ∈ patterns, pattern.IsUnbroken :=
  ⟨ReadsBack.isUnbroken, parse_joined htrim hrule source hcount hmark⟩

/-- Patterns of all kinds: one that takes back, one that is anchored, one for directories, and one
that begins with a number sign and ends in a space. -/
def writtenPatterns : List Text := ["!*.md", "/docs/[a-c]?", "build/", "\\#a\\ "].map Text.lit

/-- All of them are read back. -/
theorem parse_joined_iff_writtenPatterns :
    ReadsBack (parse .empty (Text.lit "/w") (.text (Text.joinWith '\n' writtenPatterns)) none).1
      (Text.lit "/w") none writtenPatterns := by
  refine (parse_joined_iff none (by decide) (by decide) (by decide) ?_).mpr (by decide)
  rw [writtenPatterns, List.map_cons, List.map_cons, List.map_cons, List.map_cons, List.map_nil]
  simp only [List.forall_mem_cons]
  exact ⟨⟨_, rfl⟩, ⟨_, rfl⟩, ⟨_, rfl⟩, ⟨_, rfl⟩, fun _ h => nomatch h⟩

/-- A pattern with a form feed, which the name of a file may hold. -/
def brokenPattern : Text := ['a', Char.ofNat 0x0C, '*']

/-- Such a pattern is a rule by itself, and neither a line feed nor a carriage return is in it. When
it is written to a file, two rules are read from there, the second of which ignores all names. -/
theorem not_readsBack_brokenPattern :
    '\n' ∉ brokenPattern ∧ '\r' ∉ brokenPattern ∧ lineContent brokenPattern = brokenPattern ∧
      (∃ rule, Rule.compile (Text.lit "/w") brokenPattern 0 none = .ok (some rule) ∧
        rule.pattern = brokenPattern ∧ rule.covers (Text.lit "/w/b") false = false) ∧
      ¬ReadsBack (parse .empty (Text.lit "/w") (.text (Text.joinWith '\n' [brokenPattern])) none).1
        (Text.lit "/w") none [brokenPattern] ∧
      (parse .empty (Text.lit "/w") (.text (Text.joinWith '\n' [brokenPattern])) none).1.rules.map
        (fun rule => (rule.pattern, rule.covers (Text.lit "/w/b") false))
          = [(['a'], false), (['*'], true)] := by
  have hrules : (parse .empty (Text.lit "/w") (.text (Text.joinWith '\n' [brokenPattern]))
      none).1.rules.map (fun rule => (rule.pattern, rule.covers (Text.lit "/w/b") false))
        = [(['a'], false), (['*'], true)] := by
    decide +kernel
  refine ⟨by decide, by decide, by decide, ⟨_, rfl, by decide +kernel, by decide +kernel⟩, ?_,
    hrules⟩
  intro h
  have hlength := congrArg List.length h.patterns
  rw [List.length_map, ← List.length_map (fun rule : Rule =>
    (rule.pattern, rule.covers (Text.lit "/w/b") false)), hrules] at hlength
  exact absurd hlength (by decide)

end IgnoreFile

end TreeSieve

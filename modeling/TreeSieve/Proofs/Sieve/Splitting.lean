import TreeSieve.Proofs.Sieve.Pruning

/-!
# Ignore texts in two pieces

A text that is cut behind a line feed may be taken in as two texts, for the same directory and one
after the other. The lines are the same, and each is read by itself; only the numbers of the lines
start again with the second text, and these serve messages only.

* `Text.lines_append` cuts a text behind a line feed, and `readLines_append` what is read of its
  lines.
* `IgnoreFile.followedBy` joins what two texts gave, with the line numbers of the second one moved
  on; `IgnoreFile.parse_split` says that this is what the whole text gives.
* `Sieve.AnswersLike` says of two sieves that nothing they answer tells them apart, and
  `Sieve.AnswersLike.of_rules` that they need to have the same rules up to line numbers for that.
* `Sieve.insert_split` is the theorem for both.
-/

namespace TreeSieve

/-! ### Lines -/

namespace Text

theorem linesFrom_cons {line rest : Text} {c : Char} (h : c = '\r' → rest.head? ≠ some '\n') :
    linesFrom line (c :: rest)
      = if isLineBreak c then line.reverse :: linesFrom [] rest
        else linesFrom (c :: line) rest := by
  rw [linesFrom]
  rintro more rfl rfl
  exact h rfl rfl

/-- The lines of a text that is cut behind a line feed are the lines up to there and those of the
other piece. -/
theorem linesFrom_append (line t more : Text) :
    linesFrom line (t ++ '\n' :: more) = linesFrom line (t ++ ['\n']) ++ lines more := by
  have hfeed : ∀ line : Text, linesFrom line ('\n' :: more) = line.reverse :: lines more :=
    fun line => linesFrom_cons fun h => absurd h (by decide)
  fun_induction linesFrom line t with
  | case1 => exact hfeed _
  | case2 line => exact hfeed line
  | case3 line rest ih =>
    show line.reverse :: linesFrom [] (rest ++ '\n' :: more)
      = line.reverse :: (linesFrom [] (rest ++ ['\n']) ++ lines more)
    rw [ih]
  | case4 line c rest hpair hbreak ih =>
    by_cases hreturn : c = '\r' ∧ rest = []
    · -- a carriage return at the end makes one line break with the line feed
      obtain ⟨rfl, rfl⟩ := hreturn
      rfl
    · have hne : ∀ behind : Text, c = '\r' → (rest ++ '\n' :: behind).head? ≠ some '\n' := by
        intro behind hc
        obtain ⟨d, left, rfl⟩ := List.exists_cons_of_ne_nil fun hrest => hreturn ⟨hc, hrest⟩
        exact fun hd => hpair left hc (by rw [Option.some.inj hd])
      rw [List.cons_append, List.cons_append, linesFrom_cons (hne more), linesFrom_cons (hne []),
        if_pos hbreak, if_pos hbreak, ih, List.cons_append]
  | case5 line c rest hpair hbreak ih =>
    have hne : ∀ behind : Text, c = '\r' → (rest ++ '\n' :: behind).head? ≠ some '\n' := by
      rintro behind rfl
      exact absurd (by decide) hbreak
    rw [List.cons_append, List.cons_append, linesFrom_cons (hne more), linesFrom_cons (hne []),
      if_neg hbreak, if_neg hbreak, ih]

theorem lines_append (t more : Text) :
    lines (t ++ '\n' :: more) = lines (t ++ ['\n']) ++ lines more :=
  linesFrom_append [] t more

end Text

/-- A text that does not begin with a byte order mark stays as it is. -/
theorem Content.decoded_of_head {t : Text} (h : t.head? ≠ some '\uFEFF') :
    (Content.text t).decoded = t := by
  cases t with
  | nil => rfl
  | cons c t =>
    have hc : ¬(c == '\uFEFF') = true := fun e => h (by rw [eq_of_beq e]; rfl)
    show (c :: t).dropWhile (· == '\uFEFF') = c :: t
    rw [List.dropWhile_cons, if_neg hc]

/-- Only the first of two pieces has its byte order marks taken off. -/
theorem Content.decoded_append (t : Text) {more : Text} (h : more.head? ≠ some '\uFEFF') :
    (Content.text (t ++ '\n' :: more)).decoded
        = t.dropWhile (· == '\uFEFF') ++ '\n' :: more ∧
      (Content.text (t ++ ['\n'])).decoded = t.dropWhile (· == '\uFEFF') ++ ['\n'] ∧
      (Content.text more).decoded = more := by
  have hfeed : ∀ behind : Text, (t ++ '\n' :: behind).dropWhile (· == '\uFEFF')
      = t.dropWhile (· == '\uFEFF') ++ '\n' :: behind := by
    intro behind
    induction t with
    | nil => rfl
    | cons c t ih =>
      rw [List.cons_append, List.dropWhile_cons, List.dropWhile_cons]
      split
      · exact ih
      · rfl
  exact ⟨hfeed more, hfeed [], decoded_of_head h⟩

/-! ### Line numbers -/

/-- A rule of a line further down. -/
def Rule.moveLine (lines : Nat) (r : Rule) : Rule := { r with line := r.line + lines }

/-- A problem of a line further down. -/
def LineProblem.moveLine (lines : Nat) (p : LineProblem) : LineProblem :=
  { p with line := p.line + lines }

theorem Rule.compile_add (scope text : Text) (line : Int) (lines : Nat) (source : Option Text) :
    compile scope text (line + lines) source
      = (compile scope text line source).map (Option.map (moveLine lines)) := by
  rw [compile, compile]
  cases RuleLine.ofText? text with
  | none => rfl
  | some read =>
    simp only
    cases Matchers.ofGlob read.glob with
    | error fault => rfl
    | ok matchers => rfl

namespace LineReading

/-- What a line comes to, moved down by a number of lines. -/
def moveLine (lines : Nat) : LineReading → LineReading
  | pattern line text compiled =>
    pattern (line + lines) text (compiled.map (Option.map (Rule.moveLine lines)))
  | reading => reading

variable (lines : Nat) (reading : LineReading)

theorem ofLine_add (scope : Text) (source : Option Text) (line : Nat) (text : Text) :
    ofLine scope source (line + lines) text = (ofLine scope source line text).moveLine lines := by
  rw [ofLine, ofLine]
  split
  · rfl
  · split
    · rfl
    · rw [moveLine, Int.natCast_add, Rule.compile_add]

theorem pattern?_moveLine : (reading.moveLine lines).pattern? = reading.pattern? := by
  cases reading <;> rfl

theorem rule?_moveLine :
    (reading.moveLine lines).rule? = reading.rule?.map (Rule.moveLine lines) := by
  cases reading with
  | pattern line text compiled =>
    cases compiled with
    | error e => rfl
    | ok found => rfl
  | empty => rfl
  | comment => rfl

theorem validPattern?_moveLine :
    (reading.moveLine lines).validPattern? = reading.validPattern? := by
  cases reading with
  | pattern line text compiled =>
    cases compiled with
    | error e => rfl
    | ok found => cases found <;> rfl
  | empty => rfl
  | comment => rfl

theorem error?_moveLine :
    (reading.moveLine lines).error? = reading.error?.map (LineProblem.moveLine lines) := by
  cases reading with
  | pattern line text compiled => cases compiled <;> rfl
  | empty => rfl
  | comment => rfl

theorem warnings_moveLine :
    (reading.moveLine lines).warnings = reading.warnings.map (LineProblem.moveLine lines) := by
  cases reading with
  | pattern line text compiled =>
    cases compiled with
    | error e => rfl
    | ok found =>
      show (warningsFor text).map _ = ((warningsFor text).map _).map (LineProblem.moveLine lines)
      rw [List.map_map]
      rfl
  | empty => rfl
  | comment => rfl

end LineReading

/-- Further lines are read as if they stood alone, but for their numbers. -/
theorem readLines_append (scope : Text) (source : Option Text) (cache other : MatcherCache)
    (line : Nat) (texts more : List Text) :
    (readLines scope source cache line (texts ++ more)).1
      = (readLines scope source cache line texts).1
        ++ (readLines scope source other line more).1.map (·.moveLine texts.length) := by
  rw [readLines_fst, readLines_fst, readLines_fst, List.zipIdx_append, List.map_append,
    List.map_map]
  apply congrArg
  induction more generalizing line with
  | nil => rfl
  | cons text more ih =>
    rw [List.zipIdx_cons, List.zipIdx_cons, List.map_cons, List.map_cons, Nat.add_right_comm, ih]
    exact congrArg (· :: _) (LineReading.ofLine_add texts.length scope source line text)

theorem length_readLines (scope : Text) (source : Option Text) (cache : MatcherCache) (line : Nat)
    (texts : List Text) : (readLines scope source cache line texts).1.length = texts.length := by
  rw [readLines_fst, List.length_map, List.length_zipIdx]

/-! ### Files in two pieces -/

namespace IgnoreFile

/-- What two texts gave, as if the second one stood behind the first one in one file. -/
def followedBy (f g : IgnoreFile) : IgnoreFile where
  scope := f.scope
  source := f.source
  patterns := f.patterns ++ g.patterns
  validPatterns := f.validPatterns ++ g.validPatterns
  rules := f.rules ++ g.rules.map (Rule.moveLine f.counts.total)
  errors := f.errors ++ g.errors.map (LineProblem.moveLine f.counts.total)
  warnings := f.warnings ++ g.warnings.map (LineProblem.moveLine f.counts.total)
  counts := ⟨f.counts.total + g.counts.total, f.counts.empty + g.counts.empty,
    f.counts.comment + g.counts.comment, f.counts.pattern + g.counts.pattern⟩

/-- How many rules the lines of a text give, before any of them is left out. -/
def ruleCount (cache : MatcherCache) (scope : Text) (content : Content) (source : Option Text) :
    Nat :=
  ((readLines scope source cache 1 (Text.lines content.decoded)).1.filterMap (·.rule?)).length

/-- If what is collected of a line moves with the line then what is collected of moved lines is
moved, too. -/
theorem filterMap_moveLine {α : Type} {lines : Nat} {collect : LineReading → Option α}
    {move : α → α} (h : ∀ reading, collect (reading.moveLine lines) = (collect reading).map move)
    (readings : List LineReading) :
    (readings.map (·.moveLine lines)).filterMap collect
      = (readings.filterMap collect).map move := by
  rw [List.filterMap_map, List.map_filterMap]
  exact congrArg (List.filterMap · readings) (funext h)

theorem flatMap_warnings_moveLine (lines : Nat) (readings : List LineReading) :
    (readings.map (·.moveLine lines)).flatMap (·.warnings)
      = (readings.flatMap (·.warnings)).map (LineProblem.moveLine lines) := by
  rw [List.flatMap_map, List.map_flatMap]
  exact congrArg (List.flatMap · readings)
    (funext fun reading => reading.warnings_moveLine lines)

theorem countLines_append (readings more : List LineReading) (lines : Nat) :
    countLines (readings ++ more.map (·.moveLine lines))
      = ⟨(countLines readings).total + (countLines more).total,
        (countLines readings).empty + (countLines more).empty,
        (countLines readings).comment + (countLines more).comment,
        (countLines readings).pattern + (countLines more).pattern⟩ := by
  have hkind : ∀ kind : LineReading → Bool,
      (∀ reading : LineReading, kind (reading.moveLine lines) = kind reading) →
      (more.map (·.moveLine lines)).countP kind = more.countP kind := by
    intro kind h
    rw [List.countP_map]
    exact congrArg (List.countP · more) (funext h)
  rw [countLines, List.length_append, List.length_map, List.countP_append, List.countP_append,
    List.countP_append, hkind, hkind, hkind]
  · rfl
  · exact fun reading => by cases reading <;> rfl
  · exact fun reading => by cases reading <;> rfl
  · exact fun reading => by cases reading <;> rfl

/-- Lines give as many valid patterns as rules. -/
theorem length_validPatterns (readings : List LineReading) :
    (readings.filterMap (·.validPattern?)).length = (readings.filterMap (·.rule?)).length := by
  rw [List.length_filterMap_eq_countP, List.length_filterMap_eq_countP]
  refine congrArg (List.countP · readings) (funext fun reading => ?_)
  cases reading with
  | pattern line text compiled =>
    cases compiled with
    | error e => rfl
    | ok found => cases found <;> rfl
  | empty => rfl
  | comment => rfl

/-- Lines with no more rules than a file may have give all of these rules, and no problem with their
number. -/
theorem ofReadings_of_le (scope : Text) (source : Option Text) {readings : List LineReading}
    (h : (readings.filterMap (·.rule?)).length ≤ maxRules) :
    ofReadings scope source readings =
      { scope := scope
        source := source
        patterns := readings.filterMap (·.pattern?)
        validPatterns := readings.filterMap (·.validPattern?)
        rules := readings.filterMap (·.rule?)
        errors := readings.filterMap (·.error?)
        warnings := readings.flatMap (·.warnings)
        counts := countLines readings } := by
  have hvalid : (readings.filterMap (·.validPattern?)).length ≤ maxRules := by
    rw [length_validPatterns]
    exact h
  rw [ofReadings, List.take_of_length_le h, List.take_of_length_le hvalid, tooManyRules,
    if_neg (Nat.not_lt.mpr h), List.append_nil]

/-- Lines with no more rules than a file may have give what two parts of them give, the second one
moved down. -/
theorem ofReadings_append (scope : Text) (source : Option Text) {readings more : List LineReading}
    (h : ((readings ++ more.map (·.moveLine readings.length)).filterMap (·.rule?)).length
      ≤ maxRules) :
    ofReadings scope source (readings ++ more.map (·.moveLine readings.length))
      = (ofReadings scope source readings).followedBy (ofReadings scope source more) := by
  have hrules : (more.map (·.moveLine readings.length)).filterMap (·.rule?)
      = (more.filterMap (·.rule?)).map (Rule.moveLine readings.length) :=
    filterMap_moveLine (LineReading.rule?_moveLine readings.length) more
  have herrors : (more.map (·.moveLine readings.length)).filterMap (·.error?)
      = (more.filterMap (·.error?)).map (LineProblem.moveLine readings.length) :=
    filterMap_moveLine (LineReading.error?_moveLine readings.length) more
  have hpatterns : (more.map (·.moveLine readings.length)).filterMap (·.pattern?)
      = (more.filterMap (·.pattern?)).map id :=
    filterMap_moveLine (fun reading => by simp [reading.pattern?_moveLine]) more
  have hvalid : (more.map (·.moveLine readings.length)).filterMap (·.validPattern?)
      = (more.filterMap (·.validPattern?)).map id :=
    filterMap_moveLine (fun reading => by simp [reading.validPattern?_moveLine]) more
  have hlength := h
  rw [List.filterMap_append, hrules, List.length_append, List.length_map] at hlength
  have hfirst : (readings.filterMap (·.rule?)).length ≤ maxRules := by omega
  have hsecond : (more.filterMap (·.rule?)).length ≤ maxRules := by omega
  rw [ofReadings_of_le scope source h, ofReadings_of_le scope source hfirst,
    ofReadings_of_le scope source hsecond, followedBy, countLines_append]
  simp only [List.filterMap_append, List.flatMap_append, hrules, herrors, hpatterns, hvalid,
    flatMap_warnings_moveLine, List.map_id]
  rfl

/-- **A text that is cut behind a line feed gives what its pieces give.** The second piece must not
begin with a byte order mark, which would be taken off, and no rule may be left out. -/
theorem parse_split (cache other : MatcherCache) (scope : Text) (source : Option Text)
    {text more : Text} (hmark : more.head? ≠ some '\uFEFF')
    (hcount : ruleCount cache scope (.text (text ++ '\n' :: more)) source ≤ maxRules) :
    (parse cache scope (.text (text ++ '\n' :: more)) source).1
      = (parse cache scope (.text (text ++ ['\n'])) source).1.followedBy
          (parse other scope (.text more) source).1 := by
  obtain ⟨hwhole, hfirst, hsecond⟩ := Content.decoded_append text hmark
  have hreadings := readLines_append scope source cache other 1
    (Text.lines (Content.text (text ++ ['\n'])).decoded) (Text.lines more)
  rw [hfirst, ← Text.lines_append, ← hwhole, ← hfirst,
    ← length_readLines scope source cache 1 (Text.lines _)] at hreadings
  rw [ruleCount, hreadings] at hcount
  have hboth := ofReadings_append scope source hcount
  rw [← hreadings] at hboth
  show ofReadings scope source _ = followedBy (ofReadings scope source _)
    (ofReadings scope source (readLines scope source other 1 (Text.lines _)).1)
  rw [hsecond]
  exact hboth

end IgnoreFile

/-! ### Rules up to line numbers -/

/-- A rule without its line. -/
def Rule.unplaced (r : Rule) : Rule := { r with line := 0 }

/-- A numbered rule without its line. -/
def unplaced (entry : Nat × Rule) : Nat × Rule := (entry.1, entry.2.unplaced)

/-- Numbered rules that differ in their lines only have the same number, are both negated or both
not, and may cover the same directories below. -/
theorem eq_of_unplaced_eq {entry other : Nat × Rule} (h : unplaced entry = unplaced other) :
    entry.1 = other.1 ∧ entry.2.negated = other.2.negated ∧
      ∀ directory, entry.2.mayCoverBelow directory = other.2.mayCoverBelow directory := by
  obtain ⟨hnumber, hrule⟩ := Prod.mk.inj h
  have hnegated := congrArg Rule.negated hrule
  have hmay := fun directory => congrArg (Rule.mayCoverBelow · directory) hrule
  exact ⟨hnumber, hnegated, hmay⟩

/-- The rule that decides is the same, up to its line, if the lines of rules are left out. -/
theorem Verdict.deciding_unplaced (rules : List (Nat × Rule)) (path : Text) (isDirectory : Bool) :
    (ofRules (rules.map unplaced) path isDirectory).deciding
      = (ofRules rules path isDirectory).deciding.map unplaced := by
  rw [ofRules, ofRules, ← List.map_reverse, List.find?_map]
  rfl

/-- The rules of one block are, up to their lines, those of two blocks which share them. -/
theorem RuleBlock.numbered_append (scope : Text) (source : Option Text) (start lines : Nat)
    (rules more : List Rule) :
    (numbered ⟨scope, rules ++ more.map (Rule.moveLine lines), source, start⟩).map unplaced
      = (numbered ⟨scope, rules, source, start⟩
          ++ numbered ⟨scope, more, source, start + rules.length⟩).map unplaced := by
  rw [numbered, numbered, numbered, List.zipIdx_append, List.zipIdx_map, List.map_append,
    List.map_append, List.map_append]
  apply congrArg
  rw [List.map_map, List.map_map, List.map_map]
  rfl

namespace Sieve

/-- Two sieves that no answer tells apart: the same paths are ignored, for the same patterns under
the same numbers, the same directories are looked into, and there are as many rules, and as many
negated ones. -/
structure AnswersLike (s s' : Sieve) : Prop where
  ignored : ∀ path isDirectory, s.isIgnored path isDirectory = s'.isIgnored path isDirectory
  deciding : ∀ path isDirectory,
    (s.verdict path isDirectory).deciding.map (fun entry => (entry.1, entry.2.pattern))
      = (s'.verdict path isDirectory).deciding.map fun entry => (entry.1, entry.2.pattern)
  enters : ∀ directory, (s.entering directory).enters = (s'.entering directory).enters
  rules : s.stats.1.rules = s'.stats.1.rules
  negated : s.stats.1.negated = s'.stats.1.negated

section Unplaced

variable {s s' : Sieve}

theorem deciding_unplaced_eq {path : Text}
    (h : (s.rulesFor path).map unplaced = (s'.rulesFor path).map unplaced) (isDirectory : Bool) :
    (s.verdict path isDirectory).deciding.map unplaced
      = (s'.verdict path isDirectory).deciding.map unplaced := by
  rw [verdict, verdict, ← Verdict.deciding_unplaced, ← Verdict.deciding_unplaced, h]

/-- If two sieves have the same rules for a directory, up to their lines, and one prunes it then so
does the other one. -/
theorem enters_eq_false_of_unplaced {directory : Text}
    (h : (s.rulesFor directory).map unplaced = (s'.rulesFor directory).map unplaced)
    (hpruned : (s.entering directory).enters = false) :
    (s'.entering directory).enters = false := by
  obtain ⟨entry, hdeciding, hneg, hlater⟩ := enters_eq_false_iff.mp hpruned
  have hboth := deciding_unplaced_eq h true
  rw [hdeciding] at hboth
  obtain ⟨entry', hdeciding', hsame⟩ := Option.map_eq_some_iff.mp hboth.symm
  obtain ⟨hnumber, hnegated, -⟩ := eq_of_unplaced_eq hsame
  refine enters_eq_false_iff.mpr ⟨entry', hdeciding', hnegated.trans hneg, ?_⟩
  intro later' hlater' hlt hnegated'
  have hmem : unplaced later' ∈ (s.rulesFor directory).map unplaced := by
    rw [h]
    exact List.mem_map_of_mem hlater'
  obtain ⟨later, hin, hsame'⟩ := List.mem_map.mp hmem
  obtain ⟨hnumber', hnegated'', hmay⟩ := eq_of_unplaced_eq hsame'
  rw [← hmay]
  exact hlater later hin (by omega) (hnegated''.trans hnegated')

/-- **Sieves with the same rules up to their lines answer alike.** -/
theorem AnswersLike.of_rules (hall : s.rulebook.rules.map unplaced = s'.rulebook.rules.map unplaced)
    (h : ∀ path, (s.rulesFor path).map unplaced = (s'.rulesFor path).map unplaced) :
    s.AnswersLike s' where
  ignored := by
    intro path isDirectory
    have hboth := deciding_unplaced_eq (h path) isDirectory
    have hignored : ∀ v : Verdict, v.ignored = Verdict.ignored ⟨v.deciding.map unplaced⟩ := by
      rintro ⟨deciding⟩
      cases deciding <;> rfl
    rw [isIgnored, isIgnored, hignored, hboth, ← hignored]
  deciding := by
    intro path isDirectory
    have hboth := congrArg (Option.map fun entry => (entry.1, entry.2.pattern))
      (deciding_unplaced_eq (h path) isDirectory)
    rw [Option.map_map, Option.map_map] at hboth
    exact hboth
  enters := by
    intro directory
    rw [Bool.eq_iff_iff, ← not_iff_not, Bool.not_eq_true, Bool.not_eq_true]
    exact ⟨enters_eq_false_of_unplaced (h directory),
      enters_eq_false_of_unplaced (h directory).symm⟩
  rules := by
    have hlength := congrArg List.length hall
    rw [List.length_map, List.length_map] at hlength
    show s.rulebook.size = s'.rulebook.size
    rw [← Rulebook.length_rules, ← Rulebook.length_rules, hlength]
  negated := by
    have hnegated : ∀ r : Rulebook, (r.rules.filter (·.2.negated)).length
        = (r.rules.map unplaced).countP (·.2.negated) := by
      intro r
      rw [← List.countP_eq_length_filter, List.countP_map]
      rfl
    show (s.rulebook.rules.filter (·.2.negated)).length
      = (s'.rulebook.rules.filter (·.2.negated)).length
    rw [hnegated, hnegated, hall]

end Unplaced

/-- A block of rules for a scope can be added in two parts. -/
theorem AnswersLike.of_blocks {s s' : Sieve} {r : Rulebook} {scope : Text}
    {source : Option Text} {start lines : Nat} {rules more : List Rule}
    (hone : s.rulebook.blocks
      = r.blocks ++ [⟨scope, rules ++ more.map (Rule.moveLine lines), source, start⟩])
    (htwo : s'.rulebook.blocks = r.blocks
      ++ [⟨scope, rules, source, start⟩, ⟨scope, more, source, start + rules.length⟩]) :
    s.AnswersLike s' := by
  have hnumbered := RuleBlock.numbered_append scope source start lines rules more
  apply AnswersLike.of_rules
  · rw [Rulebook.rules, Rulebook.rules, hone, htwo, List.flatMap_append, List.flatMap_append,
      List.map_append, List.map_append, List.flatMap_singleton, List.flatMap_cons,
      List.flatMap_singleton, hnumbered]
  · intro path
    rw [rulesFor, rulesFor, Rulebook.rulesFor_append hone, Rulebook.rulesFor_append htwo,
      List.map_append, List.map_append]
    apply congrArg
    -- the blocks have one scope, so that all of them hold for the path or none does
    have happlies : ∀ (rules : List Rule) (start : Nat),
        RuleBlock.appliesTo ⟨scope, rules, source, start⟩ (canonical path)
          = inScope (canonical path) scope := fun _ _ => rfl
    simp only [List.filter_cons, List.filter_nil, happlies]
    cases inScope (canonical path) scope with
    | true => simpa using hnumbered
    | false => rfl

/-- **A text may be taken in in two pieces.** The sieve that has taken in a text, and the one that
has taken in its two pieces for the same directory, give the same answers; and what there is to
report of the text is what there is to report of the pieces, with the lines of the second one moved
on by those of the first. -/
theorem insert_split (s : Sieve) (scope : Text) (source : Option Text) {text more : Text}
    (hmark : more.head? ≠ some '\uFEFF')
    (hcount : IgnoreFile.ruleCount s.cache scope (.text (text ++ '\n' :: more)) source
      ≤ IgnoreFile.maxRules) :
    let whole := s.insert scope (.text (text ++ '\n' :: more)) source
    let first := s.insert scope (.text (text ++ ['\n'])) source
    let second := first.2.insert scope (.text more) source
    whole.1 = first.1.followedBy second.1 ∧ whole.2.AnswersLike second.2 := by
  intro whole first second
  have hfile : whole.1 = first.1.followedBy second.1 :=
    IgnoreFile.parse_split s.cache first.2.cache scope source hmark hcount
  have hone : whole.2.rulebook.blocks = s.rulebook.blocks ++ [⟨canonical scope, first.1.rules
      ++ second.1.rules.map (Rule.moveLine first.1.counts.total), source, s.rulebook.size⟩] := by
    show s.rulebook.blocks ++ [⟨canonical scope, whole.1.rules, source, s.rulebook.size⟩] = _
    rw [hfile]
    rfl
  have htwo : second.2.rulebook.blocks = s.rulebook.blocks
      ++ [⟨canonical scope, first.1.rules, source, s.rulebook.size⟩,
        ⟨canonical scope, second.1.rules, source, s.rulebook.size + first.1.rules.length⟩] := by
    show (s.rulebook.blocks ++ [⟨canonical scope, first.1.rules, source, s.rulebook.size⟩])
      ++ [⟨canonical scope, second.1.rules, source,
        (s.rulebook.add scope first.1.rules source).size⟩] = _
    rw [Rulebook.size_add, List.append_assoc]
    rfl
  exact ⟨hfile, AnswersLike.of_blocks hone htwo⟩

/-- A line of Windows, up to its line feed. -/
def objectLine : Text := Text.lit "*.o\r"

/-- A line that is no pattern, and one for a file to keep. -/
def keptLines : Text := Text.lit "/a\\\n!x.o"

/-- The line that is refused is the second one of the whole text, and the file is kept. -/
theorem insert_split_keptLines :
    let whole := empty.insert (Text.lit "/w") (.text (objectLine ++ '\n' :: keptLines)) none
    whole.1.errors.map (·.line) = [2] ∧
      whole.2.isIgnored (Text.lit "/w/x.o") false = false ∧
      whole.2.isIgnored (Text.lit "/w/y.o") false = true := by
  intro whole
  obtain ⟨hfile, halike⟩ :=
    @insert_split empty (Text.lit "/w") none objectLine keptLines (by decide) (by decide +kernel)
  refine ⟨?_, ?_, ?_⟩
  · show whole.1.errors.map (·.line) = [2]
    rw [hfile]
    decide +kernel
  · rw [halike.ignored]
    decide +kernel
  · rw [halike.ignored]
    decide +kernel

end Sieve

end TreeSieve

import TreeSieve.Proofs.Sieve.Built

/-!
# What rules are written with

The pattern of a rule is a piece of the ignore file that the rule was read from, so a character that
the file does not hold is in none of its patterns.

* `Rule.mem_of_mem_pattern` says so for a line, `IgnoreFile.mem_of_mem_pattern` for a whole text.
-/

namespace TreeSieve

/-! ### Lines -/

theorem mem_of_mem_linesFrom (t : Text) : ∀ (before : Text), ∀ line ∈ Text.linesFrom before t,
    ∀ c ∈ line, c ∈ before ∨ c ∈ t := by
  intro before
  induction before, t using Text.linesFrom.induct with
  | case1 before hempty =>
    intro line hline
    rw [Text.linesFrom, if_pos hempty] at hline
    exact nomatch hline
  | case2 before hne =>
    intro line hline c hc
    rw [Text.linesFrom, if_neg hne] at hline
    rw [List.mem_singleton.mp hline, List.mem_reverse] at hc
    exact Or.inl hc
  | case3 before rest ih =>
    intro line hline c hc
    rw [Text.linesFrom] at hline
    rcases List.mem_cons.mp hline with rfl | hline
    · exact Or.inl (List.mem_reverse.mp hc)
    · have hrest := (ih line hline c hc).resolve_left List.not_mem_nil
      exact Or.inr (List.mem_cons_of_mem _ (List.mem_cons_of_mem _ hrest))
  | case4 before first rest hpair hbreak ih =>
    intro line hline c hc
    rw [Text.linesFrom, if_pos hbreak] at hline
    · rcases List.mem_cons.mp hline with rfl | hline
      · exact Or.inl (List.mem_reverse.mp hc)
      · have hrest := (ih line hline c hc).resolve_left List.not_mem_nil
        exact Or.inr (List.mem_cons_of_mem first hrest)
    · exact hpair
  | case5 before first rest hpair hbreak ih =>
    intro line hline c hc
    rw [Text.linesFrom, if_neg hbreak] at hline
    · rcases ih line hline c hc with hbefore | hrest
      · rcases List.mem_cons.mp hbefore with rfl | hbefore
        · exact Or.inr List.mem_cons_self
        · exact Or.inl hbefore
      · exact Or.inr (List.mem_cons_of_mem first hrest)
    · exact hpair

/-- The characters of the lines of a text are characters of the text. -/
theorem mem_of_mem_lines {t line : Text} (h : line ∈ Text.lines t) {c : Char} (hc : c ∈ line) :
    c ∈ t :=
  (mem_of_mem_linesFrom t [] line h c hc).resolve_left List.not_mem_nil

theorem mem_of_mem_dropPadding {t : Text} {c : Char} (h : c ∈ dropPadding t) : c ∈ t := by
  induction t with
  | nil => exact h
  | cons first before ih =>
    rw [dropPadding] at h
    split at h
    · exact List.mem_cons_of_mem first (ih h)
    · exact h

/-- The characters of a trimmed line are characters of the line. -/
theorem mem_of_mem_lineContent {line : Text} {c : Char} (h : c ∈ lineContent line) : c ∈ line := by
  rw [lineContent, List.mem_reverse] at h
  have htrimmed := List.mem_reverse.mp (mem_of_mem_dropPadding h)
  exact (List.dropWhile_suffix Text.isBlank).subset htrimmed

/-! ### Rules -/

/-- The text of a rule is its line, trimmed, and that is neither empty nor a comment. -/
theorem RuleLine.text_of_ofText? {line : Text} {read : RuleLine} (h : ofText? line = some read) :
    read.text = lineContent line ∧ read.text ≠ [] ∧ isComment read.text = false := by
  unfold ofText? at h
  simp only at h
  split at h
  · cases h
  · rename_i hfull
    rw [Bool.or_eq_true, not_or, List.isEmpty_iff, Bool.not_eq_true] at hfull
    split at h
    · cases h
    · obtain rfl := Option.some.inj h
      exact ⟨rfl, hfull⟩

/-- The characters of the pattern of a rule are characters of its line. -/
theorem Rule.mem_of_mem_pattern {scope text : Text} {line : Int} {source : Option Text} {r : Rule}
    (h : compile scope text line source = .ok (some r)) {c : Char} (hc : c ∈ r.pattern) :
    c ∈ text := by
  obtain ⟨read, hread, -, hpattern, -, -⟩ := exists_read_of_compile h
  rw [hpattern, (RuleLine.text_of_ofText? hread).1] at hc
  exact mem_of_mem_lineContent hc

namespace IgnoreFile

/-- The characters of the patterns of a file are characters of what is decoded of it. -/
theorem mem_of_mem_pattern {cache : MatcherCache} {scope : Text} {content : Content}
    {source : Option Text} {rule : Rule} (h : rule ∈ (parse cache scope content source).1.rules)
    {c : Char} (hc : c ∈ rule.pattern) : c ∈ content.decoded := by
  obtain ⟨text, htext, number, hcompile⟩ := exists_line_of_parse h
  exact mem_of_mem_lines htext (mem_of_mem_lineContent (Rule.mem_of_mem_pattern hcompile hc))

/-- A file from which rules were read could be read, and the rules are those that its bytes are
parsed to. -/
theorem exists_bytes_of_load {fs : FileSystem Id} {cache : MatcherCache} {path : Text} {rule : Rule}
    (h : rule ∈ (load fs cache path).run.1.rules) :
    ∃ bytes, (fs.read (Path.ofText path).toText).run = .ok bytes ∧
      ∃ scope source, rule ∈ (parse cache scope (.bytes bytes) source).1.rules := by
  unfold load at h
  simp only [Id.run_bind] at h
  cases hstats : (fs.lstat (Path.ofText path).toText).run with
  | error e =>
    rw [hstats] at h
    exact nomatch h
  | ok stats =>
    rw [hstats] at h
    simp only at h
    split at h
    · exact nomatch h
    · simp only [Id.run_bind] at h
      cases hbytes : (fs.read (Path.ofText path).toText).run with
      | error e =>
        rw [hbytes] at h
        exact nomatch h
      | ok bytes =>
        rw [hbytes] at h
        exact ⟨bytes, rfl, _, _, h⟩

end IgnoreFile

end TreeSieve

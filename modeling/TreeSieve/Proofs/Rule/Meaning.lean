import TreeSieve.Proofs.Path.Below
import TreeSieve.Proofs.Pattern.Spelling

/-!
# What rules mean

A rule that is compiled from a line without brackets covers what the line covers by the grammar, for
every path in its scope.

* `Rule.compile_covers_iff` is the theorem: compiling such a line gives a rule, and this rule covers
  a path if its segments fit some of the first names below the scope.
-/

namespace TreeSieve

/-- If no names fit segments then all of the segments are `**`. -/
theorem LineSegment.eq_depths_of_fits {segments : List LineSegment} (h : fits segments [] = true) :
    ∀ s ∈ segments, s = depths := by
  induction segments with
  | nil => exact fun s hs => nomatch hs
  | cons s segments ih =>
    cases s with
    | depths =>
      rw [fits_depths] at h
      obtain ⟨passed, rest, hsplit, hfits⟩ := h
      obtain ⟨-, rfl⟩ := List.nil_eq_append_iff.mp hsplit
      exact List.forall_mem_cons.mpr ⟨rfl, ih hfits⟩
    | whole => exact nomatch h
    | row elements => exact nomatch h

/-- A line that is written by the grammar does not cover the scope itself. -/
theorem GlobLine.not_covers_nil {l : GlobLine} (h : l.IsWellFormed) (isDirectory : Bool) :
    ¬l.Covers [] isDirectory := by
  rintro ⟨k, -, hfits, -⟩
  obtain ⟨s, hs, hdepths⟩ := h.named
  rw [List.take_nil] at hfits
  apply hdepths
  apply LineSegment.eq_depths_of_fits hfits
  rw [rows]
  split <;> simp [hs]

namespace Rule

/-- **Compiled rules mean what the grammar says.** A line that is written by the grammar is compiled
for every absolute scope, and the rule covers a path in its scope exactly if the line covers the
names of the path below the scope. -/
theorem compile_covers_iff {l : GlobLine} (hl : l.IsWellFormed) {scope : Text}
    (hscope : Path.startOf scope ≠ .current) (number : Int) (source : Option Text) :
    ∃ rule, compile scope l.text number source = .ok (some rule) ∧
      ∀ path isDirectory, canonical path = path → Path.startOf path = .root → '\n' ∉ path →
        inScope path (canonical scope) = true →
          (rule.covers path isDirectory = true ↔
            l.Covers (Path.namesBelow scope path) isDirectory) := by
  obtain ⟨matchers, hmatchers, hsearch⟩ := GlobLine.exists_matchers hl
  refine ⟨ofLine l.read matchers scope number source, ?_, ?_⟩
  · rw [compile, GlobLine.ofText?_text hl]
    simp only [hmatchers]
  · intro path isDirectory hpath hroot hline hin
    obtain ⟨hp, htext⟩ := Path.isRooted_of_canonical hroot hpath
    rw [← htext] at hin
    obtain ⟨front, back, hsplit, hstem, hfront⟩ := Path.exists_namesBelow hscope hp hroot hin
    have hbelow : Path.namesBelow scope path = back := by
      rw [Path.namesBelow, hsplit, ← hfront, List.drop_left]
    have hcovers := covers_canonical (r := ofLine l.read matchers scope number source) hp hroot
      hsplit hstem isDirectory
    rw [htext] at hcovers
    rw [hcovers, hbelow]
    by_cases hback : back = []
    · rw [hback]
      exact iff_of_false (fun h => h.1 rfl) (GlobLine.not_covers_nil hl isDirectory)
    · have hnames : ∀ name ∈ back, Path.IsLineName name := by
        intro name hname
        have hmem : name ∈ (Path.ofText path).parts := hsplit ▸ List.mem_append_right front hname
        have hentry := hp.names name hmem
        refine ⟨hentry.ne_nil, hentry.slash_not_mem, fun hfeed => hline ?_⟩
        exact Text.mem_of_mem_split (List.mem_of_mem_filter hmem) '\n' hfeed
      rw [and_iff_right hback]
      exact hsearch back isDirectory hback hnames

/-- The line `!src/**/\**?/`. -/
def nestedLine : GlobLine where
  negated := true
  anchored := false
  segments := [.row [.plain 's', .plain 'r', .plain 'c'], .depths,
    .row [.escaped '*', .anyRun, .anyOne]]
  directory := true

/-- A line for directories covers what lies below one, and no file in the place of one. -/
theorem compile_covers_iff_nestedLine :
    nestedLine.text = Text.lit "!src/**/\\**?/" ∧
      ∃ rule, compile (Text.lit "/w") nestedLine.text 1 none = .ok (some rule) ∧
        rule.covers (Text.lit "/w/lib/src/a/*b/c") false = true ∧
        rule.covers (Text.lit "/w/lib/src/a/*b") false = false := by
  refine ⟨by decide, ?_⟩
  have hline : nestedLine.IsWellFormed := by decide
  have hscope : Path.startOf (Text.lit "/w") ≠ .current := by decide
  obtain ⟨rule, hrule, hcovers⟩ := compile_covers_iff hline hscope 1 none
  refine ⟨rule, hrule, ?_, ?_⟩
  · refine (hcovers _ _ ?_ ?_ ?_ ?_).mpr ?_ <;> decide
  · rw [← Bool.not_eq_true, hcovers _ _ ?_ ?_ ?_ ?_] <;> decide

end Rule

end TreeSieve

import Mathlib.Data.List.Induction
import Mathlib.Data.List.TakeWhile
import Mathlib.Tactic.SplitIfs
import TreeSieve.Rule.Basic

/-!
# Trimmed lines

What stands at the end of a line is padding, unless it is escaped. A line is trimmed from its end,
where one backslash is enough to keep a character; whether this one is escaped itself shows only
when the line is read from its start.

* `lineBody` and `linePadding` are the two parts of a line behind its blanks, and
  `closingBackslashes` counts the backslashes between them.
* `unescapedContent` is a line as it is read from its start. `unescapedContent_eq` says that the
  backslashes count by twos: an odd number of them keeps a character.
* `lineContent_eq` says that any number of them does when the line is trimmed, and
  `lineContent_lineContent` that a trimmed line is left as it is.
* `lineContent_eq_unescapedContent_iff` tells the lines of which both are the same.
-/

namespace TreeSieve

/-- A line without the blanks at its start and without the padding at its end. -/
def lineBody (line : Text) : Text := Text.dropEndWhile isLinePadding (Text.trimStart line)

/-- The padding at the end of a line, as far as it goes. -/
def linePadding (line : Text) : Text :=
  ((Text.trimStart line).reverse.takeWhile isLinePadding).reverse

/-- How many backslashes stand at the end of a text. -/
def closingBackslashes (t : Text) : Nat := (t.reverse.takeWhile (· == '\\')).length

/-- Puts a character in front of what is kept behind it, unless this is nothing and the character
is padding. -/
def keepInFront (c : Char) (kept : Text) : Text :=
  if kept.isEmpty && isLinePadding c then [] else c :: kept

/-- A text without the padding at its end that is not escaped. It is read from the left, and a
backslash takes the character behind it along. -/
def dropUnescaped : Text → Text
  | [] => []
  | [c] => keepInFront c []
  | c :: next :: rest =>
    if c = '\\' then c :: next :: dropUnescaped rest
    else keepInFront c (dropUnescaped (next :: rest))

/-- A line without the blanks at its start and the padding at its end that is not escaped. -/
def unescapedContent (line : Text) : Text := dropUnescaped (Text.trimStart line)

/-! ### The start of a line -/

theorem Text.trimStart_of_head {t : Text} (h : ∀ c ∈ t.head?, isBlank c = false) :
    trimStart t = t := by
  cases t with
  | nil => rfl
  | cons c rest =>
    have hc : isBlank c = false := h c rfl
    rw [trimStart, List.dropWhile_cons, if_neg (by simp [hc])]

/-- The beginnings of a text whose blanks in front have been taken off have no blanks in front. -/
theorem Text.trimStart_of_prefix {t line : Text} (h : t <+: trimStart line) :
    trimStart t = t := by
  obtain ⟨more, hmore⟩ := h
  apply trimStart_of_head
  intro c hc
  have hhead := List.head?_dropWhile_not isBlank line
  rw [← trimStart, ← hmore, List.head?_append, Option.mem_def.mp hc] at hhead
  simpa using hhead

/-! ### The parts of a line -/

theorem lineBody_append_linePadding (line : Text) :
    lineBody line ++ linePadding line = Text.trimStart line := by
  rw [lineBody, linePadding, Text.dropEndWhile, ← List.reverse_append,
    List.takeWhile_append_dropWhile, List.reverse_reverse]

theorem isLinePadding_of_mem_linePadding {line : Text} :
    ∀ c ∈ linePadding line, isLinePadding c = true := by
  intro c hc
  exact List.mem_takeWhile_imp (List.mem_reverse.mp hc)

theorem isLinePadding_getLast?_lineBody {line : Text} :
    ∀ c ∈ (lineBody line).getLast?, isLinePadding c = false := by
  intro c hc
  have hhead := List.head?_dropWhile_not isLinePadding (Text.trimStart line).reverse
  rw [lineBody, Text.dropEndWhile, List.getLast?_reverse] at hc
  rw [hc] at hhead
  simpa using hhead

/-! ### Backslashes at the end -/

theorem closingBackslashes_cons (c : Char) (t : Text) :
    closingBackslashes (c :: t) = if closingBackslashes t = t.length ∧ c = '\\'
      then t.length + 1 else closingBackslashes t := by
  rw [closingBackslashes, closingBackslashes, List.reverse_cons, List.takeWhile_append,
    List.length_reverse]
  by_cases hall : (t.reverse.takeWhile (· == '\\')).length = t.length
  · by_cases hc : c = '\\'
    · simp [hall, hc]
    · simp [hall, hc]
  · rw [if_neg hall, if_neg (fun h => hall h.1)]

theorem closingBackslashes_cons_of_ne {c : Char} (h : c ≠ '\\') (t : Text) :
    closingBackslashes (c :: t) = closingBackslashes t := by
  rw [closingBackslashes_cons, if_neg (fun hboth => h hboth.2)]

theorem closingBackslashes_le (t : Text) : closingBackslashes t ≤ t.length := by
  calc closingBackslashes t ≤ t.reverse.length := (List.takeWhile_prefix _).length_le
    _ = t.length := List.length_reverse

/-- A backslash and a character in front of a text do not change whether it ends in an odd number of
backslashes. -/
theorem closingBackslashes_pair (c : Char) (t : Text) :
    closingBackslashes ('\\' :: c :: t) % 2 = closingBackslashes t % 2 := by
  have hle := closingBackslashes_le t
  by_cases hc : c = '\\'
  · subst hc
    simp only [closingBackslashes_cons, List.length_cons, and_true]
    split_ifs <;> omega
  · rw [closingBackslashes_cons, closingBackslashes_cons_of_ne hc, List.length_cons,
      if_neg (by omega)]

theorem closingBackslashes_eq_zero_iff {t : Text} :
    closingBackslashes t = 0 ↔ t.getLast? ≠ some '\\' := by
  rw [closingBackslashes, ← List.head?_reverse]
  cases t.reverse with
  | nil => simp
  | cons c before =>
    by_cases hc : c = '\\'
    · simp [hc]
    · simp [hc]

/-! ### From the left -/

theorem dropUnescaped_backslash (c : Char) (t : Text) :
    dropUnescaped ('\\' :: c :: t) = '\\' :: c :: dropUnescaped t := by
  rw [dropUnescaped, if_pos rfl]

theorem dropUnescaped_cons_of_ne {c : Char} (h : c ≠ '\\') (t : Text) :
    dropUnescaped (c :: t) = keepInFront c (dropUnescaped t) := by
  cases t with
  | nil => rfl
  | cons next rest => rw [dropUnescaped, if_neg h]

theorem keepInFront_of_not {c : Char} (h : isLinePadding c = false) (kept : Text) :
    keepInFront c kept = c :: kept := by
  rw [keepInFront, if_neg (by simp [h])]

theorem keepInFront_of_ne_nil (c : Char) {kept : Text} (h : kept ≠ []) :
    keepInFront c kept = c :: kept := by
  rw [keepInFront, if_neg (by simp [h])]

theorem ne_backslash_of_isLinePadding {c : Char} (h : isLinePadding c = true) : c ≠ '\\' := by
  rintro rfl
  exact absurd h (by decide)

/-- Nothing is kept of a text that is padding only. -/
theorem dropUnescaped_padding {padding : Text} (h : ∀ c ∈ padding, isLinePadding c = true) :
    dropUnescaped padding = [] := by
  induction padding with
  | nil => rfl
  | cons c rest ih =>
    have hc : isLinePadding c = true := h c List.mem_cons_self
    rw [dropUnescaped_cons_of_ne (ne_backslash_of_isLinePadding hc),
      ih fun other hother => h other (List.mem_cons_of_mem c hother), keepInFront, hc]
    rfl

/-- What is kept of the padding behind a text: its first character, if the number of backslashes in
front of it is odd. -/
theorem dropUnescaped_append {padding : Text} (hpadding : ∀ c ∈ padding, isLinePadding c = true)
    (body : Text) (hbody : ∀ c ∈ body.getLast?, isLinePadding c = false) :
    dropUnescaped (body ++ padding) = body ++ padding.take (closingBackslashes body % 2) := by
  induction body using dropUnescaped.induct with
  | case1 => exact dropUnescaped_padding hpadding
  | case2 c =>
    have hc : isLinePadding c = false := hbody c rfl
    by_cases hslash : c = '\\'
    · -- the body ends in a backslash of its own, which takes a character of the padding along
      subst hslash
      cases padding with
      | nil => rfl
      | cons first rest =>
        have hrest := dropUnescaped_padding fun d hd => hpadding d (List.mem_cons_of_mem first hd)
        show dropUnescaped ('\\' :: first :: rest) = ['\\', first]
        rw [dropUnescaped_backslash, hrest]
    · rw [closingBackslashes_cons_of_ne hslash, List.singleton_append,
        dropUnescaped_cons_of_ne hslash, dropUnescaped_padding hpadding, keepInFront_of_not hc]
      rfl
  | case3 next rest ih =>
    have hrest : ∀ c ∈ rest.getLast?, isLinePadding c = false := by
      cases rest with
      | nil => exact fun c hc => nomatch hc
      | cons d more => simpa using hbody
    rw [closingBackslashes_pair, List.cons_append, List.cons_append, dropUnescaped_backslash,
      ih hrest]
    rfl
  | case4 c next rest hslash ih =>
    have hkept := ih (by simpa using hbody)
    rw [closingBackslashes_cons_of_ne hslash, List.cons_append, dropUnescaped_cons_of_ne hslash,
      hkept, keepInFront_of_ne_nil c (by simp)]
    rfl

/-- **Escapes count by twos**: the first character of the padding belongs to the line if the number
of backslashes in front of it is odd. -/
theorem unescapedContent_eq (line : Text) :
    unescapedContent line
      = lineBody line ++ (linePadding line).take (closingBackslashes (lineBody line) % 2) := by
  rw [unescapedContent, ← lineBody_append_linePadding]
  exact dropUnescaped_append isLinePadding_of_mem_linePadding _ isLinePadding_getLast?_lineBody

/-! ### From the right -/

theorem dropPadding_of_head {before : Text} (h : ∀ c ∈ before.head?, isLinePadding c = false) :
    dropPadding before = before := by
  cases before with
  | nil => rfl
  | cons c rest =>
    have hc : isLinePadding c = false := h c rfl
    rw [dropPadding, if_neg (by simp [hc])]

/-- What is left of the padding behind a text that ends in a backslash is its first character. -/
theorem reverse_dropPadding_append {padding : Text}
    (hpadding : ∀ c ∈ padding, isLinePadding c = true) (body : Text)
    (hbody : ∀ c ∈ body.getLast?, isLinePadding c = false) :
    (dropPadding (body ++ padding).reverse).reverse
      = body ++ padding.take (min 1 (closingBackslashes body)) := by
  induction padding using List.reverseRecOn with
  | nil =>
    rw [List.append_nil, dropPadding_of_head (by rwa [List.head?_reverse]), List.reverse_reverse,
      List.take_nil, List.append_nil]
  | append_singleton front c ih =>
    have hc : isLinePadding c = true := hpadding c (by simp)
    have hfront : ∀ d ∈ front, isLinePadding d = true :=
      fun d hd => hpadding d (List.mem_append_left [c] hd)
    rw [← List.append_assoc, List.reverse_concat, dropPadding, List.head?_reverse, hc]
    rcases List.eq_nil_or_concat front with rfl | ⟨more, d, rfl⟩
    · -- the character next to the body stays if there is a backslash
      rw [List.append_nil] at ih ⊢
      by_cases hslash : body.getLast? = some '\\'
      · have hpos : closingBackslashes body ≠ 0 := fun h =>
          closingBackslashes_eq_zero_iff.mp h hslash
        rw [if_neg (by simp [hslash]), show min 1 (closingBackslashes body) = 1 by omega]
        simp
      · have hzero : closingBackslashes body = 0 := closingBackslashes_eq_zero_iff.mpr hslash
        rw [if_pos (by simpa using hslash), ih hfront, hzero]
        simp
    · have hd : d ≠ '\\' := ne_backslash_of_isLinePadding (hfront d (by simp))
      have hcut : min 1 (closingBackslashes body) ≤ (more.concat d).length := by
        rw [List.length_concat]
        omega
      rw [if_pos (by simp [hd]), ih hfront, List.take_append_of_le_length hcut]

/-- Any number of backslashes keeps the first character of the padding. -/
theorem lineContent_eq (line : Text) :
    lineContent line
      = lineBody line ++ (linePadding line).take (min 1 (closingBackslashes (lineBody line))) := by
  rw [lineContent, ← lineBody_append_linePadding]
  exact reverse_dropPadding_append isLinePadding_of_mem_linePadding _
    isLinePadding_getLast?_lineBody

/-! ### Trimming again -/

theorem dropPadding_dropPadding (before : Text) :
    dropPadding (dropPadding before) = dropPadding before := by
  induction before with
  | nil => rfl
  | cons c rest ih =>
    rw [dropPadding]
    split
    · exact ih
    · rename_i hkept
      rw [dropPadding, if_neg hkept]

/-- A trimmed line is the beginning of the line without the blanks in front. -/
theorem lineContent_isPrefix (line : Text) : lineContent line <+: Text.trimStart line := by
  rw [lineContent_eq, ← lineBody_append_linePadding, List.prefix_append_right_inj]
  exact List.take_prefix _ _

/-- Trimming a line that is trimmed changes nothing. -/
theorem lineContent_lineContent (line : Text) :
    lineContent (lineContent line) = lineContent line := by
  rw [lineContent, Text.trimStart_of_prefix (lineContent_isPrefix line), lineContent,
    List.reverse_reverse, dropPadding_dropPadding]

/-- A line that is trimmed is compiled like the line. -/
theorem Rule.compile_lineContent (scope line : Text) (number : Int) (source : Option Text) :
    compile scope (lineContent line) number source = compile scope line number source := by
  have hread : RuleLine.ofText? (lineContent line) = RuleLine.ofText? line := by
    rw [RuleLine.ofText?, lineContent_lineContent]
    rfl
  rw [compile, hread]
  rfl

/-! ### The two readings -/

/-- **A line is trimmed up to what is escaped, unless backslashes escape each other.** Of the
padding at the end of a line, no more than the first character is kept. Read from the start, it is
escaped if the number of backslashes in front of it is odd; a line that is trimmed keeps it behind
any of them, so that the two come apart if there is padding and an even number of backslashes, but
not none. To trim a line again changes neither the line nor its rule. -/
theorem lineContent_eq_unescapedContent_iff (line : Text) :
    unescapedContent line
        = lineBody line ++ (linePadding line).take (closingBackslashes (lineBody line) % 2) ∧
    lineContent line
        = lineBody line ++ (linePadding line).take (min 1 (closingBackslashes (lineBody line))) ∧
    (lineContent line = unescapedContent line ↔
      linePadding line = [] ∨ closingBackslashes (lineBody line) = 0 ∨
        closingBackslashes (lineBody line) % 2 = 1) ∧
    lineContent (lineContent line) = lineContent line ∧
    ∀ scope number source, Rule.compile scope (lineContent line) number source
      = Rule.compile scope line number source := by
  refine ⟨unescapedContent_eq line, lineContent_eq line, ?_, lineContent_lineContent line,
    fun scope => Rule.compile_lineContent scope line⟩
  rw [unescapedContent_eq, lineContent_eq, List.append_cancel_left_eq]
  cases linePadding line with
  | nil => simp
  | cons c rest =>
    have hparity := Nat.mod_two_eq_zero_or_one (closingBackslashes (lineBody line))
    constructor
    · -- both numbers are at most one, and so are the lengths of what is kept
      intro htake
      have hlength := congrArg List.length htake
      rw [List.length_take, List.length_take, List.length_cons] at hlength
      omega
    · rintro (hnil | hcount)
      · cases hnil
      · rw [show min 1 (closingBackslashes (lineBody line))
          = closingBackslashes (lineBody line) % 2 by omega]

/-- Two backslashes are one that is escaped. The space behind them is kept all the same, and so the
rule is one for another file. -/
theorem lineContent_keeps_unescaped :
    lineContent (Text.lit "a\\\\ ") ≠ unescapedContent (Text.lit "a\\\\ ") ∧
    ∃ rule, Rule.compile (Text.lit "/p") (Text.lit "a\\\\ ") 0 none = .ok (some rule) ∧
      rule.covers (Text.lit "/p/a\\") false = false ∧
      rule.covers (Text.lit "/p/a\\ ") false = true := by
  refine ⟨by decide, _, rfl, ?_, ?_⟩
  · decide +kernel
  · decide +kernel

end TreeSieve

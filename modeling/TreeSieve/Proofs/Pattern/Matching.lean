import TreeSieve.Pattern.Expression
import TreeSieve.Proofs.Regex.Follow

/-!
# What patterns match

The expression of a pattern is read as what its parts take one after the other.

* `GlobPart.Takes` tells what a part takes between what stands before it and what stands after it,
  and `GlobPart.TakeAll` what parts in a row take.
* `Glob.Matches` says that the parts of a pattern take something of a text;
  `Glob.search_regex` says that this is what searching for the expression of the pattern finds.
-/

namespace TreeSieve

/-! ### Brackets -/

/-- A bracket has the same members wherever it is written. -/
theorem bracketItems_written {written : Nat} {body : Text} {items : List CharItem}
    (h : bracketItems written body = .ok items) (other : Nat) :
    bracketItems other body = .ok items := by
  fun_induction bracketItems written body generalizing items other with
  | case1 written first last rest hrange => cases h
  | case2 written first last rest width hrange =>
    rename_i ih
    rw [bracketItems, if_neg hrange]
    cases hrest : bracketItems (written + width) rest with
    | error e => rw [hrest] at h; cases h
    | ok more =>
      rw [hrest] at h
      rw [ih hrest]
      exact h
  | case3 written c rest hno ih =>
    rw [bracketItems]
    · cases hrest : bracketItems (written + (bracketChar c).length) rest with
      | error e => rw [hrest] at h; cases h
      | ok more =>
        rw [hrest] at h
        rw [ih hrest]
        exact h
    · exact hno
  | case4 written => exact h

/-! ### Parts -/

/-- What a piece takes. -/
def Piece.Takes : Piece → Text → Prop
  | literal c, taken => taken = [c]
  | anyRun, taken => '/' ∉ taken
  | anyOne, taken => ∃ c, c ≠ '/' ∧ taken = [c]
  | oneOf negated body, taken => ∃ items c, bracketItems 0 body = .ok items ∧
      (⟨negated, false, items⟩ : CharSet).contains c = true ∧ taken = [c]

/-- Whether a text ends here, but for a line feed. -/
def AtLastLineEnd (after : Text) : Prop := after = [] ∨ after = ['\n']

namespace GlobPart

/-- What a part takes behind the characters `before`, the nearest first, and in front of `after`. -/
def Takes (before : Text) : GlobPart → Text → Text → Prop
  | start, taken, _ => before = [] ∧ taken = []
  | parentsFromStart, taken, _ =>
    before = [] ∧ (taken = [] ∨ ∃ above, above ≠ [] ∧ '\n' ∉ above ∧ taken = above ++ ['/'])
  | slash, taken, _ => taken = ['/']
  | parents, taken, _ => taken = [] ∨ ∃ above, above ≠ [] ∧ '\n' ∉ above ∧ taken = '/' :: above
  | piece p, taken, _ => p.Takes taken
  | name, taken, _ => taken ≠ [] ∧ '/' ∉ taken
  | anything, taken, _ => ∃ c, c ≠ '\n' ∧ taken = [c]
  | nameEnd, taken, after => taken = ['/'] ∨ (taken = [] ∧ AtLastLineEnd after)
  | slashOrEnd, taken, after => (taken = [] ∨ taken = ['/']) ∧ AtLastLineEnd after

/-- What parts in a row take together, each of them behind what the ones before it have taken. -/
def TakeAll : List GlobPart → Text → Text → Text → Prop
  | [], _, taken, _ => taken = []
  | part :: parts, before, taken, after => ∃ first rest, taken = first ++ rest ∧
      part.Takes before first (rest ++ after) ∧ TakeAll parts (first.reverse ++ before) rest after

end GlobPart

namespace Regex

/-- An expression that takes what `takes` says, behind and in front of anything. -/
def Follows (r : Regex) (takes : Text → Text → Text → Prop) : Prop :=
  ∀ (next : Cursor → Bool) (p : Cursor), run r next p = true ↔ ∃ taken after,
    p.rest = taken ++ after ∧ takes p.before taken after ∧ next (p.past taken after) = true

theorem Follows.congr {r : Regex} {takes takes' : Text → Text → Text → Prop}
    (h : r.Follows takes) (heq : ∀ before taken after, takes before taken after ↔
      takes' before taken after) : r.Follows takes' := by
  intro next p
  rw [h next p]
  simp only [heq]

theorem Follows.seq {r s : Regex} {first second : Text → Text → Text → Prop}
    (hr : r.Follows first) (hs : s.Follows second) :
    (seq r s).Follows fun before taken after => ∃ front back, taken = front ++ back ∧
      first before front (back ++ after) ∧ second (front.reverse ++ before) back after := by
  intro next p
  rw [run_seq, hr]
  constructor
  · rintro ⟨front, rest, hsplit, hfront, hrun⟩
    obtain ⟨back, after, hrest, hback, hnext⟩ := (hs next _).mp hrun
    rw [Cursor.past_rest] at hrest
    rw [Cursor.past_past] at hnext
    exact ⟨front ++ back, after, by rw [hsplit, hrest, List.append_assoc],
      ⟨front, back, rfl, hrest ▸ hfront, hback⟩, hnext⟩
  · rintro ⟨taken, after, hsplit, ⟨front, back, rfl, hfront, hback⟩, hnext⟩
    refine ⟨front, back ++ after, by rw [hsplit, List.append_assoc], hfront, ?_⟩
    refine (hs next _).mpr ⟨back, after, rfl, hback, ?_⟩
    rwa [Cursor.past_past]

theorem follows_one (s : CharSet) :
    (one s).Follows fun _ taken _ => ∃ c, s.contains c = true ∧ taken = [c] := by
  intro next p
  rw [run_one]
  constructor
  · rintro ⟨c, after, hsplit, hc, hnext⟩
    exact ⟨[c], after, hsplit, ⟨c, hc, rfl⟩, hnext⟩
  · rintro ⟨taken, after, hsplit, ⟨c, hc, rfl⟩, hnext⟩
    exact ⟨c, after, hsplit, hc, hnext⟩

theorem follows_star_one (s : CharSet) :
    (star (one s)).Follows fun _ taken _ => ∀ c ∈ taken, s.contains c = true :=
  fun _ _ => run_star_one s

theorem follows_plus_one (s : CharSet) :
    (plus (one s)).Follows fun _ taken _ => taken ≠ [] ∧ ∀ c ∈ taken, s.contains c = true := by
  intro next p
  rw [run_plus_one]
  simp only [and_assoc]

theorem follows_char (c : Char) : (char c).Follows fun _ taken _ => taken = [c] :=
  (follows_one _).congr fun _ taken _ => by simp

theorem follows_textStart : textStart.Follows fun before taken _ => before = [] ∧ taken = [] := by
  intro next p
  rw [run, Bool.and_eq_true, List.isEmpty_iff]
  constructor
  · rintro ⟨hstart, hnext⟩
    exact ⟨[], p.rest, rfl, ⟨hstart, rfl⟩, hnext⟩
  · rintro ⟨taken, after, hsplit, ⟨hstart, rfl⟩, hnext⟩
    rw [List.nil_append] at hsplit
    exact ⟨hstart, by rwa [← hsplit] at hnext⟩

theorem follows_lastLineEnd :
    lastLineEnd.Follows fun _ taken after => taken = [] ∧ AtLastLineEnd after := by
  intro next p
  have hend : p.atLastLineEnd = true ↔ AtLastLineEnd p.rest := by
    simp [Cursor.atLastLineEnd, AtLastLineEnd]
  rw [run, Bool.and_eq_true, hend]
  constructor
  · rintro ⟨hlast, hnext⟩
    exact ⟨[], p.rest, rfl, ⟨rfl, hlast⟩, hnext⟩
  · rintro ⟨taken, after, hsplit, ⟨rfl, hlast⟩, hnext⟩
    rw [List.nil_append] at hsplit
    exact ⟨hsplit ▸ hlast, by rwa [← hsplit] at hnext⟩

theorem Follows.alt {r s : Regex} {left right : Text → Text → Text → Prop} (hr : r.Follows left)
    (hs : s.Follows right) :
    (alt r s).Follows fun before taken after => left before taken after ∨
      right before taken after := by
  intro next p
  rw [run_alt, Bool.or_eq_true, hr, hs]
  constructor
  · rintro (⟨taken, after, hsplit, h, hnext⟩ | ⟨taken, after, hsplit, h, hnext⟩)
    · exact ⟨taken, after, hsplit, Or.inl h, hnext⟩
    · exact ⟨taken, after, hsplit, Or.inr h, hnext⟩
  · rintro ⟨taken, after, hsplit, h | h, hnext⟩
    · exact Or.inl ⟨taken, after, hsplit, h, hnext⟩
    · exact Or.inr ⟨taken, after, hsplit, h, hnext⟩

theorem Follows.optional {r : Regex} {takes : Text → Prop} (hr : r.Follows fun _ t _ => takes t)
    (hne : ¬takes []) : (optional r).Follows fun _ taken _ => taken = [] ∨ takes taken :=
  fun _ _ => run_optional hne hr

theorem forall_contains_except {separator : Char} {t : Text} :
    (∀ c ∈ t, (CharSet.except separator).contains c = true) ↔ separator ∉ t := by
  simp only [CharSet.contains_except, bne_iff_ne]
  exact ⟨fun h hmem => h separator hmem rfl, fun h c hc heq => h (heq ▸ hc)⟩

/-- Any directories at the start of a path take a text of one line with a slash at its end. -/
theorem follows_line_slash : (seq (plus nonNewline) (char '/')).Follows fun _ taken _ =>
    ∃ above, above ≠ [] ∧ '\n' ∉ above ∧ taken = above ++ ['/'] := by
  refine ((follows_plus_one _).seq (follows_char '/')).congr ?_
  intro before taken after
  simp only [forall_contains_except]
  constructor
  · rintro ⟨front, back, rfl, ⟨hne, hfront⟩, rfl⟩
    exact ⟨front, hne, hfront, rfl⟩
  · rintro ⟨above, hne, habove, rfl⟩
    exact ⟨above, ['/'], rfl, ⟨hne, habove⟩, rfl⟩

/-- Any directories behind a name take a slash and a text of one line. -/
theorem follows_slash_line : (seq (char '/') (plus nonNewline)).Follows fun _ taken _ =>
    ∃ above, above ≠ [] ∧ '\n' ∉ above ∧ taken = '/' :: above := by
  refine ((follows_char '/').seq (follows_plus_one _)).congr ?_
  intro before taken after
  simp only [forall_contains_except]
  constructor
  · rintro ⟨front, back, rfl, rfl, hne, hback⟩
    exact ⟨back, hne, hback, rfl⟩
  · rintro ⟨above, hne, habove, rfl⟩
    exact ⟨['/'], above, rfl, rfl, hne, habove⟩

end Regex

theorem Piece.follows_regex {written : Nat} {p : Piece} {r : Regex} (h : p.regex written = .ok r) :
    r.Follows fun _ taken _ => p.Takes taken := by
  cases p with
  | literal c =>
    cases h
    exact Regex.follows_char c
  | anyRun =>
    cases h
    exact (Regex.follows_star_one _).congr fun _ taken _ => by
      rw [Regex.forall_contains_except, Piece.Takes]
  | anyOne =>
    cases h
    exact (Regex.follows_one _).congr fun _ taken _ => by simp [Piece.Takes]
  | oneOf negated body =>
    rw [Piece.regex] at h
    cases hitems : bracketItems (written + 1 + negated.toNat) body with
    | error e => rw [hitems] at h; cases h
    | ok items =>
      rw [hitems] at h
      cases h
      refine (Regex.follows_one _).congr fun _ taken _ => ?_
      rw [Piece.Takes]
      have hsame := bracketItems_written hitems 0
      constructor
      · rintro ⟨c, hc, rfl⟩
        exact ⟨items, c, hsame, hc, rfl⟩
      · rintro ⟨other, c, hother, hc, rfl⟩
        rw [hsame] at hother
        cases hother
        exact ⟨c, hc, rfl⟩

namespace GlobPart

/-- The expression of a part takes what the part takes. -/
theorem follows_regex {written : Nat} {part : GlobPart} {r : Regex}
    (h : part.regex written = .ok r) : r.Follows fun before => part.Takes before := by
  cases part with
  | start =>
    cases h
    exact Regex.follows_textStart
  | parentsFromStart =>
    cases h
    refine (Regex.follows_textStart.seq (Regex.follows_line_slash.optional (by simp))).congr ?_
    intro before taken after
    constructor
    · rintro ⟨front, back, rfl, ⟨hstart, rfl⟩, hback⟩
      exact ⟨hstart, hback⟩
    · rintro ⟨hstart, htaken⟩
      exact ⟨[], taken, rfl, ⟨hstart, rfl⟩, htaken⟩
  | slash =>
    cases h
    exact Regex.follows_char '/'
  | parents =>
    cases h
    exact Regex.follows_slash_line.optional (by simp)
  | piece p => exact p.follows_regex h
  | name =>
    cases h
    exact (Regex.follows_plus_one _).congr fun _ taken _ => by
      rw [Regex.forall_contains_except, Takes]
  | anything =>
    cases h
    exact (Regex.follows_one _).congr fun _ taken _ => by simp [Takes]
  | nameEnd =>
    cases h
    exact (Regex.follows_char '/').alt Regex.follows_lastLineEnd
  | slashOrEnd =>
    cases h
    refine (((Regex.follows_char '/').optional (by simp)).seq Regex.follows_lastLineEnd).congr ?_
    intro before taken after
    constructor
    · rintro ⟨front, back, rfl, hfront, rfl, hlast⟩
      rw [List.append_nil]
      exact ⟨hfront, hlast⟩
    · rintro ⟨htaken, hlast⟩
      exact ⟨taken, [], (List.append_nil taken).symm, htaken, rfl, hlast⟩

/-- The expression of parts in a row takes what the parts take. -/
theorem follows_sequence {parts : List GlobPart} :
    ∀ {written : Nat} {regexes : List Regex}, regexOf written parts = .ok regexes →
      (Regex.sequence regexes).Follows fun before => TakeAll parts before := by
  induction parts with
  | nil =>
    intro written regexes h
    cases h
    intro next p
    rw [Regex.sequence, Regex.run]
    constructor
    · intro hnext
      exact ⟨[], p.rest, rfl, rfl, hnext⟩
    · rintro ⟨taken, after, hsplit, rfl, hnext⟩
      rw [List.nil_append] at hsplit
      rwa [← hsplit] at hnext
  | cons part parts ih =>
    intro written regexes h
    rw [regexOf] at h
    cases hpart : part.regex written with
    | error e => rw [hpart] at h; cases h
    | ok r =>
      cases hrest : regexOf (written + part.text.length) parts with
      | error e => rw [hpart, hrest] at h; cases h
      | ok rest =>
        rw [hpart, hrest] at h
        cases h
        have hfollows := (follows_regex hpart).seq (ih hrest)
        cases rest with
        | cons s rest => exact hfollows
        | nil =>
          -- a sequence of one expression has no empty expression behind it
          have hparts : parts = [] := by
            cases parts with
            | nil => rfl
            | cons other parts =>
              rw [regexOf] at hrest
              cases hother : other.regex (written + part.text.length) with
              | error e => rw [hother] at hrest; cases hrest
              | ok s =>
                rw [hother] at hrest
                cases hmore : regexOf (written + part.text.length + other.text.length) parts with
                | error e => rw [hmore] at hrest; cases hrest
                | ok more => rw [hmore] at hrest; cases hrest
          subst hparts
          refine (follows_regex hpart).congr fun before taken after => ?_
          constructor
          · intro htakes
            exact ⟨taken, [], (List.append_nil taken).symm, htakes, rfl⟩
          · rintro ⟨first, rest, rfl, htakes, rfl⟩
            rwa [List.append_nil]

theorem takeAll_append {parts more : List GlobPart} :
    ∀ {before taken after : Text}, TakeAll (parts ++ more) before taken after ↔
      ∃ front back, taken = front ++ back ∧ TakeAll parts before front (back ++ after) ∧
        TakeAll more (front.reverse ++ before) back after := by
  induction parts with
  | nil =>
    intro before taken after
    constructor
    · intro h
      exact ⟨[], taken, rfl, rfl, h⟩
    · rintro ⟨front, back, rfl, rfl, h⟩
      exact h
  | cons part parts ih =>
    intro before taken after
    rw [List.cons_append, TakeAll]
    constructor
    · rintro ⟨first, rest, rfl, hfirst, hrest⟩
      obtain ⟨front, back, rfl, hfront, hback⟩ := ih.mp hrest
      refine ⟨first ++ front, back, by rw [List.append_assoc], ⟨first, front, rfl, ?_, hfront⟩, ?_⟩
      · rwa [List.append_assoc] at hfirst
      · rwa [List.reverse_append, List.append_assoc]
    · rintro ⟨_, back, rfl, ⟨first, front, rfl, hfirst, hfront⟩, hback⟩
      refine ⟨first, front ++ back, by rw [List.append_assoc], ?_,
        ih.mpr ⟨front, back, rfl, ?_, ?_⟩⟩
      · rwa [List.append_assoc]
      · exact hfront
      · rwa [List.reverse_append, List.append_assoc] at hback

end GlobPart

namespace Glob

/-- Whether the parts of a pattern take something of a text. -/
def Matches (kind : GlobKind) (g : Glob) (t : Text) : Prop :=
  ∃ front taken after, t = front ++ (taken ++ after) ∧
    GlobPart.TakeAll (g.parts kind) front.reverse taken after

/-- The expression of a pattern is found in a text exactly if the pattern matches the text. -/
theorem search_regex {kind : GlobKind} {g : Glob} {r : Regex} (h : g.regex kind = .ok r)
    (t : Text) : r.search t = true ↔ g.Matches kind t := by
  rw [regex] at h
  cases hparts : GlobPart.regexOf 0 (g.parts kind) with
  | error e => simp only [hparts] at h; cases h
  | ok regexes =>
    simp only [hparts] at h
    cases h
    rw [Regex.search_iff, Matches]
    constructor
    · rintro ⟨front, back, rfl, hrun⟩
      obtain ⟨taken, after, hsplit, htaken, -⟩ := (GlobPart.follows_sequence hparts _ _).mp hrun
      exact ⟨front, taken, after, congrArg (front ++ ·) hsplit, htaken⟩
    · rintro ⟨front, taken, after, rfl, htaken⟩
      exact ⟨front, taken ++ after, rfl,
        (GlobPart.follows_sequence hparts _ _).mpr ⟨taken, after, rfl, htaken, rfl⟩⟩

end Glob

end TreeSieve

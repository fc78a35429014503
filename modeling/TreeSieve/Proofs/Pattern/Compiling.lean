import TreeSieve.Proofs.Pattern.Cutting

/-!
# Patterns that compile

Reading a pattern fails at a bracket that does not close or at a lone backslash, and laying it out
at a range in a bracket. Nothing else can be wrong with a pattern.

* `Glob.exists_regex`: segments without brackets have an expression.
* `exists_ignoringRegex`: a trimmed pattern whose segments can be read, and hold no brackets, is
  compiled.
-/

namespace TreeSieve

/-! ### Parts without brackets -/

/-- A part that is no bracket. -/
def GlobPart.IsPlain : GlobPart → Prop
  | piece p => p.IsPlain
  | _ => True

theorem GlobPart.exists_regex {part : GlobPart} (h : part.IsPlain) (written : Nat) :
    ∃ r, part.regex written = .ok r := by
  cases part with
  | piece p =>
    cases p with
    | oneOf negated body => exact h.elim
    | literal c => exact ⟨_, rfl⟩
    | anyRun => exact ⟨_, rfl⟩
    | anyOne => exact ⟨_, rfl⟩
  | _ => exact ⟨_, rfl⟩

theorem GlobPart.exists_regexOf {parts : List GlobPart} (h : ∀ part ∈ parts, part.IsPlain) :
    ∀ written, ∃ regexes, regexOf written parts = .ok regexes := by
  induction parts with
  | nil => exact fun _ => ⟨[], rfl⟩
  | cons part parts ih =>
    intro written
    obtain ⟨first, hfirst⟩ := exists_regex (h part List.mem_cons_self) written
    obtain ⟨rest, hrest⟩ :=
      ih (fun q hq => h q (List.mem_cons_of_mem part hq)) (written + part.text.length)
    refine ⟨first :: rest, ?_⟩
    rw [regexOf, hfirst, hrest]
    rfl

theorem Segment.parts_isPlain {s : Segment} (h : s.IsPlain) : ∀ part ∈ s.parts, part.IsPlain := by
  intro part hp
  cases s with
  | anyDepth =>
    rw [List.mem_singleton.mp hp]
    exact trivial
  | anyName =>
    rw [List.mem_singleton.mp hp]
    exact trivial
  | shape pieces =>
    obtain ⟨p, hmem, rfl⟩ := List.mem_map.mp hp
    exact h p hmem

namespace Glob

variable {kind : GlobKind}

theorem ending_isPlain (s : Segment) : (ending kind s).IsPlain := by
  unfold ending
  split <;> exact trivial

theorem partsAfter_isPlain {segments : List Segment} (h : ∀ s ∈ segments, s.IsPlain) :
    ∀ afterName, ∀ part ∈ partsAfter kind afterName segments, part.IsPlain := by
  have hslash : ∀ afterName : Bool,
      ∀ part ∈ (if afterName then [GlobPart.slash] else []), part.IsPlain := by
    intro afterName part hp
    cases afterName with
    | false => exact nomatch hp
    | true =>
      rw [List.mem_singleton.mp hp]
      exact trivial
  induction segments with
  | nil => exact fun _ part hp => nomatch hp
  | cons s segments ih =>
    intro afterName
    have hown := Segment.parts_isPlain (h s List.mem_cons_self)
    have hmore := ih (fun q hq => h q (List.mem_cons_of_mem s hq)) true
    by_cases hs : s = .anyDepth
    · subst hs
      rcases eq_or_ne segments [] with rfl | hne
      · exact hslash true
      · rw [partsAfter_anyDepth hne, List.forall_mem_cons]
        exact ⟨trivial, hmore⟩
    · rcases eq_or_ne segments [] with rfl | hne
      · rw [partsAfter_single hs, List.forall_mem_append, List.forall_mem_append,
          List.forall_mem_singleton]
        exact ⟨⟨hslash afterName, hown⟩, ending_isPlain s⟩
      · rw [partsAfter_cons hs hne, List.forall_mem_append, List.forall_mem_append]
        exact ⟨⟨hslash afterName, hown⟩, hmore⟩

theorem parts_isPlain {g : Glob} (h : ∀ s ∈ g.segments, s.IsPlain) :
    ∀ part ∈ g.parts kind, part.IsPlain := by
  have hone : ∀ part : GlobPart, part.IsPlain → ∀ other ∈ [part], other.IsPlain :=
    fun part hp other ho => List.mem_singleton.mp ho ▸ hp
  unfold parts
  split
  · split
    · exact hone .slash trivial
    · exact hone .anything trivial
  · exact hone .anything trivial
  · exact hone .slash trivial
  · rename_i rest _ _ _ hsegments
    rw [List.forall_mem_cons]
    exact ⟨trivial, partsAfter_isPlain (fun s hs => h s (hsegments ▸ List.mem_cons_of_mem _ hs)) _⟩
  · rw [List.forall_mem_cons]
    exact ⟨trivial, partsAfter_isPlain h _⟩

/-- A pattern whose segments hold no brackets has an expression. -/
theorem exists_regex {g : Glob} (h : ∀ s ∈ g.segments, s.IsPlain) : ∃ r, g.regex kind = .ok r := by
  have hparts : ∀ part ∈ g.parts kind, part.IsPlain := parts_isPlain h
  obtain ⟨regexes, hregexes⟩ := GlobPart.exists_regexOf hparts 0
  exact ⟨Regex.sequence regexes, by simp only [regex, hregexes]⟩

end Glob

/-! ### Patterns that can be read -/

/-- A function that does not fail at any member of a list does not fail at the list. -/
theorem mapM_of_forall₂ {α β ε : Type} {f : α → Except ε β} {l : List α} {results : List β}
    (h : List.Forall₂ (fun a b => f a = .ok b) l results) : l.mapM f = .ok results := by
  induction h with
  | nil => rfl
  | cons ha _ ih =>
    rw [List.mapM_cons, ha, ih]
    rfl

theorem exists_mapM {α β ε : Type} {f : α → Except ε β} {l : List α}
    (h : ∀ a ∈ l, ∃ b, f a = .ok b) : ∃ results, l.mapM f = .ok results := by
  induction l with
  | nil => exact ⟨[], rfl⟩
  | cons a l ih =>
    obtain ⟨b, hb⟩ := h a List.mem_cons_self
    obtain ⟨results, hresults⟩ := ih fun other ho => h other (List.mem_cons_of_mem a ho)
    refine ⟨b :: results, ?_⟩
    rw [List.mapM_cons, hb, hresults]
    rfl

/-- A trimmed pattern that is read as segments without brackets is compiled as these segments. -/
theorem exists_ignoringRegex {pattern : Text} {segments : List Segment}
    (htrim : Glob.trimPattern pattern = pattern) (hempty : pattern ≠ []) (hslash : pattern ≠ ['/'])
    (hread : Segment.Reads (Glob.segmentTexts pattern) segments) (hne : segments ≠ [])
    (hplain : ∀ s ∈ segments, s.IsPlain) :
    ∃ r, ignoringRegex pattern = .ok r ∧
      (⟨segments, Glob.endsInSlash .ignoring pattern⟩ : Glob).regex .ignoring = .ok r := by
  obtain ⟨r, hr⟩ : ∃ r, (⟨segments, Glob.endsInSlash .ignoring pattern⟩ : Glob).regex .ignoring
      = .ok r := Glob.exists_regex hplain
  refine ⟨r, ?_, hr⟩
  have htexts : Glob.segmentTexts pattern ≠ [] := by
    intro he
    rw [he] at hread
    exact hne (List.forall₂_nil_left_iff.mp hread)
  have hglob : Glob.ofTrimmed .ignoring pattern pattern
      = .ok ⟨segments, Glob.endsInSlash .ignoring pattern⟩ := by
    unfold Glob.ofTrimmed
    split
    · exact absurd ‹_› htexts
    · rw [mapM_of_forall₂ hread]
  have hguard : ¬(pattern.isEmpty || decide (pattern = ['/'])) = true := by
    simp [hempty, hslash]
  rw [ignoringRegex, htrim]
  simp only [hguard, hglob]
  exact hr

end TreeSieve

import Mathlib.Data.List.Forall2
import TreeSieve.Proofs.Path.Rooted
import TreeSieve.Proofs.Walk.Recursive

/-!
# Rules that are moved

The same ignore files below another directory give the same rules, for other scopes. Such rules say
the same about what is below the two directories.

* `Path.relativePath?_descend` says what is left of a path below a directory behind a scope there.
* `Rule.Moves` holds of two such rules, and `Rule.Moves.covers_eq` says that they match the same.
* `listIgnores_of_moves` and `listPrunes_of_moves` say that lists of such rules decide alike.
* `IgnoreFile.parse_moves` says that what an ignore file holds gives such rules.
-/

namespace TreeSieve

/-! ### Paths below a directory -/

/-- A root from which paths are told by the names behind it. Two slashes alone are none, since their
text is no prefix of the texts of the paths behind it. -/
def Path.IsTop (top : Path) : Prop := top.IsRooted ∧ (top.start = .root ∨ top.parts ≠ [])

namespace Path

variable {top : Path} (htop : top.IsTop) {names scope : List Text}
  (hnames : ∀ part ∈ names, IsEntryName part) (hscope : ∀ part ∈ scope, IsEntryName part)

include htop hnames hscope

/-- A path below a root is in the scope of a directory below it exactly if its names begin with
those of the directory; what is left of it are the other names. -/
theorem relativePath?_descend :
    relativePath? (canonical (top.descend names).toText) (canonical (top.descend scope).toText)
      = if scope <+: names then some (Text.joinWith '/' (names.drop scope.length)) else none := by
  obtain ⟨hrooted, hstart⟩ := htop
  have hin : inScope (canonical (top.descend names).toText)
      (canonical (top.descend scope).toText) = true ↔ scope <+: names :=
    (inScope_canonical (hrooted.descend hnames) (hrooted.descend hscope) rfl).trans
      (List.prefix_append_right_inj top.parts)
  by_cases hprefix : scope <+: names
  · obtain ⟨back, rfl⟩ := hprefix
    have hlead : top.parts ++ scope ≠ [] ∨ top.start = .root ∧ top.parts ++ scope = [] := by
      rcases eq_or_ne (top.parts ++ scope) [] with hnil | hne
      · have hparts := (List.append_eq_nil_iff.mp hnil).1
        exact .inr ⟨hstart.resolve_right (not_not.mpr hparts), hnil⟩
      · exact .inl hne
    rw [relativePath?, if_pos (hin.mpr (List.prefix_append scope back)),
      if_pos (List.prefix_append scope back), List.drop_left]
    refine congrArg some ?_
    rcases hlead with hne | ⟨hroot, hnil⟩
    · have hmore : top.parts ++ (scope ++ back) ≠ [] := by
        rw [← List.append_assoc]
        exact List.append_ne_nil_of_left_ne_nil hne back
      rw [scopeStem_canonical (hrooted.descend hscope) hne,
        canonical_toText (hrooted.descend hnames) hmore]
      have htext : lead top.start ++ trail (top.parts ++ (scope ++ back))
          = (lead top.start ++ trail (top.parts ++ scope)) ++ trail back := by
        rw [← List.append_assoc top.parts, trail_append (top.parts ++ scope), List.append_assoc]
      show (lead top.start ++ trail (top.parts ++ (scope ++ back))).drop
        ((lead top.start ++ trail (top.parts ++ scope)).length + 1) = _
      rw [htext, List.drop_length_add_append]
      rcases eq_or_ne back [] with rfl | hback
      · rfl
      · rw [← slash_joinWith hback]
        rfl
    · have hparts : (top.descend (scope ++ back)).parts = [] ++ back := by
        rw [descend, ← List.append_assoc, hnil]
      have hstem : scopeStem (canonical (top.descend scope).toText) = trail [] :=
        scopeStem_canonical_nil (hrooted.descend hscope) hnil
      have hrest := relativePath?_canonical (hrooted.descend hnames) hroot hparts hstem
      rw [relativePath?, if_pos (hin.mpr (List.prefix_append scope back))] at hrest
      exact Option.some.inj hrest
  · rw [relativePath?, if_neg (fun h => hprefix (hin.mp h)), if_neg hprefix]

end Path

/-! ### Rules -/

/-- Rules that hold for the directories of the same names below two others, and that are alike
otherwise. Their sources serve messages only. -/
structure Rule.Moves (top top' : Path) (r r' : Rule) : Prop where
  pattern : r'.pattern = r.pattern
  negated : r'.negated = r.negated
  anchored : r'.anchored = r.anchored
  matchers : r'.matchers = r.matchers
  line : r'.line = r.line
  scope : ∃ names, (∀ part ∈ names, Path.IsEntryName part) ∧
    r.scope = canonical (top.descend names).toText ∧
    r'.scope = canonical (top'.descend names).toText

namespace Rule.Moves

variable {top top' : Path} (htop : top.IsTop) (htop' : top'.IsTop) {r r' : Rule}
  (h : r.Moves top top' r') {names : List Text} (hnames : ∀ part ∈ names, Path.IsEntryName part)

include htop htop' h hnames

theorem relativePath?_eq :
    relativePath? (canonical (top'.descend names).toText) r'.scope
      = relativePath? (canonical (top.descend names).toText) r.scope := by
  obtain ⟨scope, hscope, hr, hr'⟩ := h.scope
  rw [hr, hr', Path.relativePath?_descend htop hnames hscope,
    Path.relativePath?_descend htop' hnames hscope]

theorem covers_eq (isDirectory : Bool) :
    r'.covers (canonical (top'.descend names).toText) isDirectory
      = r.covers (canonical (top.descend names).toText) isDirectory := by
  rw [covers, covers, h.relativePath?_eq htop htop' hnames, h.matchers]

theorem mayCoverBelow_eq :
    r'.mayCoverBelow (canonical (top'.descend names).toText)
      = r.mayCoverBelow (canonical (top.descend names).toText) := by
  rw [mayCoverBelow, mayCoverBelow, h.relativePath?_eq htop htop' hnames, h.matchers, h.anchored]

end Rule.Moves

/-! ### Lists of rules -/

/-- Functions that agree on what is related map related lists to one. -/
theorem map_eq_of_forall₂ {α β γ : Type} {R : α → β → Prop} {f : α → γ} {g : β → γ} {l : List α}
    {l' : List β} (h : List.Forall₂ R l l') (hfg : ∀ a b, R a b → f a = g b) :
    l.map f = l'.map g := by
  induction h with
  | nil => rfl
  | cons hab _ ih => rw [List.map_cons, List.map_cons, hfg _ _ hab, ih]

/-- Two lists of rules both ignore a path, or both do not, if their rules agree one by one in
whether they cover it and whether they are negated. -/
theorem listIgnores_congr {rules rules' : List Rule} {path path' : Text} {isDirectory : Bool}
    (h : rules.map (fun r => (r.covers path isDirectory, r.negated))
      = rules'.map (fun r => (r.covers path' isDirectory, r.negated))) :
    listIgnores rules path isDirectory = listIgnores rules' path' isDirectory := by
  have hmarks : ∀ (rules : List Rule) (path : Text), listIgnores rules path isDirectory
      = match (rules.map fun r => (r.covers path isDirectory, r.negated)).reverse.find? (·.1) with
        | some mark => !mark.2
        | none => false := by
    intro rules path
    rw [listIgnores, ← List.map_reverse, List.find?_map, Function.comp_def]
    simp only
    cases rules.reverse.find? (·.covers path isDirectory) with
    | none => rfl
    | some rule => rfl
  rw [hmarks, hmarks, h]

/-- Two lists of rules both prune a directory, or both do not, if their rules agree one by one in
whether they cover it, are negated and may cover something below it. -/
theorem listPrunes_congr {rules rules' : List Rule} {path path' : Text}
    (h : rules.map (fun r => (r.covers path true, r.negated, r.mayCoverBelow path))
      = rules'.map (fun r => (r.covers path' true, r.negated, r.mayCoverBelow path'))) :
    listPrunes rules path = listPrunes rules' path' := by
  have hmarks : ∀ (rules : List Rule) (path : Text), listPrunes rules path
      = let marks := (rules.map fun r =>
          (r.covers path true, r.negated, r.mayCoverBelow path)).reverse
        match marks.dropWhile fun mark => !mark.1 with
        | [] => false
        | mark :: _ => !mark.2.1 && !(marks.takeWhile fun mark => !mark.1).any fun mark =>
            mark.2.1 && mark.2.2 := by
    intro rules path
    simp only [← List.map_reverse, List.dropWhile_map, List.takeWhile_map, List.any_map]
    rw [listPrunes]
    simp only [Function.comp_def]
    cases rules.reverse.dropWhile fun rule => !rule.covers path true with
    | nil => rfl
    | cons rule rest => rfl
  rw [hmarks, hmarks, h]

section Lists

variable {top top' : Path} (htop : top.IsTop) (htop' : top'.IsTop) {rules rules' : List Rule}
  (h : List.Forall₂ (Rule.Moves top top') rules rules') {names : List Text}
  (hnames : ∀ part ∈ names, Path.IsEntryName part)

include htop htop' h hnames

/-- Below one root, moved rules ignore the path that the rules ignore below the other one. -/
theorem listIgnores_of_moves (isDirectory : Bool) :
    listIgnores rules' (canonical (top'.descend names).toText) isDirectory
      = listIgnores rules (canonical (top.descend names).toText) isDirectory := by
  refine (listIgnores_congr (map_eq_of_forall₂ h fun r r' hr => ?_)).symm
  rw [hr.covers_eq htop htop' hnames, hr.negated]

/-- Below one root, moved rules prune the directory that the rules prune below the other one. -/
theorem listPrunes_of_moves :
    listPrunes rules' (canonical (top'.descend names).toText)
      = listPrunes rules (canonical (top.descend names).toText) := by
  refine (listPrunes_congr (map_eq_of_forall₂ h fun r r' hr => ?_)).symm
  rw [hr.covers_eq htop htop' hnames, hr.negated, hr.mayCoverBelow_eq htop htop' hnames]

end Lists

/-! ### Ignore files -/

section Files

variable {top top' : Path} {names : List Text} (hnames : ∀ part ∈ names, Path.IsEntryName part)

include hnames

/-- If a line gives a rule for one directory then it gives a rule for the directory with the same
names below another root, and these differ in their scopes and sources only. -/
theorem LineReading.rule?_moves (number : Nat) (trimmed text : Text) (line : Int)
    (source source' : Option Text) : Option.Rel (Rule.Moves top top')
      (pattern number trimmed (Rule.compile (top.descend names).toText text line source)).rule?
      (pattern number trimmed
        (Rule.compile (top'.descend names).toText text line source')).rule? := by
  unfold Rule.compile
  cases RuleLine.ofText? text with
  | none => exact .none
  | some read =>
    simp only
    cases Matchers.ofGlob read.glob with
    | error fault => exact .none
    | ok matchers => exact .some ⟨rfl, rfl, rfl, rfl, rfl, names, hnames, rfl, rfl⟩

theorem readLines_moves (source source' : Option Text) (texts : List Text) :
    ∀ (cache cache' : MatcherCache) (line : Nat), List.Forall₂ (Rule.Moves top top')
      ((readLines (top.descend names).toText source cache line texts).1.filterMap (·.rule?))
      ((readLines (top'.descend names).toText source' cache' line texts).1.filterMap
        (·.rule?)) := by
  induction texts with
  | nil => exact fun _ _ _ => .nil
  | cons text rest ih =>
    intro cache cache' line
    have hcons : ∀ {reading reading' : LineReading} (cache cache' : MatcherCache),
        Option.Rel (Rule.Moves top top') reading.rule? reading'.rule? →
        List.Forall₂ (Rule.Moves top top')
          ((reading :: (readLines (top.descend names).toText source cache (line + 1)
            rest).1).filterMap (·.rule?))
          ((reading' :: (readLines (top'.descend names).toText source' cache' (line + 1)
            rest).1).filterMap (·.rule?)) := by
      intro reading reading' cache cache' hreading
      rw [List.filterMap_cons, List.filterMap_cons]
      generalize reading.rule? = rule at hreading ⊢
      generalize reading'.rule? = rule' at hreading ⊢
      cases hreading with
      | none => exact ih cache cache' (line + 1)
      | some hrule => exact .cons hrule (ih cache cache' (line + 1))
    unfold readLines
    simp only
    split
    · exact hcons cache cache' .none
    · split
      · exact hcons cache cache' .none
      · refine hcons _ _ ?_
        rw [MatcherCache.compile_result, MatcherCache.compile_result]
        exact LineReading.rule?_moves hnames _ _ _ _ source source'

/-- The rules of an ignore file in one directory and those in the directory with the same names
below another root differ in their scopes and sources only. -/
theorem IgnoreFile.parse_moves (cache cache' : MatcherCache) (content : Content)
    (source source' : Option Text) : List.Forall₂ (Rule.Moves top top')
      (IgnoreFile.parse cache (top.descend names).toText content source).1.rules
      (IgnoreFile.parse cache' (top'.descend names).toText content source').1.rules :=
  List.forall₂_take _ (readLines_moves hnames source source' _ cache cache' 1)

end Files

end TreeSieve

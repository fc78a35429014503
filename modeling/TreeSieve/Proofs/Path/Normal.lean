import TreeSieve.Proofs.Path.Rooted

/-!
# Normal forms

A path is collapsed before it is compared, and written as its canonical text.

* `Path.IsCollapsed.collapse_eq` says that collapsing a path leaves nothing to collapse.
* `Path.canonical_eq_toText` says that the canonical text of a text is that of its collapsed path,
  unless it names a root with two slashes; `Path.canonical_canonical` that it is its own canonical
  text then.
* `Path.IsNormalOf` holds of a text that is the normal form of another one.
* `Path.canonical_isNormalOf_iff` says that a canonical text is one, with the exception of a root
  that is written with two slashes and that nothing is left behind.
-/

namespace TreeSieve

namespace Path

/-! ### Collapsed paths -/

/-- Without a root, a row of `..` is put as it is on a stack of `..`. -/
theorem foldl_pushPart_dotDot (ups : Nat) : ∀ before : Nat,
    (List.replicate ups dotDot).foldl (Path.pushPart false) (List.replicate before dotDot)
      = List.replicate (before + ups) dotDot := by
  induction ups with
  | zero => intro before; simp
  | succ ups ih =>
    intro before
    have hpush : Path.pushPart false (List.replicate before dotDot) dotDot
        = List.replicate (before + 1) dotDot := by
      cases before with
      | zero => simp [Path.pushPart]
      | succ before => simp [Path.pushPart, List.replicate_succ]
    rw [List.replicate_succ, List.foldl_cons, hpush, ih]
    congr 1
    omega

/-- Collapsing a path that is collapsed changes nothing. -/
theorem IsCollapsed.collapse_eq {p : Path} (h : p.IsCollapsed) : p.collapse = p := by
  obtain ⟨ups, names, hparts, hnames, hups⟩ := h
  have hdots : (List.replicate ups dotDot).foldl (Path.pushPart p.isAbsolute) []
      = List.replicate ups dotDot := by
    cases habs : p.isAbsolute with
    | true => simp [hups habs]
    | false => simpa using foldl_pushPart_dotDot ups 0
  rw [collapse, hparts, List.foldl_append, hdots,
    foldl_pushPart_of_ne _ fun name hname => (hnames name hname).2, List.reverse_append,
    List.reverse_reverse, List.reverse_replicate, ← hparts]

/-! ### Their texts -/

/-- The text of a path with names for components ends in a slash only if it is a root. -/
theorem getLast?_toText {p : Path} (h : ∀ part ∈ p.parts, IsName part)
    (hlast : p.toText.getLast? = some '/') : p.start ≠ .current ∧ p.parts = [] := by
  rw [toText] at hlast
  by_cases hcurrent : p.start = .current ∧ p.parts = []
  · rw [if_pos (by simpa using hcurrent)] at hlast
    simp [dot] at hlast
  · rw [if_neg (by simpa using hcurrent), List.getLast?_append] at hlast
    cases hjoined : (Text.joinWith '/' p.parts).getLast? with
    | some c =>
      rw [hjoined] at hlast
      exact absurd (hjoined.trans hlast) (getLast?_joinWith h)
    | none =>
      have hparts : p.parts = [] := by
        by_contra hne
        exact joinWith_ne_nil h hne (List.getLast?_eq_none_iff.mp hjoined)
      exact ⟨fun hstart => hcurrent ⟨hstart, hparts⟩, hparts⟩

/-- Whether a text names a root with two slashes: exactly two stand at its start, and nothing is
left of what is behind them. -/
def NamesDoubleRoot (t : Text) : Prop :=
  startOf t = .doubleRoot ∧ (ofText t).collapse.parts = []

instance decidableNamesDoubleRoot (t : Text) : Decidable (NamesDoubleRoot t) :=
  inferInstanceAs (Decidable (_ ∧ _))

/-- The canonical text of a text that names a root with two slashes is empty. -/
theorem canonical_of_namesDoubleRoot {t : Text} (h : NamesDoubleRoot t) : canonical t = [] := by
  have hpath : (ofText t).collapse = ⟨.doubleRoot, []⟩ := by
    rw [Path.mk.injEq]
    exact h
  rw [canonical, hpath]
  decide

/-- Any other text has the text of its collapsed path as its canonical text. -/
theorem canonical_eq_toText {t : Text} (h : ¬ NamesDoubleRoot t) :
    canonical t = (ofText t).collapse.toText := by
  simp only [canonical]
  split
  · rfl
  · rename_i hlong
    apply dropEndWhile_slash
    intro hlast
    obtain ⟨hstart, hparts⟩ := getLast?_toText (collapse_ofText_isCollapsed t).isName hlast
    -- only the root with one slash is left, and its text is short
    cases hs : (ofText t).collapse.start with
    | current => exact hstart hs
    | root => simp [toText, hs, hparts, PathStart.slashes, Text.joinWith] at hlong
    | doubleRoot => exact h ⟨hs, hparts⟩

/-- The path of a canonical text is the collapsed one. -/
theorem ofText_canonical {t : Text} (h : ¬ NamesDoubleRoot t) :
    ofText (canonical t) = (ofText t).collapse := by
  rw [canonical_eq_toText h, ofText_toText (collapse_ofText_isCollapsed t).isName]

/-- Writing a path in its canonical text again changes nothing. -/
theorem canonical_canonical {t : Text} (h : ¬ NamesDoubleRoot t) :
    canonical (canonical t) = canonical t := by
  have hpath := ofText_canonical h
  have hcollapsed := collapse_ofText_isCollapsed t
  have hagain : ¬ NamesDoubleRoot (canonical t) := by
    intro hdouble
    have hstart : startOf (canonical t) = startOf t := congrArg Path.start hpath
    rw [NamesDoubleRoot, hpath, hcollapsed.collapse_eq, hstart] at hdouble
    exact h hdouble
  rw [canonical_eq_toText hagain, hpath, hcollapsed.collapse_eq, canonical_eq_toText h]

/-- The only canonical text that ends in a slash is that of the root. -/
theorem canonical_of_getLast? {t : Text} (h : ¬ NamesDoubleRoot t)
    (hlast : (canonical t).getLast? = some '/') : canonical t = ['/'] := by
  rw [canonical_eq_toText h] at hlast ⊢
  obtain ⟨hnot, hparts⟩ := getLast?_toText (collapse_ofText_isCollapsed t).isName hlast
  cases hs : (ofText t).collapse.start with
  | current => exact absurd hs hnot
  | root => simp [toText, hs, hparts, PathStart.slashes, Text.joinWith]
  | doubleRoot => exact absurd ⟨hs, hparts⟩ h

/-- A canonical text is a dot, or made up of a start and components. -/
theorem canonical_cases {t : Text} (h : ¬ NamesDoubleRoot t) : canonical t = dot ∨
    canonical t = (startOf t).slashes ++ Text.joinWith '/' (ofText t).collapse.parts := by
  rw [canonical_eq_toText h, toText]
  split
  · exact Or.inl rfl
  · exact Or.inr rfl

theorem head?_eq_slash_iff {t : Text} : t.head? = some '/' ↔ startOf t ≠ .current := by
  unfold startOf
  split
  · simp
  · simp
  · simp
  · rename_i hnot
    cases t with
    | nil => simp
    | cons c rest =>
      have hc : c ≠ '/' := fun he => hnot rest (by rw [he])
      simp [hc]

/-! ### Normal forms of texts -/

/-- A text that is the normal form of another one. It is a dot, or the slashes of a start and then
names with one slash between neighbours, where `..` stand at the very start only. -/
structure IsNormalOf (y t : Text) : Prop where
  path : ofText y = (ofText t).collapse
  stable : canonical y = y
  ne_nil : y ≠ []
  slash : y.getLast? = some '/' → y = ['/']
  absolute : y.head? = some '/' ↔ t.head? = some '/'
  written : y = dot ∨ ∃ (start : PathStart) (ups : Nat) (names : List Text),
    y = start.slashes ++ Text.joinWith '/' (List.replicate ups dotDot ++ names) ∧
      (∀ name ∈ names, IsEntryName name) ∧ (start ≠ .current → ups = 0)

/-- **The canonical text of a text is its normal form**, unless the text names a root with two
slashes: of this one nothing is left. -/
theorem canonical_isNormalOf_iff (t : Text) :
    IsNormalOf (canonical t) t ↔ ¬ NamesDoubleRoot t := by
  constructor
  · intro h hdouble
    exact h.ne_nil (canonical_of_namesDoubleRoot hdouble)
  · intro h
    have hstable := canonical_canonical h
    have hpath := ofText_canonical h
    have hstart : startOf (canonical t) = startOf t := congrArg Path.start hpath
    have hne : canonical t ≠ [] := by
      intro hnil
      rw [hnil] at hstable
      exact absurd hstable (by decide)
    refine ⟨hpath, hstable, hne, canonical_of_getLast? h, ?_, ?_⟩
    · rw [head?_eq_slash_iff, head?_eq_slash_iff, hstart]
    · obtain ⟨ups, names, hparts, hnames, hups⟩ := collapse_ofText_isCollapsed t
      rcases canonical_cases h with hdot | htext
      · exact Or.inl hdot
      · refine Or.inr ⟨startOf t, ups, names, hparts ▸ htext, hnames, fun hroot => hups ?_⟩
        show (startOf t != .current) = true
        simpa using hroot

/-- Two slashes are a root of their own, and nothing at all is left of them. -/
theorem not_isNormalOf_doubleRoot : ¬ IsNormalOf (canonical (Text.lit "//")) (Text.lit "//") := by
  intro h
  exact h.ne_nil (by decide)

end Path

end TreeSieve

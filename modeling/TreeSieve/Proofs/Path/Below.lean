import TreeSieve.Proofs.Path.Rooted

/-!
# Paths below a scope

What lies in a scope is named by the components behind those of the scope.

* `Path.namesBelow` are these names, and `Path.exists_namesBelow` cuts a path at its scope.
* `Path.IsRootedText` holds of the texts that are canonical and begin with one slash:
  `Path.isRootedText_iff`. `Path.IsRootedText.inScope_iff` compares the components of two of them.
* `Path.LiesIn` says of a text that it is the canonical text of a path in a scope;
  `Path.LiesIn.parts_eq` tells the components of the path, and `Path.liesIn_iff_prefix` compares two
  paths of one scope.
* `Path.LiesIn.exists_above`: each of the first names below a scope is that of a path on the way.
-/

namespace TreeSieve

namespace Path

/-- The names of a path behind those of a scope. -/
def namesBelow (scope path : Text) : List Text :=
  (ofText path).parts.drop (ofText scope).collapse.parts.length

/-- A canonical path that starts with one slash is the text of a rooted path. -/
theorem isRooted_of_canonical {path : Text} (hroot : startOf path = .root)
    (hpath : canonical path = path) :
    (ofText path).IsRooted ∧ canonical (ofText path).toText = path := by
  have hstart : startOf path ≠ .current := by simp [hroot]
  have hrooted := collapse_ofText_isRooted hstart
  have hcanonical := canonical_collapse hstart
  have htext : (ofText path).collapse.toText = path := by
    have hslash := canonical_toText_root hrooted hroot
    rw [hcanonical, hpath] at hslash
    have hnot : (ofText path).collapse.start ≠ .current := hstart
    rw [toText, if_neg (by simp [hnot]), show (ofText path).collapse.start = .root from hroot]
    exact hslash.symm
  have hself : ofText path = (ofText path).collapse := by
    rw [← hrooted.ofText_toText, htext]
  rw [← hself] at hrooted hcanonical
  exact ⟨hrooted, hcanonical.trans hpath⟩

/-- The components of a path in a scope are those of the scope and more, and the stem of the scope
is the trail of its components. -/
theorem exists_namesBelow {scope : Text} (hscope : startOf scope ≠ .current) {p : Path}
    (hp : p.IsRooted) (hs : p.start = .root)
    (h : inScope (canonical p.toText) (canonical scope) = true) :
    ∃ front back, p.parts = front ++ back ∧ scopeStem (canonical scope) = trail front ∧
      front = (ofText scope).collapse.parts := by
  obtain ⟨front, back, hsplit, hstem⟩ := scopeStem_of_inScope hp hs h
  refine ⟨front, back, hsplit, hstem, ?_⟩
  have hq := collapse_ofText_isRooted hscope
  have hfront : ∀ name ∈ front, IsEntryName name :=
    fun name hn => hp.names name (hsplit ▸ List.mem_append_left back hn)
  rw [← canonical_collapse hscope] at hstem
  by_cases hparts : (ofText scope).collapse.parts = []
  · rw [scopeStem_canonical_nil hq hparts] at hstem
    rw [hparts, trail_eq_nil.mp hstem.symm]
  · rw [scopeStem_canonical hq hparts, lead] at hstem
    split at hstem
    · -- no name is empty, as it would be between two slashes at the start
      exfalso
      obtain ⟨part, more, hmore⟩ := List.exists_cons_of_ne_nil hparts
      cases front with
      | nil => exact nomatch hstem
      | cons name front =>
        have hname := hfront name List.mem_cons_self
        rw [hmore, trail_cons, trail_cons] at hstem
        have hin : name ++ trail front = '/' :: (part ++ trail more) := (List.cons.inj hstem).2.symm
        obtain ⟨c, rest, hc⟩ := List.exists_cons_of_ne_nil hname.ne_nil
        rw [hc, List.cons_append, List.cons.injEq] at hin
        exact hname.slash_not_mem (by rw [hc, hin.1]; simp)
    · exact (trail_inj (fun name hn => (hq.names name hn).slash_not_mem)
        (fun name hn => (hfront name hn).slash_not_mem) hstem).symm

/-- The stem of a directory that starts with one slash is the trail of its components. -/
theorem scopeStem_root {d : Path} (hd : d.IsRooted) (hs : d.start = .root) :
    scopeStem (canonical d.toText) = trail d.parts := by
  rcases eq_or_ne d.parts [] with he | hne
  · rw [scopeStem_canonical_nil hd he, he, trail_nil]
  · rw [scopeStem_canonical hd hne, hs]
    rfl

/-- A path lies in a scope whose stem is the trail of the first components of the path. -/
theorem inScope_of_stem {p : Path} (hp : p.IsRooted) (hs : p.start = .root) {scope : Text}
    {front back : List Text} (hsplit : p.parts = front ++ back)
    (hstem : scopeStem scope = trail front) : inScope (canonical p.toText) scope = true := by
  have hrest := relativePath?_canonical hp hs hsplit hstem
  rw [relativePath?] at hrest
  split at hrest
  · assumption
  · cases hrest

/-! ### Rooted texts -/

/-- A text that begins with one slash and is written with nothing else than its components, none of
which is `..`. -/
structure IsRootedText (t : Text) : Prop where
  start : startOf t = .root
  names : ∀ part ∈ (ofText t).parts, IsEntryName part
  written : '/' :: Text.joinWith '/' (ofText t).parts = t

section IsRootedText

variable {path scope : Text}

theorem IsRootedText.isRooted (h : IsRootedText path) : (ofText path).IsRooted := by
  refine ⟨?_, h.names⟩
  rw [isAbsolute, show (ofText path).start = .root from h.start]
  rfl

theorem IsRootedText.canonical_toText (h : IsRootedText path) :
    canonical (ofText path).toText = path := by
  rw [canonical_toText_root h.isRooted h.start, h.written]

/-- These are the canonical texts with one slash at their start. -/
theorem isRootedText_iff : IsRootedText path ↔ startOf path = .root ∧ canonical path = path := by
  constructor
  · intro h
    refine ⟨h.start, ?_⟩
    have hcanonical := canonical_collapse (t := path) (by simp [h.start])
    rwa [h.isRooted.collapse_eq, h.canonical_toText, eq_comm] at hcanonical
  · rintro ⟨hstart, hclean⟩
    obtain ⟨hrooted, htext⟩ := isRooted_of_canonical hstart hclean
    refine ⟨hstart, hrooted.names, ?_⟩
    rw [← canonical_toText_root hrooted hstart, htext]

instance decidableIsRootedText (t : Text) : Decidable (IsRootedText t) :=
  decidable_of_iff _ isRootedText_iff.symm

/-- Texts of this kind with the same components are the same. -/
theorem IsRootedText.eq_of_parts {other : Text} (h : IsRootedText path) (ho : IsRootedText other)
    (hparts : (ofText path).parts = (ofText other).parts) : path = other := by
  rw [← h.written, hparts, ho.written]

/-- A path lies in a scope if the components of the scope stand in front of its own. -/
theorem IsRootedText.inScope_iff (h : IsRootedText path) (hs : IsRootedText scope) :
    inScope path scope = true ↔ (ofText scope).parts <+: (ofText path).parts := by
  have hin := inScope_canonical h.isRooted hs.isRooted (h.start.trans hs.start.symm)
  rwa [h.canonical_toText, hs.canonical_toText] at hin

end IsRootedText

/-! ### Canonical paths of a scope -/

/-- A canonical path with one slash at its start that is a scope or lies below it. -/
structure LiesIn (path scope : Text) : Prop where
  clean : canonical path = path
  root : startOf path = .root
  within : inScope path (canonical scope) = true

instance decidableLiesIn (path scope : Text) : Decidable (LiesIn path scope) :=
  decidable_of_iff
    (canonical path = path ∧ startOf path = .root ∧ inScope path (canonical scope) = true)
    ⟨fun h => ⟨h.1, h.2.1, h.2.2⟩, fun h => ⟨h.clean, h.root, h.within⟩⟩

section LiesIn

variable {scope path above : Text}

theorem LiesIn.isRootedText (h : LiesIn path scope) : IsRootedText path :=
  isRootedText_iff.mpr ⟨h.root, h.clean⟩

theorem LiesIn.isRooted (h : LiesIn path scope) : (ofText path).IsRooted :=
  h.isRootedText.isRooted

theorem LiesIn.canonical_toText (h : LiesIn path scope) :
    canonical (ofText path).toText = path :=
  h.isRootedText.canonical_toText

/-- The components of a path in a scope are those of the scope, and behind them the names of the
path below it. -/
theorem LiesIn.parts_eq (h : LiesIn path scope) (hscope : startOf scope ≠ .current) :
    (ofText path).parts = (ofText scope).collapse.parts ++ namesBelow scope path ∧
      scopeStem (canonical scope) = trail (ofText scope).collapse.parts := by
  have hwithin := h.within
  rw [← h.canonical_toText] at hwithin
  obtain ⟨front, back, hsplit, hstem, hfront⟩ :=
    exists_namesBelow hscope h.isRooted h.root hwithin
  rw [namesBelow, hsplit, ← hfront, List.drop_left]
  exact ⟨rfl, hstem⟩

theorem LiesIn.isEntryName (h : LiesIn path scope) (hscope : startOf scope ≠ .current) :
    ∀ name ∈ namesBelow scope path, IsEntryName name := by
  intro name hn
  apply h.isRooted.names
  rw [(h.parts_eq hscope).1]
  exact List.mem_append_right _ hn

/-- A path lies in another one if the components of that one stand in front of its own. -/
theorem LiesIn.liesIn_iff {root : Text} (h : LiesIn path scope) (ha : LiesIn above root) :
    LiesIn path above ↔ (ofText above).parts <+: (ofText path).parts := by
  rw [← h.isRootedText.inScope_iff ha.isRootedText]
  constructor
  · intro hpath
    rw [← ha.clean]
    exact hpath.within
  · intro hwithin
    refine ⟨h.clean, h.root, ?_⟩
    rw [ha.clean]
    exact hwithin

/-- Of two paths in a scope, one lies in the other if its names below the scope go on from those of
the other. -/
theorem LiesIn.liesIn_iff_prefix (h : LiesIn path scope) (ha : LiesIn above scope)
    (hscope : startOf scope ≠ .current) :
    LiesIn path above ↔ namesBelow scope above <+: namesBelow scope path := by
  rw [h.liesIn_iff ha, (h.parts_eq hscope).1, (ha.parts_eq hscope).1,
    List.prefix_append_right_inj]

theorem LiesIn.eq_of_namesBelow {other : Text} (h : LiesIn path scope) (ho : LiesIn other scope)
    (hscope : startOf scope ≠ .current) (hsame : namesBelow scope path = namesBelow scope other) :
    path = other := by
  apply h.isRootedText.eq_of_parts ho.isRootedText
  rw [(h.parts_eq hscope).1, (ho.parts_eq hscope).1, hsame]

/-- If a path lies in another one in the same scope then its names begin with the names of that one,
and there are no more exactly if the two paths are the same. -/
theorem LiesIn.exists_below (h : LiesIn path scope) (ha : LiesIn above scope)
    (hscope : startOf scope ≠ .current) (hpath : LiesIn path above) :
    ∃ below, namesBelow scope path = namesBelow scope above ++ below ∧
      (below = [] ↔ path = above) := by
  obtain ⟨below, hbelow⟩ := (h.liesIn_iff_prefix ha hscope).mp hpath
  refine ⟨below, hbelow.symm, ?_⟩
  constructor
  · rintro rfl
    rw [List.append_nil] at hbelow
    exact h.eq_of_namesBelow ha hscope hbelow.symm
  · rintro rfl
    simpa using hbelow

/-- **The first names of a path below a scope are those of a path on the way to it.** -/
theorem LiesIn.exists_above (h : LiesIn path scope) (hscope : startOf scope ≠ .current)
    {names below : List Text} (hsplit : namesBelow scope path = names ++ below) :
    ∃ above, LiesIn above scope ∧ LiesIn path above ∧ namesBelow scope above = names := by
  obtain ⟨hparts, hstem⟩ := h.parts_eq hscope
  let p : Path := ⟨.root, (ofText scope).collapse.parts ++ names⟩
  have hpath : (ofText path).parts = p.parts ++ below := by
    rw [hparts, hsplit, List.append_assoc]
  have hp : p.IsRooted := by
    refine ⟨rfl, fun name hn => h.isRooted.names name ?_⟩
    rw [hpath]
    exact List.mem_append_left _ hn
  have htext : canonical p.toText = p.toText := canonical_toText_root hp rfl
  have hof : ofText p.toText = p := hp.ofText_toText
  have habove : LiesIn p.toText scope := by
    refine ⟨htext, congrArg Path.start hof, ?_⟩
    rw [← htext]
    exact inScope_of_stem hp rfl rfl hstem
  refine ⟨p.toText, habove, ?_, ?_⟩
  · rw [h.liesIn_iff habove, hof]
    exact ⟨below, hpath.symm⟩
  · rw [namesBelow, hof]
    exact List.drop_left

/-- What lies in a directory of a scope lies in the scope. -/
theorem LiesIn.trans (h : LiesIn path above) (ha : LiesIn above scope)
    (hscope : startOf scope ≠ .current) : LiesIn path scope := by
  obtain ⟨more, hmore⟩ := (h.liesIn_iff ha).mp h
  obtain ⟨hparts, hstem⟩ := ha.parts_eq hscope
  refine ⟨h.clean, h.root, ?_⟩
  have hpath : (ofText path).parts
      = (ofText scope).collapse.parts ++ (namesBelow scope above ++ more) := by
    rw [← hmore, hparts, List.append_assoc]
  rw [← h.canonical_toText]
  exact inScope_of_stem h.isRooted h.root hpath hstem

end LiesIn

end Path

end TreeSieve

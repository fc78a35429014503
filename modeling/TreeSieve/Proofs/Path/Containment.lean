import TreeSieve.Path.Base
import TreeSieve.Proofs.Path.Normal

/-!
# Paths within a base

A path is held against a base by its components. A rule holds for what lies in its scope, and this
is told by texts.

* `Path.IsRooted.within_toText` and `Path.exists_resolveWithin_eq` say what becomes of a path that
  is held against a base, and of a name that is asked for in one.
* `Path.IsHeldIn` holds of a path that a base may give: collapsed, and the base or below it.
* `Path.within_exact` says that the components and the texts tell the same paths from the others,
  and that nothing else is ever given.
-/

namespace TreeSieve

namespace Path

/-! ### Against a base -/

/-- An absolute path is accepted, in its collapsed form, if that is or lies below the collapsed
base, and refused otherwise. -/
theorem within_eq_ite {base path : Text} (hbase : startOf base ≠ .current)
    (hpath : startOf path ≠ .current) :
    within base path = if (ofText path).collapse.isBelow (ofText base).collapse
      then .ok (ofText path).collapse
      else .error (.outside (ofText path).collapse (ofText base).collapse) := by
  have hb : base.head? = some '/' := head?_eq_slash_iff.mpr hbase
  have hp : path.head? = some '/' := head?_eq_slash_iff.mpr hpath
  simp [within, hb, hp]

/-- A rooted path is accepted as it is if it is or lies below the rooted base, and refused
otherwise. -/
theorem IsRooted.within_toText {base target : Path} (hbase : base.IsRooted)
    (htarget : target.IsRooted) :
    within base.toText target.toText
      = if target.isBelow base then .ok target else .error (.outside target base) := by
  have hb : startOf base.toText ≠ .current := hbase.startOf_toText ▸ hbase.start_ne
  have ht : startOf target.toText ≠ .current := htarget.startOf_toText ▸ htarget.start_ne
  rw [within_eq_ite hb ht, hbase.ofText_toText, hbase.collapse_eq, htarget.ofText_toText,
    htarget.collapse_eq]

/-- Whatever name is asked for, it is a rooted path that is held against the base. -/
theorem exists_resolveWithin_eq {current : Path} {base : Text}
    (hbase : (absolute current base).IsRooted) (name : Option Text) :
    ∃ target : Path, target.IsRooted ∧ resolveWithin current base name
      = if target.isBelow (absolute current base) then .ok target
        else .error (.outside target (absolute current base)) := by
  have hself : within (absolute current base).toText (absolute current base).collapse.toText
      = if (absolute current base).isBelow (absolute current base) then .ok (absolute current base)
        else .error (.outside (absolute current base) (absolute current base)) := by
    rw [hbase.collapse_eq, hbase.within_toText hbase]
  unfold resolveWithin
  split
  · exact ⟨absolute current base, hbase, hself⟩
  · exact ⟨absolute current base, hbase, hself⟩
  · rename_i asked hasked
    have hrooted : ((absolute current base).join (ofText asked).collapse).collapse.IsRooted :=
      collapse_join_isRooted hbase.absolute (fun part hpart => (hbase.names part hpart).1)
        (collapse_ofText_isCollapsed asked).isName
    exact ⟨_, hrooted, hbase.within_toText hrooted⟩

/-- A directory that a base gives is the base with some names of entries behind. -/
theorem exists_of_resolveWithin {current target : Path} (hcurrent : current.IsRooted)
    {base : Text} {name : Option Text} (h : resolveWithin current base name = .ok target) :
    ∃ names, target = (absolute current base).descend names ∧
      ∀ part ∈ names, IsEntryName part := by
  have hbase : (absolute current base).IsRooted :=
    absolute_isRooted hcurrent.absolute (fun part hpart => (hcurrent.names part hpart).1) base
  obtain ⟨asked, hasked, hresolve⟩ := exists_resolveWithin_eq hbase name
  rw [hresolve] at h
  split at h
  · rename_i hbelow
    obtain rfl := Except.ok.inj h
    exact hasked.exists_of_isBelow hbelow
  · cases h

/-- A directory that a base gives is a rooted path. -/
theorem isRooted_of_resolveWithin {current target : Path} (hcurrent : current.IsRooted)
    {base : Text} {name : Option Text} (h : resolveWithin current base name = .ok target) :
    target.IsRooted := by
  have hbase : (absolute current base).IsRooted :=
    absolute_isRooted hcurrent.absolute (fun part hpart => (hcurrent.names part hpart).1) base
  obtain ⟨names, rfl, hnames⟩ := exists_of_resolveWithin hcurrent h
  exact hbase.descend hnames

/-! ### Components and texts -/

/-- A path that a base may give. It is written in its normal form, which has names of entries for
components, and it is the base or lies below it, by its components and as a scope. -/
structure IsHeldIn (found : Path) (base : Text) : Prop where
  normal : canonical found.toText = found.toText
  rooted : found.IsRooted
  below : (ofText (canonical base)).parts <+: found.parts
  scope : inScope found.toText (canonical base) = true

theorem not_namesDoubleRoot {t : Text} (h : startOf t = .root) : ¬ NamesDoubleRoot t := by
  intro hdouble
  rw [NamesDoubleRoot, h] at hdouble
  exact absurd hdouble.1 (by decide)

/-- The text of a path that starts with one slash is its canonical text. -/
theorem IsRooted.canonical_toText_eq {p : Path} (h : p.IsRooted) (hs : p.start = .root) :
    canonical p.toText = p.toText := by
  have hstart : startOf p.toText = .root := h.startOf_toText.trans hs
  rw [canonical_eq_toText (not_namesDoubleRoot hstart), h.ofText_toText, h.collapse_eq]

/-- Being below a directory is lying in the scope of its text. -/
theorem IsRooted.isBelow_iff_inScope {p directory : Path} (hp : p.IsRooted)
    (hdirectory : directory.IsRooted) (hps : p.start = .root) (hds : directory.start = .root) :
    p.isBelow directory = true ↔ inScope p.toText directory.toText = true := by
  have hscope := inScope_canonical hp hdirectory (hps.trans hds.symm)
  rw [hp.canonical_toText_eq hps, hdirectory.canonical_toText_eq hds] at hscope
  rw [isBelow_iff, hscope, and_iff_right (hps.trans hds.symm)]

section Base

variable {base : Text} (hbase : startOf base = .root)

include hbase

/-- A path that starts with one slash is accepted if it lies below the base. -/
theorem exists_within_iff {path : Text} (hpath : startOf path = .root) :
    (∃ found, within base path = .ok found) ↔
      (ofText path).collapse.isBelow (ofText base).collapse = true := by
  have hbaseAbsolute : startOf base ≠ .current := by simp [hbase]
  have hpathAbsolute : startOf path ≠ .current := by simp [hpath]
  rw [within_eq_ite hbaseAbsolute hpathAbsolute]
  split
  · rename_i hbelow
    simp [hbelow]
  · rename_i hbelow
    simp [hbelow]

/-- A rooted path that is or lies below the collapsed base is held in the base. -/
theorem IsRooted.isHeldIn {found : Path} (hfound : found.IsRooted)
    (hbelow : found.isBelow (ofText base).collapse = true) : found.IsHeldIn base := by
  have hrooted : (ofText base).collapse.IsRooted := collapse_ofText_isRooted (by simp [hbase])
  obtain ⟨hstart, hparts⟩ := isBelow_iff.mp hbelow
  have hs : found.start = .root := hstart.trans hbase
  refine ⟨hfound.canonical_toText_eq hs, hfound, ?_, ?_⟩
  · rwa [ofText_canonical (not_namesDoubleRoot hbase)]
  · rw [canonical_eq_toText (not_namesDoubleRoot hbase)]
    exact (hfound.isBelow_iff_inScope hrooted hs hbase).mp hbelow

end Base

/-- **A path is accepted within a base exactly when it is the base or lies below it.** That the
components of the base stand in front of those of the path, and that the canonical text of the path
lies in the scope of the base, come to the same. What is accepted is the path in its normal form;
and a name that is asked for, wherever it leads, is refused or leads to such a path. -/
theorem within_exact {base path : Text} (hbase : startOf base = .root)
    (hpath : startOf path = .root) :
    ((∃ found, within base path = .ok found) ↔
      (ofText (canonical base)).parts <+: (ofText (canonical path)).parts) ∧
    ((∃ found, within base path = .ok found) ↔ inScope (canonical path) (canonical base) = true) ∧
    (∀ found, within base path = .ok found →
      found.toText = canonical path ∧ found.IsHeldIn base) ∧
    ∀ (current : Path) (name : Option Text),
      (∃ target, resolveWithin current base name
        = .error (.outside target (ofText (canonical base)))) ∨
      ∃ found, resolveWithin current base name = .ok found ∧ found.IsHeldIn base := by
  have hbaseAbsolute : startOf base ≠ .current := by simp [hbase]
  have hpathAbsolute : startOf path ≠ .current := by simp [hpath]
  have hbaseRooted : (ofText base).collapse.IsRooted := collapse_ofText_isRooted hbaseAbsolute
  have hpathRooted : (ofText path).collapse.IsRooted := collapse_ofText_isRooted hpathAbsolute
  have hbaseText := canonical_eq_toText (not_namesDoubleRoot hbase)
  have hbasePath := ofText_canonical (not_namesDoubleRoot hbase)
  have hpathText := canonical_eq_toText (not_namesDoubleRoot hpath)
  refine ⟨?_, ?_, ?_, ?_⟩
  · rw [exists_within_iff hbase hpath, isBelow_iff, hbasePath,
      ofText_canonical (not_namesDoubleRoot hpath)]
    exact and_iff_right (hpath.trans hbase.symm)
  · rw [exists_within_iff hbase hpath, hbaseText, hpathText]
    exact hpathRooted.isBelow_iff_inScope hbaseRooted hpath hbase
  · intro found hfound
    have hbelow := (exists_within_iff hbase hpath).mp ⟨found, hfound⟩
    rw [within_eq_ite hbaseAbsolute hpathAbsolute, if_pos hbelow] at hfound
    obtain rfl := Except.ok.inj hfound
    exact ⟨hpathText.symm, hpathRooted.isHeldIn hbase hbelow⟩
  · intro current name
    have hdirectory : absolute current base = (ofText base).collapse := absolute_of_startOf hbase
    obtain ⟨target, htarget, hresolve⟩ :=
      exists_resolveWithin_eq (hdirectory ▸ hbaseRooted : (absolute current base).IsRooted) name
    rw [hdirectory] at hresolve
    rw [hresolve, hbasePath]
    split
    · rename_i hbelow
      exact Or.inr ⟨target, rfl, htarget.isHeldIn hbase hbelow⟩
    · exact Or.inl ⟨target, rfl⟩

/-- A base and a path that go up and come down again. -/
theorem within_exact_windingPath :
    let base := Text.lit "/a//b/"
    let path := Text.lit "/a/./b/../b/c"
    startOf base = .root ∧ startOf path = .root ∧
      (∃ found, within base path = .ok found ∧ found.toText = Text.lit "/a/b/c" ∧
        found.IsHeldIn base) ∧
      ∃ found, resolveWithin ⟨.current, []⟩ base (some (Text.lit "c/../..//b")) = .ok found ∧
        found.IsHeldIn base := by
  intro base path
  have hbase : startOf base = .root := by decide
  have hpath : startOf path = .root := by decide
  obtain ⟨hparts, -, hgiven, hasked⟩ := within_exact hbase hpath
  refine ⟨hbase, hpath, ?_, ?_⟩
  · obtain ⟨found, hfound⟩ := hparts.mpr (by decide)
    obtain ⟨htext, hheld⟩ := hgiven found hfound
    exact ⟨found, hfound, htext.trans (by decide), hheld⟩
  · have hvalue : resolveWithin ⟨.current, []⟩ base (some (Text.lit "c/../..//b"))
        = .ok ⟨.root, [Text.lit "a", Text.lit "b"]⟩ := by decide
    rcases hasked ⟨.current, []⟩ (some (Text.lit "c/../..//b")) with ⟨target, houtside⟩ | hfound
    · rw [hvalue] at houtside
      cases houtside
    · exact hfound

end Path

end TreeSieve

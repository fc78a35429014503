import Mathlib.Order.Preorder.Chain
import TreeSieve.Proofs.Path.Below
import TreeSieve.Proofs.Path.Containment

/-!
# The order of scopes

Being in a scope is a question about texts. On the canonical texts of absolute paths the answer is
that of the components, so that the scopes of a path are its ancestors.

* `Path.IsRootedText.relativePath?_eq` tells what is left of a path in a scope, and
  `Path.IsRootedText.toText_join` puts it back below the scope.
* `Path.inScope_isPartialOrder` says that the scopes are ordered, and `Path.scopes_isChain` that
  those of one path stand one above the other.
* `Path.inScope_exact` puts this together.
-/

namespace TreeSieve

namespace Path

/-! ### Texts and components -/

section IsRootedText

variable {path scope : Text}

/-- What is left of a path whose components begin with those of a scope are its other components,
joined by slashes. -/
theorem IsRootedText.relativePath?_append (h : IsRootedText path) (hs : IsRootedText scope)
    {below : List Text} (hsplit : (ofText path).parts = (ofText scope).parts ++ below) :
    relativePath? path scope = some (Text.joinWith '/' below) := by
  have hstem := scopeStem_root hs.isRooted hs.start
  rw [hs.canonical_toText] at hstem
  have hrest := relativePath?_canonical h.isRooted h.start hsplit hstem
  rwa [h.canonical_toText] at hrest

theorem IsRootedText.relativePath?_eq (h : IsRootedText path) (hs : IsRootedText scope) :
    relativePath? path scope = if (ofText scope).parts <+: (ofText path).parts
      then some (Text.joinWith '/' ((ofText path).parts.drop (ofText scope).parts.length))
      else none := by
  split
  · rename_i hprefix
    obtain ⟨below, hbelow⟩ := hprefix
    rw [h.relativePath?_append hs hbelow.symm, ← hbelow, List.drop_left]
  · rename_i hnot
    rw [relativePath?, if_neg (mt (h.inScope_iff hs).mp hnot)]

/-- To go on from a directory by a text of joined names is to go on by the names. -/
theorem join_joinWith (directory : Path) {names : List Text}
    (hnames : ∀ name ∈ names, IsName name) :
    directory.join (ofText (Text.joinWith '/' names)) = directory.descend names := by
  have hstart : startOf (Text.joinWith '/' names) = .current :=
    startOf_slashes_append .current hnames
  rw [join, isAbsolute, show (ofText (Text.joinWith '/' names)).start = .current from hstart,
    descend, show (ofText (Text.joinWith '/' names)).parts = names from partsOf_joinWith hnames]
  rfl

/-- The scope and what is left of a path give the path. -/
theorem IsRootedText.toText_join (h : IsRootedText path) (hs : IsRootedText scope) {rest : Text}
    (hrest : relativePath? path scope = some rest) :
    ((ofText scope).join (ofText rest)).toText = path := by
  rw [h.relativePath?_eq hs] at hrest
  split at hrest
  · rename_i hprefix
    obtain ⟨below, hbelow⟩ := hprefix
    obtain rfl := Option.some.inj hrest
    rw [← hbelow, List.drop_left]
    have hnames : ∀ name ∈ below, IsName name := fun name hname =>
      (h.names name (hbelow ▸ List.mem_append_right _ hname)).1
    have hpath : (ofText scope).descend below = ofText path := by
      rw [descend, hbelow, show (ofText scope).start = (ofText path).start from
        hs.start.trans h.start.symm]
    rw [join_joinWith _ hnames, hpath, ← h.isRooted.canonical_toText_eq h.start,
      h.canonical_toText]
  · cases hrest

end IsRootedText

/-! ### The order -/

/-- To lie in a scope is a partial order on the canonical texts that start with one slash. -/
theorem inScope_isPartialOrder :
    IsPartialOrder {t : Text // IsRootedText t} fun t scope => inScope t scope = true where
  refl t := (t.2.inScope_iff t.2).mpr List.prefix_rfl
  trans t middle scope hin hmiddle := by
    rw [t.2.inScope_iff middle.2] at hin
    rw [middle.2.inScope_iff scope.2] at hmiddle
    exact (t.2.inScope_iff scope.2).mpr (hmiddle.trans hin)
  antisymm t scope hin hback := by
    rw [t.2.inScope_iff scope.2] at hin
    rw [scope.2.inScope_iff t.2] at hback
    have hparts := hback.eq_of_length (hback.length_le.antisymm hin.length_le)
    exact Subtype.ext (t.2.eq_of_parts scope.2 hparts)

/-- Of two scopes that a path lies in, one lies in the other. -/
theorem scopes_isChain {path : Text} (h : IsRootedText path) :
    IsChain (fun t scope => inScope t scope = true)
      {scope | IsRootedText scope ∧ inScope path scope = true} := by
  rintro one ⟨hone, hin⟩ other ⟨hother, hin'⟩ -
  rw [h.inScope_iff hone] at hin
  rw [h.inScope_iff hother] at hin'
  rcases List.prefix_or_prefix_of_prefix hin hin' with hprefix | hprefix
  · exact Or.inr ((hother.inScope_iff hone).mpr hprefix)
  · exact Or.inl ((hone.inScope_iff hother).mpr hprefix)

/-- **The scopes of a path are its ancestors.** A path lies in a scope, as a text, exactly if the
components of the scope stand in front of its own. What is left of it are the components behind
them, which put it together again below the scope, and there is nothing left of a path outside. The
scopes are partially ordered in this way, and those of a path form a chain. -/
theorem inScope_exact {path scope : Text} (hpath : IsRootedText path)
    (hscope : IsRootedText scope) :
    (inScope path scope = true ↔ (ofText scope).parts <+: (ofText path).parts) ∧
    (relativePath? path scope = if (ofText scope).parts <+: (ofText path).parts
      then some (Text.joinWith '/' ((ofText path).parts.drop (ofText scope).parts.length))
      else none) ∧
    (∀ rest, relativePath? path scope = some rest →
      ((ofText scope).join (ofText rest)).toText = path) ∧
    IsPartialOrder {t : Text // IsRootedText t} (fun t scope => inScope t scope = true) ∧
    IsChain (fun t scope => inScope t scope = true)
      {scope | IsRootedText scope ∧ inScope path scope = true} :=
  ⟨hpath.inScope_iff hscope, hpath.relativePath?_eq hscope, fun _ => hpath.toText_join hscope,
    inScope_isPartialOrder, scopes_isChain hpath⟩

/-- A path whose directory has a neighbour with a shorter name, and its scopes up to the root. -/
theorem inScope_exact_siblingScope :
    let path := Text.lit "/a/bc/d"
    let sibling := Text.lit "/a/b"
    let root := Text.lit "/"
    IsRootedText path ∧ IsRootedText sibling ∧ IsRootedText root ∧
      inScope path sibling = false ∧ relativePath? path sibling = none ∧
      relativePath? path root = some (Text.lit "a/bc/d") ∧
      ((ofText root).join (ofText (Text.lit "a/bc/d"))).toText = path ∧
      inScope (Text.lit "/a/bc") root = true := by
  intro path sibling root
  have hpath : IsRootedText path := by decide
  have hsibling : IsRootedText sibling := by decide
  have hroot : IsRootedText root := by decide
  obtain ⟨hin, hnothing, -⟩ := inScope_exact hpath hsibling
  obtain ⟨-, hrest, hjoin, -, hchain⟩ := inScope_exact hpath hroot
  have hapart : ¬ (ofText sibling).parts <+: (ofText path).parts := by decide
  rw [if_neg hapart] at hnothing
  have hleft : relativePath? path root = some (Text.lit "a/bc/d") := hrest.trans (by decide)
  refine ⟨hpath, hsibling, hroot, ?_, hnothing, hleft, hjoin _ hleft, ?_⟩
  · exact Bool.eq_false_iff.mpr (mt hin.mp hapart)
  · -- both hold the path, and the root lies in no other scope
    have hone : Text.lit "/a/bc" ∈ {scope | IsRootedText scope ∧ inScope path scope = true} := by
      show IsRootedText _ ∧ _
      decide
    have hother : root ∈ {scope | IsRootedText scope ∧ inScope path scope = true} := by
      show IsRootedText _ ∧ _
      decide
    exact (hchain hone hother (by decide)).resolve_right (by decide)

end Path

end TreeSieve

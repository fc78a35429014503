import Mathlib.Data.List.Infix
import TreeSieve.Path.Scope

/-!
# Rooted paths and scopes

* `Path.IsCollapsed` holds of a path whose `..` stand in front of all names, and
  `Path.collapse_isCollapsed` says that collapsing brings every path into this form.
* `Path.IsRooted` holds of the absolute paths that lead through names of entries only;
  `Path.absolute_isRooted` says that every absolute path that is asked for is brought into this
  form.
* `Path.trail` is the text of names with a slash in front of each: `Path.prefix_of_trail_prefix`
  cuts such a text at a slash.
* `Path.inScope_canonical` says that being in a scope, which is a question about texts, is having
  the components of the scope in front.
-/

namespace TreeSieve

namespace Path

/-- Whether a text can be the name of an entry of a directory. -/
def IsEntryName (part : Text) : Prop := IsName part ∧ part ≠ dotDot

instance decidableIsName (part : Text) : Decidable (IsName part) :=
  inferInstanceAs (Decidable (part ≠ [] ∧ part ≠ dot ∧ '/' ∉ part))

instance decidableIsEntryName (part : Text) : Decidable (IsEntryName part) :=
  inferInstanceAs (Decidable (IsName part ∧ part ≠ dotDot))

theorem IsEntryName.slash_not_mem {part : Text} (h : IsEntryName part) : '/' ∉ part := h.1.2.2

theorem IsEntryName.ne_nil {part : Text} (h : IsEntryName part) : part ≠ [] := h.1.1

/-- A list of names of entries with one more name of an entry is one. -/
theorem isEntryName_concat {names : List Text} {name : Text}
    (hn : ∀ part ∈ names, IsEntryName part) (hname : IsEntryName name) :
    ∀ part ∈ names ++ [name], IsEntryName part := by
  intro part hp
  rcases List.mem_append.mp hp with hp | hp
  · exact hn part hp
  · exact List.mem_singleton.mp hp ▸ hname

/-- An absolute path without `..`: all its components are names of entries. -/
structure IsRooted (p : Path) : Prop where
  absolute : p.isAbsolute
  names : ∀ part ∈ p.parts, IsEntryName part

/-! ### Collapsed paths -/

/-- Components in reverse, as `collapse` stacks them: names upon `..` that nothing is above. -/
def IsStack (fromRoot : Bool) (before : List Text) : Prop :=
  ∃ (names : List Text) (ups : Nat), before = names ++ List.replicate ups dotDot ∧
    (∀ name ∈ names, IsEntryName name) ∧ (fromRoot = true → ups = 0)

/-- A component that is put on a stack leaves one. -/
theorem IsStack.pushPart {fromRoot : Bool} {before : List Text} {part : Text}
    (h : IsStack fromRoot before) (hpart : IsName part) :
    IsStack fromRoot (pushPart fromRoot before part) := by
  obtain ⟨names, ups, rfl, hnames, hups⟩ := h
  unfold Path.pushPart
  by_cases hdots : part = dotDot
  · rw [if_neg (not_not.mpr hdots)]
    cases names with
    | cons name rest =>
      -- a name is taken back
      have hname : name ≠ dotDot := (hnames name List.mem_cons_self).2
      simp only [List.cons_append, if_neg hname]
      exact ⟨rest, ups, by simp, fun other ho => hnames other (List.mem_cons_of_mem name ho), hups⟩
    | nil =>
      cases ups with
      | zero =>
        cases fromRoot with
        | true => exact ⟨[], 0, by simp, by simp, by simp⟩
        | false => exact ⟨[], 1, by simp, by simp, by simp⟩
      | succ ups =>
        have hbelow : fromRoot = false := by
          cases fromRoot with
          | true => exact absurd (hups rfl) (Nat.succ_ne_zero ups)
          | false => rfl
        refine ⟨[], ups + 2, ?_, by simp, by simp [hbelow]⟩
        simp [List.replicate_succ]
  · rw [if_pos hdots]
    refine ⟨part :: names, ups, by simp, ?_, hups⟩
    exact List.forall_mem_cons.mpr ⟨⟨hpart, hdots⟩, hnames⟩

theorem IsStack.foldl {fromRoot : Bool} {parts : List Text} (hparts : ∀ part ∈ parts, IsName part) :
    ∀ {before : List Text}, IsStack fromRoot before →
      IsStack fromRoot (parts.foldl (Path.pushPart fromRoot) before) := by
  induction parts with
  | nil => intro before h; exact h
  | cons part rest ih =>
    intro before h
    rw [List.foldl_cons]
    apply ih fun other ho => hparts other (List.mem_cons_of_mem part ho)
    exact h.pushPart (hparts part List.mem_cons_self)

/-- A path whose `..` stand in front of all names; one that starts at a root has none. -/
def IsCollapsed (p : Path) : Prop :=
  ∃ (ups : Nat) (names : List Text), p.parts = List.replicate ups dotDot ++ names ∧
    (∀ name ∈ names, IsEntryName name) ∧ (p.isAbsolute = true → ups = 0)

/-- **Collapsing brings all `..` to the front**, and leaves none behind a root. -/
theorem collapse_isCollapsed {p : Path} (h : ∀ part ∈ p.parts, IsName part) :
    p.collapse.IsCollapsed := by
  have hempty : IsStack p.isAbsolute [] := ⟨[], 0, by simp, by simp, by simp⟩
  obtain ⟨names, ups, hstack, hnames, hups⟩ := hempty.foldl h
  refine ⟨ups, names.reverse, ?_, ?_, hups⟩
  · show (p.parts.foldl (Path.pushPart p.isAbsolute) []).reverse = _
    rw [hstack, List.reverse_append, List.reverse_replicate]
  · intro name hname
    exact hnames name (List.mem_reverse.mp hname)

theorem collapse_ofText_isCollapsed (t : Text) : (ofText t).collapse.IsCollapsed :=
  collapse_isCollapsed fun _ hpart => isName_of_mem_partsOf hpart

/-- The components of a collapsed path are names. -/
theorem IsCollapsed.isName {p : Path} (h : p.IsCollapsed) : ∀ part ∈ p.parts, IsName part := by
  obtain ⟨ups, names, hparts, hnames, -⟩ := h
  have hdots : IsName dotDot := by decide
  intro part hpart
  rw [hparts] at hpart
  rcases List.mem_append.mp hpart with hpart | hpart
  · rw [List.eq_of_mem_replicate hpart]
    exact hdots
  · exact (hnames part hpart).1

/-- Collapsing an absolute path leaves no `..` in it. -/
theorem collapse_isRooted {p : Path} (ha : p.isAbsolute) (hn : ∀ part ∈ p.parts, IsName part) :
    p.collapse.IsRooted := by
  obtain ⟨ups, names, hparts, hnames, hups⟩ := collapse_isCollapsed hn
  refine ⟨ha, ?_⟩
  intro part hp
  rw [hparts, hups ha, List.replicate_zero, List.nil_append] at hp
  exact hnames part hp

/-- A path that is seen from an absolute directory is rooted once it is collapsed. -/
theorem collapse_join_isRooted {directory p : Path} (ha : directory.isAbsolute)
    (hn : ∀ part ∈ directory.parts, IsName part) (hp : ∀ part ∈ p.parts, IsName part) :
    (directory.join p).collapse.IsRooted := by
  rw [join]
  split
  · rename_i habsolute
    exact collapse_isRooted habsolute hp
  · refine collapse_isRooted (p := ⟨directory.start, _⟩) ha ?_
    intro part hpart
    rcases List.mem_append.mp hpart with hpart | hpart
    · exact hn part hpart
    · exact hp part hpart

/-- A path that is asked for in an absolute directory is rooted. -/
theorem absolute_isRooted {current : Path} (ha : current.isAbsolute)
    (hn : ∀ part ∈ current.parts, IsName part) (t : Text) : (absolute current t).IsRooted :=
  collapse_join_isRooted ha hn fun _ hpart => isName_of_mem_partsOf hpart

/-- The absolute path of a text that starts with one slash is its collapsed path, in any current
directory. -/
theorem absolute_of_startOf {current : Path} {t : Text} (h : startOf t = .root) :
    absolute current t = (ofText t).collapse := by
  have habs : (ofText t).isAbsolute := by
    rw [isAbsolute, ofText, h]
    rfl
  rw [absolute, join, if_pos habs]

theorem foldl_pushPart_of_ne {parts : List Text} (fromRoot : Bool)
    (h : ∀ part ∈ parts, part ≠ dotDot) (before : List Text) :
    parts.foldl (pushPart fromRoot) before = parts.reverse ++ before := by
  induction parts generalizing before with
  | nil => rfl
  | cons part rest ih =>
    have hpush : pushPart fromRoot before part = part :: before := by
      unfold pushPart
      exact if_pos (h part List.mem_cons_self)
    rw [List.foldl_cons, hpush, ih fun q hq => h q (List.mem_cons_of_mem part hq),
      List.reverse_cons, List.append_assoc, List.singleton_append]

/-- A path without `..` is collapsed. -/
theorem collapse_of_ne {p : Path} (h : ∀ part ∈ p.parts, part ≠ dotDot) : p.collapse = p := by
  rw [collapse, foldl_pushPart_of_ne _ h, List.append_nil, List.reverse_reverse]

theorem IsRooted.collapse_eq {p : Path} (h : p.IsRooted) : p.collapse = p :=
  collapse_of_ne fun part hp => (h.names part hp).2

theorem IsRooted.ofText_toText {p : Path} (h : p.IsRooted) : ofText p.toText = p :=
  Path.ofText_toText fun part hp => (h.names part hp).1

theorem IsRooted.start_ne {p : Path} (h : p.IsRooted) : p.start ≠ .current := by
  simpa [isAbsolute, PathStart.isRoot] using h.absolute

theorem IsRooted.startOf_toText {p : Path} (h : p.IsRooted) : startOf p.toText = p.start :=
  congrArg Path.start h.ofText_toText

theorem IsRooted.descend {p : Path} (h : p.IsRooted) {names : List Text}
    (hn : ∀ name ∈ names, IsEntryName name) : (p.descend names).IsRooted := by
  refine ⟨h.absolute, ?_⟩
  intro part hp
  rcases List.mem_append.mp hp with hp | hp
  · exact h.names part hp
  · exact hn part hp

@[simp] theorem descend_nil (p : Path) : p.descend [] = p := by
  rw [Path.descend, List.append_nil]

theorem descend_append (p : Path) (names more : List Text) :
    p.descend (names ++ more) = (p.descend names).descend more := by
  rw [Path.descend, Path.descend, Path.descend, List.append_assoc]

/-- Below a rooted path, names of entries that make up the same text are the same. -/
theorem IsRooted.descend_inj {p : Path} (h : p.IsRooted) {names other : List Text}
    (hn : ∀ part ∈ names, IsEntryName part) (ho : ∀ part ∈ other, IsEntryName part)
    (htext : (p.descend names).toText = (p.descend other).toText) : names = other := by
  have hpath : p.descend names = p.descend other := by
    rw [← (h.descend hn).ofText_toText, htext, (h.descend ho).ofText_toText]
  exact List.append_cancel_left (congrArg Path.parts hpath)

theorem isBelow_iff {p directory : Path} :
    p.isBelow directory = true ↔ p.start = directory.start ∧ directory.parts <+: p.parts := by
  rw [isBelow, Bool.and_eq_true, beq_iff_eq, List.isPrefixOf_iff_prefix]

/-- A path that lies below a directory goes on from it by names. -/
theorem IsRooted.exists_of_isBelow {p directory : Path} (hp : p.IsRooted)
    (h : p.isBelow directory = true) :
    ∃ names, p = directory.descend names ∧ ∀ part ∈ names, IsEntryName part := by
  obtain ⟨hstart, names, hparts⟩ := isBelow_iff.mp h
  refine ⟨names, ?_, ?_⟩
  · rw [Path.descend, hparts, ← hstart]
  · intro part hpart
    exact hp.names part (hparts ▸ List.mem_append_right directory.parts hpart)

/-! ### Trails -/

/-- Names with a slash in front of each. -/
def trail (parts : List Text) : Text := parts.flatMap ('/' :: ·)

@[simp] theorem trail_nil : trail [] = [] := rfl

@[simp] theorem trail_cons (part : Text) (parts : List Text) :
    trail (part :: parts) = '/' :: (part ++ trail parts) := rfl

theorem trail_append (parts more : List Text) : trail (parts ++ more) = trail parts ++ trail more :=
  List.flatMap_append

/-- A trail is a slash and the names joined by slashes. -/
theorem slash_joinWith {parts : List Text} (h : parts ≠ []) :
    '/' :: Text.joinWith '/' parts = trail parts := by
  induction parts with
  | nil => exact absurd rfl h
  | cons part rest ih =>
    cases rest with
    | nil => rw [trail_cons, trail_nil, List.append_nil, Text.joinWith]
    | cons next more => rw [Text.joinWith, ih (List.cons_ne_nil next more), ← trail_cons part]

theorem trail_eq_nil {parts : List Text} : trail parts = [] ↔ parts = [] := by
  cases parts with
  | nil => simp
  | cons part rest => simp

/-- The text of joined names, if there are any, is not empty. -/
theorem joinWith_ne_nil {parts : List Text} (h : ∀ part ∈ parts, IsName part) (hne : parts ≠ []) :
    Text.joinWith '/' parts ≠ [] := by
  obtain ⟨part, rest, rfl⟩ := List.exists_cons_of_ne_nil hne
  have hpart : part ≠ [] := (h part List.mem_cons_self).1
  cases rest with
  | nil => exact hpart
  | cons next more => simp [Text.joinWith]

/-- The text of joined names does not end in a slash. -/
theorem getLast?_joinWith {parts : List Text} (h : ∀ part ∈ parts, IsName part) :
    (Text.joinWith '/' parts).getLast? ≠ some '/' := by
  induction parts with
  | nil => simp [Text.joinWith]
  | cons part rest ih =>
    have hpart : '/' ∉ part := (h part List.mem_cons_self).2.2
    have hnames : ∀ other ∈ rest, IsName other :=
      fun other ho => h other (List.mem_cons_of_mem part ho)
    cases rest with
    | nil => exact fun hlast => hpart (List.mem_of_getLast? hlast)
    | cons next more =>
      have hne := joinWith_ne_nil hnames (List.cons_ne_nil next more)
      obtain ⟨c, hc⟩ := Option.ne_none_iff_exists'.mp (mt List.getLast?_eq_none_iff.mp hne)
      have hrest := ih hnames
      rw [hc] at hrest
      rw [Text.joinWith, List.getLast?_append, List.getLast?_cons, hc]
      simpa using hrest

/-- A trail of names of entries does not end in a slash. -/
theorem getLast?_trail {parts : List Text} (h : ∀ part ∈ parts, IsEntryName part) :
    (trail parts).getLast? ≠ some '/' := by
  have hnames : ∀ part ∈ parts, IsName part := fun part hpart => (h part hpart).1
  by_cases hparts : parts = []
  · simp [hparts]
  · have hne := joinWith_ne_nil hnames hparts
    obtain ⟨c, hc⟩ := Option.ne_none_iff_exists'.mp (mt List.getLast?_eq_none_iff.mp hne)
    have hlast := getLast?_joinWith hnames
    rw [hc] at hlast
    rw [← slash_joinWith hparts, List.getLast?_cons, hc]
    simpa using hlast

/-- Where a slash first stands in a text, what is in front of it and what is behind it are unique.
-/
theorem eq_of_append_slash {x y u v : Text} (hx : '/' ∉ x) (hy : '/' ∉ y)
    (h : x ++ '/' :: u = y ++ '/' :: v) : x = y ∧ u = v := by
  have hs := congrArg (Text.split '/') h
  rw [Text.split_append_sep hx, Text.split_append_sep hy] at hs
  have hxy : x = y := (List.cons.inj hs).1
  subst hxy
  exact ⟨rfl, by simpa using List.append_cancel_left h⟩

/-- A text in front of a slash in a trail is the trail of the first names, and there are names left.
-/
theorem prefix_of_trail_prefix {x : Text} {parts : List Text} (hp : ∀ part ∈ parts, '/' ∉ part)
    (h : x ++ ['/'] <+: trail parts) :
    ∃ front back, parts = front ++ back ∧ back ≠ [] ∧ x = trail front := by
  induction parts generalizing x with
  | nil => simp at h
  | cons part rest ih =>
    cases x with
    | nil => exact ⟨[], part :: rest, rfl, List.cons_ne_nil part rest, rfl⟩
    | cons c x =>
      rw [trail_cons, List.cons_append, List.cons_prefix_cons] at h
      obtain ⟨rfl, h⟩ := h
      -- the slash behind `x` cannot lie in the first name, so `x` begins with that name
      have hlen : part <+: x := by
        have hpart := List.prefix_append part (trail rest)
        rcases List.prefix_or_prefix_of_prefix hpart h with hpre | hpre
        · rcases List.prefix_concat_iff.mp hpre with he | hpre
          · exact absurd (he ▸ List.mem_append_right x (List.mem_singleton_self '/'))
              (hp part List.mem_cons_self)
          · exact hpre
        · exact absurd (hpre.subset (List.mem_append_right x (List.mem_singleton_self '/')))
            (hp part List.mem_cons_self)
      obtain ⟨x', rfl⟩ := hlen
      rw [List.append_assoc, List.prefix_append_right_inj] at h
      obtain ⟨front, back, hsplit, hback, rfl⟩ :=
        ih (fun q hq => hp q (List.mem_cons_of_mem part hq)) h
      exact ⟨part :: front, back, by rw [hsplit, List.cons_append], hback, rfl⟩

/-- Different lists of names have different trails. -/
theorem trail_inj {a b : List Text} (ha : ∀ part ∈ a, '/' ∉ part) (hb : ∀ part ∈ b, '/' ∉ part)
    (h : trail a = trail b) : a = b := by
  have hsplit := congrArg (Text.split '/') h
  rcases eq_or_ne a [] with rfl | hna
  · exact (trail_eq_nil.mp h.symm).symm
  · have hnb : b ≠ [] := fun e => hna (trail_eq_nil.mp (h.trans (e ▸ trail_nil)))
    rw [← slash_joinWith hna, ← slash_joinWith hnb, Text.split, if_pos rfl, Text.split, if_pos rfl,
      Text.split_joinWith hna ha, Text.split_joinWith hnb hb] at hsplit
    exact (List.cons.inj hsplit).2

/-- One list of names begins with another one exactly if their trails are the same, or one trail
begins with the other one and a slash. -/
theorem prefix_iff_trail {a b : List Text} (ha : ∀ part ∈ a, '/' ∉ part)
    (hb : ∀ part ∈ b, '/' ∉ part) :
    b <+: a ↔ trail a = trail b ∨ trail b ++ ['/'] <+: trail a := by
  constructor
  · rintro ⟨back, rfl⟩
    rw [trail_append]
    cases back with
    | nil => left; rw [trail_nil, List.append_nil]
    | cons part rest => right; exact ⟨part ++ trail rest, by rw [trail_cons]; simp⟩
  · rintro (h | h)
    · rw [trail_inj ha hb h]
    · obtain ⟨front, back, hsplit, -, htrail⟩ := prefix_of_trail_prefix ha h
      have hfront : ∀ part ∈ front, '/' ∉ part :=
        fun part hpart => ha part (hsplit ▸ List.mem_append_left back hpart)
      rw [trail_inj hb hfront htrail, hsplit]
      exact List.prefix_append front back

/-! ### Canonical texts -/

theorem dropEndWhile_slash {t : Text} (h : t.getLast? ≠ some '/') :
    Text.dropEndWhile (· == '/') t = t := by
  rcases List.eq_nil_or_concat t with rfl | ⟨before, last, rfl⟩
  · rfl
  · rw [List.concat_eq_append] at h ⊢
    have hl : (last == '/') = false := by
      rw [beq_eq_false_iff_ne]
      intro e
      exact h (by simp [e])
    rw [Text.dropEndWhile, List.reverse_append, List.reverse_singleton, List.singleton_append,
      List.dropWhile_cons, if_neg (by simp [hl]), List.reverse_cons, List.reverse_reverse]

/-- A stem is not a slash alone. -/
theorem scopeStem_ne_slash (scope : Text) : scopeStem scope ≠ ['/'] := by
  intro h
  rw [scopeStem, Text.dropEndWhile, List.reverse_eq_iff] at h
  have hhead := List.head?_dropWhile_not (· == '/') scope.reverse
  rw [h] at hhead
  simp at hhead

/-- What stands in front of the trail in the text of a rooted path: a slash if it starts with two,
and otherwise nothing. -/
def lead (start : PathStart) : Text := if start = .doubleRoot then ['/'] else []

theorem IsRooted.getLast?_lead_trail {p : Path} (h : p.IsRooted) (hne : p.parts ≠ []) :
    (lead p.start ++ trail p.parts).getLast? ≠ some '/' := by
  rw [List.getLast?_append]
  cases ht : (trail p.parts).getLast? with
  | none => exact absurd (trail_eq_nil.mp (List.getLast?_eq_none_iff.mp ht)) hne
  | some c => simpa [ht] using getLast?_trail h.names

/-- The canonical text of a rooted path with components is its trail, with one more slash in front
if it starts with two. -/
theorem canonical_toText {p : Path} (h : p.IsRooted) (hne : p.parts ≠ []) :
    canonical p.toText = lead p.start ++ trail p.parts := by
  have htext : p.toText = lead p.start ++ trail p.parts := by
    rw [toText, if_neg (by simp [h.start_ne]), ← slash_joinWith hne]
    cases hs : p.start with
    | current => exact absurd hs h.start_ne
    | root => rfl
    | doubleRoot => rfl
  simp only [canonical]
  rw [h.ofText_toText, h.collapse_eq, htext]
  split
  · rfl
  · exact dropEndWhile_slash (h.getLast?_lead_trail hne)

theorem canonical_root : canonical (Path.toText ⟨.root, []⟩) = ['/'] := by decide

/-- The canonical text of a root is one slash, or nothing if the root has two. -/
theorem canonical_of_parts_nil {p : Path} (h : p.IsRooted) (he : p.parts = []) :
    canonical p.toText = ['/'] ∨ canonical p.toText = [] := by
  obtain ⟨start, parts⟩ := p
  subst he
  cases start with
  | current => exact absurd h.absolute (by decide)
  | root => exact Or.inl canonical_root
  | doubleRoot => right; decide

/-- An absolute text names a rooted path, and has its canonical text. -/
theorem collapse_ofText_isRooted {t : Text} (h : startOf t ≠ .current) :
    (ofText t).collapse.IsRooted :=
  collapse_isRooted (by simpa [isAbsolute, PathStart.isRoot, ofText] using h)
    fun _ hp => isName_of_mem_partsOf hp

theorem canonical_collapse {t : Text} (h : startOf t ≠ .current) :
    canonical (ofText t).collapse.toText = canonical t := by
  have hrooted := collapse_ofText_isRooted h
  rw [canonical, hrooted.ofText_toText, hrooted.collapse_eq]
  rfl

/-- The stem of a rooted path with components is its canonical text. -/
theorem scopeStem_canonical {p : Path} (h : p.IsRooted) (hne : p.parts ≠ []) :
    scopeStem (canonical p.toText) = lead p.start ++ trail p.parts := by
  rw [canonical_toText h hne, scopeStem, dropEndWhile_slash (h.getLast?_lead_trail hne)]

/-- The stem of a root is empty, whether it has one slash or two. -/
theorem scopeStem_canonical_nil {p : Path} (h : p.IsRooted) (he : p.parts = []) :
    scopeStem (canonical p.toText) = [] := by
  rcases canonical_of_parts_nil h he with h | h
  · rw [h]
    decide
  · rw [h]
    decide

/-! ### Scopes -/

/-- The canonical text of a rooted path that starts with one slash is this slash and the joined
components. -/
theorem canonical_toText_root {p : Path} (h : p.IsRooted) (hs : p.start = .root) :
    canonical p.toText = '/' :: Text.joinWith '/' p.parts := by
  rcases eq_or_ne p.parts [] with he | hne
  · obtain ⟨start, parts⟩ := p
    subst he
    subst hs
    exact canonical_root
  · rw [canonical_toText h hne, hs, slash_joinWith hne]
    rfl

/-- The trail of names is longer than the text of a root. -/
theorem one_lt_length_trail {parts : List Text} (h : ∀ part ∈ parts, IsEntryName part)
    (hne : parts ≠ []) : 1 < (trail parts).length := by
  obtain ⟨part, rest, rfl⟩ := List.exists_cons_of_ne_nil hne
  have hpos := List.length_pos_iff.mpr (h part List.mem_cons_self).ne_nil
  rw [trail_cons, List.length_cons, List.length_append]
  omega

/-- Of two rooted paths that start alike, the first one is in the scope of the second one exactly if
its components begin with those of that one. -/
theorem inScope_canonical {p q : Path} (hp : p.IsRooted) (hq : q.IsRooted)
    (hs : p.start = q.start) :
    inScope (canonical p.toText) (canonical q.toText) = true ↔ q.parts <+: p.parts := by
  have hslash : ∀ r : Path, r.IsRooted → ∀ part ∈ r.parts, '/' ∉ part :=
    fun r hr part hpart => (hr.names part hpart).slash_not_mem
  rw [inScope, Bool.or_eq_true, beq_iff_eq, List.isPrefixOf_iff_prefix]
  rcases eq_or_ne q.parts [] with hqe | hqne
  · -- a root holds every path that starts like it
    rw [scopeStem_canonical_nil hq hqe, hqe]
    refine ⟨fun _ => List.nil_prefix, fun _ => ?_⟩
    rcases eq_or_ne p.parts [] with hpe | hpne
    · rcases canonical_of_parts_nil hp hpe with h | h
      · exact Or.inr (h ▸ List.prefix_refl _)
      · exact Or.inl h
    · rw [canonical_toText hp hpne, ← slash_joinWith hpne]
      right
      unfold lead
      split <;> exact ⟨_, rfl⟩
  · rw [scopeStem_canonical hq hqne, hs.symm]
    rcases eq_or_ne p.parts [] with hpe | hpne
    · -- a root lies in no scope but itself
      have hshort : (canonical p.toText).length ≤ 1 := by
        rcases canonical_of_parts_nil hp hpe with h | h
        · rw [h, List.length_singleton]
        · rw [h, List.length_nil]
          exact Nat.zero_le 1
      have hlong := one_lt_length_trail hq.names hqne
      rw [hpe, List.prefix_nil]
      refine ⟨fun h => ?_, fun h => absurd h hqne⟩
      exfalso
      rcases h with h | h
      · rw [h, List.length_append] at hshort
        omega
      · have hle := h.length_le
        rw [List.length_append, List.length_append] at hle
        omega
    · rw [canonical_toText hp hpne, List.append_right_inj, List.append_assoc,
        List.prefix_append_right_inj]
      exact (prefix_iff_trail (hslash p hp) (hslash q hq)).symm

/-- A scope in which a path lies that starts with one slash has the trail of its first components
as its stem. -/
theorem scopeStem_of_inScope {p : Path} (hp : p.IsRooted) (hs : p.start = .root) {scope : Text}
    (h : inScope (canonical p.toText) scope = true) :
    ∃ front back, p.parts = front ++ back ∧ scopeStem scope = trail front := by
  have hslash : ∀ part ∈ p.parts, '/' ∉ part :=
    fun part hpart => (hp.names part hpart).slash_not_mem
  rw [inScope, Bool.or_eq_true, beq_iff_eq, List.isPrefixOf_iff_prefix] at h
  rcases eq_or_ne p.parts [] with he | hne
  · refine ⟨[], [], he, ?_⟩
    rw [canonical_toText_root hp hs, he] at h
    rcases h with h | h
    · exact absurd h.symm (scopeStem_ne_slash scope)
    · have hlen := h.length_le
      rw [List.length_append] at hlen
      exact List.length_eq_zero_iff.mp (by simpa [Text.joinWith] using hlen)
  · rw [canonical_toText hp hne, hs] at h
    rcases h with h | h
    · exact ⟨p.parts, [], (List.append_nil _).symm, h.symm⟩
    · obtain ⟨front, back, hsplit, -, htrail⟩ := prefix_of_trail_prefix hslash h
      exact ⟨front, back, hsplit, htrail⟩

/-- If the stem of a scope is the trail of the first components of a path, then what is left of the
path are the others, joined by slashes. -/
theorem relativePath?_canonical {p : Path} (hp : p.IsRooted) (hs : p.start = .root) {scope : Text}
    {front back : List Text} (hsplit : p.parts = front ++ back)
    (hstem : scopeStem scope = trail front) :
    relativePath? (canonical p.toText) scope = some (Text.joinWith '/' back) := by
  have htext : canonical p.toText = '/' :: Text.joinWith '/' (front ++ back) := by
    rw [canonical_toText_root hp hs, hsplit]
  rw [relativePath?, inScope, hstem]
  rcases eq_or_ne front [] with rfl | hf
  · rw [if_pos (by rw [htext]; simp), htext]
    rfl
  · rw [slash_joinWith (by simp [hf]), trail_append] at htext
    rcases eq_or_ne back [] with rfl | hb
    · rw [htext, trail_nil, List.append_nil, if_pos (by simp)]
      simp [Text.joinWith]
    · rw [htext, ← slash_joinWith hb, if_pos (by simp [List.prefix_append_right_inj])]
      simp

end Path

end TreeSieve

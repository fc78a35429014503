import TreeSieve.Text.Basic

/-!
# Paths

A path is what its text names before any file is looked at: where it starts from, and its
components in order. Empty components and `.` name nothing and are left out; `..` is kept until
`Path.collapse` is asked to take it back together with the component before it.

* `Path.ofText` reads a path and `Path.toText` writes it; `Path.ofText_toText` says that nothing is
  lost between them.
* `Path.collapse` removes every `..` that has a component to take back.
* `Path.join` and `Path.absolute` put a path under a directory.
* `canonical` is the canonical text of a path, on which rules and scopes are compared.
-/

namespace TreeSieve

/-- Where a path starts from. Exactly two slashes at its start are kept apart from one. -/
inductive PathStart where
  | current
  | root
  | doubleRoot
  deriving DecidableEq, Repr

/-- The slashes that a path of this kind starts with. -/
def PathStart.slashes : PathStart → Text
  | current => []
  | root => ['/']
  | doubleRoot => ['/', '/']

/-- Whether a path of this kind starts at a root. -/
def PathStart.isRoot (start : PathStart) : Bool := start != .current

/-- A path: its start and its components. -/
structure Path where
  start : PathStart
  parts : List Text
  deriving DecidableEq, Repr

namespace Path

/-- The component for the directory itself. -/
def dot : Text := ['.']

/-- The component for the parent directory. -/
def dotDot : Text := ['.', '.']

/-- The kind of start that a text has: three or more slashes count as one. -/
def startOf : Text → PathStart
  | '/' :: '/' :: '/' :: _ => .root
  | '/' :: '/' :: _ => .doubleRoot
  | '/' :: _ => .root
  | _ => .current

/-- The components of a text that name something. -/
def partsOf (t : Text) : List Text :=
  (Text.split '/' t).filter fun part => !(part.isEmpty || part == dot)

/-- The components to follow on a disk: a text that ends in a slash or in a dot names a directory,
so a dot is kept at its end. -/
def partsToFollow (t : Text) : List Text :=
  match (Text.split '/' t).getLast? with
  | some [] | some ['.'] => partsOf t ++ [dot]
  | _ => partsOf t

/-- The path that a text names. -/
def ofText (t : Text) : Path := ⟨startOf t, partsOf t⟩

/-- The text of a path; the empty relative path is written as a dot. -/
def toText (p : Path) : Text :=
  if p.start = .current && p.parts.isEmpty then dot
  else p.start.slashes ++ Text.joinWith '/' p.parts

/-- Whether a text can be the name of a component: it names something, and holds no slash. -/
def IsName (part : Text) : Prop := part ≠ [] ∧ part ≠ dot ∧ '/' ∉ part

theorem partsOf_append_slash {part : Text} (h : '/' ∉ part) (t : Text) :
    partsOf (part ++ '/' :: t) = partsOf part ++ partsOf t := by
  rw [partsOf, partsOf, partsOf, Text.split_append_sep h, Text.split_of_not_mem h,
    ← List.filter_append, List.singleton_append]

theorem partsOf_slash (t : Text) : partsOf ('/' :: t) = partsOf t :=
  partsOf_append_slash List.not_mem_nil t

theorem partsOf_name {part : Text} (h : IsName part) : partsOf part = [part] := by
  rw [partsOf, Text.split_of_not_mem h.2.2]
  simp [h.1, h.2.1]

/-- The components of joined names are these names. -/
theorem partsOf_joinWith {parts : List Text} (h : ∀ part ∈ parts, IsName part) :
    partsOf (Text.joinWith '/' parts) = parts := by
  induction parts with
  | nil => rfl
  | cons part rest ih =>
    have hp : IsName part := h part List.mem_cons_self
    cases rest with
    | nil => exact partsOf_name hp
    | cons next more =>
      rw [Text.joinWith, partsOf_append_slash hp.2.2, partsOf_name hp,
        ih fun q hq => h q (List.mem_cons_of_mem part hq), List.singleton_append]

/-- The components of any text are names. -/
theorem isName_of_mem_partsOf {t part : Text} (h : part ∈ partsOf t) : IsName part := by
  rw [partsOf, List.mem_filter] at h
  obtain ⟨hs, hk⟩ := h
  simp only [Bool.not_eq_true', Bool.or_eq_false_iff, List.isEmpty_eq_false_iff,
    beq_eq_false_iff_ne] at hk
  exact ⟨hk.1, hk.2, Text.not_mem_of_mem_split hs⟩

/-- The start of joined names is where the slashes in front of them say. -/
theorem startOf_slashes_append (start : PathStart) {parts : List Text}
    (h : ∀ part ∈ parts, IsName part) :
    startOf (start.slashes ++ Text.joinWith '/' parts) = start := by
  have hhead : ∀ t, Text.joinWith '/' parts ≠ '/' :: t := by
    intro t ht
    cases parts with
    | nil => exact absurd ht (List.cons_ne_nil '/' t).symm
    | cons part rest =>
      obtain ⟨hne, -, hs⟩ := h part List.mem_cons_self
      cases part with
      | nil => exact hne rfl
      | cons c cs =>
        have hc : c = '/' := by
          cases rest with
          | nil => exact (List.cons.inj ht).1
          | cons next more => exact (List.cons.inj ht).1
        exact hs (hc ▸ List.mem_cons_self)
  cases hj : Text.joinWith '/' parts with
  | nil => cases start <;> rfl
  | cons c cs =>
    have hc : c ≠ '/' := fun e => hhead cs (by rw [hj, e])
    cases start <;> simp [PathStart.slashes, startOf, hc]

/-- Reading undoes writing, as long as all components are names. -/
theorem ofText_toText {p : Path} (h : ∀ part ∈ p.parts, IsName part) : ofText p.toText = p := by
  obtain ⟨start, parts⟩ := p
  have hs := startOf_slashes_append start h
  have hp : partsOf (start.slashes ++ Text.joinWith '/' parts) = parts := by
    cases start with
    | current => exact partsOf_joinWith h
    | root => exact (partsOf_slash _).trans (partsOf_joinWith h)
    | doubleRoot => exact (partsOf_slash _).trans ((partsOf_slash _).trans (partsOf_joinWith h))
  rw [toText]
  by_cases he : start = .current ∧ parts = []
  · obtain ⟨rfl, rfl⟩ := he
    rfl
  · rw [if_neg (by simpa using he), ofText, hs, hp]

/-- Whether a path starts at a root. -/
def isAbsolute (p : Path) : Bool := p.start.isRoot

/-- Puts a component on the ones before it, which stand in reverse: `..` takes back the component
before it, is dropped at a root, and stays at the start of a relative path. -/
def pushPart (fromRoot : Bool) (before : List Text) (part : Text) : List Text :=
  if part ≠ dotDot then part :: before
  else
    match before with
    | [] => if fromRoot then [] else [dotDot]
    | previous :: rest => if previous = dotDot then dotDot :: before else rest

/-- The path without any `..` that has a component to take back. -/
def collapse (p : Path) : Path :=
  ⟨p.start, (p.parts.foldl (pushPart p.isAbsolute) []).reverse⟩

/-- A path seen from a directory: an absolute path stands for itself. -/
def join (directory path : Path) : Path :=
  if path.isAbsolute then path else ⟨directory.start, directory.parts ++ path.parts⟩

/-- The collapsed path of a text that is read in the directory `current`. -/
def absolute (current : Path) (t : Text) : Path := (current.join (ofText t)).collapse

/-- The directory at the start of all absolute paths. -/
def rootDirectory : Path := ⟨.root, []⟩

/-- The path below a directory with the given component names. -/
def descend (directory : Path) (names : List Text) : Path :=
  ⟨directory.start, directory.parts ++ names⟩

/-- The directory that `..` leads to from a path that has no `..` but at its start. -/
def up (p : Path) : Path := ⟨p.start, (pushPart p.isAbsolute p.parts.reverse dotDot).reverse⟩

/-- The path without its last component. -/
def parent (p : Path) : Path := ⟨p.start, p.parts.dropLast⟩

/-- The last component, or nothing for a root and for the empty relative path. -/
def name (p : Path) : Text := p.parts.getLast?.getD []

/-- Whether a path is the given directory or lies below it, by components. -/
def isBelow (p directory : Path) : Bool :=
  p.start == directory.start && directory.parts.isPrefixOf p.parts

end Path

/-- The canonical text of a path: collapsed, and without a slash at the end unless it is the root
alone. -/
def canonical (t : Text) : Text :=
  let canonical := (Path.ofText t).collapse.toText
  if canonical.length ≤ 1 then canonical else Text.dropEndWhile (· == '/') canonical

end TreeSieve

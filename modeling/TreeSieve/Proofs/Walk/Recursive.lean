import TreeSieve.Proofs.Walk.Breadth
import TreeSieve.Walk.Start
import TreeSieve.Walk.Step

/-!
# The recursive traversal

A plain recursion through a tree that does not change: each directory passes the rules that hold for
it on to its entries, with those of its own ignore files behind them. No rule is looked up by its
scope in a common list, and no rule has a number.

* `Traversal.sight` is what there is to see at an entry: what is given out, the rules of its own
  ignore files, and the entries in it. It is told by the inherited rules alone.
* `Traversal.visit` is the recursion, and `Traversal.entries` begins it at the root.
-/

namespace TreeSieve

/-! ### Rules in a list -/

/-- Whether the last of the rules that match a path ignores it. -/
def listIgnores (rules : List Rule) (path : Text) (isDirectory : Bool) : Bool :=
  match rules.reverse.find? (·.covers path isDirectory) with
  | some rule => !rule.negated
  | none => false

/-- Whether the last of the rules that match a directory ignores it, and no negated rule behind that
one could match anything below it. -/
def listPrunes (rules : List Rule) (directory : Text) : Bool :=
  match rules.reverse.dropWhile fun rule => !rule.covers directory true with
  | [] => false
  | rule :: _ =>
    let later := rules.reverse.takeWhile fun rule => !rule.covers directory true
    !rule.negated && !later.any fun rule => rule.negated && rule.mayCoverBelow directory

/-- A directory that no rule covers is not pruned. -/
theorem listPrunes_of_none {rules : List Rule} {directory : Text}
    (h : ∀ rule ∈ rules, rule.covers directory true = false) :
    listPrunes rules directory = false := by
  have hnot : ∀ rule ∈ rules.reverse, (!rule.covers directory true) = true := by
    intro rule hrule
    rw [h rule (List.mem_reverse.mp hrule)]
    rfl
  have hnone : rules.reverse.dropWhile (fun rule => !rule.covers directory true) = [] := by
    rw [← List.append_nil rules.reverse, List.dropWhile_append_of_pos hnot]
    rfl
  rw [listPrunes, hnone]

/-- Let a rule cover a directory and no rule behind it do so. The directory is pruned exactly if
this rule is not negated and no negated rule behind it may cover something below the directory. -/
theorem listPrunes_append_cons {earlier later : List Rule} {rule : Rule} {directory : Text}
    (hcovers : rule.covers directory true = true)
    (hlater : ∀ other ∈ later, other.covers directory true = false) :
    listPrunes (earlier ++ rule :: later) directory = true ↔ rule.negated = false ∧
      ∀ other ∈ later, other.negated = true → other.mayCoverBelow directory = false := by
  have hnot : ∀ other ∈ later.reverse, (!other.covers directory true) = true := by
    intro other hother
    rw [hlater other (List.mem_reverse.mp hother)]
    rfl
  have hstop : ¬(!rule.covers directory true) = true := by
    rw [hcovers]
    exact Bool.false_ne_true
  have hrules : (earlier ++ rule :: later).reverse = later.reverse ++ rule :: earlier.reverse := by
    simp
  rw [listPrunes, hrules, List.dropWhile_append_of_pos hnot, List.takeWhile_append_of_pos hnot,
    List.dropWhile_cons, if_neg hstop, List.takeWhile_cons, if_neg hstop, List.append_nil]
  simp

/-- The depth of an entry: how many names lead to it. -/
def Entry.depth (e : Entry) : Nat := e.names.length

/-- What a recursive traversal works on: files that do not change, the root, and the options. -/
structure Traversal where
  files : FileSystem Id
  root : Path
  options : Walk.Options

/-- What there is to see at an entry: what is given out there, the rules of its ignore files, and
the entries in it that are to be gone through. -/
structure Sight where
  given : List Entry
  rules : List Rule
  entries : List Candidate

/-- An entry with the rules that are passed on to it. -/
structure Place where
  rules : List Rule
  item : Candidate

namespace Traversal

/-- The path of the entry below the root with the given names. -/
def pathOf (t : Traversal) (names : List Text) : Text := (t.root.descend names).toText

/-- What an entry is, and the real path of the directory if it is a link that is followed to one. A
link is followed if the options say so, unless it leads to a directory that is being walked or to
one above. -/
def resolve (t : Traversal) (item : Candidate) : Resolved :=
  let asIs : Resolved := ⟨item.stats, none⟩
  if !(item.stats.isSymlink && t.options.followLinks) then asIs
  else
    match (t.files.stat (t.pathOf item.names)).run with
    | .error _ => asIs
    | .ok stats =>
      if !stats.isDirectory then ⟨stats, none⟩
      else
        match (t.files.realPath (t.pathOf item.names)).run with
        | .error _ => asIs
        | .ok real =>
          if item.visited.contains (canonical real) || inScope item.parentReal (canonical real) then
            asIs
          else ⟨stats, some (canonical real)⟩

/-- The real path of a directory that is not reached by following a link. -/
def realPathOf (t : Traversal) (item : Candidate) : Except FileError Text :=
  if item.depth = 0 then (t.files.realPath (t.pathOf item.names)).run.map canonical
  else .ok (Text.dropEndWhile (· == '/') item.parentReal ++ '/' :: item.name)

/-- Gives out an entry that the rules do not ignore; the root is never given out. -/
def offer (t : Traversal) (rules : List Rule) (item : Candidate) (stats : FileStats)
    (isDirectory : Bool) : List Entry :=
  let path := t.pathOf item.names
  if listIgnores rules (canonical path) isDirectory || item.depth = 0 then []
  else [⟨item.names, path, stats⟩]

/-- The rules of the ignore files among the entries of a directory, in the order of the listing. -/
def ownRules (t : Traversal) (names : List Text) (entries : List ListedEntry) : List Rule :=
  entries.flatMap fun entry =>
    let path := t.pathOf (names ++ [entry.name])
    match (t.files.lstat path).run with
    | .error _ => []
    | .ok stats =>
      if stats.isFile && t.options.ignoreNames.contains entry.name then
        (IgnoreFile.load t.files MatcherCache.empty path).run.1.rules
      else []

/-- The entries of a directory with the given real path, in the order of the listing. -/
def children (t : Traversal) (item : Candidate) (real : Text) (entries : List ListedEntry) :
    List Candidate :=
  entries.filterMap fun entry =>
    match (t.files.lstat (t.pathOf (item.names ++ [entry.name]))).run with
    | .error _ => none
    | .ok stats => some ⟨item.names ++ [entry.name], stats, real, real :: item.visited⟩

/-- What there is to see at a directory: one at the depth limit is given out, one that is pruned or
cannot be listed shows nothing, and one without children is given out if such directories count. -/
def sightOfDirectory (t : Traversal) (rules : List Rule) (item : Candidate) (stats : FileStats)
    (real : Text) : Sight :=
  let path := t.pathOf item.names
  if t.options.maxDepth == some item.depth then ⟨t.offer rules item stats true, [], []⟩
  else if listPrunes rules (canonical path) then ⟨[], [], []⟩
  else
    match (t.files.list path).run with
    | .error _ => ⟨[], [], []⟩
    | .ok [] => ⟨if t.options.includeEmpty then t.offer rules item stats true else [], [], []⟩
    | .ok entries => ⟨[], t.ownRules item.names entries, t.children item real entries⟩

/-- What there is to see at an entry. -/
def sight (t : Traversal) (rules : List Rule) (item : Candidate) : Sight :=
  let found := t.resolve item
  if found.stats.isDirectory then
    match found.target with
    | some real => t.sightOfDirectory rules item found.stats real
    | none =>
      match t.realPathOf item with
      | .error _ => ⟨[], [], []⟩
      | .ok real => t.sightOfDirectory rules item found.stats real
  else ⟨t.offer rules item found.stats false, [], []⟩

/-- What is given out at a place, and the places in it: their rules are those of the place, and
behind them the rules of its own ignore files. -/
def look (t : Traversal) (place : Place) : List Entry × List Place :=
  let sight := t.sight place.rules place.item
  (sight.given, sight.entries.map (⟨place.rules ++ sight.rules, ·⟩))

/-- The recursive traversal of an entry with inherited rules, at most `fuel` entries deep. -/
def visit (t : Traversal) (fuel : Nat) (rules : List Rule) (item : Candidate) :
    Option (List Entry) :=
  gather t.look fuel ⟨rules, item⟩

/-- The rules that the traversal begins with: version control keeps its own data in the root. -/
def firstRules (t : Traversal) : List Rule :=
  (IgnoreFile.parse MatcherCache.empty t.root.toText (.text Walk.metadataRule) none).1.rules

/-- The recursive traversal of an accepted root, at most `fuel` entries deep. -/
def entries (t : Traversal) (fuel : Nat) : Option (List Entry) :=
  match (Walk.lookAtRoot t.files t.root.toText).run with
  | .error _ => none
  | .ok stats => t.visit fuel t.firstRules ⟨[], stats, [], []⟩

/-- An entry as it is found to be when a link may be followed. -/
def found (t : Traversal) (item : Candidate) : Entry :=
  ⟨item.names, t.pathOf item.names, (t.resolve item).stats⟩

variable (t : Traversal)

/-- An offer of an entry gives out the entry itself, if it is not the root and the rules do not
ignore it. -/
theorem mem_offer {rules : List Rule} {item : Candidate} {stats : FileStats} {isDirectory : Bool}
    {e : Entry} : e ∈ t.offer rules item stats isDirectory ↔
      e = ⟨item.names, t.pathOf item.names, stats⟩ ∧ item.names ≠ [] ∧
        listIgnores rules (canonical (t.pathOf item.names)) isDirectory = false := by
  rw [offer]
  cases listIgnores rules (canonical (t.pathOf item.names)) isDirectory with
  | true => simp
  | false =>
    by_cases hnames : item.names = []
    · simp [Candidate.depth, hnames]
    · simp [Candidate.depth, hnames]

theorem names_offer {rules : List Rule} {item : Candidate} {stats : FileStats} {isDirectory : Bool}
    {e : Entry} (h : e ∈ t.offer rules item stats isDirectory) : e.names = item.names := by
  rw [((t.mem_offer).mp h).1]

/-- How the real path of a directory that is looked at is told: by its own path, or by the link that
is followed to it. -/
inductive Enters (t : Traversal) (item : Candidate) (real : Text) : Prop
  | own (directory : item.stats.isDirectory = true) (told : t.realPathOf item = .ok real)
  | followed {answer : Text} (follows : t.options.followLinks = true)
      (link : item.stats.isSymlink = true)
      (told : (t.files.realPath (t.pathOf item.names)).run = .ok answer)
      (canonical : real = canonical answer) (unvisited : real ∉ item.visited)
      (outside : inScope item.parentReal real = false)

/-- What an entry is found to be: what is known of it, what a link leads to that is no directory, or
a directory that a link is followed to, which then does not lead back. -/
theorem resolve_cases (item : Candidate) :
    t.resolve item = ⟨item.stats, none⟩ ∨
    (∃ stats, stats.isDirectory = false ∧ t.resolve item = ⟨stats, none⟩) ∨
    ∃ stats real, t.Enters item real ∧ t.resolve item = ⟨stats, some real⟩ := by
  generalize hfound : t.resolve item = found
  rw [resolve] at hfound
  split at hfound
  · exact Or.inl hfound.symm
  · rename_i hlink
    split at hfound
    · exact Or.inl hfound.symm
    · rename_i stats _
      split at hfound
      · rename_i hnot
        have hleaf : stats.isDirectory = false := by simpa using hnot
        exact Or.inr (Or.inl ⟨stats, hleaf, hfound.symm⟩)
      · split at hfound
        · exact Or.inl hfound.symm
        · rename_i answer hanswer
          split at hfound
          · exact Or.inl hfound.symm
          · rename_i hback
            simp only [Bool.not_eq_true', Bool.not_eq_false, Bool.and_eq_true] at hlink
            simp only [Bool.or_eq_true, List.contains_iff_mem, not_or, Bool.not_eq_true] at hback
            exact Or.inr (Or.inr ⟨stats, canonical answer,
              .followed hlink.2 hlink.1 hanswer rfl hback.1 hback.2, hfound.symm⟩)

/-- If no links are followed then an entry, a link included, is what its look-up says. -/
theorem resolve_of_unfollowed (h : t.options.followLinks = false) (item : Candidate) :
    t.resolve item = ⟨item.stats, none⟩ := by
  rw [resolve, h, Bool.and_false]
  rfl

/-- What there is to see at a directory: an entry that is given out, nothing, or what is in it. -/
theorem sightOfDirectory_cases (rules : List Rule) (item : Candidate) (stats : FileStats)
    (real : Text) :
    (∃ isDirectory, t.sightOfDirectory rules item stats real
      = ⟨t.offer rules item stats isDirectory, [], []⟩) ∨
    t.sightOfDirectory rules item stats real = ⟨[], [], []⟩ ∨
    ∃ entries, (t.files.list (t.pathOf item.names)).run = .ok entries ∧
      (∀ depth, t.options.maxDepth = some depth → item.depth ≠ depth) ∧
      t.sightOfDirectory rules item stats real
        = ⟨[], t.ownRules item.names entries, t.children item real entries⟩ := by
  unfold sightOfDirectory
  simp only
  split
  · exact Or.inl ⟨true, rfl⟩
  · rename_i hdeep
    split
    · exact Or.inr (Or.inl rfl)
    · split
      · exact Or.inr (Or.inl rfl)
      · split
        · exact Or.inl ⟨true, rfl⟩
        · exact Or.inr (Or.inl rfl)
      · rename_i entries _ hlist
        refine Or.inr (Or.inr ⟨entries, hlist, fun depth hmax heq => hdeep ?_, rfl⟩)
        rw [hmax, heq]
        exact beq_self_eq_true _

/-- At an entry that is no directory nothing is seen but itself, unless it is ignored. At a
directory there is to see what `sightOfDirectory` says for its real path, and nothing without one.
-/
theorem sight_eq (rules : List Rule) (item : Candidate) :
    (∃ stats, t.sight rules item = ⟨t.offer rules item stats false, [], []⟩) ∨
    t.sight rules item = ⟨[], [], []⟩ ∨
    ∃ stats real, t.Enters item real ∧
      t.sight rules item = t.sightOfDirectory rules item stats real := by
  rw [sight]
  rcases t.resolve_cases item with hfound | ⟨stats, hleaf, hfound⟩ | ⟨stats, real, henters, hfound⟩
  · simp only [hfound]
    split
    · rename_i hdirectory
      cases hown : t.realPathOf item with
      | error e => exact Or.inr (Or.inl rfl)
      | ok real => exact Or.inr (Or.inr ⟨_, real, .own hdirectory hown, rfl⟩)
    · exact Or.inl ⟨_, rfl⟩
  · simp only [hfound, hleaf, Bool.false_eq_true, if_false]
    exact Or.inl ⟨stats, rfl⟩
  · simp only [hfound]
    split
    · exact Or.inr (Or.inr ⟨stats, real, henters, rfl⟩)
    · exact Or.inl ⟨stats, rfl⟩

/-- What a sight consists of: an entry that is given out, or a directory that has been opened. -/
theorem sight_cases (rules : List Rule) (item : Candidate) :
    (∃ stats isDirectory, t.sight rules item = ⟨t.offer rules item stats isDirectory, [], []⟩) ∨
    t.sight rules item = ⟨[], [], []⟩ ∨
    ∃ real entries, (t.files.list (t.pathOf item.names)).run = .ok entries ∧
      (∀ depth, t.options.maxDepth = some depth → item.depth ≠ depth) ∧ t.Enters item real ∧
      t.sight rules item = ⟨[], t.ownRules item.names entries, t.children item real entries⟩ := by
  rcases t.sight_eq rules item with ⟨stats, hs⟩ | hs | ⟨stats, real, henters, hs⟩
  · exact Or.inl ⟨stats, false, hs⟩
  · exact Or.inr (Or.inl hs)
  · rw [hs]
    rcases t.sightOfDirectory_cases rules item stats real with
      ⟨isDirectory, hd⟩ | hd | ⟨entries, hlist, hdeep, hd⟩
    · exact Or.inl ⟨stats, isDirectory, hd⟩
    · exact Or.inr (Or.inl hd)
    · exact Or.inr (Or.inr ⟨real, entries, hlist, hdeep, henters, hd⟩)

/-- What is given out at a place is the entry there, as it is found to be. -/
theorem eq_found_of_mem {rules : List Rule} {item : Candidate} {e : Entry}
    (he : e ∈ (t.sight rules item).given) : e = t.found item := by
  have hoffer : ∀ isDirectory, e ∈ t.offer rules item (t.resolve item).stats isDirectory →
      e = t.found item := fun isDirectory h => (t.mem_offer.mp h).1
  have hdirectory : ∀ real,
      e ∈ (t.sightOfDirectory rules item (t.resolve item).stats real).given → e = t.found item := by
    intro real h
    rcases t.sightOfDirectory_cases rules item (t.resolve item).stats real with
      ⟨isDirectory, hs⟩ | hs | ⟨entries, -, -, hs⟩
    · rw [hs] at h
      exact hoffer isDirectory h
    · rw [hs] at h
      exact nomatch h
    · rw [hs] at h
      exact nomatch h
  unfold sight at he
  simp only at he
  split at he
  · split at he
    · exact hdirectory _ he
    · split at he
      · exact nomatch he
      · exact hdirectory _ he
  · exact hoffer false he

theorem names_of_mem_children {item child : Candidate} {real : Text} {entries : List ListedEntry}
    (h : child ∈ t.children item real entries) :
    ∃ entry ∈ entries, child.names = item.names ++ [entry.name] := by
  obtain ⟨entry, hentry, hchild⟩ := List.mem_filterMap.mp h
  split at hchild
  · cases hchild
  · cases hchild
    exact ⟨entry, hentry, rfl⟩

/-- The entries that are seen in a directory are those of its listing, above the depth limit. -/
theorem exists_of_mem_sight {rules : List Rule} {item child : Candidate}
    (h : child ∈ (t.sight rules item).entries) :
    (∀ depth, t.options.maxDepth = some depth → item.depth ≠ depth) ∧
    ∃ entries, (t.files.list (t.pathOf item.names)).run = .ok entries ∧
      ∃ entry ∈ entries, child.names = item.names ++ [entry.name] := by
  rcases t.sight_cases rules item with ⟨_, _, hs⟩ | hs | ⟨real, entries, hlist, hdepth, -, hs⟩
  · rw [hs] at h
    exact nomatch h
  · rw [hs] at h
    exact nomatch h
  · rw [hs] at h
    exact ⟨hdepth, entries, hlist, t.names_of_mem_children h⟩

/-- What is given out at a place is the entry there. -/
theorem names_given (place : Place) : ∀ e ∈ (t.look place).1, e.names = place.item.names := by
  intro e he
  rw [look] at he
  rcases t.sight_cases place.rules place.item with
    ⟨stats, isDirectory, hs⟩ | hs | ⟨_, _, _, _, _, hs⟩
  · rw [hs] at he
    exact t.names_offer he
  · rw [hs] at he
    exact nomatch he
  · rw [hs] at he
    exact nomatch he

/-- What is given out at a place has the depth of the place. -/
theorem depth_given (place : Place) : ∀ e ∈ (t.look place).1, e.depth = place.item.depth :=
  fun e he => congrArg List.length (t.names_given place e he)

/-- The names of a place in a place are those of that place and one more. -/
theorem names_below (place : Place) :
    ∀ below ∈ (t.look place).2, ∃ name, below.item.names = place.item.names ++ [name] := by
  intro below hbelow
  rw [look] at hbelow
  obtain ⟨child, hchild, rfl⟩ := List.mem_map.mp hbelow
  obtain ⟨-, entries, -, entry, -, hnames⟩ := t.exists_of_mem_sight hchild
  exact ⟨entry.name, hnames⟩

/-- The depth of a place in a place is one more than that of that place. -/
theorem depth_below (place : Place) :
    ∀ below ∈ (t.look place).2, below.item.depth = place.item.depth + 1 := by
  intro below hbelow
  obtain ⟨name, hnames⟩ := t.names_below place below hbelow
  rw [Candidate.depth, hnames, List.length_append, List.length_singleton]
  rfl

end Traversal

end TreeSieve

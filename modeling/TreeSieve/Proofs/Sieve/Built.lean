import TreeSieve.Proofs.Rule.Cover
import TreeSieve.Proofs.Rule.Rulebook
import TreeSieve.Proofs.Walk.Always
import TreeSieve.Sieve.Basic

/-!
# Sieves as they are built

* `Sieve.IsBuilt` holds of the sieves that texts and files have been put into, in any order.
* `Sieve.Sound` is what every such sieve keeps to: the numbers of the rules are their places, and
  each rule comes from a line for the scope of its block. `Sieve.IsBuilt.sound` says so.
* `readLines_fst` says that the lines of an ignore file are read each by itself.
* `IgnoreFile.load_outcome` lists what reading an ignore file can come to.
-/

namespace TreeSieve

/-! ### Lines -/

/-- What a line of an ignore file comes to by itself. -/
def LineReading.ofLine (scope : Text) (source : Option Text) (line : Nat) (text : Text) :
    LineReading :=
  if (lineContent text).isEmpty then .empty
  else if isComment (lineContent text) then .comment
  else .pattern line (lineContent text) (Rule.compile scope (lineContent text) line source)

/-- What lines come to is what each of them comes to by itself, with its own number, whatever the
cache holds. -/
theorem readLines_fst (scope : Text) (source : Option Text) (texts : List Text) :
    ∀ (cache : MatcherCache) (line : Nat), (readLines scope source cache line texts).1
      = (texts.zipIdx line).map fun entry => LineReading.ofLine scope source entry.2 entry.1 := by
  induction texts with
  | nil => exact fun _ _ => rfl
  | cons text rest ih =>
    intro cache line
    rw [List.zipIdx_cons, List.map_cons, LineReading.ofLine, readLines]
    simp only
    split
    · exact congrArg _ (ih _ _)
    · split
      · exact congrArg _ (ih _ _)
      · simp only [MatcherCache.compile_result]
        exact congrArg _ (ih _ _)

/-- Each rule of the lines of a file is what one of the lines is compiled to. -/
theorem exists_line_of_readLines (scope : Text) (source : Option Text) (texts : List Text)
    (cache : MatcherCache) (line : Nat) :
    ∀ reading ∈ (readLines scope source cache line texts).1, ∀ rule, reading.rule? = some rule →
      ∃ text ∈ texts, ∃ number,
        Rule.compile scope (lineContent text) number source = .ok (some rule) := by
  intro reading hreading rule hrule
  rw [readLines_fst] at hreading
  obtain ⟨⟨text, number⟩, hentry, rfl⟩ := List.mem_map.mp hreading
  refine ⟨text, List.fst_mem_of_mem_zipIdx hentry, number, ?_⟩
  rw [LineReading.ofLine] at hrule
  split at hrule
  · cases hrule
  · split at hrule
    · cases hrule
    · cases hcompile : Rule.compile scope (lineContent text) number source with
      | error e =>
        rw [hcompile] at hrule
        cases hrule
      | ok found =>
        rw [hcompile] at hrule
        obtain rfl : found = some rule := hrule
        rfl

namespace IgnoreFile

/-- A file whose rules come from lines for its scope. -/
def IsRead (f : IgnoreFile) : Prop := ∀ rule ∈ f.rules, rule.ComesFrom f.scope

/-- Each rule of a text is what one of its lines is compiled to. -/
theorem exists_line_of_parse {cache : MatcherCache} {scope : Text} {content : Content}
    {source : Option Text} {rule : Rule} (h : rule ∈ (parse cache scope content source).1.rules) :
    ∃ text ∈ Text.lines content.decoded, ∃ number,
      Rule.compile scope (lineContent text) number source = .ok (some rule) := by
  obtain ⟨reading, hreading, hsome⟩ := List.mem_filterMap.mp (List.mem_of_mem_take h)
  exact exists_line_of_readLines scope source _ cache 1 reading hreading rule hsome

theorem parse_isRead (cache : MatcherCache) (scope : Text) (content : Content)
    (source : Option Text) : (parse cache scope content source).1.IsRead := by
  intro rule hrule
  obtain ⟨text, -, number, hcompile⟩ := exists_line_of_parse hrule
  exact ⟨_, _, _, hcompile⟩

/-- Reading an ignore file, whatever the file system answers, gives a report for its directory and
path and leaves the cache, or gives what some bytes are parsed to for its directory and path. -/
theorem load_outcome {m : Type → Type} [Monad m] [AlwaysMonad m] (fs : FileSystem m)
    (cache : MatcherCache) (path : Text) :
    Always (load fs cache path) fun result =>
      (∃ message, result = (unreadable (Path.ofText path).parent.toText
        (some (Path.ofText path).toText) message, cache)) ∨
      ∃ bytes, result = parse cache (Path.ofText path).parent.toText (.bytes bytes)
        (some (Path.ofText path).toText) := by
  unfold load
  refine always_bind_any fun answer => ?_
  cases answer with
  | error e => exact always_pure (.inl ⟨_, rfl⟩)
  | ok stats =>
    simp only
    split
    · exact always_pure (.inl ⟨_, rfl⟩)
    · refine always_bind_any fun bytes => ?_
      cases bytes with
      | error e => exact always_pure (.inl ⟨_, rfl⟩)
      | ok bytes => exact always_pure (.inr ⟨bytes, rfl⟩)

/-- Reading an ignore file gives a file for the directory it stands in, with rules from its
lines. -/
theorem load_reads {m : Type → Type} [Monad m] [AlwaysMonad m] (fs : FileSystem m)
    (cache : MatcherCache) (path : Text) :
    Always (load fs cache path) fun result =>
      result.1.IsRead ∧ result.1.scope = (Path.ofText path).parent.toText := by
  refine always_mono (load_outcome fs cache path) ?_
  rintro result (⟨message, rfl⟩ | ⟨bytes, rfl⟩)
  · exact ⟨fun _ hrule => (List.not_mem_nil hrule).elim, rfl⟩
  · exact ⟨parse_isRead _ _ _ _, rfl⟩

end IgnoreFile

namespace Sieve

/-- What a sieve keeps to: rules are numbered by their places, and come from lines for the scopes of
their blocks. -/
structure Sound (s : Sieve) : Prop where
  numbered : s.rulebook.IsNumbered
  rules : ∀ b ∈ s.rulebook.blocks, ∀ rule ∈ b.rules,
    ∃ scope, rule.ComesFrom scope ∧ b.scope = canonical scope

theorem empty_sound : empty.Sound := ⟨Rulebook.empty_isNumbered, fun _ hb => nomatch hb⟩

theorem Sound.register {s : Sieve} (h : s.Sound) {f : IgnoreFile} (hf : f.IsRead)
    (cache : MatcherCache) : (s.register f cache).Sound := by
  refine ⟨h.numbered.add f.scope f.rules f.source, ?_⟩
  intro b hb rule hrule
  rcases List.mem_append.mp hb with hb | hb
  · exact h.rules b hb rule hrule
  · rw [List.mem_singleton.mp hb] at hrule ⊢
    exact ⟨f.scope, hf rule hrule, rfl⟩

theorem Sound.insert {s : Sieve} (h : s.Sound) (scope : Text) (content : Content)
    (source : Option Text) : (s.insert scope content source).2.Sound :=
  h.register (IgnoreFile.parse_isRead _ _ _ _) _

theorem Sound.load {m : Type → Type} [Monad m] [AlwaysMonad m] {s : Sieve} (h : s.Sound)
    (fs : FileSystem m) (path : Text) : Always (s.load fs path) fun result => result.2.Sound := by
  unfold Sieve.load
  refine always_bind_of (IgnoreFile.load_reads fs s.cache path) ?_
  rintro ⟨f, cache⟩ ⟨hf, -⟩
  exact always_pure (h.register hf cache)

/-- A sieve that texts and files have been put into, whatever the file systems have answered. -/
inductive IsBuilt : Sieve → Prop
  | empty : IsBuilt empty
  | insert {s : Sieve} (built : s.IsBuilt) (scope : Text) (content : Content)
      (source : Option Text) : IsBuilt (s.insert scope content source).2
  | load {s : Sieve} (built : s.IsBuilt) (fs : FileSystem Id) (path : Text) :
      IsBuilt (s.load fs path).run.2

theorem IsBuilt.sound {s : Sieve} (h : s.IsBuilt) : s.Sound := by
  induction h with
  | empty => exact empty_sound
  | insert _ scope content source ih => exact ih.insert scope content source
  | load _ fs path ih => exact ih.load fs path

end Sieve

end TreeSieve

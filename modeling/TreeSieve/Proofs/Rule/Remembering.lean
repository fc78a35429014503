import TreeSieve.Rule.Cache

/-!
# What a cache remembers does not show

A cache is asked for the compiled form of a pattern by nothing but the pattern, though what is
wanted also depends on whether the line that asks is anchored, and though the report of a fault
names the line. That this is enough is shown here for every course of requests.

* `RuleLine.glob_head?`: the pattern tells whether the line is anchored, so lines that are turned
  into one pattern may share its compiled form.
* `Rule.compileAlone` compiles a line without a cache, going by the line itself;
  `MatcherCache.compile_eq_compileAlone` says that a cache gives the same.
* `MatcherCache.answer_of_fails`: a request that ends in a fault leaves the cache as it was.
* `MatcherCache.answers_transparent` puts this together for all requests made of one cache.
-/

namespace TreeSieve

/-! ### What lines share -/

/-- The pattern that a line is turned into begins with a slash exactly if the line is anchored. -/
theorem RuleLine.glob_head? (read : RuleLine) :
    read.glob.head? = some '/' ↔ read.anchored = true := by
  rw [glob]
  cases read.anchored with
  | true => simp
  | false => simp

/-- Compiles a pattern of which it is known whether it is anchored. -/
def Matchers.ofPattern (anchored : Bool) (glob : Text) : Except GlobFault Matchers := do
  let exact ← ignoringRegex glob
  let leading ← if anchored then (leadingGlobs glob).mapM ignoringRegex else pure []
  return ⟨exact, leading⟩

theorem Matchers.ofGlob_glob (read : RuleLine) :
    ofGlob read.glob = ofPattern read.anchored read.glob := by
  by_cases hflag : read.anchored = true
  · have hhead := read.glob_head?.mpr hflag
    simp only [ofGlob, ofPattern, hhead, hflag, if_true]
  · have hhead : ¬ read.glob.head? = some '/' := mt read.glob_head?.mp hflag
    simp only [ofGlob, ofPattern, if_neg hhead, if_neg hflag]

/-- Compiles a line by itself: whether its pattern is anchored, and the text that a fault is
reported with, are those of the line. -/
def Rule.compileAlone (scope text : Text) (line : Int) (source : Option Text) :
    Except PatternError (Option Rule) :=
  match RuleLine.ofText? text with
  | none => .ok none
  | some read =>
    match Matchers.ofPattern read.anchored read.glob with
    | .ok matchers => .ok (some (ofLine read matchers scope line source))
    | .error fault => .error ⟨read.text, fault⟩

namespace MatcherCache

/-- The compiled form that a cache holds for a pattern is what the pattern is compiled to for any
line that is turned into it. -/
theorem ofPattern_of_lookup (c : MatcherCache) {read : RuleLine} {matchers : Matchers}
    (h : c.known.lookup read.glob = some matchers) :
    Matchers.ofPattern read.anchored read.glob = .ok matchers := by
  rw [← Matchers.ofGlob_glob]
  exact c.sound read.glob matchers h

theorem compile_eq_compileAlone (c : MatcherCache) (scope text : Text) (line : Int)
    (source : Option Text) :
    (c.compile scope text line source).1 = Rule.compileAlone scope text line source := by
  rw [compile_result, Rule.compile, Rule.compileAlone]
  cases RuleLine.ofText? text with
  | none => rfl
  | some read =>
    show (match Matchers.ofGlob read.glob with
      | .ok matchers => _
      | .error fault => _) = _
    rw [Matchers.ofGlob_glob]

theorem fault?_result (c : MatcherCache) (pattern : Text) :
    (c.fault? pattern).1 = match Rule.compile ['/'] pattern 0 none with
      | .ok _ => none
      | .error error => some error.message := by
  rw [← c.compile_result, fault?]
  rcases c.compile ['/'] pattern 0 none with ⟨compiled | error, c'⟩ <;> rfl

/-! ### Faults -/

/-- A pattern that cannot be compiled is not remembered, nor is any part of it. -/
theorem matchers_of_error {c : MatcherCache} {glob : Text} {fault : GlobFault}
    (h : (c.matchers glob).1 = .error fault) : (c.matchers glob).2 = c := by
  rw [matchers] at h ⊢
  split
  · rfl
  · rename_i hlookup
    rw [hlookup] at h
    split
    · rename_i compiled hcompiled
      rw [← matchers_result c glob, matchers, hlookup] at hcompiled
      simp only at h hcompiled
      rw [h] at hcompiled
      exact nomatch hcompiled
    · rfl

theorem compile_of_error {c : MatcherCache} {scope text : Text} {line : Int}
    {source : Option Text} {error : PatternError}
    (h : (c.compile scope text line source).1 = .error error) :
    (c.compile scope text line source).2 = c := by
  rw [compile] at h ⊢
  cases hread : RuleLine.ofText? text with
  | none => rfl
  | some read =>
    rw [hread] at h
    simp only at h ⊢
    cases hmatchers : c.matchers read.glob with
    | mk compiled after =>
      rw [hmatchers] at h
      cases compiled with
      | ok matchers => exact nomatch h
      | error fault =>
        have hkept := matchers_of_error (congrArg Prod.fst hmatchers)
        rw [hmatchers] at hkept
        exact hkept

theorem fault?_of_some {c : MatcherCache} {pattern message : Text}
    (h : (c.fault? pattern).1 = some message) : (c.fault? pattern).2 = c := by
  rw [fault?] at h ⊢
  cases hcompile : c.compile ['/'] pattern 0 none with
  | mk compiled after =>
    rw [hcompile] at h
    cases compiled with
    | ok rule => exact nomatch h
    | error error =>
      have hkept := compile_of_error (congrArg Prod.fst hcompile)
      rw [hcompile] at hkept
      exact hkept

/-! ### A course of requests -/

/-- What a cache is asked for: to compile a line, to tell the fault of a pattern, or to forget. -/
inductive Request where
  | compile (scope text : Text) (line : Int) (source : Option Text)
  | fault (pattern : Text)
  | clear

/-- What comes back. -/
inductive Answer where
  | compiled (result : Except PatternError (Option Rule))
  | fault (message : Option Text)
  | cleared

/-- Whether a request has ended in a fault. -/
def Answer.Fails : Answer → Prop
  | compiled (.error _) => True
  | fault (some _) => True
  | _ => False

/-- The answer to a request, and the cache after it. -/
def answer (c : MatcherCache) : Request → Answer × MatcherCache
  | .compile scope text line source =>
    let (result, c) := c.compile scope text line source
    (.compiled result, c)
  | .fault pattern =>
    let (message, c) := c.fault? pattern
    (.fault message, c)
  | .clear => (.cleared, c.clear)

/-- The answers to requests that are made one after the other, and the cache after them. -/
def answers : MatcherCache → List Request → List Answer × MatcherCache
  | c, [] => ([], c)
  | c, request :: rest =>
    let (first, c) := c.answer request
    let (others, c) := answers c rest
    (first :: others, c)

/-- Every cache gives the answer of an empty one. -/
theorem answer_eq_empty (c : MatcherCache) (request : Request) :
    (c.answer request).1 = (empty.answer request).1 := by
  cases request with
  | compile scope text line source =>
    show Answer.compiled (c.compile scope text line source).1
      = Answer.compiled (empty.compile scope text line source).1
    rw [compile_result, compile_result]
  | fault pattern =>
    show Answer.fault (c.fault? pattern).1 = Answer.fault (empty.fault? pattern).1
    rw [fault?_result, fault?_result]
  | clear => rfl

theorem answer_of_fails {c : MatcherCache} {request : Request}
    (h : (c.answer request).1.Fails) : (c.answer request).2 = c := by
  cases request with
  | compile scope text line source =>
    show (c.compile scope text line source).2 = c
    replace h : (Answer.compiled (c.compile scope text line source).1).Fails := h
    cases hresult : (c.compile scope text line source).1 with
    | ok rule =>
      rw [hresult] at h
      exact h.elim
    | error error => exact compile_of_error hresult
  | fault pattern =>
    show (c.fault? pattern).2 = c
    replace h : (Answer.fault (c.fault? pattern).1).Fails := h
    cases hmessage : (c.fault? pattern).1 with
    | none =>
      rw [hmessage] at h
      exact h.elim
    | some message => exact fault?_of_some hmessage
  | clear => exact h.elim

theorem answers_eq_map (c : MatcherCache) (requests : List Request) :
    (c.answers requests).1 = requests.map fun request => (empty.answer request).1 := by
  induction requests generalizing c with
  | nil => rfl
  | cons request rest ih =>
    show (c.answer request).1 :: ((c.answer request).2.answers rest).1 = _
    rw [ih, answer_eq_empty, List.map_cons]

/-- **A cache does not show.** Whatever is asked of it in whatever order, each answer is that of a
cache which remembers nothing, which for a line is what the line gives by itself. All that it holds
afterwards is right for every line that could ask for it, and a further request that ends in a fault
leaves it as it is. -/
theorem answers_transparent (c : MatcherCache) (requests : List Request) :
    let after := (c.answers requests).2
    (c.answers requests).1 = requests.map (fun request => (empty.answer request).1) ∧
    (∀ scope text line source, (after.answer (.compile scope text line source)).1
      = .compiled (Rule.compileAlone scope text line source)) ∧
    (∀ (read : RuleLine) (matchers : Matchers), after.known.lookup read.glob = some matchers →
      Matchers.ofPattern read.anchored read.glob = .ok matchers) ∧
    ∀ request, (after.answer request).1.Fails → (after.answer request).2 = after := by
  intro after
  refine ⟨c.answers_eq_map requests, fun scope text line source => ?_, fun read matchers h => ?_,
    fun request h => answer_of_fails h⟩
  · exact congrArg Answer.compiled (after.compile_eq_compileAlone scope text line source)
  · exact after.ofPattern_of_lookup h

end MatcherCache

end TreeSieve

import Mathlib.Data.List.Basic
import TreeSieve.Regex.Basic

/-!
# What expressions take

An expression that looks at nothing but the characters it takes is described by the texts it can
take, and following it is going on behind one of them.

* `Cursor.past` is the place behind some of the characters that follow a place.
* `Regex.run_one`, `Regex.run_star_one`, `Regex.run_plus_one` and `Regex.run_optional` tell what
  sets of characters and their repetitions take.
* `Regex.search_iff` says that searching is following from some place of the text.
-/

namespace TreeSieve

namespace Cursor

/-- The place behind `taken`, with `after` left, if both are read from `p` on. -/
def past (p : Cursor) (taken after : Text) : Cursor := ⟨taken.reverse ++ p.before, after⟩

@[simp] theorem past_nil (p : Cursor) : p.past [] p.rest = p := rfl

@[simp] theorem past_rest (p : Cursor) (taken after : Text) : (p.past taken after).rest = after :=
  rfl

theorem past_past (p : Cursor) (taken more middle after : Text) :
    (p.past taken middle).past more after = p.past (taken ++ more) after := by
  simp [past]

/-- The places of a text from its start on are given by the ways to split it in two. -/
theorem mem_onwards {before t : Text} {p : Cursor} :
    p ∈ onwards before t ↔
      ∃ front back, t = front ++ back ∧ p = ⟨front.reverse ++ before, back⟩ := by
  induction t generalizing before with
  | nil =>
    rw [onwards, List.mem_singleton]
    constructor
    · rintro rfl
      exact ⟨[], [], rfl, rfl⟩
    · rintro ⟨front, back, hsplit, rfl⟩
      obtain ⟨rfl, rfl⟩ := List.nil_eq_append_iff.mp hsplit
      rfl
  | cons c rest ih =>
    rw [onwards, List.mem_cons, ih]
    constructor
    · rintro (rfl | ⟨front, back, rfl, rfl⟩)
      · exact ⟨[], c :: rest, rfl, rfl⟩
      · exact ⟨c :: front, back, rfl, by simp⟩
    · rintro ⟨front, back, hsplit, rfl⟩
      cases front with
      | nil => exact Or.inl (by rw [hsplit]; rfl)
      | cons first front =>
        obtain ⟨rfl, rfl⟩ := List.cons.inj hsplit
        exact Or.inr ⟨front, back, rfl, by simp⟩

end Cursor

namespace Regex

variable {next : Cursor → Bool} {p : Cursor}

@[simp] theorem run_seq (r s : Regex) : run (seq r s) next p = run r (run s next) p := rfl

@[simp] theorem run_alt (r s : Regex) : run (alt r s) next p = (run r next p || run s next p) := rfl

/-- The expression of a set takes one character, if it is in the set. -/
theorem run_one (s : CharSet) :
    run (one s) next p = true ↔
      ∃ c after, p.rest = c :: after ∧ s.contains c = true ∧ next (p.past [c] after) = true := by
  cases hrest : p.rest with
  | nil => simp [run, hrest]
  | cons c rest =>
    simp only [run, hrest, Bool.and_eq_true]
    constructor
    · rintro ⟨hc, hnext⟩
      exact ⟨c, rest, rfl, hc, hnext⟩
    · rintro ⟨d, after, heq, hd, hnext⟩
      obtain ⟨rfl, rfl⟩ := List.cons.inj heq
      exact ⟨hd, hnext⟩

/-- Repeating a set takes any run of its characters, if there are enough rounds. -/
theorem repeatWhileMoving_one (s : CharSet) (rounds : Nat) :
    ∀ p : Cursor, p.rest.length ≤ rounds →
      (repeatWhileMoving (run (one s)) rounds next p = true ↔ ∃ taken after,
        p.rest = taken ++ after ∧ (∀ c ∈ taken, s.contains c = true) ∧
          next (p.past taken after) = true) := by
  induction rounds with
  | zero =>
    intro p hlen
    have hnil : p.rest = [] := List.length_eq_zero_iff.mp (Nat.le_zero.mp hlen)
    rw [repeatWhileMoving]
    constructor
    · intro hnext
      exact ⟨[], p.rest, rfl, by simp, hnext⟩
    · rintro ⟨taken, after, hsplit, -, hnext⟩
      rw [hnil] at hsplit
      obtain ⟨rfl, rfl⟩ := List.nil_eq_append_iff.mp hsplit
      have hhere := Cursor.past_nil p
      rw [hnil] at hhere
      rwa [hhere] at hnext
  | succ rounds ih =>
    intro p hlen
    rw [repeatWhileMoving, Bool.or_eq_true, run_one]
    constructor
    · rintro (hnext | ⟨c, rest, hrest, hc, hmore⟩)
      · exact ⟨[], p.rest, rfl, by simp, hnext⟩
      · rw [Bool.and_eq_true] at hmore
        have hshort : (p.past [c] rest).rest.length ≤ rounds := by
          rw [hrest, List.length_cons] at hlen
          exact Nat.le_of_succ_le_succ hlen
        obtain ⟨taken, after, hsplit, htaken, hnext⟩ := (ih _ hshort).mp hmore.2
        refine ⟨c :: taken, after, by rw [hrest]; exact congrArg (c :: ·) hsplit, ?_, ?_⟩
        · intro d hd
          rcases List.mem_cons.mp hd with rfl | hd
          · exact hc
          · exact htaken d hd
        · rwa [Cursor.past_past] at hnext
    · rintro ⟨taken, after, hsplit, htaken, hnext⟩
      cases taken with
      | nil =>
        rw [List.nil_append] at hsplit
        exact Or.inl (by rwa [← hsplit] at hnext)
      | cons c taken =>
        refine Or.inr ⟨c, taken ++ after, hsplit, htaken c List.mem_cons_self, ?_⟩
        have hshort : (p.past [c] (taken ++ after)).rest.length ≤ rounds := by
          rw [hsplit, List.cons_append, List.length_cons] at hlen
          exact Nat.le_of_succ_le_succ hlen
        rw [Bool.and_eq_true]
        refine ⟨by rw [hsplit]; simp, (ih _ hshort).mpr ⟨taken, after, rfl, ?_, ?_⟩⟩
        · exact fun d hd => htaken d (List.mem_cons_of_mem c hd)
        · rwa [Cursor.past_past]

theorem run_star_one (s : CharSet) :
    run (star (one s)) next p = true ↔ ∃ taken after, p.rest = taken ++ after ∧
      (∀ c ∈ taken, s.contains c = true) ∧ next (p.past taken after) = true := by
  simp only [star, run, Nat.zero_min, repeatExactly]
  exact repeatWhileMoving_one s _ p (Nat.le_refl _)

theorem run_plus_one (s : CharSet) :
    run (plus (one s)) next p = true ↔ ∃ taken after, p.rest = taken ++ after ∧ taken ≠ [] ∧
      (∀ c ∈ taken, s.contains c = true) ∧ next (p.past taken after) = true := by
  have hone : min 1 (p.rest.length + 1) = 1 := by omega
  rw [plus, run, hone, repeatExactly, run_one]
  simp only [repeatExactly]
  constructor
  · rintro ⟨c, rest, hrest, hc, hmore⟩
    obtain ⟨taken, after, hsplit, htaken, hnext⟩ :=
      (repeatWhileMoving_one s _ _ (Nat.le_refl _)).mp hmore
    refine ⟨c :: taken, after, by rw [hrest]; exact congrArg (c :: ·) hsplit, by simp, ?_, ?_⟩
    · intro d hd
      rcases List.mem_cons.mp hd with rfl | hd
      · exact hc
      · exact htaken d hd
    · rwa [Cursor.past_past] at hnext
  · rintro ⟨taken, after, hsplit, hne, htaken, hnext⟩
    obtain ⟨c, taken, rfl⟩ := List.exists_cons_of_ne_nil hne
    refine ⟨c, taken ++ after, hsplit, htaken c List.mem_cons_self, ?_⟩
    refine (repeatWhileMoving_one s _ _ (Nat.le_refl _)).mpr ⟨taken, after, rfl, ?_, ?_⟩
    · exact fun d hd => htaken d (List.mem_cons_of_mem c hd)
    · rwa [Cursor.past_past]

/-- What may be missing is taken or not, if it takes at least one character. -/
theorem run_optional {r : Regex} {takes : Text → Prop} (hne : ¬takes [])
    (hr : ∀ (next : Cursor → Bool) (p : Cursor), run r next p = true ↔ ∃ taken after,
      p.rest = taken ++ after ∧ takes taken ∧ next (p.past taken after) = true) :
    run (optional r) next p = true ↔ ∃ taken after, p.rest = taken ++ after ∧
      (taken = [] ∨ takes taken) ∧ next (p.past taken after) = true := by
  simp only [optional, run, Nat.zero_min, repeatExactly, Nat.sub_zero]
  have honce : repeatWhileMoving (run r) (min 1 p.rest.length) next p = true ↔
      next p = true ∨ run r (fun q => q.rest.length < p.rest.length && next q) p = true := by
    cases hrest : p.rest with
    | nil =>
      -- without characters left there is no round, and `r` could not take any
      rw [List.length_nil, Nat.min_zero, repeatWhileMoving]
      refine ⟨Or.inl, fun h => h.resolve_right ?_⟩
      intro hrun
      obtain ⟨taken, after, hsplit, htakes, -⟩ := (hr _ p).mp hrun
      rw [hrest] at hsplit
      obtain ⟨rfl, rfl⟩ := List.nil_eq_append_iff.mp hsplit
      exact hne htakes
    | cons c rest =>
      have hone : min 1 (c :: rest).length = 1 := by simp
      rw [hone, repeatWhileMoving, Bool.or_eq_true, hrest]
      rfl
  rw [honce, hr]
  constructor
  · rintro (hnext | ⟨taken, after, hsplit, htakes, hnext⟩)
    · exact ⟨[], p.rest, rfl, Or.inl rfl, hnext⟩
    · rw [Bool.and_eq_true] at hnext
      exact ⟨taken, after, hsplit, Or.inr htakes, hnext.2⟩
  · rintro ⟨taken, after, hsplit, rfl | htakes, hnext⟩
    · rw [List.nil_append] at hsplit
      exact Or.inl (by rwa [← hsplit] at hnext)
    · refine Or.inr ⟨taken, after, hsplit, htakes, ?_⟩
      have hpos : 0 < taken.length := List.length_pos_iff.mpr fun h => hne (h ▸ htakes)
      rw [Bool.and_eq_true, decide_eq_true_eq, hsplit, List.length_append, Cursor.past_rest]
      exact ⟨by omega, hnext⟩

/-- An expression is found in a text exactly if it can be followed from one of the places of the
text. -/
theorem search_iff (r : Regex) (t : Text) :
    r.search t = true ↔ ∃ front back, t = front ++ back ∧
      run r (fun _ => true) ⟨front.reverse, back⟩ = true := by
  rw [search, List.any_eq_true]
  constructor
  · rintro ⟨p, hp, hrun⟩
    obtain ⟨front, back, rfl, rfl⟩ := Cursor.mem_onwards.mp hp
    exact ⟨front, back, rfl, by rwa [List.append_nil] at hrun⟩
  · rintro ⟨front, back, rfl, hrun⟩
    exact ⟨⟨front.reverse, back⟩, Cursor.mem_onwards.mpr ⟨front, back, rfl, by simp⟩, hrun⟩

end Regex

end TreeSieve

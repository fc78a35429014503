import Mathlib.Data.List.TakeWhile
import TreeSieve.Proofs.Path.Rooted
import TreeSieve.Proofs.Pattern.Matching

/-!
# Patterns along names

A pattern without brackets takes slashes only where it has them, so that its segments are laid
against the names of a path one by one.

* `Segment.Fits` tells what a segment takes; `Segment.Fits.slash_not_mem` says that this holds no
  slash if the segment is plain.
* `Glob.Matches.extend` says that a pattern which matches a directory matches everything below it.
* `Glob.fits_of_takeAll` reads off the names that the first segments fit, and
  `Glob.takeAll_of_fits` lays segments along names that they fit.
-/

namespace TreeSieve

/-! ### Names with a slash behind each -/

/-- Names with a slash behind each, as the names of directories are matched. -/
def Path.reach (names : List Text) : Text := names.flatMap (· ++ ['/'])

@[simp] theorem Path.reach_nil : Path.reach [] = [] := rfl

@[simp] theorem Path.reach_cons (name : Text) (names : List Text) :
    Path.reach (name :: names) = name ++ '/' :: Path.reach names := by
  simp [Path.reach]

theorem Path.reach_append (names more : List Text) :
    Path.reach (names ++ more) = Path.reach names ++ Path.reach more :=
  List.flatMap_append

/-- Names with a slash behind each, if there are any, are the names joined by slashes and one slash
more. -/
theorem Path.reach_eq_joinWith {names : List Text} (h : names ≠ []) :
    Path.reach names = Text.joinWith '/' names ++ ['/'] := by
  induction names with
  | nil => exact absurd rfl h
  | cons name rest ih =>
    cases rest with
    | nil => rw [Path.reach_cons, Path.reach_nil, Text.joinWith]
    | cons next more =>
      rw [Path.reach_cons, ih (List.cons_ne_nil next more), Text.joinWith, List.append_assoc,
        List.cons_append]

/-! ### Segments -/

/-- What pieces in a row take. -/
def Piece.TakeAll : List Piece → Text → Prop
  | [], taken => taken = []
  | p :: pieces, taken => ∃ first rest, taken = first ++ rest ∧ p.Takes first ∧ TakeAll pieces rest

/-- A piece that takes no slash. -/
def Piece.IsPlain : Piece → Prop
  | literal c => c ≠ '/'
  | anyRun => True
  | anyOne => True
  | oneOf _ _ => False

theorem Piece.Takes.slash_not_mem {p : Piece} {taken : Text} (h : p.Takes taken)
    (hp : p.IsPlain) : '/' ∉ taken := by
  cases p with
  | literal c =>
    rw [show taken = [c] from h, List.mem_singleton]
    exact fun e => hp e.symm
  | anyRun => exact h
  | anyOne =>
    obtain ⟨c, hc, rfl⟩ := h
    rw [List.mem_singleton]
    exact fun e => hc e.symm
  | oneOf negated body => exact hp.elim

namespace Segment

/-- What a segment takes: a run of characters for a component, or a slash for any depth. -/
def Fits : Segment → Text → Prop
  | anyDepth, taken => taken = ['/']
  | anyName, taken => taken ≠ [] ∧ '/' ∉ taken
  | shape pieces, taken => Piece.TakeAll pieces taken

/-- A segment none of whose pieces takes a slash. -/
def IsPlain : Segment → Prop
  | shape pieces => ∀ p ∈ pieces, p.IsPlain
  | _ => True

/-- What the parts of a segment take does not depend on what stands around it. -/
theorem takeAll_parts {s : Segment} {before taken after : Text} :
    GlobPart.TakeAll s.parts before taken after ↔ s.Fits taken := by
  have hone : ∀ part : GlobPart, GlobPart.TakeAll [part] before taken after ↔
      part.Takes before taken after := by
    intro part
    constructor
    · rintro ⟨first, rest, rfl, hfirst, rfl⟩
      rwa [List.append_nil]
    · intro h
      exact ⟨taken, [], (List.append_nil taken).symm, h, rfl⟩
  cases s with
  | anyDepth => exact hone .slash
  | anyName => exact hone .name
  | shape pieces =>
    rw [parts, Fits]
    clear hone
    induction pieces generalizing before taken with
    | nil => exact Iff.rfl
    | cons p pieces ih =>
      rw [List.map_cons, GlobPart.TakeAll, Piece.TakeAll]
      simp only [ih]
      exact Iff.rfl

theorem Fits.slash_not_mem {s : Segment} {taken : Text} (h : s.Fits taken) (hs : s.IsPlain)
    (hne : s ≠ anyDepth) : '/' ∉ taken := by
  cases s with
  | anyDepth => exact absurd rfl hne
  | anyName => exact h.2
  | shape pieces =>
    rw [Fits] at h
    clear hne
    replace hs : ∀ p ∈ pieces, p.IsPlain := hs
    induction pieces generalizing taken with
    | nil =>
      rw [show taken = [] from h]
      exact List.not_mem_nil
    | cons p pieces ih =>
      obtain ⟨first, rest, rfl, hfirst, hrest⟩ := h
      rw [List.mem_append, not_or]
      refine ⟨hfirst.slash_not_mem (hs p List.mem_cons_self), ih hrest ?_⟩
      exact fun q hq => hs q (List.mem_cons_of_mem p hq)

/-- A plain segment that fits no characters at all fits every name. -/
theorem Fits.of_nil {s : Segment} (h : s.Fits []) (hs : s.IsPlain) (hlast : s ≠ shape [])
    {name : Text} (hname : '/' ∉ name) : s.Fits name := by
  cases s with
  | anyDepth => exact nomatch (show ([] : Text) = ['/'] from h)
  | anyName => exact absurd rfl h.1
  | shape pieces =>
    have htail : ∀ {pieces : List Piece}, Piece.TakeAll pieces [] → (∀ p ∈ pieces, p.IsPlain) →
        ∀ p ∈ pieces, p = .anyRun := by
      intro pieces
      induction pieces with
      | nil => exact fun _ _ p hp => nomatch hp
      | cons p pieces ih =>
        rintro ⟨first, rest, hsplit, hfirst, hrest⟩ hplain
        obtain ⟨rfl, rfl⟩ := List.nil_eq_append_iff.mp hsplit
        have hp : p = .anyRun := by
          cases p with
          | literal c => exact nomatch (show ([] : Text) = [c] from hfirst)
          | anyRun => rfl
          | anyOne =>
            obtain ⟨c, -, hc⟩ := hfirst
            exact nomatch hc
          | oneOf negated body => exact (hplain _ List.mem_cons_self).elim
        intro q hq
        rcases List.mem_cons.mp hq with rfl | hq
        · exact hp
        · exact ih hrest (fun p hp => hplain p (List.mem_cons_of_mem _ hp)) q hq
    cases pieces with
    | nil => exact absurd rfl hlast
    | cons p pieces =>
      have hp : p = .anyRun := htail h hs p List.mem_cons_self
      subst hp
      obtain ⟨first, rest, hsplit, -, hrest⟩ := h
      obtain ⟨rfl, rfl⟩ := List.nil_eq_append_iff.mp hsplit
      exact ⟨name, [], (List.append_nil name).symm, hname, hrest⟩

end Segment

/-! ### The parts of segments -/

/-- Whether a part asks what stands behind it. -/
def GlobPart.LooksAhead : GlobPart → Prop
  | nameEnd => True
  | slashOrEnd => True
  | _ => False

theorem GlobPart.Takes.of_after {part : GlobPart} (hp : ¬part.LooksAhead)
    {before taken after : Text} (h : part.Takes before taken after) (after' : Text) :
    part.Takes before taken after' := by
  cases part with
  | nameEnd => exact absurd trivial hp
  | slashOrEnd => exact absurd trivial hp
  | _ => exact h

theorem GlobPart.TakeAll.of_after {parts : List GlobPart} (hp : ∀ part ∈ parts, ¬part.LooksAhead)
    {before taken after : Text} (h : TakeAll parts before taken after) (after' : Text) :
    TakeAll parts before taken after' := by
  induction parts generalizing before taken with
  | nil => exact h
  | cons part parts ih =>
    obtain ⟨first, rest, rfl, hfirst, hrest⟩ := h
    exact ⟨first, rest, rfl, hfirst.of_after (hp part List.mem_cons_self) _,
      ih (fun q hq => hp q (List.mem_cons_of_mem part hq)) hrest⟩

theorem Segment.not_looksAhead {s : Segment} : ∀ part ∈ s.parts, ¬part.LooksAhead := by
  cases s with
  | anyDepth =>
    intro part hp
    rw [List.mem_singleton.mp hp]
    exact id
  | anyName =>
    intro part hp
    rw [List.mem_singleton.mp hp]
    exact id
  | shape pieces =>
    intro part hp
    obtain ⟨p, -, rfl⟩ := List.mem_map.mp hp
    exact id

namespace Glob

variable {kind : GlobKind} {afterName : Bool}

theorem partsAfter_anyDepth {segments : List Segment} (h : segments ≠ []) :
    partsAfter kind afterName (.anyDepth :: segments)
      = .parents :: partsAfter kind true segments := by
  rw [partsAfter]
  exact h

theorem partsAfter_single {s : Segment} (h : s ≠ .anyDepth) :
    partsAfter kind afterName [s]
      = (if afterName then [.slash] else []) ++ s.parts ++ [ending kind s] := by
  rw [partsAfter]
  exact h

theorem partsAfter_cons {s : Segment} (h : s ≠ .anyDepth) {segments : List Segment}
    (hne : segments ≠ []) :
    partsAfter kind afterName (s :: segments)
      = (if afterName then [.slash] else []) ++ s.parts ++ partsAfter kind true segments := by
  rw [partsAfter]
  · exact fun hs _ => h hs
  · exact h
  · exact hne

/-- Behind a name, a segment for a component comes after a slash. -/
theorem partsAfter_true {s : Segment} (h : s ≠ .anyDepth) (segments : List Segment) :
    partsAfter kind true (s :: segments) = .slash :: partsAfter kind false (s :: segments) := by
  rcases eq_or_ne segments [] with rfl | hne
  · rw [partsAfter_single h, partsAfter_single h]
    rfl
  · rw [partsAfter_cons h hne, partsAfter_cons h hne]
    rfl

/-- What segments take behind a name begins with a slash. -/
theorem slash_of_takeAll {segments : List Segment} (hne : segments ≠ []) :
    ∀ {before taken after : Text},
      GlobPart.TakeAll (partsAfter kind true segments) before taken after →
        ∃ more, taken = '/' :: more := by
  have hslash : ∀ {parts : List GlobPart} {before taken after : Text},
      GlobPart.TakeAll (.slash :: parts) before taken after → ∃ more, taken = '/' :: more := by
    rintro parts before taken after ⟨first, rest, rfl, rfl, -⟩
    exact ⟨rest, rfl⟩
  induction segments with
  | nil => intro _ _ _ _; exact absurd rfl hne
  | cons s segments ih =>
    intro before taken after h
    by_cases hs : s = .anyDepth
    · subst hs
      rcases eq_or_ne segments [] with rfl | hsegs
      · exact hslash h
      · rw [partsAfter_anyDepth hsegs] at h
        obtain ⟨first, rest, rfl, hfirst, hrest⟩ := h
        rcases hfirst with rfl | ⟨above, -, -, rfl⟩
        · exact ih hsegs hrest
        · exact ⟨above ++ rest, rfl⟩
    · rw [partsAfter_true hs] at h
      exact hslash h

/-- Parts of which at most the last one asks what stands behind it, and then comes behind the last
of the given segments. -/
def EndWith (parts : List GlobPart) (segments : List Segment) : Prop :=
  (∀ part ∈ parts, ¬part.LooksAhead) ∨ ∃ front last, segments.getLast? = some last ∧
    last ≠ .anyDepth ∧ (∀ part ∈ front, ¬part.LooksAhead) ∧
    parts = front ++ (last.parts ++ [.nameEnd])

theorem EndWith.prepend {parts : List GlobPart} {segments : List Segment}
    (h : EndWith parts segments) {front : List GlobPart} (hfront : ∀ part ∈ front, ¬part.LooksAhead)
    (skipped : List Segment) : EndWith (front ++ parts) (skipped ++ segments) := by
  have happend : ∀ {more : List GlobPart}, (∀ part ∈ more, ¬part.LooksAhead) →
      ∀ part ∈ front ++ more, ¬part.LooksAhead := by
    intro more hmore part hp
    rcases List.mem_append.mp hp with hp | hp
    · exact hfront part hp
    · exact hmore part hp
  rcases h with hnone | ⟨middle, last, hlast, hdepth, hmiddle, rfl⟩
  · exact Or.inl (happend hnone)
  · refine Or.inr ⟨front ++ middle, last, ?_, hdepth, happend hmiddle, ?_⟩
    · rw [List.getLast?_append, hlast]
      rfl
    · rw [List.append_assoc]

theorem partsAfter_endWith (segments : List Segment) (afterName : Bool) :
    EndWith (partsAfter .ignoring afterName segments) segments := by
  have hone : ∀ part : GlobPart, ¬part.LooksAhead → ∀ other ∈ [part], ¬other.LooksAhead :=
    fun part hp other ho => List.mem_singleton.mp ho ▸ hp
  have hname : ∀ (b : Bool) (s : Segment),
      ∀ part ∈ (if b then [GlobPart.slash] else []) ++ s.parts, ¬part.LooksAhead := by
    intro b s part hp
    rcases List.mem_append.mp hp with hp | hp
    · cases b with
      | false => exact nomatch hp
      | true => exact hone .slash id part hp
    · exact Segment.not_looksAhead part hp
  induction segments generalizing afterName with
  | nil => exact Or.inl fun part hp => nomatch hp
  | cons s segments ih =>
    by_cases hs : s = .anyDepth
    · subst hs
      rcases eq_or_ne segments [] with rfl | hne
      · exact Or.inl (hone .slash id)
      · rw [partsAfter_anyDepth hne]
        exact (ih true).prepend (hone .parents id) [.anyDepth]
    · rcases eq_or_ne segments [] with rfl | hne
      · rw [partsAfter_single hs, List.append_assoc]
        refine Or.inr ⟨_, s, rfl, hs, ?_, rfl⟩
        exact fun part hp => hname afterName s part (List.mem_append_left _ hp)
      · rw [partsAfter_cons hs hne]
        exact (ih true).prepend (hname afterName s) [s]

theorem parts_endWith (g : Glob) : EndWith (g.parts .ignoring) g.segments := by
  have hone : ∀ part : GlobPart, ¬part.LooksAhead → ∀ other ∈ [part], ¬other.LooksAhead :=
    fun part hp other ho => List.mem_singleton.mp ho ▸ hp
  unfold parts
  split
  · split
    · exact Or.inl (hone .slash id)
    · exact Or.inl (hone .anything id)
  · exact Or.inl (hone .anything id)
  · exact Or.inl (hone .slash id)
  · rename_i rest _ _ _ hsegments
    rw [hsegments]
    exact (partsAfter_endWith rest false).prepend (hone .parentsFromStart id) [.anyDepth]
  · exact (partsAfter_endWith g.segments false).prepend (hone .start id) []

theorem parts_of_head {s : Segment} (h : s ≠ .anyDepth) {segments : List Segment}
    {directory : Bool} :
    parts kind ⟨s :: segments, directory⟩ = .start :: partsAfter kind false (s :: segments) := by
  cases s with
  | anyDepth => exact absurd rfl h
  | anyName => rfl
  | shape pieces => rfl

/-- A pattern without brackets whose last segment is not empty. -/
structure IsPlain (g : Glob) : Prop where
  segments : ∀ s ∈ g.segments, s.IsPlain
  last : g.segments.getLast? ≠ some (.shape [])

/-- What is taken by parts that end with a segment and the end of a name. -/
theorem takeAll_named {parts : List GlobPart} {s : Segment} {before taken after : Text} :
    GlobPart.TakeAll (parts ++ (s.parts ++ [.nameEnd])) before taken after ↔
      ∃ inner name ending, taken = inner ++ (name ++ ending) ∧
        GlobPart.TakeAll parts before inner (name ++ ending ++ after) ∧ s.Fits name ∧
        GlobPart.nameEnd.Takes [] ending after := by
  rw [GlobPart.takeAll_append]
  constructor
  · rintro ⟨inner, back, rfl, hinner, hback⟩
    obtain ⟨name, ending, rfl, hname, ending', rest, hsplit, hending, rfl⟩ :=
      GlobPart.takeAll_append.mp hback
    rw [List.append_nil] at hsplit
    subst hsplit
    exact ⟨inner, name, ending, rfl, hinner, Segment.takeAll_parts.mp hname, hending⟩
  · rintro ⟨inner, name, ending, rfl, hinner, hname, hending⟩
    refine ⟨inner, name ++ ending, rfl, hinner, GlobPart.takeAll_append.mpr ?_⟩
    exact ⟨name, ending, rfl, Segment.takeAll_parts.mpr hname, ending, [],
      (List.append_nil ending).symm, hending, rfl⟩

/-- Every text begins with a name, behind which a slash stands or the text ends. -/
theorem exists_nameEnd (text : Text) : ∃ name ending after, text = name ++ ending ++ after ∧
    '/' ∉ name ∧ GlobPart.nameEnd.Takes [] ending after := by
  have hname : '/' ∉ text.takeWhile (· != '/') := by
    intro hmem
    simpa using List.mem_takeWhile_imp hmem
  have hsplit := List.takeWhile_append_dropWhile (p := (· != '/')) (l := text)
  cases hdrop : text.dropWhile (· != '/') with
  | nil =>
    rw [hdrop] at hsplit
    exact ⟨_, [], [], by simpa using hsplit.symm, hname, Or.inr ⟨rfl, Or.inl rfl⟩⟩
  | cons c after =>
    obtain rfl : c = '/' := by
      have hhead := List.head?_dropWhile_not (· != '/') text
      rw [hdrop] at hhead
      simpa using hhead
    rw [hdrop] at hsplit
    exact ⟨_, ['/'], after, by simpa using hsplit.symm, hname, Or.inl rfl⟩

/-- In front of the last end of a text that ends in a slash, nothing without slashes is left. -/
theorem eq_nil_of_lastLineEnd {t front name after : Text} (hname : '/' ∉ name)
    (hend : AtLastLineEnd after) (h : t ++ ['/'] = front ++ name ++ after) :
    name = [] ∧ after = [] := by
  have hlast := congrArg List.getLast? h
  rcases hend with rfl | rfl
  · refine ⟨?_, rfl⟩
    rcases List.eq_nil_or_concat name with rfl | ⟨shorter, c, rfl⟩
    · rfl
    · simp at hlast
      simp [← hlast] at hname
  · simp at hlast

/-- A pattern that matches a directory matches everything below it. -/
theorem Matches.extend {g : Glob} (hg : g.IsPlain) {t : Text}
    (h : g.Matches .ignoring (t ++ ['/'])) (rest : Text) :
    g.Matches .ignoring (t ++ '/' :: rest) := by
  obtain ⟨front, taken, after, hsplit, htaken⟩ := h
  rcases g.parts_endWith with hnone | ⟨parts, last, hlast, hdepth, hparts, hall⟩
  · refine ⟨front, taken, after ++ rest, ?_, htaken.of_after hnone _⟩
    have hlong := congrArg (· ++ rest) hsplit
    simpa using hlong
  · have hplain : last.IsPlain := hg.segments last (List.mem_of_getLast? hlast)
    rw [hall, takeAll_named] at htaken
    obtain ⟨inner, name, ending, rfl, hinner, hname, hending⟩ := htaken
    have hbuild : ∀ (name' ending' after' : Text), last.Fits name' →
        GlobPart.nameEnd.Takes [] ending' after' →
        t ++ '/' :: rest = front ++ (inner ++ (name' ++ ending') ++ after') →
        g.Matches .ignoring (t ++ '/' :: rest) := by
      intro name' ending' after' hname' hending' hsplit'
      refine ⟨front, _, after', hsplit', ?_⟩
      rw [hall, takeAll_named]
      exact ⟨inner, name', ending', rfl, hinner.of_after hparts _, hname', hending'⟩
    rcases hending with rfl | ⟨rfl, hend⟩
    · have hlong := congrArg (· ++ rest) hsplit
      exact hbuild name ['/'] (after ++ rest) hname (Or.inl rfl) (by simpa using hlong)
    · -- the text ends in a slash, so that the last segment has taken nothing at its end, and can
      -- take the next name instead
      obtain ⟨rfl, rfl⟩ := eq_nil_of_lastLineEnd (hname.slash_not_mem hplain hdepth) hend
        (by simpa using hsplit : t ++ ['/'] = front ++ inner ++ name ++ after)
      obtain ⟨next, ending, more, rfl, hnext, hending⟩ := exists_nameEnd rest
      have hfit := hname.of_nil hplain (fun e => hg.last (e ▸ hlast)) hnext
      have hlong := congrArg (· ++ (next ++ ending ++ more)) hsplit
      exact hbuild next ending more hfit hending (by simpa using hlong)

/-! ### Segments along names -/

/-- If a name with a slash behind it begins with what a segment has taken, up to the end of a name,
then the segment has taken the name. -/
theorem eq_of_nameEnd {name taken rest ending after : Text} (ht : '/' ∉ taken) (hn : '/' ∉ name)
    (hending : GlobPart.nameEnd.Takes [] ending after)
    (h : name ++ '/' :: rest = taken ++ (ending ++ after)) : taken = name := by
  rcases hending with rfl | ⟨rfl, hend⟩
  · exact (Path.eq_of_append_slash ht hn h.symm).1
  · -- the slash can neither lie in what is taken nor behind it
    exfalso
    have hmem : '/' ∈ taken ++ ([] ++ after) := by
      rw [← h]
      simp
    rcases List.mem_append.mp hmem with hmem | hmem
    · exact ht hmem
    · rcases hend with rfl | rfl <;> simp at hmem

/-- The first names of a path fit the first segments of a pattern that takes it from its start, as
far as these stand for one component each. -/
theorem fits_of_takeAll {rest after : Text} (count : Nat) :
    ∀ {segments : List Segment} {names : List Text} {before taken : Text},
      (∀ s ∈ segments, s.IsPlain) → (∀ name ∈ names, '/' ∉ name) →
      Path.reach names ++ rest = taken ++ after →
      GlobPart.TakeAll (partsAfter .ignoring false segments) before taken after →
      count ≤ segments.length → count ≤ names.length →
      (∀ s ∈ segments.take count, s ≠ .anyDepth) →
      List.Forall₂ Segment.Fits (segments.take count) (names.take count) := by
  induction count with
  | zero =>
    intro segments names before taken _ _ _ _ _ _ _
    rw [List.take_zero, List.take_zero]
    exact List.Forall₂.nil
  | succ count ih =>
    intro segments names before taken hplain hnames htext htaken hsegs hcount hdepth
    cases segments with
    | nil => exact absurd hsegs (Nat.not_succ_le_zero count)
    | cons s segments =>
    cases names with
    | nil => exact absurd hcount (Nat.not_succ_le_zero count)
    | cons name names =>
    have hs : s ≠ .anyDepth := hdepth s (by simp)
    have hname : '/' ∉ name := hnames name List.mem_cons_self
    have hnotMem : ∀ {x : Text}, s.Fits x → '/' ∉ x :=
      fun hx => hx.slash_not_mem (hplain s List.mem_cons_self) hs
    rw [List.take_succ_cons, List.take_succ_cons]
    rw [Path.reach_cons, List.append_assoc, List.cons_append] at htext
    rcases eq_or_ne segments [] with rfl | hne
    · obtain rfl : count = 0 := by simpa using hsegs
      rw [partsAfter_single hs] at htaken
      rw [if_neg Bool.false_ne_true, List.append_assoc] at htaken
      obtain ⟨inner, x, ending, rfl, rfl, hx, hending⟩ := takeAll_named.mp htaken
      rw [List.nil_append, List.append_assoc] at htext
      rw [← eq_of_nameEnd (hnotMem hx) hname hending htext]
      exact List.Forall₂.cons hx List.Forall₂.nil
    · rw [partsAfter_cons hs hne] at htaken
      obtain ⟨x, back, rfl, hx, hback⟩ := GlobPart.takeAll_append.mp htaken
      replace hx : s.Fits x := Segment.takeAll_parts.mp hx
      obtain ⟨more, rfl⟩ := slash_of_takeAll hne hback
      rw [List.append_assoc, List.cons_append] at htext
      obtain ⟨rfl, hmore⟩ := Path.eq_of_append_slash hname (hnotMem hx) htext
      refine List.Forall₂.cons hx ?_
      cases count with
      | zero =>
        rw [List.take_zero, List.take_zero]
        exact List.Forall₂.nil
      | succ count =>
        obtain ⟨next, segments, rfl⟩ := List.exists_cons_of_ne_nil hne
        have hnext : next ≠ .anyDepth := hdepth next (by simp)
        rw [partsAfter_true hnext] at hback
        obtain ⟨first, back, hsplit, rfl, hback⟩ := hback
        obtain rfl : more = back := (List.cons.inj hsplit).2
        refine ih (fun q hq => hplain q (List.mem_cons_of_mem s hq))
          (fun q hq => hnames q (List.mem_cons_of_mem name hq)) hmore hback ?_ ?_ ?_
        · exact Nat.le_of_succ_le_succ hsegs
        · exact Nat.le_of_succ_le_succ hcount
        · exact fun q hq => hdepth q (List.mem_cons_of_mem s hq)

/-- Segments take names that they fit, with a slash behind each, and so they do in front of a last
segment for any depth. -/
theorem takeAll_of_fits {segments : List Segment} {names : List Text}
    (h : List.Forall₂ Segment.Fits segments names) :
    segments ≠ [] → (∀ s ∈ segments, s ≠ .anyDepth) → ∀ before after : Text,
      GlobPart.TakeAll (partsAfter .ignoring false segments) before (Path.reach names) after ∧
      GlobPart.TakeAll (partsAfter .ignoring false (segments ++ [.anyDepth])) before
        (Path.reach names) after := by
  induction h with
  | nil => exact fun hne => absurd rfl hne
  | cons hx hrest ih =>
    rename_i s name segments names
    intro _ hdepth before after
    have hs : s ≠ .anyDepth := hdepth s List.mem_cons_self
    have hparts : ∀ {before after : Text}, GlobPart.TakeAll s.parts before name after :=
      Segment.takeAll_parts.mpr hx
    have hslash : ∀ {more : List GlobPart} {before rest after : Text},
        GlobPart.TakeAll more ('/' :: before) rest after →
          GlobPart.TakeAll (.slash :: more) before ('/' :: rest) after :=
      fun h => ⟨['/'], _, rfl, rfl, h⟩
    rw [Path.reach_cons]
    rcases eq_or_ne segments [] with rfl | hne
    · cases hrest
      rw [partsAfter_single hs, List.cons_append, List.nil_append, partsAfter_cons hs (by simp)]
      refine ⟨GlobPart.takeAll_append.mpr ⟨name, ['/'], rfl, hparts, ?_⟩,
        GlobPart.takeAll_append.mpr ⟨name, ['/'], rfl, hparts, ?_⟩⟩
      · exact ⟨['/'], [], rfl, Or.inl rfl, rfl⟩
      · exact hslash rfl
    · obtain ⟨next, segments, rfl⟩ := List.exists_cons_of_ne_nil hne
      have hnext : next ≠ .anyDepth := hdepth next (by simp)
      rw [partsAfter_cons hs hne, List.cons_append, partsAfter_cons hs (by simp),
        List.cons_append, partsAfter_true hnext, partsAfter_true hnext, ← List.cons_append]
      have hboth := ih hne fun q hq => hdepth q (List.mem_cons_of_mem s hq)
      refine ⟨GlobPart.takeAll_append.mpr ⟨name, _, rfl, hparts, hslash ?_⟩,
        GlobPart.takeAll_append.mpr ⟨name, _, rfl, hparts, hslash ?_⟩⟩
      · exact (hboth _ after).1
      · exact (hboth _ after).2

end Glob

end TreeSieve

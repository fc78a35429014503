import TreeSieve.Proofs.Walk.Schedule

/-!
# A limit on the depth

A directory at the limit is given out instead of being opened, and what lies below it is not looked
at. Nothing above the limit is decided by what lies below it.

* `Traversal.withDepth` sets a limit; `Traversal.sight_withDepth_of_ne` and
  `Traversal.sight_deepest` say what is seen then.
* `Walk.entries_withDepth` says what a walk gives out.
-/

namespace TreeSieve

/-- Whether an entry lies above a depth, or at it and is no directory. -/
def Entry.isWithin (limit : Nat) (e : Entry) : Bool :=
  e.depth < limit || (e.depth == limit && !e.stats.isDirectory)

namespace Traversal

variable {t : Traversal} {rules : List Rule} {item : Candidate} {place : Place} {limit : Nat}

/-- The same traversal with the given depth limit. -/
def withDepth (t : Traversal) (limit : Nat) : Traversal :=
  { t with options := { t.options with maxDepth := some limit } }

theorem rootPlace_withDepth (t : Traversal) (limit : Nat) (stats : FileStats) :
    (t.withDepth limit).rootPlace stats = t.rootPlace stats := rfl

theorem withDepth_mk (fs : FileSystem Id) (root : Path) (options : Walk.Options) (limit : Nat) :
    withDepth ⟨fs, root, options⟩ limit
      = ⟨fs, root, { options with maxDepth := some limit }⟩ := rfl

/-- With a depth limit, the same is seen at each entry that does not lie at the limit. -/
theorem sight_withDepth_of_ne (hdepth : t.options.maxDepth = none) (hne : item.depth ≠ limit) :
    (t.withDepth limit).sight rules item = t.sight rules item := by
  have hresolve : (t.withDepth limit).resolve item = t.resolve item := rfl
  have hown : (t.withDepth limit).realPathOf item = t.realPathOf item := rfl
  have hoffer : (t.withDepth limit).offer = t.offer := rfl
  have hdirectory : ∀ stats real, (t.withDepth limit).sightOfDirectory rules item stats real
      = t.sightOfDirectory rules item stats real := by
    intro stats real
    have hlimit : ((t.withDepth limit).options.maxDepth == some item.depth) = false :=
      beq_eq_false_iff_ne.mpr fun h => hne (Option.some.inj h).symm
    have hnone : (t.options.maxDepth == some item.depth) = false := by rw [hdepth]; rfl
    unfold sightOfDirectory
    simp only [hlimit, hnone]
    rfl
  unfold sight
  simp only [hresolve, hown, hoffer, hdirectory]

theorem depth_eq_zero_of_unreal {e : FileError} (h : t.realPathOf item = .error e) :
    item.depth = 0 := by
  rw [realPathOf] at h
  split at h
  · assumption
  · cases h

/-- At the limit an entry is given out unless it is ignored, be it a directory or not. -/
theorem sight_deepest (hlimit : item.depth = limit) :
    (t.withDepth limit).sight rules item
      = ⟨t.offer rules item (t.resolve item).stats (t.resolve item).stats.isDirectory, [], []⟩ := by
  have hresolve : (t.withDepth limit).resolve item = t.resolve item := rfl
  have hown : (t.withDepth limit).realPathOf item = t.realPathOf item := rfl
  have hoffer : (t.withDepth limit).offer = t.offer := rfl
  have hdirectory : ∀ stats real, (t.withDepth limit).sightOfDirectory rules item stats real
      = ⟨t.offer rules item stats true, [], []⟩ := by
    intro stats real
    have hdeepest : ((t.withDepth limit).options.maxDepth == some item.depth) = true := by
      rw [hlimit]
      exact beq_self_eq_true _
    unfold sightOfDirectory
    simp only [hdeepest, if_true, hoffer]
  unfold sight
  simp only [hresolve, hown, hoffer, hdirectory]
  split
  · rename_i hdir
    rw [hdir]
    split
    · rfl
    · split
      · rename_i hunreal
        -- only the root has no real path, and it is never given out
        have hdepth := depth_eq_zero_of_unreal hunreal
        rw [offer]
        simp [hdepth]
      · rfl
  · rename_i hdir
    rw [Bool.not_eq_true] at hdir
    rw [hdir]

/-- At the limit an entry below the root is given out unless it is ignored. -/
theorem mem_look_deepest (hlimit : place.item.depth = limit) {e : Entry} :
    e ∈ ((t.withDepth limit).look place).1 ↔ e = t.found place.item ∧ e.names ≠ [] ∧
      listIgnores place.rules (canonical e.fullPath) e.stats.isDirectory = false := by
  rw [look, sight_deepest hlimit]
  simp only
  rw [t.mem_offer]
  constructor
  · rintro ⟨rfl, hkept⟩
    exact ⟨rfl, hkept⟩
  · rintro ⟨rfl, hkept⟩
    exact ⟨rfl, hkept⟩

/-- If directories at the limit are left out then the same is given out there with the limit and
without. -/
theorem given_deepest {keep : Entry → Bool} (hlimit : item.depth = limit)
    (hkeep : ∀ e, e.depth = limit → e.stats.isDirectory = true → keep e = false) :
    ((t.withDepth limit).sight rules item).given.filter keep
      = (t.sight rules item).given.filter keep := by
  cases hdirectory : (t.resolve item).stats.isDirectory with
  | true =>
    have hnone : ∀ given : List Entry, (∀ e ∈ given, e = t.found item) →
        given.filter keep = [] := by
      intro given hgiven
      rw [List.filter_eq_nil_iff]
      intro e he
      rw [hgiven e he, hkeep (t.found item) hlimit hdirectory]
      exact Bool.false_ne_true
    rw [hnone _ fun e he => t.eq_found_of_mem he, hnone]
    intro e he
    rw [sight_deepest hlimit] at he
    exact (t.mem_offer.mp he).1
  | false =>
    rw [sight_deepest hlimit, hdirectory]
    unfold sight
    simp only [hdirectory, Bool.false_eq_true, if_false]

/-- A traversal with a depth limit leads from a place to no other places than the one without. -/
theorem look_withDepth_subset (hdepth : t.options.maxDepth = none) :
    ((t.withDepth limit).look place).2 ⊆ (t.look place).2 := by
  by_cases hlimit : place.item.depth = limit
  · rw [look, sight_deepest hlimit]
    exact List.nil_subset _
  · rw [look, look, sight_withDepth_of_ne hdepth hlimit]
    exact List.Subset.refl _

theorem reaches_withDepth_iff (hdepth : t.options.maxDepth = none) {first : Place}
    (hle : place.item.depth ≤ limit) :
    Reaches (t.withDepth limit).look first place ↔ Reaches t.look first place := by
  constructor
  · intro h
    exact Relation.ReflTransGen.mono (fun x y hy => look_withDepth_subset hdepth hy) _ _ h
  · intro h
    induction h with
    | refl => exact .refl
    | @tail x y _ hy ih =>
      have hbelow := t.depth_below x y hy
      refine (ih (by omega)).tail ?_
      rw [look, sight_withDepth_of_ne hdepth (by omega)]
      exact hy

/-- Recursion that goes down to a depth only finds the same within it. -/
theorem exists_gather_withDepth (limit : Nat) (hdepth : t.options.maxDepth = none) {fuel : Nat}
    {found : List Entry} (h : gather t.look fuel place = some found) :
    ∃ found', gather (t.withDepth limit).look fuel place = some found' ∧
      found.filter (Entry.isWithin limit) = found'.filter (Entry.isWithin limit) := by
  have hdeep : ∀ (t : Traversal) fuel (x : Place), decide (x.item.depth ≤ limit) = false →
      ∀ found, gather t.look fuel x = some found → found.filter (Entry.isWithin limit) = [] := by
    intro t fuel x hx found hfound
    rw [decide_eq_false_iff_not] at hx
    rw [List.filter_eq_nil_iff]
    intro e he
    have hle := le_key_of_gather t.depth_given t.depth_below fuel x found hfound e he
    simp only [Entry.isWithin, Bool.or_eq_true, decide_eq_true_eq, Bool.and_eq_true, beq_iff_eq]
    omega
  refine exists_gather_filter (P := fun _ => True) (Q := fun x => decide (x.item.depth ≤ limit))
    (fun x _ => ?_) (fun x _ => ?_) (fun x _ => look_withDepth_subset hdepth)
    (fun _ _ _ _ => trivial) (hdeep t) (hdeep (t.withDepth limit)) trivial h
  · by_cases hlimit : x.item.depth = limit
    · refine (given_deepest hlimit fun e he hdirectory => ?_).symm
      simp [Entry.isWithin, he, hdirectory]
    · rw [look, look, sight_withDepth_of_ne hdepth hlimit]
  · by_cases hlimit : x.item.depth = limit
    · rw [look, look, sight_deepest hlimit, List.map_nil, List.filter_nil,
        List.filter_eq_nil_iff]
      intro y hy
      have hbelow := t.depth_below x y hy
      rw [decide_eq_true_eq]
      omega
    · rw [look, look, sight_withDepth_of_ne hdepth hlimit]

/-- From a place within a depth limit, recursion with the limit finds nothing below it. -/
theorem depth_le_of_gather {fuel : Nat} {found : List Entry} (hplace : place.item.depth ≤ limit)
    (h : gather (t.withDepth limit).look fuel place = some found) :
    ∀ e ∈ found, e.depth ≤ limit := by
  refine forall_of_gather (Q := fun x => x.item.depth ≤ limit) (fun x hx e he => ?_)
    (fun x hx y hy => ?_) fuel place hplace found h
  · rw [(t.withDepth limit).depth_given x e he]
    exact hx
  · rw [(t.withDepth limit).depth_below x y hy]
    by_cases hlimit : x.item.depth = limit
    · rw [look, sight_deepest hlimit] at hy
      exact absurd hy List.not_mem_nil
    · omega

end Traversal

/-! ### Whole walks -/

namespace Walk

section

variable {fs : FileSystem Id} {root : Path} {options : Walk.Options} {w₀ w₁ : Walk} {limit : Nat}
  (hlist : ∀ path entries, (fs.list path).run = .ok entries → IsListing entries)
  (hroot : root.IsRooted) (hdepth : options.maxDepth = none) (hlimit : options.maxEntries = none)
  (hstart : ((Walk.new root options).start fs).run = (.ok (), w₀))
  (hreal : ∃ real, (fs.realPath root.toText).run = .ok real)
  (hstart' : ((Walk.new root { options with maxDepth := some limit }).start fs).run = (.ok (), w₁))
  (hstats : w₁.rootStats = w₀.rootStats) {answer : Except FileError (List Entry)} {last : Walk}
  (h : Closes fs w₀ answer last)

include hlist hroot hdepth hlimit hstart hreal hstart' hstats h

/-- A walk that goes down to a depth only comes to its end, and gives out the same within it. -/
theorem Closes.exists_withDepth :
    ∃ given given' last', answer = .ok given ∧ Closes fs w₁ (.ok given') last' ∧
      given.filter (Entry.isWithin limit) = given'.filter (Entry.isWithin limit) ∧
      ∀ e ∈ given', e.depth ≤ limit := by
  obtain ⟨fuel, found, hfound, rfl⟩ := h.exists_gather hlist hroot hlimit hstart hreal
  obtain ⟨found', hfound', hsame⟩ := Traversal.exists_gather_withDepth limit hdepth hfound
  have hle := Traversal.depth_le_of_gather (Nat.zero_le limit) hfound'
  rw [← Traversal.rootPlace_withDepth _ limit, Traversal.withDepth_mk, ← hstats] at hfound'
  have hlimit' : ({ options with maxDepth := some limit } : Walk.Options).maxEntries = none :=
    hlimit
  obtain ⟨last', hlast'⟩ := closes_of_gather hlist hroot hlimit' hstart' hreal hfound'
  refine ⟨_, _, last', rfl, hlast', filter_mergeSort_congr Entry.depth hsame, fun e he => ?_⟩
  exact hle e (List.mem_mergeSort.mp he)

/-- At the limit a walk gives out the directories that it comes upon without the limit and that are
not ignored in the end. -/
theorem Closes.mem_deepest_iff {given' : List Entry} {last' : Walk}
    (h' : Closes fs w₁ (.ok given') last') {e : Entry} (hne : e.names ≠ [])
    (he : e.depth = limit) (hdirectory : e.stats.isDirectory = true) :
    e ∈ given' ↔ (∃ steps, (runFor fs steps w₀).run.upNext fs = some e) ∧
      last'.sieve.isIgnored e.fullPath true = false := by
  have hlimit' : ({ options with maxDepth := some limit } : Walk.Options).maxEntries = none :=
    hlimit
  rw [h'.mem_iff hlist hroot hlimit' hstart' hreal,
    h.exists_upNext_iff hlist hroot hlimit hstart hreal hne]
  rw [← Traversal.withDepth_mk, Traversal.rootPlace_withDepth, hstats]
  have hlast : ∀ place, place.item.depth = limit → Reaches
      (Traversal.look (Traversal.withDepth ⟨fs, root, options⟩ limit))
      (Traversal.rootPlace ⟨fs, root, options⟩ w₀.rootStats) place → place.item.names ≠ [] →
      last'.sieve.isIgnored (Traversal.pathOf ⟨fs, root, options⟩ place.item.names) true
        = listIgnores place.rules
          (canonical (Traversal.pathOf ⟨fs, root, options⟩ place.item.names)) true := by
    intro place hplace hreach hne
    rw [← Traversal.rootPlace_withDepth _ limit, Traversal.withDepth_mk, ← hstats] at hreach
    have hsight : (Traversal.withDepth ⟨fs, root, options⟩ limit).sight place.rules place.item
        = _ := Traversal.sight_deepest hplace
    rw [Traversal.withDepth_mk] at hsight
    exact h'.isIgnored_eq hlist hroot hlimit' hstart' hreal hreach hne (by rw [hsight])
      (by rw [hsight]) true
  constructor
  · rintro ⟨place, hreach, hmem⟩
    have hplace : place.item.depth = limit := by
      rw [← Traversal.depth_given _ place e hmem, he]
    obtain ⟨rfl, -, hkept⟩ := (Traversal.mem_look_deepest hplace).mp hmem
    rw [hdirectory] at hkept
    exact ⟨⟨place, (Traversal.reaches_withDepth_iff hdepth hplace.le).mp hreach, rfl⟩,
      (hlast place hplace hreach hne).trans hkept⟩
  · rintro ⟨⟨place, hreach, rfl⟩, hkept⟩
    have hplace : place.item.depth = limit := he
    have hreach' := (Traversal.reaches_withDepth_iff hdepth hplace.le).mpr hreach
    refine ⟨place, hreach', (Traversal.mem_look_deepest hplace).mpr ⟨rfl, hne, ?_⟩⟩
    rw [hdirectory]
    exact (hlast place hplace hreach' hne).symm.trans hkept

end

/-- Lists that have the same entries within a depth have the same ones of any kind that is found
there only. -/
theorem filter_eq_of_isWithin {limit : Nat} {given given' : List Entry} {kind : Entry → Bool}
    (hkind : ∀ e, kind e = true → e.isWithin limit = true)
    (h : given.filter (Entry.isWithin limit) = given'.filter (Entry.isWithin limit)) :
    given'.filter kind = given.filter kind := by
  have hboth : ∀ l : List Entry, l.filter kind = (l.filter (Entry.isWithin limit)).filter kind := by
    intro l
    rw [List.filter_filter]
    refine List.filter_congr fun e _ => ?_
    cases hk : kind e with
    | true => rw [hkind e hk, Bool.and_self]
    | false => rw [Bool.false_and]
  rw [hboth given', ← h, ← hboth given]

/-- **A depth limit cuts off what lies deeper, and nothing else.** Let the files not change, let
listings be made of distinct names, let no entry limit be set, and let a walk without a depth limit
come to its end. With a depth limit the root is accepted as well and the walk comes to its end. It
gives out the same entries above the limit, in the same order, the same ones at the limit that are
no directories, and nothing below it. The directories that it gives out at a limit below the root
are those that the other walk takes from its queue, at any step, and that its own rules do not
ignore in the end. A walk that fails on its root fails as before. -/
theorem entries_withDepth (fs : FileSystem Id)
    (hlist : ∀ path entries, (fs.list path).run = .ok entries → IsListing entries) {current : Path}
    (habs : current.isAbsolute) (hcur : ∀ part ∈ current.parts, Path.IsName part) (root : Text)
    {options : Walk.Options} (hdepth : options.maxDepth = none)
    (hlimit : options.maxEntries = none) {w₀ : Walk}
    (hstart : ((Walk.new (Path.absolute current root) options).start fs).run = (.ok (), w₀))
    {answer : Except FileError (List Entry)} {last : Walk} (hcloses : Closes fs w₀ answer last)
    (limit : Nat) :
    ∃ w₁ answer' last', ((Walk.new (Path.absolute current root)
        { options with maxDepth := some limit }).start fs).run = (.ok (), w₁) ∧
      Closes fs w₁ answer' last' ∧
      answer'.map (List.filter fun e => e.depth < limit)
        = answer.map (List.filter fun e => e.depth < limit) ∧
      answer'.map (List.filter fun e => e.depth = limit && !e.stats.isDirectory)
        = answer.map (List.filter fun e => e.depth = limit && !e.stats.isDirectory) ∧
      ∀ given', answer' = .ok given' → (∀ e ∈ given', e.depth ≤ limit) ∧
        (0 < limit → ∀ e : Entry, e.depth = limit → e.stats.isDirectory = true →
          (e ∈ given' ↔ (∃ steps, (runFor fs steps w₀).run.upNext fs = some e) ∧
            last'.sieve.isIgnored e.fullPath true = false)) := by
  have hroot : (Path.absolute current root).IsRooted := Path.absolute_isRooted habs hcur root
  obtain ⟨stats, hlook, rfl⟩ := start_eq_of_ok hstart
  have hstart' := start_of_lookAtRoot hlook { options with maxDepth := some limit }
  cases hown : (fs.realPath (Path.absolute current root).toText).run with
  | error e =>
    obtain ⟨_, hfails⟩ := closes_of_unreal hlimit hstart hown
    obtain ⟨rfl, -⟩ := hcloses.unique hfails
    have hlimit' : ({ options with maxDepth := some limit } : Walk.Options).maxEntries = none :=
      hlimit
    obtain ⟨last', hfails'⟩ := closes_of_unreal hlimit' hstart' hown
    exact ⟨_, _, last', hstart', hfails', rfl, rfl, fun given' h => nomatch h⟩
  | ok real =>
    obtain ⟨given, given', last', rfl, hcloses', hsame, hdeep⟩ :=
      hcloses.exists_withDepth hlist hroot hdepth hlimit hstart ⟨real, hown⟩ hstart' rfl
    refine ⟨_, _, last', hstart', hcloses', ?_, ?_, fun given'' h => ?_⟩
    · refine congrArg Except.ok (filter_eq_of_isWithin (fun e he => ?_) hsame)
      simp only [Entry.isWithin, he, Bool.true_or]
    · refine congrArg Except.ok (filter_eq_of_isWithin (fun e he => ?_) hsame)
      rw [Bool.and_eq_true, decide_eq_true_eq] at he
      simp only [Entry.isWithin, he.1, he.2, beq_self_eq_true, Bool.and_self, Bool.or_true]
    · obtain rfl := Except.ok.inj h
      refine ⟨hdeep, fun hpos e he hdirectory => ?_⟩
      have hne : e.names ≠ [] := by
        rw [← he, Entry.depth, List.length_pos_iff] at hpos
        exact hpos
      exact hcloses.mem_deepest_iff hlist hroot hdepth hlimit hstart ⟨real, hown⟩ hstart' rfl
        hcloses' hne he hdirectory

/-- A walk down to the first depth gives out the directory there instead of the entries in it. -/
theorem entries_withDepth_nestedFiles :
    let options : Walk.Options := { Walk.Options.plain with maxDepth := some 1 }
    let started := ((Walk.new (Path.absolute Path.rootDirectory (Text.lit "/r")) options).start
      nestedFiles).run
    ∃ given last, started.1 = .ok () ∧ Closes nestedFiles started.2 (.ok given) last ∧
      (given.filter fun e => e.depth = 1 && !e.stats.isDirectory).map Entry.path
        = [Text.lit ".gitignore"] ∧
      (⟨[Text.lit "d"], Text.lit "/r/d", .ofMode 0o40755 1⟩ : Entry) ∈ given := by
  intro options started
  let w₀ := ((Walk.new (Path.absolute Path.rootDirectory (Text.lit "/r")) .plain).start
    nestedFiles).run.2
  have hstart : ((Walk.new (Path.absolute Path.rootDirectory (Text.lit "/r")) .plain).start
      nestedFiles).run = (.ok (), w₀) := rfl
  have hend : (w₀.entries nestedFiles 8).run.2.phase = .ended := by decide +kernel
  have hend' : (started.2.entries nestedFiles 8).run.2.phase = .ended := by decide +kernel
  obtain ⟨w₁, answer, last, hlimited, hcloses, -, hfiles, hgiven⟩ :=
    entries_withDepth nestedFiles nestedFiles_isListing rfl (by simp [Path.rootDirectory])
      (Text.lit "/r") rfl rfl hstart (Closes.of_ended hend) 1
  obtain rfl : w₁ = started.2 := (congrArg Prod.snd hlimited).symm
  have hpaths : ((w₀.entries nestedFiles 8).run.1.map (List.filter fun e =>
      e.depth = 1 && !e.stats.isDirectory)).map (List.map Entry.path)
      = .ok [Text.lit ".gitignore"] := by decide +kernel
  rw [← hfiles] at hpaths
  cases answer with
  | error e => cases hpaths
  | ok given =>
    obtain ⟨-, hdirectories⟩ := hgiven given rfl
    have hlast : (started.2.entries nestedFiles 8).run.2 = last :=
      congrArg Prod.snd (hcloses.entries 8 hend')
    have hkept : (started.2.entries nestedFiles 8).run.2.sieve.isIgnored (Text.lit "/r/d") true
        = false := by decide +kernel
    have hnext : (runFor nestedFiles 1 w₀).run.upNext nestedFiles
        = some ⟨[Text.lit "d"], Text.lit "/r/d", .ofMode 0o40755 1⟩ := by decide +kernel
    refine ⟨given, last, congrArg Prod.fst hlimited, hcloses, Except.ok.inj hpaths, ?_⟩
    exact (hdirectories (by decide) _ rfl rfl).mpr ⟨⟨1, hnext⟩, hlast ▸ hkept⟩

end Walk

end TreeSieve

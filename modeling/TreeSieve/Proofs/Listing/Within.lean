import TreeSieve.Listing.Nested
import TreeSieve.Proofs.Path.Containment
import TreeSieve.Proofs.Walk.Indoors

/-!
# Listings within a base

A listing is asked for by the text of a path below a base, and only this text is held against the
base.

* `Node.LeadsOut` holds of names on which a link leads out of a base; `Node.within_or_leadsOut` says
  that nothing else does.
* `listings_within` says that the directories that are listed lie within the base unless a link on
  the way to the directory that was asked for leads out of it.
-/

namespace TreeSieve

/-- Options that pass the check are those that are asked for, with the limits that are read. -/
theorem Walk.Request.exists_of_check {r : Walk.Request} {options : Walk.Options}
    (h : r.check = .ok options) : ∃ maxDepth maxEntries,
      checkLimit .negativeDepth r.maxDepth = .ok maxDepth ∧
      checkLimit .negativeEntries r.maxEntries = .ok maxEntries ∧
      options = ⟨r.ignoreNames, r.followLinks, maxDepth, maxEntries, r.includeEmpty⟩ := by
  rw [Walk.Request.check] at h
  cases hdepth : checkLimit .negativeDepth r.maxDepth with
  | error e => rw [hdepth] at h; cases h
  | ok maxDepth =>
    cases hentries : checkLimit .negativeEntries r.maxEntries with
    | error e => rw [hdepth, hentries] at h; cases h
    | ok maxEntries =>
      rw [hdepth, hentries] at h
      exact ⟨maxDepth, maxEntries, rfl, rfl, (Except.ok.inj h).symm⟩

/-- Options that pass the check say what was asked for about following links. -/
theorem Walk.Request.followLinks_of_check {r : Walk.Request} {options : Walk.Options}
    (h : r.check = .ok options) : options.followLinks = r.followLinks := by
  obtain ⟨_, _, -, -, rfl⟩ := exists_of_check h
  rfl

/-- Without a limit on the entries that are asked for there is none. -/
theorem Walk.Request.maxEntries_of_check {r : Walk.Request} {options : Walk.Options}
    (h : r.check = .ok options) (hnone : r.maxEntries = none) : options.maxEntries = none := by
  obtain ⟨_, _, -, hentries, rfl⟩ := exists_of_check h
  rw [hnone] at hentries
  exact (Except.ok.inj hentries).symm

namespace Node

variable {files : Node} {rules : PathRules} {base : Path} {a : Address}

/-- A link leads out of a base whose address is `a`: the names in front of it lead to a directory
within the base, and with the name of the link they lead elsewhere. -/
def LeadsOut (files : Node) (rules : PathRules) (base : Path) (a : Address)
    (names : List Text) : Prop :=
  ∃ front name back inside outside, names = front ++ name :: back ∧
    (∃ directory, files.resolve rules true (base.descend front).toText = .ok (inside, directory)) ∧
    a <+: inside ∧
    (∃ entry, files.at? (inside ++ [name]) = some entry ∧ entry.kind = .symlink) ∧
    (∃ node, files.resolve rules true (base.descend (front ++ [name])).toText
      = .ok (outside, node)) ∧ ¬ a <+: outside

theorem LeadsOut.append {names : List Text} (h : files.LeadsOut rules base a names)
    (more : List Text) : files.LeadsOut rules base a (names ++ more) := by
  obtain ⟨front, name, back, inside, outside, rfl, hway⟩ := h
  refine ⟨front, name, back ++ more, inside, outside, ?_, hway⟩
  rw [List.append_assoc, List.cons_append]

/-- What names lead to from a base lies within it, unless one of the names is that of a link that
leads out of it. -/
theorem within_or_leadsOut (hrules : rules.Reads) (hbase : base.IsRooted) {directory : Node}
    (hplace : files.resolve rules true base.toText = .ok (a, directory)) (names : List Text) :
    (∀ part ∈ names, Path.IsEntryName part) → ∀ {address node},
      files.resolve rules true (base.descend names).toText = .ok (address, node) →
        a <+: address ∨ files.LeadsOut rules base a names := by
  induction names using List.reverseRecOn with
  | nil =>
    intro _ address node hfound
    rw [Path.descend_nil, hplace] at hfound
    exact .inl ((Prod.mk.inj (Except.ok.inj hfound)).1 ▸ List.prefix_refl a)
  | append_singleton front name ih =>
    intro hnames address node hfound
    have hfront : ∀ part ∈ front, Path.IsEntryName part :=
      fun part hpart => hnames part (List.mem_append_left [name] hpart)
    have hname : Path.IsEntryName name := hnames name (by simp)
    have hlast := hfound
    rw [Path.descend_append] at hlast
    obtain ⟨inside, parent, hparent, hentry⟩ :=
      exists_resolve_concat hrules (hbase.descend hfront) hname hlast
    rcases ih hfront hparent with hinside | hout
    · by_cases hwithin : a <+: address
      · exact .inl hwithin
      · rcases hentry with rfl | hlink
        · exact absurd (hinside.trans (List.prefix_append inside [name])) hwithin
        · exact .inr ⟨front, name, [], inside, address, rfl, ⟨parent, hparent⟩, hinside, hlink,
            ⟨node, hfound⟩, hwithin⟩
    · exact .inr (hout.append [name])

end Node

section Listings

variable {files : Node} (hfiles : files.IsProper) {rules : PathRules} (hrules : rules.Reads)
  {fs : FileSystem Id} (hserves : fs.Serves files rules) {current : Path}
  (hcurrent : current.IsRooted) {base : Text} {a : Address} {directory : Node}
  (hbase : files.resolve rules true (Path.absolute current base).toText = .ok (a, directory))
  (name : Option Text)

/-- A directory that may be listed: it really lies within the base of the listing, or else a link
on the way to the directory that was asked for leads out of the base. -/
def MayList (files : Node) (rules : PathRules) (current : Path) (base : Text)
    (name : Option Text) (a : Address) (path : Text) : Prop :=
  ∃ address node, files.resolve rules true path = .ok (address, node) ∧
    (a <+: address ∨ ∃ names,
      Path.resolveWithin current base name = .ok ((Path.absolute current base).descend names) ∧
        files.LeadsOut rules (Path.absolute current base) a names)

include hfiles hrules hserves hcurrent hbase

/-- Whatever an accepted directory is, a walk of it that follows no links lists what lies within the
base, unless a link on the way to the directory leads out of it. -/
theorem walkThrough_within {target : Path}
    (htarget : Path.resolveWithin current base name = .ok target) {options : Walk.Options}
    (hlinks : options.followLinks = false) {β : Type} (f : Entry → β → ForInStep β) (acc : β)
    (steps : Nat) :
    Notes (Exchange.IsFrom fs) (walkThrough fs.noted steps f acc (Walk.new target options))
      fun calls _ => ∀ call ∈ calls, call.operation = .list →
        MayList files rules current base name a call.path := by
  have hrooted : (Path.absolute current base).IsRooted :=
    Path.absolute_isRooted hcurrent.absolute (fun part hpart => (hcurrent.names part hpart).1) base
  obtain ⟨names, rfl, hnames⟩ := Path.exists_of_resolveWithin hcurrent htarget
  refine (Walk.walkThrough_notes hfiles hrules hserves (hrooted.descend hnames) hlinks f acc
    steps).mono fun calls _ hcalls call hcall hop => ?_
  obtain ⟨t, below, hindoors⟩ := hcalls call hcall (.inl hop)
  obtain ⟨node, hfound⟩ := hindoors.found
  obtain ⟨top, htop⟩ := hindoors.root
  refine ⟨t ++ below, node, hfound, ?_⟩
  rcases Node.within_or_leadsOut hrules hrooted hbase names hnames htop with hwithin | hout
  · exact .inl (hwithin.trans (List.prefix_append t below))
  · exact .inr ⟨names, htarget, hout⟩

theorem listChildren_within (steps : Nat) (limit : Option Int) :
    Notes (Exchange.IsFrom fs) (listChildren fs.noted steps current base name limit)
      fun calls _ => ∀ call ∈ calls, call.operation = .list →
        MayList files rules current base name a call.path := by
  unfold listChildren
  cases htarget : Path.resolveWithin current base name with
  | error e => exact .pure fun _ hmem => nomatch hmem
  | ok target =>
    simp only
    cases hcheck : ({ Walk.Request.plain with maxDepth := some 1, maxEntries := limit } :
        Walk.Request).check with
    | error e => exact .pure fun _ hmem => nomatch hmem
    | ok options =>
      have hlinks : options.followLinks = false := Walk.Request.followLinks_of_check hcheck
      refine Notes.bind (walkThrough_within hfiles hrules hserves hcurrent hbase name htarget hlinks
        _ [] steps) ?_
      rintro calls ⟨found, last⟩ hcalls
      exact .pure (by rwa [List.append_nil])

theorem nestDirectory_within (steps : Nat) (depth : Option Int) (regexp : Option Text)
    (limit : Int) :
    Notes (Exchange.IsFrom fs) (nestDirectory fs.noted steps current base name depth regexp limit)
      fun calls _ => ∀ call ∈ calls, call.operation = .list →
        MayList files rules current base name a call.path := by
  unfold nestDirectory nestDirectoryBy
  cases htarget : Path.resolveWithin current base name with
  | error e => exact .pure fun _ hmem => nomatch hmem
  | ok target =>
    simp only
    cases RegexReading.ignoringCase.filter regexp with
    | error e => exact .pure fun _ hmem => nomatch hmem
    | ok wanted =>
      simp only
      cases hcheck : ({ Walk.Request.plain with maxDepth := depth } : Walk.Request).check with
      | error e => exact .pure fun _ hmem => nomatch hmem
      | ok options =>
        have hlinks : options.followLinks = false := Walk.Request.followLinks_of_check hcheck
        refine Notes.bind (walkThrough_within hfiles hrules hserves hcurrent hbase name htarget
          hlinks _ ([], false) steps) ?_
        rintro calls ⟨found, last⟩ hcalls
        exact .pure (by rwa [List.append_nil])

/-- **A listing stays within its base as far as links allow.** Whatever directory is asked for, and
whatever comes of it, each directory that is listed, nested or not, really lies within the base,
unless a link on the way from the base to the directory that was asked for leads out of it: the walk
below this directory never does. -/
theorem listings_within (steps : Nat) (limit depth : Option Int) (regexp : Option Text)
    (most : Int) :
    (∀ call ∈ ((listChildren fs.noted steps current base name limit).run []).run.2,
      call.operation = .list → MayList files rules current base name a call.path) ∧
    ∀ call ∈ ((nestDirectory fs.noted steps current base name depth regexp most).run []).run.2,
      call.operation = .list → MayList files rules current base name a call.path := by
  constructor
  · obtain ⟨calls, hcalls, -, hwithin⟩ :=
      listChildren_within hfiles hrules hserves hcurrent hbase name steps limit []
    rw [hcalls]
    exact hwithin
  · obtain ⟨calls, hcalls, -, hwithin⟩ :=
      nestDirectory_within hfiles hrules hserves hcurrent hbase name steps depth regexp most []
    rw [hcalls]
    exact hwithin

end Listings

/-- A base with a directory, and with a link that leads out of it. -/
def leakyTree : Node :=
  .directory 0o755 0 [
    (Text.lit "b", .directory 0o755 0 [
      (Text.lit "d", .directory 0o755 0 [(Text.lit "g", .file .file 0o644 1 [49])]),
      (Text.lit "out", .link 0o777 0 (Text.lit "/o"))]),
    (Text.lit "o", .directory 0o755 0 [(Text.lit "f", .file .file 0o644 1 [49])])]

/-- The directory behind the link is asked for, by a name that goes up and comes down again. -/
theorem listings_within_leakyTree :
    let fs : FileSystem Id := leakyTree.fileSystem
    let name := some (Text.lit "d/..//out")
    (∀ call ∈ ((listChildren fs.noted 9 .rootDirectory (Text.lit "/b") name none).run []).run.2,
      call.operation = .list →
        MayList leakyTree .plain .rootDirectory (Text.lit "/b") name [Text.lit "b"] call.path) ∧
    ∀ call ∈ ((nestDirectory fs.noted 9 .rootDirectory (Text.lit "/b") name none none 200).run
        []).run.2,
      call.operation = .list →
        MayList leakyTree .plain .rootDirectory (Text.lit "/b") name [Text.lit "b"] call.path :=
  listings_within (by decide) PathRules.plain_reads (Node.fileSystem_serves leakyTree)
    ⟨rfl, by decide⟩ (by rfl) _ 9 none none none 200

/-- The directory that is listed lies outside of the base. -/
theorem listing_outside :
    let fs : FileSystem Id := leakyTree.fileSystem
    let listing := (listChildren fs.noted 9 .rootDirectory (Text.lit "/b") (some (Text.lit "out"))
      none).run []
    (listing.run.2.filter fun call => call.operation = .list).map (·.path) = [Text.lit "/b/out"] ∧
      (listing.run.1.answer.toOption.map fun found => found.entries.map (·.path))
        = some [Text.lit "f"] ∧
      (leakyTree.resolve .plain true (Text.lit "/b")).toOption.map (·.1) = some [Text.lit "b"] ∧
      (leakyTree.resolve .plain true (Text.lit "/b/out")).toOption.map (·.1)
        = some [Text.lit "o"] ∧
      ¬ [Text.lit "b"] <+: [Text.lit "o"] :=
  ⟨by decide +kernel, by decide +kernel, by decide +kernel, by decide +kernel, by decide⟩

end TreeSieve

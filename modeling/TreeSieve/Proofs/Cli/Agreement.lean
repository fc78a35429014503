import Mathlib
import TreeSieve.Cli.Run
import TreeSieve.Proofs.Walk.Alike
import TreeSieve.Proofs.Walk.Held

/-!
# Checking a path and walking to it

Two commands decide about a path: a walk of a directory prints it or does not, and a check of the
path with this directory explains it by the rules that a walk of its own has left.

* `Walk.Completes` holds of a walk that is gone through to its end, whatever its entries are handed
  to.
* `Node.Designates` holds of a text by which both commands are given the same directory.
* `Cli.runWalk_eq` and `Cli.runCheck_eq` say what the commands come to.
* `Cli.check_agrees` says that they agree on what is neither a directory nor a link.
-/

namespace TreeSieve

/-! ### Walks that are gone through -/

namespace Walk

/-- A walk that gives out some entries and comes to its end, to whatever function its entries are
handed. -/
def Completes (fs : FileSystem Id) (steps : Nat) (w : Walk) (given : List Entry) (last : Walk) :
    Prop :=
  ∀ (β : Type) (g : Entry → β → β) (first : β),
    (walkThrough fs steps (fun entry acc => .yield (g entry acc)) first w).run
      = (.ok (given.foldl (fun acc entry => g entry acc) first), last)

/-- A fold over the entries of a walk comes to the fold over the list of them, and leaves the walk
the same. -/
theorem visit_yield (fs : FileSystem Id) {β : Type} (g : Entry → β → β) (first : β) (steps : Nat) :
    ∀ (acc : List Entry) (w : Walk),
      (visit fs (fun entry acc => .yield (g entry acc)) steps (acc.foldr g first) w).run
        = ((visit fs (fun entry acc => .yield (entry :: acc)) steps acc w).run.1.map
            (·.foldr g first),
          (visit fs (fun entry acc => .yield (entry :: acc)) steps acc w).run.2) := by
  induction steps with
  | zero => exact fun _ _ => rfl
  | succ steps ih =>
    intro acc w
    rw [visit, visit]
    simp only [Id.run_bind]
    generalize (w.step fs).run = result
    obtain ⟨outcome, w'⟩ := result
    cases outcome with
    | yielded entry => exact ih (entry :: acc) w'
    | withheld names isDirectory => exact ih acc w'
    | quiet => exact ih acc w'
    | finished => rfl
    | failed e => rfl

/-- A walk that comes to its end is gone through in any number of steps that is large enough. -/
theorem Closes.exists_completes {fs : FileSystem Id} {root : Path} {options : Walk.Options}
    {w₀ last : Walk} {given : List Entry} (h : Closes fs w₀ (.ok given) last)
    (hstart : ((Walk.new root options).start fs).run = (.ok (), w₀)) :
    ∃ enough, ∀ steps, enough ≤ steps →
      Completes fs steps (Walk.new root options) given last := by
  obtain ⟨enough, hend⟩ := h.ended
  have hclosed := h.entries enough hend
  rw [Walk.entries] at hend hclosed
  simp only [Id.run_bind] at hend hclosed
  refine ⟨enough, fun steps hsteps β g first => ?_⟩
  obtain ⟨more, rfl⟩ := Nat.exists_eq_add_of_le hsteps
  have hvisit := visit_add_of_ended enough more [] w₀ hend
  generalize (visit fs (fun entry acc => .yield (entry :: acc)) enough [] w₀).run = result
    at hclosed hvisit
  obtain ⟨answer, w'⟩ := result
  obtain ⟨hanswer, rfl⟩ := Prod.mk.inj hclosed
  cases answer with
  | error e => cases hanswer
  | ok found =>
    obtain rfl : found.reverse = given := Except.ok.inj hanswer
    have hyield := visit_yield fs g first (enough + more) [] w₀
    rw [hvisit] at hyield
    rw [walkThrough, Id.run_bind, hstart]
    simp only [Id.run_bind, List.foldr_nil] at hyield ⊢
    rw [hyield, List.foldl_reverse]
    rfl

end Walk

/-! ### The directory that is given -/

/-- A text by which both commands are given the directory at an address: the path leads there as it
is written and as it is resolved, and no path of a node is too long below either spelling. -/
structure Node.Designates (files : Node) (current : Path) (text : Text) (a : Address)
    (tree : Node) : Prop where
  leads : files.resolve .disk true (Path.absolute current text).toText = .ok (a, tree)
  resolved : Node.resolveFrom current text files = .ok (Node.addressText a)
  top : (Path.absolute current text).IsTop
  directory : tree.kind = .directory
  fits : ∀ names node, tree.at? names = some node →
    PathRules.disk.refuses ((Path.absolute current text).descend names).toText = false ∧
    PathRules.disk.refuses (Node.addressText (a ++ names)) = false

namespace Node.Designates

variable {files tree : Node} {current : Path} {text : Text} {a : Address}
  (h : files.Designates current text a tree) (hfiles : files.IsProper)

include h

theorem at? : files.at? a = some tree := at?_of_resolve h.leads

include hfiles

theorem tree_isProper : tree.IsProper := (hfiles.at? h.at?).2

/-- The text of the address of a node at or below the directory leads to the node. -/
theorem resolve_addressText (followLast : Bool) {names : List Text} {node : Node}
    (hat : tree.at? names = some node) (hlast : followLast = true → node.kind ≠ .symlink) :
    files.resolve .disk followLast (addressText (a ++ names)) = .ok (a ++ names, node) := by
  have hnode : files.at? (a ++ names) = some node := by
    rw [at?_append, h.at?]
    exact hat
  exact Node.resolve_addressText hfiles hnode PathRules.disk_reads
    (kind_of_at? h.at? h.directory) hlast (h.fits names node hat).2

/-- The directory is held below the path as it is written. -/
theorem holds : (files.diskFileSystem : FileSystem Id).Holds (Path.absolute current text) tree :=
  files.diskFileSystem_serves.holds hfiles PathRules.disk_reads h.top.1 h.leads h.directory
    (fun names node hat => (h.fits names node hat).1) ⟨_, rfl⟩

/-- The directory is held below its address. -/
theorem holds_address : (files.diskFileSystem : FileSystem Id).Holds ⟨.root, a⟩ tree := by
  have hrooted : Path.IsRooted ⟨.root, a⟩ := ⟨rfl, (hfiles.at? h.at?).1⟩
  have hleads := h.resolve_addressText hfiles true (at?_nil tree)
    fun _ => by rw [h.directory]; decide
  rw [List.append_nil] at hleads
  exact files.diskFileSystem_serves.holds hfiles PathRules.disk_reads hrooted hleads h.directory
    (fun names node hat => (h.fits names node hat).2) ⟨_, rfl⟩

/-- The directory is shown below its address. -/
theorem shows_address : (files.diskFileSystem : FileSystem Id).Shows ⟨.root, a⟩ tree := by
  have hleads := h.resolve_addressText hfiles false (at?_nil tree)
    fun hfollow => nomatch hfollow
  rw [List.append_nil] at hleads
  exact (h.holds_address hfiles).shows (h.tree_isProper hfiles)
    (files.diskFileSystem_serves.lstat_eq hleads)
    fun _ _ hlist => files.diskFileSystem_serves.isListing hfiles hlist

end Node.Designates

namespace Node

variable {files node : Node} (hfiles : files.IsProper) {a : Address}
  (hat : files.at? a = some node)

include hfiles hat

/-- The text of an address at which there is no link is resolved to itself, in any current
directory. -/
theorem resolveFrom_addressText (current : Path) (hroot : files.kind = .directory)
    (hkind : node.kind ≠ .symlink) :
    resolveFrom current (addressText a) files = .ok (addressText a) := by
  have hrooted : Path.IsRooted ⟨.root, a⟩ := ⟨rfl, (hfiles.at? hat).1⟩
  have htext : (Path.ofText (addressText a)).toText = addressText a :=
    congrArg Path.toText hrooted.ofText_toText
  have hreal := realPathLeniently_addressText hfiles hat hkind current
  rw [resolveFrom, htext, hreal]
  cases hlong : PathRules.disk.refuses (addressText a) with
  | true =>
    rw [resolveOnDisk, resolve, if_pos hlong]
  | false =>
    rw [resolveOnDisk, resolve_addressText hfiles hat PathRules.disk_reads hroot
      (fun _ => hkind) hlong]

/-- A directory is designated by the text of its address. -/
theorem designates_addressText (current : Path) (hkind : node.kind = .directory)
    (hfits : ∀ names below, node.at? names = some below →
      PathRules.disk.refuses (addressText (a ++ names)) = false) :
    files.Designates current (addressText a) a node := by
  have hroot := kind_of_at? hat hkind
  have hlink : node.kind ≠ .symlink := by rw [hkind]; decide
  have hpath := absolute_addressText hfiles hat current
  have hlength := hfits [] node (at?_nil node)
  rw [List.append_nil] at hlength
  refine ⟨?_, resolveFrom_addressText hfiles hat current hroot hlink, ?_, hkind, ?_⟩
  · rw [hpath]
    exact resolve_addressText hfiles hat PathRules.disk_reads hroot (fun _ => hlink) hlength
  · rw [hpath]
    exact ⟨⟨rfl, (hfiles.at? hat).1⟩, .inl rfl⟩
  · intro names below hbelow
    rw [hpath]
    exact ⟨hfits names below hbelow, hfits names below hbelow⟩

end Node

/-! ### The commands -/

namespace Cli

/-- If the first of two computations has a known result then the run of both is the run of the
second one, with this result. -/
theorem run_bind_eq {σ α β : Type} {x : StateM σ α} {f : α → StateM σ β} {s s' : σ} {a : α}
    (h : (x.run s).run = (a, s')) : ((x >>= f).run s).run = ((f a).run s').run := by
  rw [StateT.run_bind, Id.run_bind, h]

section Commands

variable {files : Node} {current : Path} {steps : Nat} {given : List Entry} {last : Walk}

/-- A walk prints the entries that it gives out, each on a line. -/
theorem runWalk_eq {path : Text} {names : List Text} {includeEmpty : Bool} (json : Bool)
    (h : Walk.Completes files.diskFileSystem steps
      (Walk.new (Path.absolute current path) ⟨names, false, none, none, includeEmpty⟩) given last) :
    ∃ log errors, ((runWalk (Node.host current) steps path
        ⟨names, false, none, none, includeEmpty⟩ json).run files).run
      = (.success (given.flatMap (walkLine json)) log errors 0, files) := by
  have hlines : ((given.foldl (fun out entry => walkLine json entry :: out) []).reverse).flatten
      = given.flatMap (walkLine json) := by
    rw [List.foldl_flip_cons_eq_append]
    simp [List.flatMap_def]
  have hthrough := (files.run_walkThrough_storedFiles steps
    (fun entry out => .yield (walkLine json entry :: out)) [] _).trans
    (congrArg (·, files) (h _ (fun entry out => walkLine json entry :: out) []))
  rw [← hlines]
  unfold runWalk
  exact ⟨last.records, if last.truncated then limitedLine 0 else [], run_bind_eq hthrough⟩

section Checking

variable {path place : Text} {a : Address} {node : Node}
  (hpath : Node.resolveFrom current path files = .ok place)
  (hplace : files.resolve .disk true place = .ok (a, node))

include hpath hplace

/-- A check of one path, which leads to a node that can be looked up, adds the line of the verdict
for the place it leads to, and the notes of that verdict. -/
theorem checkPaths_eq (sieve : Sieve) (checked : Checked) :
    ((checkPaths (Node.host current) sieve checked [path]).run files).run
      = ((⟨checked.output ++ verdictLine path (sieve.verdict place node.stats.isDirectory),
            checked.log ++ (sieve.verdict place node.stats.isDirectory).log (canonical place),
            checked.anyIgnored || (sieve.verdict place node.stats.isDirectory).ignored⟩, none),
          files) := by
  have hresolved : (((Node.host current).resolve path).run files).run = (.ok place, files) :=
    congrArg (·, files) hpath
  have hstat : (((Node.host current).files.stat place).run files).run
      = (.ok node.stats, files) := by
    show (((files.diskFileSystem : FileSystem Id).stat place).run, files) = _
    rw [files.diskFileSystem_serves.stat_eq hplace]
  unfold checkPaths
  exact (run_bind_eq hresolved).trans (run_bind_eq hstat)

/-- A check of one path comes to a verdict of the rules that a walk of the resolved root has left,
and ends with the code 0 exactly if this one ignores the path. -/
theorem runCheck_eq {root real : Text} {names : List Text}
    (hroot : Node.resolveFrom current root files = .ok real)
    (h : (walkThrough (files.diskFileSystem : FileSystem Id) steps (fun _ acc => .yield acc) ()
      (Walk.new (Path.absolute current real)
        { Walk.Options.plain with ignoreNames := names })).run = (.ok (), last)) :
    ∃ log, ((runCheck (Node.host current) steps [path] root names).run files).run
      = (⟨.exit (if (last.sieve.verdict place node.stats.isDirectory).ignored then 0 else 1),
          verdictLine path (last.sieve.verdict place node.stats.isDirectory), log, [], .warning⟩,
        files) := by
  have hresolved : (((Node.host current).resolve root).run files).run = (.ok real, files) :=
    congrArg (·, files) hroot
  have hthrough := (files.run_walkThrough_storedFiles steps (fun _ acc => .yield acc) () _).trans
    (congrArg (·, files) h)
  have hchecked := checkPaths_eq hpath hplace last.sieve
    ⟨[], last.records ++ [loadedLog last], false⟩
  unfold runCheck withResolved
  refine ⟨last.records ++ [loadedLog last]
    ++ (last.sieve.verdict place node.stats.isDirectory).log (canonical place), ?_⟩
  exact (run_bind_eq hresolved).trans ((run_bind_eq hthrough).trans (run_bind_eq hchecked))

end Checking

end Commands

section Whole

variable {files tree : Node} (hfiles : files.IsProper) {current : Path} {root : Text} {a : Address}
  (hroot : files.Designates current root a tree)

include hfiles hroot

/-- What a walk of the directory gives out, as it is written, is not ignored by the rules that a
walk of its address leaves; and nothing else is, if no ignore file holds a bracket. -/
theorem exists_verdict {names : List Text} {node : Node} (hne : names ≠ [])
    (hat : tree.at? names = some node) (hkind : node.kind ≠ .directory)
    (ignoreNames : List Text) (includeEmpty : Bool) :
    ∃ given last given' last' enough, (∀ steps, enough ≤ steps →
      Walk.Completes files.diskFileSystem steps
        (Walk.new (Path.absolute current root) ⟨ignoreNames, false, none, none, includeEmpty⟩)
        given last ∧
      Walk.Completes files.diskFileSystem steps
        (Walk.new ⟨.root, a⟩ { Walk.Options.plain with ignoreNames }) given' last') ∧
      (names ∈ given.map (·.names) →
        last'.sieve.isIgnored (Node.addressText (a ++ names)) false = false) ∧
      (tree.BracketFree ignoreNames →
        last'.sieve.isIgnored (Node.addressText (a ++ names)) false = false →
        names ∈ given.map (·.names)) := by
  have htree := hroot.tree_isProper hfiles
  have hlist : ∀ path entries,
      ((files.diskFileSystem : FileSystem Id).list path).run = .ok entries → IsListing entries :=
    fun _ _ hentries => files.diskFileSystem_serves.isListing hfiles hentries
  have hwritten : Traversal.Roams ⟨files.diskFileSystem, Path.absolute current root,
      ⟨ignoreNames, false, none, none, includeEmpty⟩⟩ tree :=
    ⟨hroot.top, hroot.holds hfiles, rfl, rfl⟩
  have haddress : Traversal.Roams ⟨files.diskFileSystem, ⟨.root, a⟩,
      { Walk.Options.plain with ignoreNames }⟩ tree :=
    ⟨⟨⟨rfl, (hfiles.at? hroot.at?).1⟩, .inl rfl⟩, hroot.holds_address hfiles, rfl, rfl⟩
  obtain ⟨w₀, given, last, hstart, hstats, hcloses⟩ :=
    Walk.exists_closes_of_roams hwritten htree hlist rfl
  obtain ⟨w₀', given', last', hstart', hstats', hcloses'⟩ :=
    Walk.exists_closes_of_roams haddress htree hlist rfl
  obtain ⟨enough, hcompletes⟩ := hcloses.exists_completes hstart
  obtain ⟨enough', hcompletes'⟩ := hcloses'.exists_completes hstart'
  have hsame := hcloses.mem_names_congr hwritten haddress htree hlist hlist rfl rfl rfl hstart
    hstart' hstats hstats' hcloses' hne hat hkind
  refine ⟨given, last, given', last', max enough enough', fun steps hsteps => ?_, ?_, ?_⟩
  · exact ⟨hcompletes steps ((Nat.le_max_left _ _).trans hsteps),
      hcompletes' steps ((Nat.le_max_right _ _).trans hsteps)⟩
  · intro hgiven
    exact hcloses'.isIgnored_of_mem haddress htree hlist rfl hstart' hstats' hne hat hkind
      (hsame.mp hgiven)
  · intro hbrackets hkept
    exact hsame.mpr (hcloses'.mem_of_isIgnored haddress htree rfl hstart' hstats' hne hat hkind rfl
      (hroot.shows_address hfiles) hbrackets hkept)

/-- **Checking a path agrees with walking to it.** Let both commands be given a directory and the
same names of ignore files, and let a path lead to what is neither a directory nor a link below it.
The walk prints some entries and the check explains the path by a verdict, neither changes a file,
and the check ends with the code 0 if it says that the path is ignored and with 1 if not. What the
walk prints is not ignored, and what is not ignored is printed if no ignore file holds a bracket. -/
theorem check_agrees {names : List Text} {node : Node} (hne : names ≠ [])
    (hat : tree.at? names = some node) (hdirectory : node.kind ≠ .directory)
    (hlink : node.kind ≠ .symlink) {path : Text}
    (hpath : Node.resolveFrom current path files = .ok (Node.addressText (a ++ names)))
    (env : Environment) (asked : List Text) (includeEmpty json : Bool) :
    ∃ (found : List Entry) (verdict : Verdict) (enough : Nat), (∀ steps, enough ≤ steps →
      (∃ log errors, ((runCommand (Node.host current) env steps
          (.walk root asked false none none includeEmpty json)).run files).run
        = (.success (found.flatMap (walkLine json)) log errors 0, files)) ∧
      (∃ log, ((runCommand (Node.host current) env steps (.check [path] root asked)).run files).run
        = (.success (verdictLine path verdict) log [] (if verdict.ignored then 0 else 1),
          files))) ∧
      (names ∈ found.map (·.names) → verdict.ignored = false) ∧
      (tree.BracketFree (ignoreNames env asked) → verdict.ignored = false →
        names ∈ found.map (·.names)) := by
  obtain ⟨given, last, given', last', enough, hcompletes, hmem, hkept⟩ :=
    exists_verdict hfiles hroot hne hat hdirectory (ignoreNames env asked) includeEmpty
  have hplace := hroot.resolve_addressText hfiles true hat fun _ => hlink
  have hstats : node.stats.isDirectory = false := by
    rw [FileStats.isDirectory, ((hroot.tree_isProper hfiles).at? hat).2.kind_stats]
    exact beq_eq_false_iff_ne.mpr hdirectory
  refine ⟨given, last'.sieve.verdict (Node.addressText (a ++ names)) false, enough,
    fun steps hsteps => ⟨?_, ?_⟩, hmem, hkept⟩
  · exact runWalk_eq json (hcompletes steps hsteps).1
  · have hcompletes' := (hcompletes steps hsteps).2
    rw [← Node.absolute_addressText hfiles hroot.at? current] at hcompletes'
    obtain ⟨log, hrun⟩ := runCheck_eq hpath hplace hroot.resolved
      (hcompletes' _ (fun _ acc => acc) ())
    rw [hstats] at hrun
    exact ⟨log, hrun⟩

end Whole

/-- The commands agree on a file whose name is taken back in the directory that it stands in. -/
theorem check_agrees_reopenedTree :
    let files : Node := .directory 0o755 0 [(Text.lit "r", Walk.reopenedTree)]
    let host := Node.host .rootDirectory
    let env : Environment := ⟨none, ⟨none, none⟩⟩
    ∃ (found : List Entry) (verdict : Verdict) (enough : Nat), (∀ steps, enough ≤ steps →
      (∃ log errors, ((runCommand host env steps
          (.walk (Text.lit "/r") [] false none none false false)).run files).run
        = (.success (found.flatMap (walkLine false)) log errors 0, files)) ∧
      (∃ log, ((runCommand host env steps
          (.check [Text.lit "/r/e/a"] (Text.lit "/r") [])).run files).run
        = (.success (verdictLine (Text.lit "/r/e/a") verdict) log []
            (if verdict.ignored then 0 else 1), files))) ∧
      ([Text.lit "e", Text.lit "a"] ∈ found.map (·.names) ↔ verdict.ignored = false) := by
  intro files host env
  have hfiles : files.IsProper := by decide
  have htree : files.at? [Text.lit "r"] = some Walk.reopenedTree := by rfl
  have hfile : Walk.reopenedTree.at? [Text.lit "e", Text.lit "a"] = some (Walk.plainFile "") := by
    rfl
  have hfits : ∀ names ∈ Walk.reopenedTree.addresses,
      PathRules.disk.refuses (Node.addressText (Text.lit "r" :: names)) = false := by
    decide +kernel
  have hroot : files.Designates .rootDirectory (Text.lit "/r") [Text.lit "r"] Walk.reopenedTree :=
    Node.designates_addressText hfiles htree .rootDirectory rfl
      fun names _ hat => hfits names (Node.mem_addresses hat)
  have hpath : Node.resolveFrom .rootDirectory (Text.lit "/r/e/a") files
      = .ok (Text.lit "/r/e/a") := by
    have hat : files.at? [Text.lit "r", Text.lit "e", Text.lit "a"]
        = some (Walk.plainFile "") := by rfl
    exact Node.resolveFrom_addressText hfiles hat .rootDirectory rfl (by decide)
  obtain ⟨found, verdict, enough, hruns, hincluded, hprinted⟩ :=
    check_agrees hfiles hroot (List.cons_ne_nil _ _) hfile (by decide) (by decide) hpath env []
      false false
  exact ⟨found, verdict, enough, hruns, hincluded, hprinted (Walk.reopenedTree_bracketFree _)⟩

/-- A directory with a link that is ignored, and with the file that the link leads to. -/
def linkedFiles : Node :=
  .directory 0o755 0 [(Text.lit "r", .directory 0o755 0 [
    (Text.lit ".gitignore", Walk.plainFile "link\n"), (Text.lit "file", Walk.plainFile "x"),
    (Text.lit "link", .link 0o777 0 (Text.lit "file"))])]

/-- A check of the link says that it is included, and the walk does not print it. -/
theorem check_follows_link :
    let host := Node.host .rootDirectory
    let env : Environment := ⟨none, ⟨none, none⟩⟩
    let walked := (runCommand host env 9 (.walk (Text.lit "/r") [] false none none false false)).run
      linkedFiles
    let checked := (runCommand host env 9 (.check [Text.lit "/r/link"] (Text.lit "/r") [])).run
      linkedFiles
    walked.run.1.output = Text.lit ".gitignore\nfile\n" ∧
      checked.run.1.output = Text.lit "::\t/r/link\tincluded\n" ∧
      checked.run.1.ending = .exit 1 := by
  intro host env walked checked
  have hroot : Node.resolveFrom .rootDirectory (Text.lit "/r") linkedFiles
      = .ok (Text.lit "/r") := by
    cbv
  have hpath : Node.resolveFrom .rootDirectory (Text.lit "/r/link") linkedFiles
      = .ok (Text.lit "/r/file") := by
    cbv
  have hplace : linkedFiles.resolve .disk true (Text.lit "/r/file")
      = .ok ([Text.lit "r", Text.lit "file"], Walk.plainFile "x") := by
    rfl
  -- said of any answer, so that the walk itself is run by the kernel only
  have hpair : ∀ {ran : Except ListingError Unit × Walk}, ran.1 = .ok () → ran = (.ok (), ran.2) :=
    fun h => Prod.ext h rfl
  obtain ⟨last, hlast, hline, hignored⟩ : ∃ last : Walk,
      (walkThrough (linkedFiles.diskFileSystem : FileSystem Id) 9 (fun _ acc => .yield acc) ()
        (Walk.new (Path.absolute .rootDirectory (Text.lit "/r"))
          { Walk.Options.plain with ignoreNames := ignoreNames env [] })).run = (.ok (), last) ∧
      verdictLine (Text.lit "/r/link") (last.sieve.verdict (Text.lit "/r/file")
        (Walk.plainFile "x").stats.isDirectory) = Text.lit "::\t/r/link\tincluded\n" ∧
      (last.sieve.verdict (Text.lit "/r/file") (Walk.plainFile "x").stats.isDirectory).ignored
        = false := by
    refine ⟨_, hpair ?_, ?_, ?_⟩
    · decide +kernel
    · decide +kernel
    · decide +kernel
  obtain ⟨log, hchecked⟩ := runCheck_eq hpath hplace hroot hlast
  replace hchecked : checked.run = _ := hchecked
  refine ⟨by decide +kernel, ?_⟩
  rw [hchecked]
  refine ⟨hline, ?_⟩
  rw [hignored]
  rfl

end Cli

end TreeSieve

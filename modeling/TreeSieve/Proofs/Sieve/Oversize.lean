import TreeSieve.Proofs.Files.Disk
import TreeSieve.Proofs.Sieve.Decoding
import TreeSieve.Proofs.Sieve.Joined

/-!
# Files that are too large

An ignore file that is too large is not read. Its size is that of the entry at its path, a link not
followed, while what is read is what the path leads to.

* `FileSystem.ReportsSizes` holds of file systems that report the size of a file as it is;
  `Node.TellsSizes.reportsSizes` says so of trees.
* `Sieve.load_decides` says that a file decides by what is read of it, and `Sieve.register_decides`
  that one without rules decides about nothing.
* `FileSystem.HidesSize` holds of a path at which something else than a file stands that reports a
  small size.
* `Sieve.load_oversize` says that a file that is too large is refused, and decides about nothing,
  unless its size is hidden in this way: then all of it is read.
-/

namespace TreeSieve

/-! ### Sizes -/

/-- A file system that reports the number of bytes of a regular file as its size. -/
def FileSystem.ReportsSizes (fs : FileSystem Id) : Prop :=
  ∀ path stats bytes, (fs.lstat path).run = .ok stats → stats.isFile = true →
    (fs.read path).run = .ok bytes → stats.size = bytes.length

/-- A tree whose regular files have the number of their bytes as their size. -/
def Node.TellsSizes (files : Node) : Prop :=
  ∀ address permissions size content,
    files.at? address = some (.file .file permissions size content) → size = content.length

namespace Node

theorem tellsSizes_file {kind : EntryKind} {permissions : Nat} {size : Int} {content : List UInt8}
    (h : kind = .file → size = content.length) :
    (file kind permissions size content).TellsSizes := by
  intro address permissions size content hat
  cases address with
  | nil =>
    rw [at?_nil, Option.some.injEq, Node.file.injEq] at hat
    obtain ⟨rfl, rfl, rfl, rfl⟩ := hat
    exact h rfl
  | cons name rest => cases hat

theorem tellsSizes_link {permissions : Nat} {size : Int} {target : Text} :
    (link permissions size target).TellsSizes := by
  intro address permissions size content hat
  cases address with
  | nil => cases hat
  | cons name rest => cases hat

/-- A directory tells sizes if what is in it does. -/
theorem tellsSizes_directory {permissions : Nat} {size : Int} {entries : List (Text × Node)}
    (h : ∀ entry ∈ entries, entry.2.TellsSizes) :
    (directory permissions size entries).TellsSizes := by
  intro address permissions size content hat
  cases address with
  | nil => cases hat
  | cons name rest =>
    rw [at?_cons] at hat
    obtain ⟨child, hchild, hbelow⟩ := Option.bind_eq_some_iff.mp hat
    obtain ⟨before, after, hsplit, -⟩ := List.lookup_eq_some_iff.mp hchild
    have hmem : (name, child) ∈ entries := by
      rw [show entries = before ++ (name, child) :: after from hsplit]
      exact List.mem_append_right before List.mem_cons_self
    exact h (name, child) hmem rest permissions size content hbelow

end Node

theorem Node.TellsSizes.reportsSizes {files : Node} (h : files.TellsSizes)
    (hfiles : files.IsProper) {fs : FileSystem Id} {rules : PathRules}
    (hserves : fs.Serves files rules) : fs.ReportsSizes := by
  intro path stats bytes hlstat hfile hread
  obtain ⟨a, node, hfound, rfl⟩ := hserves.of_lstat hlstat
  have hat : files.at? a = some node := Node.at?_of_resolve hfound
  have hkind : node.kind = .file := by
    rw [← (hfiles.at? hat).2.kind_stats]
    exact beq_iff_eq.mp hfile
  have hfollowed : files.resolve rules true path = .ok (a, node) := by
    apply Node.resolve_of_unfollowed hfound
    rw [hkind]
    decide
  obtain ⟨kind, permissions, size, rfl⟩ := hserves.of_read hfollowed hread
  obtain rfl : kind = .file := hkind
  exact h a permissions size bytes hat

/-! ### Files without rules -/

namespace Sieve

/-- Two sieves with the same rules for every path decide in the same way. -/
theorem decides_of_rulesFor {s s' : Sieve} (h : ∀ path, s'.rulesFor path = s.rulesFor path)
    (path : Text) (isDirectory : Bool) :
    s'.verdict path isDirectory = s.verdict path isDirectory ∧
      s'.entering path = s.entering path := by
  have hverdict : ∀ flag, s'.verdict path flag = s.verdict path flag := by
    intro flag
    rw [verdict, verdict, h]
  refine ⟨hverdict isDirectory, ?_⟩
  rw [entering, entering, hverdict, enteringAfter, enteringAfter, h]

/-- Taking in a file leads to the verdicts that the sieve has once what is read of the file, with
any cache, is entered in it. -/
theorem load_decides {s : Sieve} {fs : FileSystem Id} {path : Text} {f : IgnoreFile}
    (h : (IgnoreFile.load fs s.cache path).run.1 = f) :
    (s.load fs path).run.1 = f ∧ ∀ other isDirectory,
      (s.load fs path).run.2.verdict other isDirectory
          = (s.register f s.cache).verdict other isDirectory ∧
        (s.load fs path).run.2.entering other = (s.register f s.cache).entering other := by
  subst h
  exact ⟨rfl, fun _ _ => ⟨rfl, rfl⟩⟩

/-- Entering a file without rules changes no verdict, and no directory that is entered. -/
theorem register_decides {s : Sieve} {f : IgnoreFile} (h : f.rules = []) (cache : MatcherCache)
    (path : Text) (isDirectory : Bool) :
    (s.register f cache).verdict path isDirectory = s.verdict path isDirectory ∧
      (s.register f cache).entering path = s.entering path := by
  apply decides_of_rulesFor
  intro other
  show (s.rulebook.add f.scope f.rules f.source).rulesFor (canonical other) = _
  rw [h, Rulebook.rulesFor_add_nil]
  rfl

end Sieve

/-! ### The limit -/

/-- What stands at a path is no regular file, as a link is none, and reports a size that is not too
large. -/
def FileSystem.HidesSize (fs : FileSystem Id) (path : Text) : Prop :=
  ∃ stats, (fs.lstat path).run = .ok stats ∧ stats.isFile = false ∧ stats.size ≤ IgnoreFile.maxSize

namespace IgnoreFile

variable {fs : FileSystem Id} {path : Text} {bytes : List UInt8}
  (hread : (fs.read (Path.ofText path).toText).run = .ok bytes)

include hread

/-- A file whose size is hidden is parsed, whatever its size is. -/
theorem load_of_hidesSize (hhides : fs.HidesSize (Path.ofText path).toText)
    (cache : MatcherCache) :
    (load fs cache path).run = parse cache (Path.ofText path).parent.toText (.bytes bytes)
      (some (Path.ofText path).toText) := by
  obtain ⟨stats, hlstat, -, hsmall⟩ := hhides
  unfold load
  simp only [Id.run_bind, hlstat]
  rw [if_neg (by omega)]
  simp only [Id.run_bind, hread]
  rfl

/-- A file with more bytes than allowed, whose size is not hidden, is refused with a message and
leaves the cache. -/
theorem load_of_not_hidesSize (hsizes : fs.ReportsSizes) (hlarge : maxSize < bytes.length)
    (hhides : ¬ fs.HidesSize (Path.ofText path).toText) (cache : MatcherCache) :
    ∃ message, (load fs cache path).run = (unreadable (Path.ofText path).parent.toText
      (some (Path.ofText path).toText) message, cache) := by
  unfold load
  cases hlstat : (fs.lstat (Path.ofText path).toText).run with
  | error e =>
    simp only [Id.run_bind, hlstat]
    exact ⟨_, rfl⟩
  | ok stats =>
    have hsize : stats.size > maxSize := by
      cases hfile : stats.isFile with
      | true =>
        rw [hsizes _ stats bytes hlstat hfile hread]
        exact_mod_cast hlarge
      | false =>
        by_contra hsmall
        exact hhides ⟨stats, hlstat, hfile, by omega⟩
    simp only [Id.run_bind, hlstat]
    rw [if_pos hsize]
    exact ⟨_, rfl⟩

end IgnoreFile

/-- **A file that is too large is refused, unless its size is hidden.** Where the entry at the path
of an ignore file tells that more would be read than may be, no rule and an error come of it, and
what it is taken into decides about every path as before. A link that reports a small size hides
that of the file behind it, and that file is read to its end. -/
theorem Sieve.load_oversize {fs : FileSystem Id} (hsizes : fs.ReportsSizes) (s : Sieve)
    {path : Text} {bytes : List UInt8} (hread : (fs.read (Path.ofText path).toText).run = .ok bytes)
    (hlarge : IgnoreFile.maxSize < bytes.length) :
    (¬ fs.HidesSize (Path.ofText path).toText →
      (∃ message, (s.load fs path).run.1 = IgnoreFile.unreadable (Path.ofText path).parent.toText
        (some (Path.ofText path).toText) message) ∧
      (s.load fs path).run.1.rules = [] ∧ (s.load fs path).run.1.errors ≠ [] ∧
      ∀ other isDirectory,
        (s.load fs path).run.2.verdict other isDirectory = s.verdict other isDirectory ∧
        (s.load fs path).run.2.entering other = s.entering other) ∧
    (fs.HidesSize (Path.ofText path).toText →
      (s.load fs path).run.1 = (IgnoreFile.parse s.cache (Path.ofText path).parent.toText
        (.bytes bytes) (some (Path.ofText path).toText)).1) := by
  constructor
  · intro hhides
    obtain ⟨message, hrefused⟩ :=
      IgnoreFile.load_of_not_hidesSize hread hsizes hlarge hhides s.cache
    obtain ⟨hfile, hdecides⟩ := load_decides (congrArg Prod.fst hrefused)
    rw [hfile]
    refine ⟨⟨message, rfl⟩, rfl, List.cons_ne_nil _ _, ?_⟩
    intro other isDirectory
    rw [(hdecides other isDirectory).1, (hdecides other isDirectory).2]
    exact register_decides rfl s.cache other isDirectory
  · intro hhides
    exact (load_decides (congrArg Prod.fst (IgnoreFile.load_of_hidesSize hread hhides s.cache))).1

/-! ### A file behind a link -/

/-- A line comes to the same with blanks in front. -/
theorem LineReading.ofLine_blanks (scope : Text) (source : Option Text) (line blanks : Nat)
    (text : Text) :
    ofLine scope source line (List.replicate blanks ' ' ++ text)
      = ofLine scope source line text := by
  have hstart : Text.trimStart (List.replicate blanks ' ' ++ text) = Text.trimStart text := by
    induction blanks with
    | zero => rfl
    | succ blanks ih =>
      rw [List.replicate_succ, List.cons_append]
      exact ih
  have hcontent : lineContent (List.replicate blanks ' ' ++ text) = lineContent text := by
    rw [lineContent, lineContent, hstart]
  rw [ofLine, ofLine, hcontent]

/-- A text of one line is parsed to the same with blanks in front. -/
theorem IgnoreFile.parse_blanks {text : Text} (hne : text ≠ []) (hunbroken : text.IsUnbroken)
    (hmark : text.head? ≠ some '\uFEFF') (cache : MatcherCache) (scope : Text)
    (source : Option Text) (blanks : Nat) :
    (parse cache scope (.text (List.replicate blanks ' ' ++ text)) source).1
      = (parse cache scope (.text text) source).1 := by
  have hlines : ∀ t : Text, t ≠ [] → t.IsUnbroken → Text.lines t = [t] := by
    intro t ht htunbroken
    have hjoined : Text.lines (Text.joinWith '\n' [t]) = [t] :=
      Text.lines_joinWith (by simpa using ht) (by simpa using htunbroken)
    exact hjoined
  have hpadded : (List.replicate blanks ' ' ++ text).head? ≠ some '\uFEFF' := by
    cases blanks with
    | zero => exact hmark
    | succ blanks => simp [List.replicate_succ]
  have hpaddedUnbroken : Text.IsUnbroken (List.replicate blanks ' ' ++ text) := by
    intro c hc
    rcases List.mem_append.mp hc with hc | hc
    · rw [List.eq_of_mem_replicate hc]
      decide
    · exact hunbroken c hc
  show ofReadings scope source (readLines scope source cache 1 (Text.lines _)).1
    = ofReadings scope source (readLines scope source cache 1 (Text.lines _)).1
  rw [Content.decoded_of_head hpadded, Content.decoded_of_head hmark,
    hlines _ (by simp [hne]) hpaddedUnbroken, hlines text hne hunbroken, readLines_fst,
    readLines_fst]
  simp only [List.zipIdx_singleton, List.map_singleton, LineReading.ofLine_blanks]

/-- A text has at least as many bytes as characters. -/
theorem Utf8.length_le_encode (t : Text) : t.length ≤ (encode t).length := by
  have hbyte : ∀ c, 1 ≤ (encodeChar c).length := by
    intro c
    simp only [encodeChar]
    split_ifs <;> simp
  induction t with
  | nil => exact Nat.le_refl 0
  | cons c t ih =>
    have hfirst := hbyte c
    rw [encode] at ih ⊢
    rw [List.flatMap_cons, List.length_append, List.length_cons]
    omega

/-- More bytes than are read of a file: a line of blanks and one letter. -/
def heavyContent : List UInt8 := Utf8.encode (List.replicate IgnoreFile.maxSize ' ' ++ ['a'])

/-- A directory with a heavy file and a link to it as its ignore file, and a link to it. -/
def heavyTree : Node :=
  .directory 0o755 0 [
    (Text.lit "p", .directory 0o755 0 [
      (Text.lit ".gitignore", .link 0o777 3 (Text.lit "big")),
      (Text.lit "big", .file .file 0o644 heavyContent.length heavyContent)]),
    (Text.lit "q", .link 0o777 1 (Text.lit "p"))]

/-- The file system of this tree. -/
def heavyFiles : FileSystem Id := heavyTree.fileSystem

theorem maxSize_lt_heavyContent : IgnoreFile.maxSize < heavyContent.length := by
  have hheavy := Utf8.length_le_encode (List.replicate IgnoreFile.maxSize ' ' ++ ['a'])
  rw [List.length_append, List.length_replicate, List.length_singleton] at hheavy
  exact hheavy

theorem heavyFiles_reportsSizes : heavyFiles.ReportsSizes := by
  have hproper : heavyTree.IsProper := by decide
  have hbelow : (Node.directory 0o755 0 [
      (Text.lit ".gitignore", .link 0o777 3 (Text.lit "big")),
      (Text.lit "big", .file .file 0o644 heavyContent.length heavyContent)]).TellsSizes := by
    apply Node.tellsSizes_directory
    simp only [List.forall_mem_cons]
    exact ⟨Node.tellsSizes_link, Node.tellsSizes_file fun _ => rfl, List.forall_mem_nil _⟩
  have htells : heavyTree.TellsSizes := by
    apply Node.tellsSizes_directory
    simp only [List.forall_mem_cons]
    exact ⟨hbelow, Node.tellsSizes_link, List.forall_mem_nil _⟩
  exact htells.reportsSizes hproper (Node.fileSystem_serves heavyTree)

/-- A file that is found through a link to its directory tells its size. -/
theorem load_oversize_heavyFiles :
    let path := Text.lit "/q/big"
    heavyFiles.ReportsSizes ∧ (heavyFiles.read path).run = .ok heavyContent ∧
      IgnoreFile.maxSize < heavyContent.length ∧
      (Sieve.empty.load heavyFiles path).run.1.errors ≠ [] ∧
      ∀ other isDirectory, (Sieve.empty.load heavyFiles path).run.2.verdict other isDirectory
        = Sieve.empty.verdict other isDirectory := by
  intro path
  have hread : (heavyFiles.read (Path.ofText path).toText).run = .ok heavyContent := by rfl
  have hstats : (heavyFiles.lstat (Path.ofText path).toText).run
      = .ok (.ofMode 0o100644 heavyContent.length) := by rfl
  have hseen : ¬ heavyFiles.HidesSize (Path.ofText path).toText := by
    rintro ⟨stats, hlstat, hfile, -⟩
    rw [hstats] at hlstat
    obtain rfl := Except.ok.inj hlstat
    exact absurd hfile (by decide)
  obtain ⟨-, -, herrors, hdecides⟩ := (Sieve.load_oversize heavyFiles_reportsSizes Sieve.empty hread
    maxSize_lt_heavyContent).1 hseen
  refine ⟨heavyFiles_reportsSizes, hread, maxSize_lt_heavyContent, herrors, ?_⟩
  intro other isDirectory
  exact (hdecides other isDirectory).1

/-- A file that is too large is read if it is found through a link, and decides. -/
theorem load_hiddenSize :
    let path := Text.lit "/p/.gitignore"
    heavyFiles.ReportsSizes ∧ (heavyFiles.read path).run = .ok heavyContent ∧
      IgnoreFile.maxSize < heavyContent.length ∧
      (Sieve.empty.load heavyFiles path).run.1.errors = [] ∧
      (Sieve.empty.load heavyFiles path).run.1.rules.map (·.pattern) = [['a']] ∧
      ((Sieve.empty.load heavyFiles path).run.2.verdict (Text.lit "/p/a") false).ignored = true ∧
      (Sieve.empty.verdict (Text.lit "/p/a") false).ignored = false := by
  intro path
  have hread : (heavyFiles.read (Path.ofText path).toText).run = .ok heavyContent := by rfl
  have hstats : (heavyFiles.lstat (Path.ofText path).toText).run
      = .ok (.ofMode 0o120777 3) := by rfl
  have hhides : heavyFiles.HidesSize (Path.ofText path).toText := by
    refine ⟨.ofMode 0o120777 3, hstats, by decide, ?_⟩
    show (3 : Int) ≤ (1048576 : Nat)
    omega
  have hload : (IgnoreFile.load heavyFiles Sieve.empty.cache path).run.1
      = (IgnoreFile.parse Sieve.empty.cache (Text.lit "/p") (.text ['a']) (some path)).1 := by
    have hscope : (Path.ofText path).parent.toText = Text.lit "/p" := by decide
    have hsource : (Path.ofText path).toText = path := by decide
    rw [IgnoreFile.load_of_hidesSize hread hhides, hscope, hsource, heavyContent,
      IgnoreFile.parse_congr _ _ _ (Content.decoded_encode _)]
    exact IgnoreFile.parse_blanks (by decide) (by decide) (by decide) _ _ _ _
  obtain ⟨hfile, hdecides⟩ := Sieve.load_decides hload
  refine ⟨heavyFiles_reportsSizes, hread, maxSize_lt_heavyContent, ?_, ?_, ?_, by decide +kernel⟩
  · rw [hfile]
    decide +kernel
  · rw [hfile]
    decide +kernel
  · rw [(hdecides (Text.lit "/p/a") false).1]
    decide +kernel

end TreeSieve

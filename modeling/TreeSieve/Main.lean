import TreeSieve.Cli.Run

/-!
# The program

* `disk` is the file system of the machine and `diskHost` the host that commands run on.
* `main` runs the command line of the process: it prints what the command comes to, and ends with
  the exit code.

What the machine tells of an entry is its kind and its size but not who may use it, so an entry on
the disk is given the usual permissions of its kind. Sockets, pipes and devices are of unknown kind.
Lines in a log file carry no time.
-/

namespace TreeSieve

/-- A path of the machine. -/
def machinePath (path : Text) : IO.FS.DirEntry := ⟨String.ofList path, ""⟩

/-- The number of a failure. Some operations of the machine report it negated. -/
def plainNumber (code : UInt32) : Nat := min code.toNat (-code).toNat

/-- The cause of a failure, by the number and the wording under which the machine reports it. -/
def causeOf : IO.Error → Errno
  | .noFileOrDirectory _ code wording | .permissionDenied _ code wording
  | .inappropriateType _ code wording | .alreadyExists _ code wording
  | .invalidArgument _ code wording | .resourceExhausted _ code wording
  | .noSuchThing _ code wording | .interrupted _ code wording | .otherError code wording
  | .resourceBusy code wording | .resourceVanished code wording
  | .unsupportedOperation code wording | .hardwareFault code wording
  | .unsatisfiedConstraints code wording | .illegalOperation code wording
  | .protocolError code wording | .timeExpired code wording =>
    .ofFailure (plainNumber code) (Text.lit wording)
  | .unexpectedEof | .userError _ => .inputOutput

/-- Tries an operation on a path. -/
def attempt {α : Type} (path : Text) (operation : IO α) : IO (Except FileError α) := do
  try
    return .ok (← operation)
  catch e => return .error ⟨causeOf e, path⟩

/-- The kind of an entry on the disk. -/
def kindOf : IO.FS.FileType → EntryKind
  | .dir => .directory
  | .file => .file
  | .symlink => .symlink
  | .other => .unknown

/-- The usual permissions of a kind of entry. -/
def usualPermissions : EntryKind → Nat
  | .directory => 0o755
  | .symlink => 0o777
  | _ => 0o644

/-- What is known of an entry on the disk. -/
def statsOf (metadata : IO.FS.Metadata) : FileStats :=
  let kind := kindOf metadata.type
  .ofMode (kind.bits + usualPermissions kind) metadata.byteSize.toNat

/-- What is known of an entry on the disk; a link is not followed. -/
def lstatOnDisk (path : Text) : IO FileStats :=
  return statsOf (← (machinePath path).root.symlinkMetadata)

/-- The entries of a directory on the disk, in the order of their names. -/
def listOnDisk (path : Text) : IO (List ListedEntry) := do
  let found ← (machinePath path).root.readDir
  let entries ← found.toList.mapM fun entry => do
    let metadata ← entry.path.symlinkMetadata
    return ⟨Text.lit entry.fileName, kindOf metadata.type⟩
  return entries.mergeSort fun a b => Text.le a.name b.name

/-- The real path of a path on the disk. -/
def realPathOnDisk (path : Text) : IO Text :=
  return Text.lit (← IO.FS.realPath (machinePath path).root).toString

/-- The real path of the longest start of a path that exists, with the rest of the path behind it.
The components are taken off one by one, and stand in `rest` in order. -/
def realPathAsFar (start : PathStart) : List Text → List Text → IO Text
  | [], rest => return (Path.mk start rest).collapse.toText
  | name :: above, rest => do
    let here : Path := ⟨start, (name :: above).reverse⟩
    match ← attempt here.toText (realPathOnDisk here.toText) with
    | .ok real => return ((Path.ofText real).descend rest).collapse.toText
    | .error _ => realPathAsFar start above (name :: rest)

/-- The real path of a path, with everything kept that does not exist. -/
def lenientRealPath (path : Text) : IO Text :=
  let asked := Path.ofText path
  realPathAsFar asked.start asked.parts.reverse []

/-- The file system of the machine. -/
def disk : FileSystem IO where
  list path := attempt path (listOnDisk path)
  read path := attempt path do return (← IO.FS.readBinFile (machinePath path).root).toList
  lstat path := attempt path (lstatOnDisk path)
  stat path := attempt path do return statsOf (← (machinePath path).root.metadata)
  realPath path := attempt path (lenientRealPath path)

/-- Adds lines to a file. -/
def appendLines (path : Text) (lines : List Text) : IO Unit := do
  let handle ← IO.FS.Handle.mk (machinePath path).root .append
  for line in lines do
    handle.putStrLn (String.ofList line)

/-- The host of a process that runs in the given directory. -/
def diskHost (current : Path) : Host IO where
  files := disk
  current := current
  resolve path := do
    let asked := (current.join (Path.ofText path)).toText
    match ← disk.stat asked with
    | .error ⟨.tooManyLinks, _⟩ => return .error asked
    | _ => return .ok (← lenientRealPath asked)
  openLog path := do
    let directory := (Path.ofText path).parent.toText
    match ← attempt directory (IO.FS.createDirAll (machinePath directory).root) with
    | .error e => return .error e
    | .ok () =>
      attempt (Path.absolute current path).toText do
        discard (IO.FS.Handle.mk (machinePath path).root .append)
  addToLog path lines := do
    discard (attempt path (appendLines path lines))

/-- The environment variables of the process that matter. -/
def processEnvironment : IO Cli.Environment := do
  let value (name : String) : IO (Option Text) := return (← IO.getEnv name).map Text.lit
  let ignoreFiles ← value "IGNOREWALK_IGNORE_FILES"
  let own ← value "IGNOREWALK_LOG_LEVEL"
  let general ← value "LOG_LEVEL"
  return ⟨ignoreFiles, ⟨own, general⟩⟩

/-- Prints an outcome, and gives the exit code. -/
def report (outcome : Cli.Outcome) : IO UInt32 := do
  IO.print (String.ofList outcome.output)
  IO.eprint (String.ofList outcome.errorText)
  match outcome.ending with
  | .exit code => return code.toUInt32
  | .failed failure =>
    IO.eprintln (String.ofList failure.message)
    return 1

/-- Runs a command line, and gives the exit code. -/
def runProcess (arguments : List String) : IO UInt32 := do
  let current := Path.ofText (← realPathOnDisk Path.dot)
  let args := arguments.map Text.lit
  -- A walk looks at every entry once, and no disk holds more entries than this.
  let steps := 0x4000000000000000
  report (← Cli.run (diskHost current) (← processEnvironment) steps args)

end TreeSieve

/-- Runs the command line of the process. -/
def main (arguments : List String) : IO UInt32 := TreeSieve.runProcess arguments

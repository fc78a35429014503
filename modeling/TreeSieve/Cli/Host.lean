import TreeSieve.Files.Tree

/-!
# The system around the command line

* `Host` is what the commands need of it besides the file system.
* `Node.host` is the host of a tree of files that only the log file is added to. That file is made
  when it is opened, and the log is written to it at the end.
-/

namespace TreeSieve

/-- The system that commands run on. -/
structure Host (m : Type → Type) where
  /-- The file system. -/
  files : FileSystem m
  /-- The directory in which relative paths are read. -/
  current : Path
  /-- The path without links that a path leads to. A path that leads in a circle has none, and is
  given back as far as it could be followed. -/
  resolve : Text → m (Except Text Text)
  /-- Makes the directories that lead to a log file and opens it. -/
  openLog : Text → m (Except FileError Unit)
  /-- Adds lines to a log file that has been opened. -/
  addToLog : Text → List Text → m Unit

namespace Node

/-- The tree with a new directory at a path, whose parent has to be there already. -/
def makeDirectory (current path : Path) (root : Node) : Except Errno Node := do
  match (current.join path).parts.reverse with
  | [] => throw .alreadyExists
  | name :: above =>
    let (address, parent) ← resolveWithin root .disk true maxLinks [] (above.reverse ++ [Path.dot])
    if name = Path.dotDot || (parent.entry? name).isSome then throw .alreadyExists
    else if PathRules.disk.whyMissing name = .nameTooLong then throw .nameTooLong
    else return root.put emptyDirectory (address ++ [name])

/-- The tree with a directory at a path, which may be there already. -/
def ensureDirectory (current path : Path) (root : Node) : Except FileError Node :=
  match makeDirectory current path root with
  | .ok root => .ok root
  | .error .noSuchEntry => .error ⟨.noSuchEntry, path.toText⟩
  | .error cause =>
    match root.resolveOnDisk (current.join path).toText with
    | .ok (_, directory _ _ _) => .ok root
    | _ => .error ⟨cause, path.toText⟩

/-- The tree with a directory at a path and with those that lead there, of which the last `depth`
may be missing. -/
def ensureDirectories (current : Path) : Nat → Path → Node → Except FileError Node
  | 0, path, root => ensureDirectory current path root
  | depth + 1, path, root =>
    match ensureDirectory current path root with
    | .error ⟨.noSuchEntry, _⟩ => do
      ensureDirectory current path (← ensureDirectories current depth path.parent root)
    | result => result

/-- Where the file that a text names is, or where it is to be made: the last name may be missing, or
be a link that leads to nothing yet. Fewer than `links` links are followed from there, and a name
with a slash behind it is no file. -/
def placeToWrite (root : Node) : Nat → Address → Text → Except Errno Address
  | 0, _, _ => .error .tooManyLinks
  | links + 1, here, path => do
    match ((Text.split '/' path).filter fun name => !name.isEmpty).reverse with
    | [] => throw .isADirectory
    | name :: above =>
      let (address, parent) ←
        resolveWithin root .disk true maxLinks here (above.reverse ++ [Path.dot])
      if name = Path.dot || name = Path.dotDot || path.getLast? = some '/' then throw .isADirectory
      match parent.entry? name with
      | some (link _ _ target) =>
        let start := if (Path.startOf target).isRoot then [] else address
        placeToWrite root links start target
      | some (directory _ _ _) => throw .isADirectory
      | some (file _ _ _ _) => return address ++ [name]
      | none =>
        if PathRules.disk.whyMissing name = .nameTooLong then throw .nameTooLong
        else return address ++ [name]

/-- The tree with a log file at a path, and the address of that file. -/
def openLog (current : Path) (path : Text) (root : Node) : Except FileError (Node × Address) := do
  let directory := (Path.ofText path).parent
  let root ← ensureDirectories current directory.parts.length directory root
  let asked := Path.absolute current path
  match placeToWrite root (maxLinks + 1) [] asked.toText with
  | .error cause => throw ⟨cause, asked.toText⟩
  | .ok address =>
    match root.at? address with
    | some _ => return (root, address)
    | none => return (root.put (.file .file 0o644 0 []) address, address)

/-- The time as log lines begin with it; in a tree of files it stands still. -/
def timeStamp : Text := Text.lit "1970-01-01 00:00:00,000"

/-- The tree with lines added to the file at an address. -/
def addLines (root : Node) (address : Address) (lines : List Text) : Node :=
  match root.at? address with
  | some (file kind permissions size content) =>
    let written := lines.flatMap fun line => timeStamp ++ Text.lit " - " ++ line ++ ['\n']
    let added := Utf8.encode written
    root.put (file kind permissions (size + added.length) (content ++ added)) address
  | _ => root

/-- The file system of a tree that is kept as a state. -/
def storedFiles : FileSystem (StateM Node) where
  list path := do return (← (← get).diskFileSystem.list path)
  read path := do return (← (← get).diskFileSystem.read path)
  lstat path := do return (← (← get).diskFileSystem.lstat path)
  stat path := do return (← (← get).diskFileSystem.stat path)
  realPath path := do return (← (← get).diskFileSystem.realPath path)

/-- The real path of a path that is read in a directory, unless following it does not end. -/
def resolveFrom (current : Path) (path : Text) (root : Node) : Except Text Text :=
  let real := root.realPathLeniently current (Path.ofText path).toText
  match root.resolveOnDisk real with
  | .error ⟨.tooManyLinks, _⟩ => .error real
  | _ => .ok real

/-- The host of a tree that is kept as a state. -/
def host (current : Path) : Host (StateM Node) where
  files := storedFiles
  current := current
  resolve path := do return resolveFrom current path (← get)
  openLog path := do
    match openLog current path (← get) with
    | .ok (root, _) =>
      set root
      return .ok ()
    | .error e => return .error e
  addToLog path lines := do
    match openLog current path (← get) with
    | .ok (root, address) => set (root.addLines address lines)
    | .error _ => return

end Node

end TreeSieve

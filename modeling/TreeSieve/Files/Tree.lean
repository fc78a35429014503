import TreeSieve.Files.FileSystem
import TreeSieve.Files.PathRules

/-!
# Trees of files

A `Node` is a file, a link, or a directory with its entries; the root of a file system is a
directory.

* `Node.resolve` follows a path from the root through links, as far as forty of them.
* `Node.fileSystem` is the file system of a tree.
* `Node.realPathLeniently` resolves what it can of a path and keeps the rest.
* `Node.diskFileSystem` is the file system of a tree as it would be on a disk.
* `Node.put` and `Node.erase` change a tree.

A node is addressed by the names that lead to it from the root, all of them real: no link, no `.`
and no `..` among them.
-/

namespace TreeSieve

/-- A part of a tree of files. A file that is not a regular one has a kind of its own. -/
inductive Node where
  | file (kind : EntryKind) (permissions : Nat) (size : Int) (content : List UInt8)
  | link (permissions : Nat) (size : Int) (target : Text)
  | directory (permissions : Nat) (size : Int) (entries : List (Text × Node))

/-- The names that lead to a node from the root. -/
abbrev Address := List Text

namespace Node

/-- The kind of a node. -/
def kind : Node → EntryKind
  | file kind _ _ _ => kind
  | link _ _ _ => .symlink
  | directory _ _ _ => .directory

/-- The permission bits of a node. -/
def permissions : Node → Nat
  | file _ permissions _ _ => permissions
  | link permissions _ _ => permissions
  | directory permissions _ _ => permissions

/-- The size that a node reports. -/
def size : Node → Int
  | file _ _ size _ => size
  | link _ size _ => size
  | directory _ size _ => size

/-- What is known of a node. -/
def stats (n : Node) : FileStats := .ofMode (n.kind.bits ||| n.permissions) n.size

/-- An empty directory. -/
def emptyDirectory : Node := directory 0o755 0 []

/-- The entries of a directory; other nodes have none. -/
def entries : Node → List (Text × Node)
  | directory _ _ entries => entries
  | _ => []

/-- The entry of a directory with a name. -/
def entry? (n : Node) (name : Text) : Option Node := n.entries.lookup name

/-- The node at an address. -/
def at? (n : Node) : Address → Option Node
  | [] => some n
  | name :: rest =>
    match n.entry? name with
    | some child => child.at? rest
    | none => none

/-- The text of an address. -/
def addressText (address : Address) : Text := '/' :: Text.joinWith '/' address

/-- What becomes of a link on the way: where it stands, and the names to follow from there. -/
abbrev LinkFollower := Address → List Text → Except Errno (Address × Node)

/-- Follows names from the directory `here`. A link is handed to `follow` with the names behind it;
the last name is looked up without following it if `followLast` is false. -/
def resolveWith (root : Node) (rules : PathRules) (followLast : Bool) (follow : LinkFollower) :
    Address → List Text → Except Errno (Address × Node)
  | here, [] =>
    match root.at? here with
    | some node => .ok (here, node)
    | none => .error .noSuchEntry
  | here, name :: rest =>
    match root.at? here with
    | none => .error .noSuchEntry
    | some node =>
      if node.kind != .directory then .error .notADirectory
      else if name = Path.dot then resolveWith root rules followLast follow here rest
      else if name = Path.dotDot then resolveWith root rules followLast follow here.dropLast rest
      else
        match node.entry? name with
        | none => .error (rules.whyMissing name)
        | some (link _ _ target) =>
          if rest.isEmpty && !followLast then
            resolveWith root rules followLast follow (here ++ [name]) rest
          else
            let start := if (Path.startOf target).isRoot then [] else here
            follow start (rules.names target ++ rest)
        | some _ => resolveWith root rules followLast follow (here ++ [name]) rest

/-- Follows names through at most `links` links. -/
def resolveWithin (root : Node) (rules : PathRules) (followLast : Bool) : Nat → LinkFollower
  | 0 => resolveWith root rules followLast fun _ _ => .error .tooManyLinks
  | links + 1 => resolveWith root rules followLast (resolveWithin root rules followLast links)

/-- The number of links that one path may lead through. -/
def maxLinks : Nat := 40

/-- The address and the node that a path leads to. Relative paths begin at the root. -/
def resolve (root : Node) (rules : PathRules) (followLast : Bool) (path : Text) :
    Except FileError (Address × Node) :=
  if rules.refuses path then .error ⟨.nameTooLong, path⟩
  else
    match resolveWithin root rules followLast maxLinks [] (rules.names path) with
    | .ok found => .ok found
    | .error cause => .error ⟨cause, path⟩

/-- The file system of a tree whose paths are followed by the given rules, with the entries of a
directory in the order of the tree. -/
def fileSystemWith {m : Type → Type} [Monad m] (rules : PathRules) (root : Node) :
    FileSystem m where
  list path := pure do
    let (_, node) ← root.resolve rules true path
    if node.kind = .directory then
      return node.entries.map fun (name, child) => ⟨name, child.kind⟩
    else throw ⟨.notADirectory, path⟩
  read path := pure do
    match ← root.resolve rules true path with
    | (_, file _ _ _ content) => return content
    | _ => throw ⟨.isADirectory, path⟩
  lstat path := pure do
    let (_, node) ← root.resolve rules false path
    return node.stats
  stat path := pure do
    let (_, node) ← root.resolve rules true path
    return node.stats
  realPath path := pure do
    let (address, _) ← root.resolve rules true path
    return addressText address

/-- The file system of a tree. -/
def fileSystem {m : Type → Type} [Monad m] (root : Node) : FileSystem m :=
  root.fileSystemWith .plain

/-- The path that the names behind `here` lead to, as a text: one that begins with a slash starts at
the root. -/
def pathBehind (here : Path) (names : List Text) : Path :=
  here.join (Path.ofText (Text.joinWith '/' names))

/-- Resolves the links of a path as far as they lead somewhere. A relative path is looked up in the
directory `current` and stays relative. `names` are the pieces of its text between slashes, and
`pending` are the links being resolved, under the paths that led to them: at a link that leads back
to itself, and at one behind `depth` others, the rest of the text is kept as it is, and the path so
far is the error. -/
def resolveLeniently (root : Node) (current : Path) :
    Nat → List Path → Path → List Text → Except Path Path
  | 0, _, here, names => .error (pathBehind here names)
  | depth + 1, pending, here, names => walkNames depth pending here names
where
  /-- Follows names one after the other. -/
  walkNames (depth : Nat) (pending : List Path) : Path → List Text → Except Path Path
    | here, [] => .ok here
    | here, name :: rest =>
      if name.isEmpty || name = Path.dot then walkNames depth pending here rest
      else if name = Path.dotDot then walkNames depth pending here.up rest
      else
        let place := here.descend [name]
        match root.at? (current.join place).collapse.parts with
        | some (link _ _ target) =>
          if pending.contains place then .error (pathBehind place rest)
          else
            let start := if (Path.startOf target).isRoot then Path.rootDirectory else here
            match resolveLeniently root current depth (place :: pending) start
              (Text.split '/' target) with
            | .ok found => walkNames depth pending found rest
            | .error stuck => .error (pathBehind stuck rest)
        | _ => walkNames depth pending place rest

mutual

/-- The number of nodes of a tree. -/
def count : Node → Nat
  | directory _ _ entries => countEntries entries + 1
  | _ => 1

/-- The number of nodes of the given trees. -/
def countEntries : List (Text × Node) → Nat
  | [] => 0
  | (_, node) :: rest => node.count + countEntries rest

end

/-- The path without links that a path leads to from a directory, with everything kept that does not
exist. Each link can be met once under every path that leads up from the directory. -/
def realPathLeniently (root : Node) (current : Path) (path : Text) : Text :=
  let depth := (root.count + 1) * (current.parts.length + 2)
  let start : Path := ⟨if (Path.startOf path).isRoot then .root else .current, []⟩
  match root.resolveLeniently current depth [] start (Text.split '/' path) with
  | .ok found | .error found => (current.join found).collapse.toText

/-- The address and the node that a path leads to on a disk. -/
def resolveOnDisk (root : Node) (path : Text) : Except FileError (Address × Node) :=
  root.resolve .disk true path

/-- The file system of a tree as it would be on a disk, where every path has a real path. -/
def diskFileSystem {m : Type → Type} [Monad m] (root : Node) : FileSystem m :=
  { root.fileSystemWith .disk with
    realPath := fun path => pure (.ok (root.realPathLeniently Path.rootDirectory path)) }

/-- Puts an entry in its place among entries that are ordered by name. -/
def putEntry (name : Text) (node : Node) : List (Text × Node) → List (Text × Node)
  | [] => [(name, node)]
  | (other, old) :: rest =>
    if other = name then (name, node) :: rest
    else if Text.le name other then (name, node) :: (other, old) :: rest
    else (other, old) :: putEntry name node rest

/-- The tree with `node` at an address; directories that lead there are made. -/
def put (root node : Node) : Address → Node
  | [] => node
  | name :: rest =>
    let child := (root.entry? name).getD emptyDirectory
    match root with
    | directory permissions size entries =>
      directory permissions size (putEntry name (child.put node rest) entries)
    | _ => directory 0o755 0 [(name, child.put node rest)]

/-- Whether an address leads below a node that is no directory. -/
def isBelowFile : Node → Address → Bool
  | _, [] => false
  | directory _ _ entries, name :: rest =>
    match entries.lookup name with
    | some child => child.isBelowFile rest
    | none => false
  | _, _ :: _ => true

/-- The tree with `node` at an address, where a directory keeps the entries that are there. Nothing
can be below a node that is no directory. -/
def write (root node : Node) (address : Address) : Node :=
  if root.isBelowFile address then root
  else
    match node, root.at? address with
    | directory permissions size [], some (directory _ _ entries) =>
      root.put (directory permissions size entries) address
    | node, _ => root.put node address

/-- The tree without what is at an address. -/
def erase (root : Node) : Address → Node
  | [] => emptyDirectory
  | [name] =>
    match root with
    | directory permissions size entries =>
      directory permissions size (entries.filter fun entry => entry.1 != name)
    | other => other
  | name :: rest =>
    match root, root.entry? name with
    | directory permissions size entries, some child =>
      directory permissions size (putEntry name (child.erase rest) entries)
    | other, _ => other

end Node

end TreeSieve

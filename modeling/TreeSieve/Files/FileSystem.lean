import TreeSieve.Files.Entry
import TreeSieve.Files.Error

/-!
# File systems

A file system answers five questions about paths, in any monad: a pure one for a tree that does not
change, one with a state where answers may change from call to call, or `IO` for a disk.

* `FileSystem` is the interface.
* `FileSystem.recorded` notes the calls that are made, and `FileSystem.failing` makes chosen calls
  fail.
-/

namespace TreeSieve

/-- The operations on files that this library uses. -/
structure FileSystem (m : Type → Type) where
  /-- The entries of a directory. -/
  list : Text → m (Except FileError (List ListedEntry))
  /-- The bytes of a file. -/
  read : Text → m (Except FileError (List UInt8))
  /-- What is known of an entry; a link is not followed. -/
  lstat : Text → m (Except FileError FileStats)
  /-- What is known of the entry that a path leads to. -/
  stat : Text → m (Except FileError FileStats)
  /-- The path without links that a path leads to. -/
  realPath : Text → m (Except FileError Text)

/-- The operations of a file system. -/
inductive FileOperation where
  | list
  | read
  | lstat
  | stat
  | realPath
  deriving DecidableEq, Repr

/-- A call of a file system. -/
structure FileCall where
  operation : FileOperation
  path : Text
  deriving DecidableEq, Repr

namespace FileSystem

variable {m : Type → Type} [Monad m]

/-- Calls a file system after noting the call; the calls are noted last one first. -/
def note (operation : FileOperation) (call : Text → m α) (path : Text) :
    StateT (List FileCall) m α := do
  modify (⟨operation, path⟩ :: ·)
  StateT.lift (call path)

/-- The file system that notes every call. -/
def recorded (fs : FileSystem m) : FileSystem (StateT (List FileCall) m) where
  list := note .list fs.list
  read := note .read fs.read
  lstat := note .lstat fs.lstat
  stat := note .stat fs.stat
  realPath := note .realPath fs.realPath

/-- The file system on which the calls that `fault` has a cause for fail. -/
def failing (fault : FileOperation → Text → Option Errno) (fs : FileSystem m) : FileSystem m where
  list path := guarded .list fs.list path
  read path := guarded .read fs.read path
  lstat path := guarded .lstat fs.lstat path
  stat path := guarded .stat fs.stat path
  realPath path := guarded .realPath fs.realPath path
where
  /-- A call that fails if there is a cause for it. -/
  guarded {α : Type} (operation : FileOperation) (call : Text → m (Except FileError α))
      (path : Text) : m (Except FileError α) :=
    match fault operation path with
    | some cause => pure (.error ⟨cause, path⟩)
    | none => call path

end FileSystem

end TreeSieve

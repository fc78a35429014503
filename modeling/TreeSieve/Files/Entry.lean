import TreeSieve.Text.Basic

/-!
# Entries of directories

* `EntryKind` is the kind of an entry; `EntryKind.ofMode` reads it off a mode, and
  `EntryKind.ofNumber` off any number, which need not be a mode.
* `FileStats` is what is known of an entry: its kind, its size and its mode. A file system may
  answer with a kind of its own; `FileStats.ofMode` takes the kind from the mode.
-/

namespace TreeSieve

/-- The kind of an entry. -/
inductive EntryKind where
  | file
  | directory
  | blockDevice
  | characterDevice
  | fifo
  | socket
  | symlink
  | unknown
  deriving DecidableEq, Repr

namespace EntryKind

/-- The name under which a kind is reported. -/
def name : EntryKind → Text
  | file => Text.lit "file"
  | directory => Text.lit "directory"
  | blockDevice => Text.lit "block_device"
  | characterDevice => Text.lit "character_device"
  | fifo => Text.lit "fifo"
  | socket => Text.lit "socket"
  | symlink => Text.lit "symlink"
  | unknown => Text.lit "unknown"

/-- The bits of a mode that tell the kind; none of them are set for an unknown kind. -/
def bits : EntryKind → Nat
  | file => 0o100000
  | directory => 0o040000
  | blockDevice => 0o060000
  | characterDevice => 0o020000
  | fifo => 0o010000
  | socket => 0o140000
  | symlink => 0o120000
  | unknown => 0

/-- The kind of an entry with the given mode. -/
def ofMode (mode : Nat) : EntryKind :=
  ([directory, file, blockDevice, characterDevice, fifo, socket, symlink].find?
    fun kind => mode / 0o10000 % 0o20 * 0o10000 == kind.bits).getD unknown

end EntryKind

/-- Why a number is no mode: a mode has 32 bits, and numbers of more than 64 bits are told apart. -/
inductive ModeError where
  | negative
  | outOfRange
  | tooLarge
  deriving DecidableEq, Repr

/-- The wording of a number that is no mode. -/
def ModeError.message : ModeError → Text
  | negative => Text.lit "can't convert negative value to unsigned int"
  | outOfRange => Text.lit "mode out of range"
  | tooLarge => Text.lit "Python int too large to convert to C unsigned long"

/-- The mode that a number is. -/
def readMode : Int → Except ModeError Nat
  | .negSucc _ => .error .negative
  | .ofNat n =>
    if n < 0x100000000 then .ok n
    else if n < 0x10000000000000000 then .error .outOfRange
    else .error .tooLarge

/-- The kind of an entry whose mode is the given number. -/
def EntryKind.ofNumber (n : Int) : Except ModeError EntryKind := (readMode n).map ofMode

/-- The kind, the size and the mode of an entry, as the file system reports them, whatever they are.
-/
structure FileStats where
  kind : EntryKind
  size : Int
  mode : Nat
  deriving DecidableEq, Repr

namespace FileStats

/-- What is known of an entry whose mode tells its kind. -/
def ofMode (mode : Nat) (size : Int) : FileStats := ⟨EntryKind.ofMode mode, size, mode⟩

/-- What is known of an entry that reports these numbers. -/
def ofNumbers (mode size : Int) : Except ModeError FileStats := (readMode mode).map (ofMode · size)

/-- Whether the entry is a directory. -/
def isDirectory (s : FileStats) : Bool := s.kind == .directory

/-- Whether the entry is a regular file. -/
def isFile (s : FileStats) : Bool := s.kind == .file

/-- Whether the entry is a symbolic link. -/
def isSymlink (s : FileStats) : Bool := s.kind == .symlink

/-- The low twelve bits of the mode. -/
def permissionBits (s : FileStats) : Nat := s.mode % 0o10000

/-- The permissions in octal behind a zero. -/
def permissions (s : FileStats) : Text := '0' :: Text.octal s.permissionBits

end FileStats

/-- A name in a directory and the kind of its entry. -/
structure ListedEntry where
  name : Text
  kind : EntryKind
  deriving DecidableEq, Repr

end TreeSieve

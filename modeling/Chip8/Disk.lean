import Chip8.Word

/-!
# Files

What a command may do with files: read one as a whole, and write one as a whole. `FileStore` is that
interface; `Disk` is a store in memory, where a command can be run and reasoned about.

A path is followed name by name. All names but the last have to lead to directories, also when the next
one turns back with `..`. A slash behind the last name asks for a directory: a file is then refused, and
nothing can be created. A directory is there as soon as a file in it is; commands make none.
-/

namespace Chip8

/-- Why a file cannot be read or written. -/
inductive FileFault where
  | notFound
  | isDirectory
  | notDirectory
  | nameTooLong
  /-- The content was to be text but is no UTF-8. -/
  | notText
  | other (message : String)
  deriving DecidableEq, Repr

/-- What is said about a file that cannot be read or written. -/
def FileFault.message : FileFault → String
  | notFound => "No such file or directory (os error 2)"
  | notDirectory => "Not a directory (os error 20)"
  | isDirectory => "Is a directory (os error 21)"
  | nameTooLong => "File name too long (os error 36)"
  | notText => "stream did not contain valid UTF-8"
  | other message => message

/-- A monad in which files can be read and written. -/
class FileStore (m : Type → Type) where
  read : String → m (Except FileFault Bytes)
  write : String → Bytes → m (Except FileFault Unit)

/-! ## Text -/

/-- The bytes of a text. -/
def Bytes.ofText (s : String) : Bytes := s.toUTF8.data

/-- The text with these bytes. -/
def Bytes.text? (b : Bytes) : Option String := String.fromUTF8? ⟨b⟩

/-! ## Paths -/

/-- The names from the root down to a place. -/
abbrev Path := List String

namespace Path

/-- The names on a path as it is typed. Slashes in a row count as one. -/
def names (path : String) : List String :=
  ((path.toList.splitOnP (· == '/')).filter fun cs => !cs.isEmpty).map String.ofList

/-- Whether a path asks for a directory by a slash at its end. -/
def asksForDirectory (path : String) : Bool := path.toList.getLast? == some '/'

/-- Whether a path starts at the root. -/
def isAbsolute (path : String) : Bool := path.toList.head? == some '/'

/-- The longest name, in bytes. -/
def nameLimit : Nat := 255

/-- The longest path, in bytes. -/
def limit : Nat := 4095

/-- Whether a name turns back or stays where it is. -/
def isStep (name : String) : Bool := name == "." || name == ".."

/-- Where `.` or `..` leads. There is nothing above the root. -/
def step (here : Path) (name : String) : Path := if name == "." then here else here.dropLast

end Path

/-! ## Disks -/

/-- Files in memory, the latest version of each first. -/
structure Disk where
  files : List (Path × Bytes) := []
  /-- The directory where paths start that do not start at the root. -/
  workingDirectory : Path := []
  /-- A file that stays empty whatever is written to it. -/
  nullDevice : Path := ["dev", "null"]

/-- What there is at a place. -/
inductive Node where
  | directory
  | file (content : Bytes)
  deriving DecidableEq, Repr

namespace Disk

/-- Whether a directory is at a place. -/
def isDirectory (d : Disk) (p : Path) : Bool :=
  p.isPrefixOf d.workingDirectory ||
    (d.nullDevice :: d.files.map Prod.fst).any fun file => p.isPrefixOf file && p != file

/-- The content of the file at a place. -/
def content? (d : Disk) (p : Path) : Option Bytes :=
  if p = d.nullDevice then some #[] else d.files.lookup p

/-- What is at a place. -/
def node? (d : Disk) (p : Path) : Option Node :=
  if d.isDirectory p then some .directory else .file <$> d.content? p

/-- Looks up a name in a directory. -/
def find (d : Disk) (here : Path) (name : String) : Except FileFault (Option Node) :=
  if Path.nameLimit < name.utf8ByteSize then .error .nameTooLong
  else .ok (d.node? (here ++ [name]))

/-- Goes from a directory to the one that a name leads to. -/
def enter (d : Disk) (here : Path) (name : String) : Except FileFault Path :=
  if Path.isStep name then .ok (Path.step here name)
  else do
    match ← d.find here name with
    | some .directory => return here ++ [name]
    | some (.file _) => throw .notDirectory
    | none => throw .notFound

/--
The directory that a path leads into, and the last name on it. There is no last name if the path leads to
a directory by itself.
-/
def locate (d : Disk) (path : String) : Except FileFault (Path × Option String) :=
  if path.isEmpty then .error .notFound
  else if Path.limit < path.utf8ByteSize then .error .nameTooLong
  else do
    let names := Path.names path
    let start := if Path.isAbsolute path then [] else d.workingDirectory
    let here ← names.dropLast.foldlM d.enter start
    return (here, names.getLast?.filter fun name => !Path.isStep name)

/-- Reads the file at a path. -/
def read (path : String) (d : Disk) : Except FileFault Bytes := do
  match ← d.locate path with
  | (_, none) => throw .isDirectory
  | (here, some name) =>
    match ← d.find here name with
    | none => throw .notFound
    | some .directory => throw .isDirectory
    | some (.file content) =>
      if Path.asksForDirectory path then throw .notDirectory else return content

/-- Writes the file at a path. Its directory has to be there. -/
def write (path : String) (content : Bytes) (d : Disk) : Except FileFault Disk := do
  match ← d.locate path with
  | (_, none) => throw .isDirectory
  | (here, some name) =>
    if Path.asksForDirectory path then throw .isDirectory
    match ← d.find here name with
    | some .directory => throw .isDirectory
    | _ =>
      if here ++ [name] = d.nullDevice then return d
      else return { d with files := (here ++ [name], content) :: d.files }

instance : FileStore (StateM Disk) where
  read path := return (← get).read path
  write path content := do
    match (← get).write path content with
    | .ok d => set d; return .ok ()
    | .error e => return .error e

end Disk

end Chip8

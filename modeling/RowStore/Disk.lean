import RowStore.SipHash
import RowStore.Error

/-!
# RowStore.Disk: folders and files

A disk knows its folders and the contents of its files, each under its location: the names on the
way from the root.  A path is resolved name by name, so `.`, `..` and doubled slashes disappear,
every folder on the way has to exist, and one file has one location however it is written.
-/

namespace RowStore

/-- The names on the way from the root to a folder or file. -/
abbrev Location := List String

/-- A location as an absolute path. -/
def Location.text (location : Location) : String :=
  "/" ++ "/".intercalate location

/-- The location one name further along a path. -/
def Location.step (location : Location) (name : String) : Location :=
  if name = "" ∨ name = "." then location
  else if name = ".." then location.dropLast
  else location ++ [name]

/-- The location from which the names of a path are followed: the root for an absolute path. -/
def Location.base (folder : Location) (path : String) : Location :=
  if path.startsWith "/" then [] else folder

/-- A path seen from a folder, as the absolute path it stands for, letter by letter. -/
def Location.fullPath (folder : Location) (path : String) : String :=
  if path.startsWith "/" then path else folder.text ++ "/" ++ path

/-- The longest path, in bytes. -/
def maxPathBytes : Nat := 4095

/-- The longest name of a folder or file, in bytes. -/
def maxNameBytes : Nat := 255

/-- Whether a path can be followed from a folder at all: it is not too long and has no NUL. -/
def Location.canFollow (folder : Location) (path : String) : Bool :=
  (folder.fullPath path).utf8ByteSize ≤ maxPathBytes && !path.toList.contains '\x00'

/-- Folders and files. -/
structure Disk where
  folders : List Location := []
  files : List (Location × Bytes) := []
  deriving DecidableEq, Repr

namespace Disk

/-- Whether a folder exists.  The root does. -/
def isFolder (disk : Disk) (location : Location) : Bool :=
  location.isEmpty || disk.folders.contains location

/-- The folder one name further along a path, if there is one. -/
def enter (disk : Disk) (folder : Location) (name : String) : Option Location :=
  let next := folder.step name
  if disk.isFolder next then some next else none

/-- Whether a file can have this name. -/
def isFileName (name : String) : Bool :=
  name ≠ "" && name ≠ "." && name ≠ ".." && name.utf8ByteSize ≤ maxNameBytes

/-- The location of the file a path names, starting from `folder` when the path is relative. -/
def resolve (disk : Disk) (folder : Location) (path : String) : Option Location :=
  let names := path.splitOn "/"
  let name := names.getLastD ""
  if folder.canFollow path then
    match names.dropLast.foldlM disk.enter (folder.base path) with
    | none => none
    | some parent =>
      if isFileName name && !disk.isFolder (parent ++ [name]) then some (parent ++ [name])
      else none
  else
    none

/-- The disk with a folder, and the folders on the way to it. -/
def addFolder (disk : Disk) (location : Location) : Disk :=
  let ancestors := (List.range location.length).map fun depth => location.take (depth + 1)
  { disk with folders := disk.folders ++ ancestors }

/-- The disk with every folder on the way along the given names.  A name that no folder can have ends
the way. -/
def makeFolders : Disk → Location → List String → Disk
  | disk, _, [] => disk
  | disk, location, name :: names =>
    if name.utf8ByteSize ≤ maxNameBytes then
      let next := location.step name
      makeFolders (if disk.isFolder next then disk else disk.addFolder next) next names
    else
      disk

/-- The names of a path up to its last.  A path that ends in `.` asks for its last folder to be
there already, so the name before is left out. -/
def namesToMake (path : String) : List String :=
  let names := (path.splitOn "/").reverse.dropWhile fun name => name = ""
  if names.head? = some "." then
    ((names.dropWhile fun name => name = "" ∨ name = ".").drop 1).reverse
  else
    names.reverse

/-- The disk with the folder a path names, and all folders on the way. -/
def makePath (disk : Disk) (folder : Location) (path : String) : Disk :=
  if folder.canFollow path then disk.makeFolders (folder.base path) (namesToMake path) else disk

/-- The contents of a file; empty when there is none. -/
def contents (disk : Disk) (file : Location) : Bytes :=
  (disk.files.lookup file).getD []

/-- The disk with a file's whole contents replaced. -/
def write (disk : Disk) (file : Location) (bytes : Bytes) : Disk :=
  { disk with files := (file, bytes) :: disk.files.filter fun entry => entry.1 ≠ file }

/-- The disk with a file, which is empty when it is new. -/
def create (disk : Disk) (file : Location) : Disk :=
  disk.write file (disk.contents file)

/-- Reading a file back after a write gives what was written. -/
@[simp] theorem contents_write_self (disk : Disk) (file : Location) (bytes : Bytes) :
    (disk.write file bytes).contents file = bytes := by
  simp [write, contents]

end Disk

/-- The table identity that belongs to a file: the hash of its location, with zero keys. -/
def Location.tableId (location : Location) : TableId :=
  ⟨SipHash.hash 0 0 (Utf8.encode location.text.toList)⟩

end RowStore

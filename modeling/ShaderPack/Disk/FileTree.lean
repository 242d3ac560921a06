import ShaderPack.Bytes
import ShaderPack.Dict
import ShaderPack.Disk.Fault
import ShaderPack.Disk.Path

/-!
# File trees

A file tree holds directories and files under their places, a place being the list of names from the
root down. Paths are looked up name by name: each directory on the way has to exist, also one that
`..` leaves again.
-/

namespace ShaderPack

/-- What stands at a place. -/
inductive Entry where
  /-- A directory. -/
  | directory
  /-- A file with its bytes. -/
  | file (bytes : Bytes)
  deriving DecidableEq, Repr

/-- A place in a file tree: the names from the root down. -/
abbrev Place := List String

/-- Directories and files, and a directory that relative paths start from. -/
structure FileTree where
  /-- The directory that relative paths start from. -/
  workDir : Place
  /-- What stands at each place but the root. -/
  entries : Dict Place Entry

namespace FileTree

/-- What stands at a place. The root is a directory. -/
def entry? (t : FileTree) (p : Place) : Option Entry :=
  if p.isEmpty then some .directory else t.entries.find? p

/-- Put an entry at a place. -/
def put (t : FileTree) (p : Place) (e : Entry) : FileTree :=
  { t with entries := t.entries.insert p e }

/-- Make a place and all places above it directories, where there is nothing yet. -/
def makeDirectories (t : FileTree) (p : Place) : FileTree :=
  let above := (List.range (p.length + 1)).map fun n => p.take n
  above.foldl (fun t q => if (t.entry? q).isNone then t.put q .directory else t) t

/-- A tree that has only the directory that relative paths start from, and those above it. -/
def ofWorkDir (workDir : Place) : FileTree := makeDirectories ⟨workDir, .empty⟩ workDir

/-! ## Looking up paths -/

/-- The most bytes in a name. -/
def maxName : Nat := 255

/-- The first count of bytes that is too long for a path. -/
def pathLimit : Nat := 4096

/-- Go from a place to the place that a part of a path names. -/
def enter (t : FileTree) (p : Place) (part : String) : Except FileFault Place :=
  if t.entry? p ≠ some .directory then .error .notDirectory
  else if part = "." then .ok p
  else if part = ".." then .ok p.dropLast
  else if maxName < part.utf8ByteSize then .error .nameTooLong
  else if (t.entry? (p ++ [part])).isSome then .ok (p ++ [part])
  else .error .notFound

/-- The parts of a path that count: its names and dots. -/
def steps (path : String) : List String :=
  ((Path.parts path.toList).filter fun p => !p.isEmpty).map String.ofList

/-- The place that a path starts from. -/
def start (t : FileTree) (path : String) : Place := if Path.isAbsolute path then [] else t.workDir

/-- Whether a path ends with a slash, so that it has to name a directory. -/
def endsWithSlash (path : String) : Bool := path.toList.getLast? = some '/'

/-- Refuse a path that no file can have. -/
def checkPath (path : String) : Except FileFault Unit :=
  if path.toList.contains '\x00' then .error .nulInName
  else if pathLimit ≤ path.utf8ByteSize then .error .nameTooLong
  else if path.isEmpty then .error .notFound
  else .ok ()

/-- The place that a path names. -/
def locate (t : FileTree) (path : String) : Except FileFault Place := do
  checkPath path
  (steps path ++ if endsWithSlash path then ["."] else []).foldlM t.enter (t.start path)

/-! ## Reading and writing -/

/-- The bytes of the file at a path. -/
def read (t : FileTree) (path : String) : Except FileFault Bytes := do
  let p ← t.locate path
  match t.entry? p with
  | some (.file bytes) => .ok bytes
  | some .directory => .error .isDirectory
  | none => .error .notFound

/-- Write bytes to the file at a path, which is made if there is none. The directory it is to be in
has to exist. -/
def write (t : FileTree) (path : String) (bytes : Bytes) : Except FileFault FileTree := do
  checkPath path
  match (steps path).reverse with
  | [] => .error .isDirectory
  | name :: above =>
    let p ← above.reverse.foldlM t.enter (t.start path)
    if t.entry? p ≠ some .directory then .error .notDirectory
    else if endsWithSlash path || name = "." || name = ".." then .error .isDirectory
    else if maxName < name.utf8ByteSize then .error .nameTooLong
    else if t.entry? (p ++ [name]) = some .directory then .error .isDirectory
    else .ok (t.put (p ++ [name]) (.file bytes))

/-- Put a file or directory at a relative path, and the directories above it where there is nothing
yet. -/
def install (t : FileTree) (path : String) (e : Entry) : FileTree :=
  let p := (steps path).foldl
    (fun p s => if s = "." then p else if s = ".." then p.dropLast else p ++ [s]) t.workDir
  match e with
  | .directory => t.makeDirectories p
  | .file _ => (t.makeDirectories p.dropLast).put p e

end FileTree

end ShaderPack

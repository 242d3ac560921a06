import ShaderPack.Assembly.Error
import ShaderPack.Bytes
import ShaderPack.Disk.Path
import ShaderPack.Text.Utf8

/-!
# Source text

The code of a declaration is written in the declaration itself, or it is the path of a file that has
it. A path is told by its start, `./` or `../`.
-/

namespace ShaderPack

/-- How files are read: the bytes at a path, or why there are none. -/
abbrev Files := String → Except FileFault Bytes

namespace Source

/-- The most bytes in a source file. -/
def fileLimit : Nat := 256 * 1024

/-- Whether a text is the path of a source file. -/
def isPath (raw : String) : Bool :=
  match raw.toList with
  | '.' :: '/' :: _ => true
  | '.' :: '.' :: '/' :: _ => true
  | _ => false

/-- The text of the file at a path. -/
def ofFile (files : Files) (path : String) : Except AssemblyError Bytes :=
  match files path with
  | .error fault => .error (.fileUnreadable path fault)
  | .ok bytes =>
    if fileLimit < bytes.length then .error (.fileTooLarge path bytes.length fileLimit)
    else if Utf8.isValid bytes then .ok bytes
    else .error (.fileNotText path)

/-- The source text that `raw` stands for, files being taken from the directory `base`. -/
def load (files : Files) (base raw : String) : Except AssemblyError Bytes :=
  if isPath raw then ofFile files (Path.join base raw) else .ok (Utf8.encode raw)

end Source

end ShaderPack

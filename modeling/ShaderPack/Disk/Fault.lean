/-!
# File faults

Why a file cannot be read or written.
-/

namespace ShaderPack

/-- Why an operation on a file fails. -/
inductive FileFault where
  /-- Nothing has this path. -/
  | notFound
  /-- A part of the path that has to be a directory is a file. -/
  | notDirectory
  /-- The path is that of a directory. -/
  | isDirectory
  /-- The path, or one of its parts, is too long. -/
  | nameTooLong
  /-- The path holds a NUL character. -/
  | nulInName
  /-- Any other reason, in the words of the system. -/
  | other (text : String)
  deriving DecidableEq, Repr

/-- The text of a file fault. -/
def FileFault.message : FileFault → String
  | notFound => "No such file or directory (os error 2)"
  | notDirectory => "Not a directory (os error 20)"
  | isDirectory => "Is a directory (os error 21)"
  | nameTooLong => "File name too long (os error 36)"
  | nulInName => "file name contained an unexpected NUL byte"
  | other text => text

end ShaderPack

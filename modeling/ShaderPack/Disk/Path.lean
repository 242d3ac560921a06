/-!
# Paths

A path names a file by the names of directories with slashes between them. This module takes paths
as texts: it cuts them into names, joins them, and finds the directory of a path, without looking at
any file.
-/

namespace ShaderPack

namespace Path

/-- Cut at slashes, behind the names found and the one at hand (both latest first). -/
def partsFrom (name : List Char) (found : List (List Char)) : List Char → List (List Char)
  | [] => (name.reverse :: found).reverse
  | c :: rest =>
    if c = '/' then partsFrom [] (name.reverse :: found) rest else partsFrom (c :: name) found rest

/-- The texts between the slashes of a path, empty ones too. -/
def parts (path : List Char) : List (List Char) := partsFrom [] [] path

/-- Put texts together with slashes between them. -/
def joinParts (ps : List (List Char)) : List Char := (ps.intersperse ['/']).flatten

/-- Whether a path starts at the root. -/
def isAbsolute (path : String) : Bool := path.toList.head? = some '/'

/-- The path that `path` means when it is taken from the directory `base`. -/
def join (base path : String) : String :=
  if isAbsolute path || base.isEmpty then path
  else if base.toList.getLast? = some '/' then base ++ path
  else base ++ "/" ++ path

/-- Whether a part of a path changes nothing: it is empty or a single dot. -/
def isBlankPart (p : List Char) : Bool := p.isEmpty || p = ['.']

/-- Leave out the parts at the end that change nothing. -/
def trimEnd (ps : List (List Char)) : List (List Char) :=
  (ps.reverse.dropWhile isBlankPart).reverse

/-- What a path starts with apart from names (a slash, or a dot as its first part), and its parts
behind that. -/
def splitStart (path : List Char) : List Char × List (List Char) :=
  match path with
  | '/' :: rest => (['/'], parts rest)
  | ['.'] => (['.'], [])
  | '.' :: '/' :: rest => (['.'], parts ('/' :: rest))
  | _ => ([], parts path)

/-- The path without its last name; the rest stays as it is spelled, but for dots and slashes at its
end. The root and the empty path have none. -/
def parent? (path : String) : Option String :=
  let split := splitStart path.toList
  match (trimEnd split.2).reverse with
  | [] => if split.1 = ['.'] then some "" else none
  | _ :: before => some (String.ofList (split.1 ++ joinParts (trimEnd before.reverse)))

end Path

end ShaderPack

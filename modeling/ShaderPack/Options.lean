import ShaderPack.Json.Record

/-!
# Options

Options say where the source files of a program are, what a container's instructions point at, and
whether the code is checked.
-/

namespace ShaderPack

/-- What the instructions of a container point at. -/
inductive Mode where
  /-- One blob of flattened code for each shader. -/
  | legacy
  /-- Modules, whose imports the loader resolves. -/
  | runtime
  deriving DecidableEq, Repr

namespace Mode

/-- The name of a mode. -/
def name : Mode → String
  | legacy => "legacy"
  | runtime => "runtime"

/-- The mode with a name. -/
def ofName? (s : String) : Option Mode :=
  if s = legacy.name then some legacy else if s = runtime.name then some runtime else none

/-- A text with its ASCII letters in lower case. -/
def lowerCase (s : String) : String := String.ofList (s.toList.map Char.toLower)

/-- The mode with a name, whatever the case of its letters. The error is the name in lower case. -/
def parse (s : String) : Except String Mode :=
  match ofName? (lowerCase s) with
  | some m => .ok m
  | none => .error (lowerCase s)

/-- The mode that a tree stands for: its name, or an object with the name as only key and `null` as
its value. -/
def ofTree? (depth : Nat) : Json.Tree → Option Mode
  | .str (some s) => ofName? s
  | .obj [(some s, .null)] => if depth = 0 then none else ofName? s
  | _ => none

end Mode

/-- How a program is assembled. -/
structure Options where
  /-- The directory that the paths of source files start from. -/
  baseDir : String
  /-- What instructions point at. -/
  mode : Mode
  /-- Whether the code of every shader is checked. -/
  validate : Bool
  deriving DecidableEq, Repr

namespace Options

/-- The options when none are given. -/
def default : Options := ⟨".", .legacy, false⟩

/-- The fields of options. -/
def fieldNames : List String := ["baseDir", "mode", "validateWgsl"]

/-- The options that a tree stands for. -/
def ofTree? (depth : Nat) (t : Json.Tree) : Option Options :=
  match depth with
  | 0 => none
  | depth + 1 =>
    match Json.recordFields? fieldNames t with
    | some [baseDir, mode, validate] => do
      let baseDir ← Json.field? default.baseDir Json.string? baseDir
      let mode ← Json.field? default.mode (Mode.ofTree? depth) mode
      let validate ← Json.field? default.validate Json.bool? validate
      return ⟨baseDir, mode, validate⟩
    | _ => none

/-- The options that a JSON text stands for. -/
def parse? (text : String) : Option Options :=
  (Json.Tree.parse? text).bind (ofTree? Json.Value.maxDepth)

/-- Options as a JSON value. -/
def toValue (o : Options) : Json.Value :=
  .obj [("baseDir", .str o.baseDir), ("mode", .str o.mode.name), ("validateWgsl", .bool o.validate)]

end Options

end ShaderPack

import ShaderPack.Disk.Fault
import ShaderPack.Modules.Table
import ShaderPack.Wgsl.Diagnostic

/-!
# Errors of an assembly

An assembly ends early for one of a few reasons. The last of them, `defect`, means that the tables
of the assembly itself do not fit together; it takes a fault in this library to reach it.
-/

namespace ShaderPack

/-- How the tables of an assembly can fail to fit together. -/
inductive Defect where
  /-- The module table refused a module. -/
  | unregistrable (fault : RegisterFault)
  /-- A blob that was just stored has no place. -/
  | unplacedBlob (blob : UInt32)
  /-- The module table and the dependency table gave a module different ids. -/
  | tablesOutOfStep (table dependency : UInt32)
  deriving DecidableEq, Repr

/-- The text of a defect. -/
def Defect.message : Defect → String
  | unregistrable fault => fault.message
  | unplacedBlob blob => s!"blob {blob.toNat} has no span right after being added"
  | tablesOutOfStep _ _ => "dependency table out of step with registry"

/-- Why an assembly ends early. -/
inductive AssemblyError where
  /-- A source file is longer than allowed. -/
  | fileTooLarge (path : String) (size limit : Nat)
  /-- A source file cannot be read. -/
  | fileUnreadable (path : String) (fault : FileFault)
  /-- A source file is not text. -/
  | fileNotText (path : String)
  /-- Expansion made a text longer than allowed. -/
  | expansionOverflow (limit : Nat)
  /-- There is no room for more code. -/
  | storeOverflow (limit : Nat)
  /-- The flattened code of a declaration is refused. -/
  | invalidCode (kind : Kind) (name source : String) (diagnostic : Wgsl.Diagnostic)
  /-- The tables do not fit together. -/
  | defect (d : Defect)
  deriving DecidableEq, Repr

/-- The text of an error. -/
def AssemblyError.message : AssemblyError → String
  | fileTooLarge path size limit =>
    "shader source " ++ path ++ s!" is {size} bytes, over the {limit} byte limit"
  | fileUnreadable path _ => "failed to read shader source " ++ path
  | fileNotText path => "shader source " ++ path ++ " is not valid UTF-8"
  | expansionOverflow limit => s!"define substitution grew the code past the {limit} byte limit"
  | storeOverflow limit => s!"data section exceeds {limit} bytes"
  | invalidCode kind name source diagnostic => diagnostic.report kind name source
  | defect d => d.message

/-- The texts of an error and of what caused it, outermost first. -/
def AssemblyError.chain (e : AssemblyError) : List String :=
  match e with
  | fileUnreadable _ fault => [e.message, fault.message]
  | _ => [e.message]

end ShaderPack

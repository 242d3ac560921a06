import ShaderPack.Json.Record
import ShaderPack.Program.Basic

/-!
# Programs in JSON

A program is a record of `version`, `metadata`, `defines`, `wgsl` and `shaderModules`, each of which
can be left out. Its metadata are a record too, of which an array has to give all fields.

The defines, the declarations and their properties keep the order in which they are written. The
value of a define is a `Json.Value`, though, and an object inside it is sorted by key.
-/

namespace ShaderPack

namespace Metadata

/-- The fields of metadata. -/
def fieldNames : List String := ["name", "created", "modified"]

/-- Whether a tree is an array that leaves fields out. -/
def isShortArray : Json.Tree → Bool
  | .arr items => items.length < fieldNames.length
  | _ => false

/-- The metadata that a tree stands for. -/
def ofTree? (depth : Nat) (t : Json.Tree) : Option Metadata :=
  if depth = 0 || isShortArray t then none
  else
    match Json.recordFields? fieldNames t with
    | some [name, created, modified] => do
      let name ← Json.field? "" Json.string? name
      let created ← Json.field? none Json.optionalString? created
      let modified ← Json.field? none Json.optionalString? modified
      return ⟨name, created, modified⟩
    | _ => none

/-- A string that may be absent. -/
def optionalValue : Option String → Json.Value
  | none => .null
  | some s => .str s

/-- Metadata as a JSON value. -/
def toValue (m : Metadata) : Json.Value :=
  .obj [("name", .str m.name), ("created", optionalValue m.created),
    ("modified", optionalValue m.modified)]

end Metadata

namespace Program

/-- The fields of a program. -/
def fieldNames : List String := ["version", "metadata", "defines", "wgsl", "shaderModules"]

/-- The program that a tree stands for. -/
def ofTree? (depth : Nat) (t : Json.Tree) : Option Program :=
  match depth with
  | 0 => none
  | depth + 1 =>
    match Json.recordFields? fieldNames t with
    | some [version, metadata, defines, fragments, shaderModules] => do
      let version ← Json.field? "" Json.string? version
      let metadata ← Json.field? .empty (Metadata.ofTree? depth) metadata
      let defines ← Json.field? .empty (Json.dict? Json.Value.ofTree? depth) defines
      let fragments ← Json.field? .empty (Json.dict? Declaration.ofTree? depth) fragments
      let shaderModules ← Json.field? .empty (Json.dict? Declaration.ofTree? depth) shaderModules
      return ⟨version, metadata, defines, fragments, shaderModules⟩
    | _ => none

/-- The program that a JSON text stands for. -/
def parse? (text : String) : Option Program :=
  (Json.Tree.parse? text).bind (ofTree? Json.Value.maxDepth)

/-- A program as a JSON value. -/
def toValue (p : Program) : Json.Value :=
  .obj [("version", .str p.version), ("metadata", p.metadata.toValue),
    ("defines", Json.ofDict id p.defines), ("wgsl", Json.ofDict Declaration.toValue p.fragments),
    ("shaderModules", Json.ofDict Declaration.toValue p.shaderModules)]

/-- A program as a JSON text. -/
def render (p : Program) : String := p.toValue.compact

end Program

end ShaderPack

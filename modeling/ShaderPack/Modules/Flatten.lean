import ShaderPack.Container.BlobStore
import ShaderPack.Dict
import ShaderPack.Modules.Closure
import ShaderPack.Text.Utf8

/-!
# Flattened code

A shader has to be one text. Flattening puts the code of everything a module reaches in front of the
module's own code, each with a line break behind it. `CodeCache` keeps the flattened code of
fragments under their names.
-/

namespace ShaderPack

namespace ModuleTable

/-- A line break. -/
def lineBreak : UInt8 := 0x0A

/-- What a module adds to the text of a module that reaches it: its code and a line break, or
nothing if it has no code. -/
def contribution (t : ModuleTable) (store : BlobStore) (id : UInt32) : Bytes :=
  match (t.get? id).bind fun m => store.blob? m.blob with
  | none => []
  | some code => if code.isEmpty then [] else code ++ [lineBreak]

/-- The code of everything `deps` reach, then `own`. -/
def flatten (t : ModuleTable) (store : BlobStore) (deps : List UInt32) (own : Bytes) : Bytes :=
  (t.closure deps).order.flatMap (t.contribution store) ++ own

end ModuleTable

/-- The flattened code of fragments, by name. -/
abbrev CodeCache := Dict String Bytes

/-- The flattened code of a fragment, read as text. -/
def CodeCache.text? (c : CodeCache) (name : String) : Option String :=
  (c.find? name).map Utf8.decodeLossy

end ShaderPack

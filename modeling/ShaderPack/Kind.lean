/-!
# Kinds of declarations

A program declares two kinds of things that hold shader code: fragments, which other declarations
can import, and shader modules, which a pipeline uses.
-/

namespace ShaderPack

/-- The two kinds of declarations that hold code. -/
inductive Kind where
  /-- An importable piece of WGSL. -/
  | fragment
  /-- A shader module. -/
  | shaderModule
  deriving DecidableEq, Repr

/-- The name of a kind in messages and summaries. -/
def Kind.name : Kind → String
  | fragment => "wgsl"
  | shaderModule => "shaderModule"

end ShaderPack

import ShaderPack.Kind

/-!
# Events

What can be mended on the spot (a missing import, a cycle, empty code) is no error. It is noted as
an event. An event has a level, a fixed message and named fields.
-/

namespace ShaderPack

/-- How much an event matters. -/
inductive Level where
  /-- Of use when looking for the reason of a result. -/
  | debug
  /-- A step is done. -/
  | info
  /-- The result may not be what was meant. -/
  | warn
  deriving DecidableEq, Repr

/-- The name of a level. -/
def Level.name : Level → String
  | debug => "DEBUG"
  | info => "INFO"
  | warn => "WARN"

/-- The value of a field of an event. -/
inductive FieldValue where
  /-- A text. -/
  | text (s : String)
  /-- A count. -/
  | count (n : Nat)
  deriving DecidableEq, Repr

/-- Something noted on the way. -/
inductive Event where
  /-- The last `remaining` fragments of the schedule depend on a cycle. -/
  | cycleDrained (remaining : Nat)
  /-- The text still changed in the last of `passes` expansion passes. -/
  | expansionUnsettled (passes : Nat)
  /-- The walk over imports took `limit` steps and was cut off with `included` modules found. -/
  | closureCutOff (limit included : Nat)
  /-- A fragment has no code. -/
  | emptyFragment (fragment : String)
  /-- A shader module has no code property. -/
  | missingCode (shaderModule : String)
  /-- A shader module uses a fragment for which no code is stored. -/
  | danglingReference (shaderModule fragment : String)
  /-- A shader module has empty code. -/
  | emptyShaderModule (shaderModule : String)
  /-- An import names no stored module. -/
  | importDropped (owner target : String)
  /-- There was no code to store for a declaration. -/
  | nothingStored (kind : Kind) (name : String)
  /-- All declarations are done. -/
  | assembled (fragments shaderModules modules shaders : Nat)
  /-- The container is written to a file. -/
  | written (path : String) (bytes : Nat)
  deriving DecidableEq, Repr

namespace Event

/-- How much an event matters. -/
def level : Event → Level
  | cycleDrained .. => .warn
  | expansionUnsettled .. => .warn
  | closureCutOff .. => .warn
  | emptyFragment .. => .debug
  | missingCode .. => .debug
  | danglingReference .. => .debug
  | emptyShaderModule .. => .debug
  | importDropped .. => .debug
  | nothingStored .. => .debug
  | assembled .. => .info
  | written .. => .info

/-- The message of an event. -/
def message : Event → String
  | cycleDrained .. =>
    "dependency cycle among wgsl fragments; emitting the rest in declaration order"
  | expansionUnsettled .. =>
    "define substitution did not converge; a define probably refers to itself"
  | closureCutOff .. => "import resolution hit its stack bound; resolved code is truncated"
  | emptyFragment .. => "empty wgsl fragment; no module or shader handle"
  | missingCode .. => "shader module without code"
  | danglingReference .. => "shader module references a fragment with no stored code"
  | emptyShaderModule .. => "empty shader module; no shader handle"
  | importDropped .. => "dropping import with no stored module"
  | nothingStored .. => "no code to store; no shader handle"
  | assembled .. => "emitted shader modules"
  | written .. => "wrote artifact"

/-- The named fields of an event. -/
def fields : Event → List (String × FieldValue)
  | cycleDrained remaining => [("remaining", .count remaining)]
  | expansionUnsettled passes => [("passes", .count passes)]
  | closureCutOff limit included => [("limit", .count limit), ("included", .count included)]
  | emptyFragment fragment => [("fragment", .text fragment)]
  | missingCode shaderModule => [("shader_module", .text shaderModule)]
  | danglingReference shaderModule fragment =>
    [("shader_module", .text shaderModule), ("fragment", .text fragment)]
  | emptyShaderModule shaderModule => [("shader_module", .text shaderModule)]
  | importDropped owner target => [("from", .text owner), ("import", .text target)]
  | nothingStored kind name => [("kind", .text kind.name), ("name", .text name)]
  | assembled fragments shaderModules modules shaders =>
    [("fragments", .count fragments), ("shader_modules", .count shaderModules),
      ("modules", .count modules), ("shaders", .count shaders)]
  | written path bytes => [("path", .text path), ("bytes", .count bytes)]

/-- A field as it is shown behind a message. -/
def renderField (f : String × FieldValue) : String :=
  " " ++ f.1 ++ "=" ++ match f.2 with
    | .text s => s
    | .count n => toString n

/-- An event on one line. -/
def render (e : Event) : String :=
  e.level.name ++ " " ++ e.message ++ String.join (e.fields.map renderField)

end Event

end ShaderPack

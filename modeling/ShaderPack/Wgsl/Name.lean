/-!
# Names in shader code

A word of shader code is a name, unless the language has it for itself: the words for its types, the
words of its grammar, and words that it sets aside for later. A lone underscore is no name either,
and names with two underscores in front are left to implementations. `nameFault?` tells which of
these rules a word breaks.
-/

namespace ShaderPack

namespace Wgsl

/-- The words for types. -/
def typeWords : List String :=
  ["array", "atomic", "bool", "f32", "f16", "i32", "i64", "mat2x2", "mat2x3", "mat2x4",
    "mat3x2", "mat3x3", "mat3x4", "mat4x2", "mat4x3", "mat4x4", "ptr", "sampler",
    "sampler_comparison", "texture_1d", "texture_2d", "texture_2d_array", "texture_3d",
    "texture_cube", "texture_cube_array", "texture_multisampled_2d", "texture_storage_1d",
    "texture_storage_2d", "texture_storage_2d_array", "texture_storage_3d", "texture_depth_2d",
    "texture_depth_2d_array", "texture_depth_cube", "texture_depth_cube_array",
    "texture_depth_multisampled_2d", "u32", "u64", "vec2", "vec3", "vec4"]

/-- The words of the grammar. -/
def grammarWords : List String :=
  ["alias", "bitcast", "break", "case", "const", "continue", "continuing", "default", "discard",
    "else", "enable", "false", "fn", "for", "if", "let", "loop", "override", "return", "struct",
    "switch", "true", "type", "var", "while"]

/-- The words that are set aside. -/
def spareWords : List String :=
  ["CompileShader", "ComputeShader", "DomainShader", "GeometryShader", "Hullshader", "NULL",
    "Self", "abstract", "active", "alignas", "alignof", "as", "asm", "asm_fragment", "async",
    "attribute", "auto", "await", "become", "binding_array", "cast", "catch", "class",
    "co_await", "co_return", "co_yield", "coherent", "column_major", "common", "compile",
    "compile_fragment", "concept", "const_cast", "consteval", "constexpr", "constinit", "crate",
    "debugger", "decltype", "delete", "demote", "demote_to_helper", "do", "dynamic_cast",
    "enum", "explicit", "export", "extends", "extern", "external", "fallthrough", "filter",
    "final", "finally", "friend", "from", "fxgroup", "get", "goto", "groupshared", "handle",
    "highp", "impl", "implements", "import", "inline", "inout", "instanceof", "interface",
    "layout", "lowp", "macro", "macro_rules", "match", "mediump", "meta", "mod", "module",
    "move", "mut", "mutable", "namespace", "new", "nil", "noexcept", "noinline",
    "nointerpolation", "noperspective", "null", "nullptr", "of", "operator", "package",
    "packoffset", "partition", "pass", "patch", "pixelfragment", "precise", "precision",
    "premerge", "priv", "protected", "pub", "public", "readonly", "ref", "regardless",
    "register", "reinterpret_cast", "requires", "resource", "restrict", "self", "set", "shared",
    "signed", "sizeof", "smooth", "snorm", "static", "static_assert", "static_cast", "std",
    "subroutine", "super", "target", "template", "this", "thread_local", "throw", "trait",
    "try", "typedef", "typeid", "typename", "typeof", "union", "unless", "unorm", "unsafe",
    "unsized", "use", "using", "varying", "virtual", "volatile", "wgsl", "where", "with",
    "writeonly", "yield"]

/-- Whether the language has a word for itself. -/
def isReserved (word : String) : Bool :=
  typeWords.contains word || grammarWords.contains word || spareWords.contains word

/-- Why a word is no name, if it is none. -/
def nameFault? (word : String) : Option String :=
  match word.toList with
  | ['_'] => some "Identifier can't be '_'"
  | '_' :: '_' :: _ => some ("Identifier starts with a reserved prefix: '" ++ word ++ "'")
  | _ => if isReserved word then some ("name `" ++ word ++ "` is a reserved keyword") else none

end Wgsl

end ShaderPack

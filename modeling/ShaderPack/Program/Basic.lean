import ShaderPack.Program.Declaration

/-!
# Programs

A program gives values to names (defines) and declares fragments and shader modules. All of them
keep the order of their declaration.
-/

namespace ShaderPack

/-- Facts about a program that have no effect on its code. -/
structure Metadata where
  /-- The name of the program. -/
  name : String
  /-- When it was made, if that is known. -/
  created : Option String
  /-- When it was changed, if that is known. -/
  modified : Option String
  deriving DecidableEq, Repr

/-- Metadata that says nothing. -/
def Metadata.empty : Metadata := ⟨"", none, none⟩

/-- A program. -/
structure Program where
  /-- The version of the program's format. -/
  version : String
  /-- Facts without effect on the code. -/
  metadata : Metadata
  /-- The values of names. -/
  defines : Dict String Json.Value
  /-- The fragments. -/
  fragments : Dict String Declaration
  /-- The shader modules. -/
  shaderModules : Dict String Declaration

namespace Program

/-- The program without declarations. -/
def empty : Program := ⟨"", .empty, .empty, .empty, .empty⟩

instance : Inhabited Program := ⟨empty⟩

/-- The text that stands for a define's value: a string itself, a number or truth value as JSON
spells it. Other values have no text. -/
def defineText? : Json.Value → Option String
  | .str s => some s
  | .num n => some (String.ofList n.toNumeral.render)
  | .bool b => some (if b then "true" else "false")
  | _ => none

/-- The texts of the defines that have one. -/
def defineTexts (p : Program) : Dict String String :=
  Dict.ofList (p.defines.entries.filterMap fun e => (defineText? e.2).map fun s => (e.1, s))

/-- For each fragment the places of the fragments it imports. An import that is not declared has the
place behind the last. -/
def importPlaces (p : Program) : List (List Nat) :=
  p.fragments.values.map fun d =>
    (Declaration.imports d).map fun name => (p.fragments.position? name).getD p.fragments.size

end Program

end ShaderPack

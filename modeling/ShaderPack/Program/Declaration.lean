import ShaderPack.Dict
import ShaderPack.Modules.Closure
import ShaderPack.Program.Property

/-!
# Declarations

A declaration is a bag of properties. Three of them have a meaning here: `value` is the code of a
fragment, `code` that of a shader module, and `imports` lists the fragments whose code has to come
before.
-/

namespace ShaderPack

/-- The properties of a declaration, by name. -/
abbrev Declaration := Dict String Property

namespace Declaration

/-- The fragments that a declaration imports: the first references of its list of imports. What is
no reference is passed over, and a name may come up more than once. -/
def imports (d : Declaration) : List String :=
  match (d.find? "imports").bind Property.items? with
  | none => []
  | some items => (items.filterMap Property.reference?).take maxImports

/-- The code of a fragment: the text of its `value`, or nothing. -/
def fragmentCode (d : Declaration) : String :=
  ((d.find? "value").bind Property.text?).getD ""

/-- The property that has the code of a shader module. -/
def codeProperty? (d : Declaration) : Option Property := d.find? "code"

end Declaration

namespace Json

/-- Read an object as a dictionary, each member with `f`, behind what was read before. A repeated
key keeps its place and takes the last value. -/
def dictFrom? {α : Type} (f : Tree → Option α) (found : Dict String α) :
    List (Option String × Tree) → Option (Dict String α)
  | [] => some found
  | (none, _) :: _ => none
  | (some k, t) :: rest =>
    match f t with
    | none => none
    | some v => dictFrom? f (found.insert k v) rest

/-- Read an object as a dictionary, nesting at most `depth` arrays and objects; `f` reads a member
with the depth that is left. -/
def dict? {α : Type} (f : Nat → Tree → Option α) (depth : Nat) : Tree → Option (Dict String α)
  | .obj members =>
    match depth with
    | 0 => none
    | depth + 1 => dictFrom? (f depth) .empty members
  | _ => none

/-- A dictionary as an object. -/
def ofDict {α : Type} (f : α → Value) (d : Dict String α) : Value :=
  .obj (d.entries.map fun e => (e.1, f e.2))

end Json

namespace Declaration

/-- The declaration that a tree stands for. -/
def ofTree? (depth : Nat) (t : Json.Tree) : Option Declaration :=
  Json.dict? Property.ofTree? depth t

/-- The declaration that a JSON text stands for. -/
def parse? (text : String) : Option Declaration :=
  (Json.Tree.parse? text).bind (ofTree? Json.Value.maxDepth)

/-- A declaration as a JSON value. -/
def toValue (d : Declaration) : Json.Value := Json.ofDict Property.toValue d

end Declaration

end ShaderPack

import ShaderPack.Json.Value

/-!
# Properties of declarations

A property is a name, a text, a number, a truth value or a list of properties. In JSON a name is an
object whose key `ident` has the name, so that it differs from a text.

A property refers to a fragment if it is a name, or a text that starts with `$wgsl.` and goes on.
-/

namespace ShaderPack

/-- The value of a property. -/
inductive Property where
  /-- A name. -/
  | ident (name : String)
  /-- A text. -/
  | text (s : String)
  /-- A number. -/
  | number (x : Float)
  /-- A truth value. -/
  | bool (b : Bool)
  /-- A list. -/
  | list (items : List Property)

namespace Property

/-- The text of a property that is one. -/
def text? : Property → Option String
  | text s => some s
  | _ => none

/-- The items of a property that is a list. -/
def items? : Property → Option (List Property)
  | list items => some items
  | _ => none

/-- What a text that refers to a fragment starts with. -/
def referenceMark : List Char := ['$', 'w', 'g', 's', 'l', '.']

/-- The name of the fragment that a property refers to. -/
def reference? : Property → Option String
  | ident name => some name
  | text s =>
    if referenceMark.isPrefixOf s.toList then
      let name := s.toList.drop referenceMark.length
      if name.isEmpty then none else some (String.ofList name)
    else none
  | _ => none

/-! ## Reading -/

/-- The key of the object that stands for a name. -/
def identKey : String := "ident"

/-- The name that the members of an object give: exactly one of them has the key `ident`, and its
value is a string. The others may have any value. -/
def identOf? (depth : Nat) (members : List (Option String × Json.Tree)) : Option Property :=
  if members.all fun m => m.1.isSome && (Json.Value.ofTree? depth m.2).isSome then
    match members.filter fun m => m.1 = some identKey with
    | [(_, .str (some name))] => some (ident name)
    | _ => none
  else none

mutual

/-- The property that a tree stands for, nesting at most `depth` arrays and objects. -/
def ofTree? (depth : Nat) : Json.Tree → Option Property
  | .null => none
  | .bool b => some (bool b)
  | .num n => n.value?.map fun x => number x.toFloat
  | .str s => s.map text
  | .arr items =>
    match depth with
    | 0 => none
    | depth + 1 => (ofItems? depth [] items).map list
  | .obj members =>
    match depth with
    | 0 => none
    | depth + 1 => identOf? depth members

/-- The properties that trees stand for, behind those found (latest first). -/
def ofItems? (depth : Nat) (found : List Property) : List Json.Tree → Option (List Property)
  | [] => some found.reverse
  | t :: rest =>
    match ofTree? depth t with
    | none => none
    | some p => ofItems? depth (p :: found) rest

end

/-- The property that a JSON text stands for. -/
def parse? (text : String) : Option Property :=
  (Json.Tree.parse? text).bind (ofTree? Json.Value.maxDepth)

/-! ## Writing -/

mutual

/-- A property as a JSON value. -/
def toValue : Property → Json.Value
  | ident name => .obj [(identKey, .str name)]
  | text s => .str s
  | number x => .num (.float x)
  | bool b => .bool b
  | list items => .arr (toValues items)

/-- Properties as JSON values. -/
def toValues : List Property → List Json.Value
  | [] => []
  | p :: rest => p.toValue :: toValues rest

end

end Property

end ShaderPack

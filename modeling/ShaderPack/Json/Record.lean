import ShaderPack.Json.Value

/-!
# Records in JSON

A record with named fields is written as an object, or as an array of its fields in order. An object
may have other members, which are not looked at; a field may not come twice. A field can be left
out, in an array together with all fields behind it.
-/

namespace ShaderPack

namespace Json

/-- The member with a key: `none` if the key comes twice, `some none` if it does not come. -/
def memberOnce? (members : List (Option String × Tree)) (key : String) : Option (Option Tree) :=
  match members.filter fun m => m.1 = some key with
  | [] => some none
  | [m] => some (some m.2)
  | _ => none

/-- The fields of a record, in the order of `names`; a field that is left out is `none`. -/
def recordFields? (names : List String) : Tree → Option (List (Option Tree))
  | .obj members =>
    if members.all fun m => m.1.isSome then names.mapM (memberOnce? members) else none
  | .arr items =>
    if items.length ≤ names.length then
      some (items.map some ++ List.replicate (names.length - items.length) none)
    else none
  | _ => none

/-- Read a field with `f`; one that is left out has a default. -/
def field? {α : Type} (default : α) (f : Tree → Option α) : Option Tree → Option α
  | none => some default
  | some t => f t

/-- The string of a tree that is one. -/
def string? : Tree → Option String
  | .str s => s
  | _ => none

/-- The truth value of a tree that is one. -/
def bool? : Tree → Option Bool
  | .bool b => some b
  | _ => none

/-- A string that may also be `null`. -/
def optionalString? : Tree → Option (Option String)
  | .null => some none
  | .str s => s.map some
  | _ => none

end Json

end ShaderPack

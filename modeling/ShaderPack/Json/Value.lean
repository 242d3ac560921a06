import ShaderPack.Json.Tree

/-!
# JSON values

A value is what a JSON text means. It is read under the full rules: strings have values, numbers are
in range, nothing nests deeper than `Value.maxDepth`, and an object has each key once, in the order
of the keys, the last member with a key giving its value.

These are the rules of `serde_json` with its default features: the members of an object are sorted
(they do not keep the order in which they are written), a number that is not whole is read in two
roundings (`Number`), and the depth is bounded. Whoever needs the order of insertion reads the tree
of the text instead, into a `Dict`.

`Value.compact` writes a value without blanks, `Value.pretty` with one item on a line. Both write
the members of an object in the order in which the value lists them.
-/

namespace ShaderPack

namespace Json

/-- What a JSON text means. -/
inductive Value where
  /-- The word `null`. -/
  | null
  /-- A truth value. -/
  | bool (b : Bool)
  /-- A number. -/
  | num (n : Number)
  /-- A string. -/
  | str (s : String)
  /-- An array. -/
  | arr (items : List Value)
  /-- An object. -/
  | obj (members : List (String × Value))

instance : Inhabited Value := ⟨.null⟩

namespace Value

/-- The deepest nesting of arrays and objects. -/
def maxDepth : Nat := 127

/-! ## Reading -/

/-- Give a key its value in a list of members that is sorted by key. -/
def insertMember (k : String) (v : Value) : List (String × Value) → List (String × Value)
  | [] => [(k, v)]
  | (k', v') :: rest =>
    if k < k' then (k, v) :: (k', v') :: rest
    else if k = k' then (k, v) :: rest
    else (k', v') :: insertMember k v rest

mutual

/-- The value of a tree that nests at most `depth` arrays and objects. -/
def ofTree? (depth : Nat) : Tree → Option Value
  | .null => some .null
  | .bool b => some (.bool b)
  | .num n => n.value?.map .num
  | .str s => s.map .str
  | .arr items =>
    match depth with
    | 0 => none
    | depth + 1 => (ofItems? depth [] items).map .arr
  | .obj members =>
    match depth with
    | 0 => none
    | depth + 1 => (ofMembers? depth [] members).map .obj

/-- The values of trees, behind those found (latest first). -/
def ofItems? (depth : Nat) (found : List Value) : List Tree → Option (List Value)
  | [] => some found.reverse
  | t :: rest =>
    match ofTree? depth t with
    | none => none
    | some v => ofItems? depth (v :: found) rest

/-- The members of an object, put in with those found, sorted by key. -/
def ofMembers? (depth : Nat) (found : List (String × Value)) :
    List (Option String × Tree) → Option (List (String × Value))
  | [] => some found
  | (none, _) :: _ => none
  | (some k, t) :: rest =>
    match ofTree? depth t with
    | none => none
    | some v => ofMembers? depth (insertMember k v found) rest

end

/-! ## Writing without blanks -/

mutual

/-- The tokens of a value. -/
def tokens : Value → List Token
  | .null => [.null]
  | .bool b => [.bool b]
  | .num n => [.num n.toNumeral]
  | .str s => [.str (some s)]
  | .arr [] => [.openArray, .closeArray]
  | .arr (v :: rest) => .openArray :: (v.tokens ++ itemTokens rest)
  | .obj [] => [.openObject, .closeObject]
  | .obj ((k, v) :: rest) =>
    .openObject :: .str (some k) :: .colon :: (v.tokens ++ memberTokens rest)

/-- The tokens from behind the first item of an array to its end. -/
def itemTokens : List Value → List Token
  | [] => [.closeArray]
  | v :: rest => .comma :: (v.tokens ++ itemTokens rest)

/-- The tokens from behind the first member of an object to its end. -/
def memberTokens : List (String × Value) → List Token
  | [] => [.closeObject]
  | (k, v) :: rest => .comma :: .str (some k) :: .colon :: (v.tokens ++ memberTokens rest)

end

/-- A value as text, without blanks. -/
def compact (v : Value) : String := String.ofList (v.tokens.flatMap Token.render)

/-! ## Writing with one item on a line -/

/-- The start of a line at a depth. -/
def indent (depth : Nat) : List Char := '\n' :: List.replicate (2 * depth) ' '

mutual

/-- The characters of a value whose lines are at a depth. -/
def prettyAt (depth : Nat) : Value → List Char
  | .null => Token.render .null
  | .bool b => Token.render (.bool b)
  | .num n => Token.render (.num n.toNumeral)
  | .str s => Token.quote s
  | .arr [] => ['[', ']']
  | .arr (v :: rest) =>
    '[' :: (indent (depth + 1) ++ prettyAt (depth + 1) v ++ prettyItems (depth + 1) rest ++
      indent depth ++ [']'])
  | .obj [] => ['\x7b', '\x7d']
  | .obj ((k, v) :: rest) =>
    '\x7b' :: (indent (depth + 1) ++ Token.quote k ++ [':', ' '] ++ prettyAt (depth + 1) v ++
      prettyMembers (depth + 1) rest ++ indent depth ++ ['\x7d'])

/-- The items of an array behind the first. -/
def prettyItems (depth : Nat) : List Value → List Char
  | [] => []
  | v :: rest => ',' :: (indent depth ++ prettyAt depth v ++ prettyItems depth rest)

/-- The members of an object behind the first. -/
def prettyMembers (depth : Nat) : List (String × Value) → List Char
  | [] => []
  | (k, v) :: rest =>
    ',' :: (indent depth ++ Token.quote k ++ [':', ' '] ++ prettyAt depth v ++
      prettyMembers depth rest)

end

/-- A value as text, with two blanks for each depth. -/
def pretty (v : Value) : String := String.ofList (prettyAt 0 v)

end Value

end Json

end ShaderPack

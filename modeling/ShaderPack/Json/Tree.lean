import ShaderPack.Json.Token

/-!
# JSON trees

A tree shows how the tokens of a JSON text nest. It keeps every member of an object, in order and
with repetitions, and leaves numbers as they are spelled: what they mean, how deep a tree may be and
whether strings must have values depends on where it is used. So a reader that keeps the order of
the members (`Dict`) and one that sorts them (`Value`) can start from the same tree.

The tokens are taken one by one, with the arrays and objects that are open kept on a stack, so texts
of any depth can be read.
-/

namespace ShaderPack

namespace Json

/-- A JSON text without its blanks. -/
inductive Tree where
  /-- The word `null`. -/
  | null
  /-- A truth value. -/
  | bool (b : Bool)
  /-- A number as it is spelled. -/
  | num (n : Numeral)
  /-- A string; `none` if it has an unpaired surrogate. -/
  | str (s : Option String)
  /-- An array. -/
  | arr (items : List Tree)
  /-- An object, with its members as they come. -/
  | obj (members : List (Option String × Tree))

instance : Inhabited Tree := ⟨.null⟩

namespace Tree

/-- The members of an object. -/
abbrev Members := List (Option String × Tree)

/-- An array or object that is still open. What it has so far is listed latest first. -/
inductive Frame where
  /-- An array. -/
  | items (found : List Tree)
  /-- An object, of whose next member the key is known. -/
  | member (found : Members) (key : Option String)

/-- Where the reading of a text stands; each state has the stack of what is open around it. -/
inductive State where
  /-- A value must come. -/
  | value (stack : List Frame)
  /-- An array was just opened: a value or the end of the array must come. -/
  | first (stack : List Frame)
  /-- An object was just opened: a key or the end of the object must come. -/
  | firstKey (stack : List Frame)
  /-- A key must come. -/
  | key (found : Members) (stack : List Frame)
  /-- The colon behind a key must come. -/
  | colon (found : Members) (key : Option String) (stack : List Frame)
  /-- A value is complete. -/
  | done (v : Tree) (stack : List Frame)

/-- Take a token where a value must come. -/
def stepValue (stack : List Frame) : Token → Option State
  | .null => some (.done .null stack)
  | .bool b => some (.done (.bool b) stack)
  | .num n => some (.done (.num n) stack)
  | .str s => some (.done (.str s) stack)
  | .openArray => some (.first stack)
  | .openObject => some (.firstKey stack)
  | _ => none

/-- Take the token behind a value that is complete inside `frame`. -/
def stepDone (v : Tree) (frame : Frame) (stack : List Frame) (t : Token) : Option State :=
  match frame, t with
  | .items found, .comma => some (.value (.items (v :: found) :: stack))
  | .items found, .closeArray => some (.done (.arr (v :: found).reverse) stack)
  | .member found key, .comma => some (.key ((key, v) :: found) stack)
  | .member found key, .closeObject => some (.done (.obj ((key, v) :: found).reverse) stack)
  | _, _ => none

/-- Take the next token. -/
def step (st : State) (t : Token) : Option State :=
  match st with
  | .value stack => stepValue stack t
  | .first stack =>
    match t with
    | .closeArray => some (.done (.arr []) stack)
    | t => stepValue (.items [] :: stack) t
  | .firstKey stack =>
    match t with
    | .closeObject => some (.done (.obj []) stack)
    | .str s => some (.colon [] s stack)
    | _ => none
  | .key found stack =>
    match t with
    | .str s => some (.colon found s stack)
    | _ => none
  | .colon found key stack =>
    match t with
    | .colon => some (.value (.member found key :: stack))
    | _ => none
  | .done v (frame :: stack) => stepDone v frame stack t
  | .done _ [] => none

/-- The tree of a sequence of tokens, if it is that of one value. -/
def ofTokens? (ts : List Token) : Option Tree :=
  match ts.foldlM step (.value []) with
  | some (.done v []) => some v
  | _ => none

/-- The tree of a text, if the text is JSON. -/
def parse? (text : String) : Option Tree := (Token.lex? text.toList).bind ofTokens?

end Tree

end Json

end ShaderPack

import ShaderPack.Define.Word
import ShaderPack.Dict
import ShaderPack.Event
import ShaderPack.Text.Utf8

/-!
# Expansion of defines

A program gives values to names, and its code uses the names. Expansion puts the values in, over and
over, since a value may use names again. A pass replaces every use at once, looking only at the text
before the pass.

What is not a use stays: a word between double quotes, a number, and a name that is being declared,
which a colon follows. Three mathematical constants are known without being defined.

A pass reads the text once, from left to right. `Defines.scanFrom` holds the word that it is in and
what it has written, and `Defines.image` says what is written for a word.

Texts are held to `Defines.byteLimit`, and a pass that would go beyond it fails. If the text still
changes in the last of `Defines.passLimit` passes, the result is what there is by then.
-/

namespace ShaderPack

/-- The values of names, both as UTF-8 bytes. -/
abbrev Defines := Dict Bytes Bytes

/-- What a pass made of a text. -/
inductive Pass where
  /-- The text, or what it would become, is too long. -/
  | overflow
  /-- Nothing changed. -/
  | settled
  /-- The new text. -/
  | changed (text : Bytes)
  deriving DecidableEq, Repr

/-- An expanded text. -/
structure Expansion where
  /-- The text after the last pass. -/
  text : Bytes
  /-- Whether a pass found nothing more to change. -/
  settled : Bool
  deriving DecidableEq, Repr

namespace Defines

/-- Names and values given as texts. -/
def ofTexts (values : Dict String String) : Defines :=
  Dict.ofList (values.entries.map fun e => (Utf8.encode e.1, Utf8.encode e.2))

/-- The most passes over a text. -/
def passLimit : Nat := 16

/-- The most bytes a text may have. -/
def byteLimit : Nat := 1024 * 1024

/-- The most blanks between a name and the colon of its declaration. -/
def gapLimit : Nat := 16

/-- The constants that are known without a define. -/
def constants : List (Bytes × Bytes) :=
  [("TAU", "6.283185307179586"), ("PI", "3.141592653589793"), ("E", "2.718281828459045")].map
    fun e => (Utf8.encode e.1, Utf8.encode e.2)

/-- The value of a name; a define hides a constant of the same name. -/
def value? (d : Defines) (name : Bytes) : Option Bytes :=
  match d.entries.lookup name with
  | some v => some v
  | none => constants.lookup name

/-- What is written for a word that has `after` behind it; `quoted` tells whether it is between
double quotes. -/
def image (d : Defines) (quoted : Bool) (word after : Bytes) : Bytes :=
  if quoted || Word.isNumber word || Word.isDeclared gapLimit after then word
  else (d.value? word).getD word

/-- Scan the rest of a text. The scan is in the word `word`, or in none if that is empty; it has
written `out` and may write `room` bytes more. Both byte strings have the latest byte first.
`quoted` tells whether the scan is between double quotes, which every double quote changes, also one
behind a backslash. Gives what is written in the end, or nothing if there is no room for it. -/
def scanFrom (d : Defines) (quoted : Bool) (word out : Bytes) (room : Nat) : Bytes → Option Bytes
  | [] =>
    let image := if word.isEmpty then [] else d.image quoted word.reverse []
    if image.length ≤ room then some (image.reverseAux out).reverse else none
  | text@(b :: rest) =>
    if Word.isWordByte b then d.scanFrom quoted (b :: word) out room rest
    else
      let image := if word.isEmpty then [] else d.image quoted word.reverse text
      if image.length < room then
        d.scanFrom (quoted != (b == 0x22)) [] (b :: image.reverseAux out)
          (room - (image.length + 1)) rest
      else none

/-- The text with a value in place of every use of a name, if that has at most `byteLimit` bytes. -/
def replaced? (d : Defines) (text : Bytes) : Option Bytes := d.scanFrom false [] [] byteLimit text

/-- One pass over a text. -/
def pass (d : Defines) (text : Bytes) : Pass :=
  if text.length ≤ byteLimit then
    match d.replaced? text with
    | none => .overflow
    | some next => if next == text then .settled else .changed next
  else .overflow

/-- At most `passes` passes over a text; `none` if one of them overflows. -/
def expandFrom (d : Defines) : (passes : Nat) → (text : Bytes) → Option Expansion
  | 0, text => some ⟨text, false⟩
  | passes + 1, text =>
    match d.pass text with
    | .overflow => none
    | .settled => some ⟨text, true⟩
    | .changed next => expandFrom d passes next

/-- Put the values of names into a text; `none` if the text gets too long. -/
def expand (d : Defines) (text : Bytes) : Option Expansion := d.expandFrom passLimit text

end Defines

/-- What there is to note about an expansion: a warning if the text did not settle. -/
def Expansion.events (x : Expansion) : List Event :=
  if x.settled then [] else [.expansionUnsettled Defines.passLimit]

end ShaderPack

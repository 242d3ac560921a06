import ShaderPack.Text.Utf8
import ShaderPack.Varint

/-!
# The string table

Names are stored once. A name is known by the count of other names stored before it.
-/

namespace ShaderPack

/-- Distinct strings, each known by its place. -/
structure StringTable where
  /-- The strings, in the order of their ids. -/
  strings : Array String

namespace StringTable

/-- The table without strings. -/
def empty : StringTable := ⟨#[]⟩

instance : Inhabited StringTable := ⟨empty⟩

/-- The number of strings. -/
def count (t : StringTable) : Nat := t.strings.size

/-- The string with an id. -/
def get? (t : StringTable) (id : UInt32) : Option String := t.strings[id.toNat]?

/-- The table that has `s`, and the id of `s` in it. A string that is there keeps its id. -/
def intern (t : StringTable) (s : String) : StringTable × UInt32 :=
  match t.strings.idxOf? s with
  | some i => (t, UInt32.ofNat i)
  | none => (⟨t.strings.push s⟩, UInt32.ofNat t.count)

/-- The section of a container: the count of strings, then each string behind its byte length. -/
def toBytes (t : StringTable) : Bytes :=
  Varint.encodeCount t.count ++
    t.strings.toList.flatMap fun s =>
      let bytes := Utf8.encode s
      Varint.encodeCount bytes.length ++ bytes

end StringTable

end ShaderPack

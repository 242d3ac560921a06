import ShaderPack.Varint

/-!
# The dependency table

For each module the loader learns which blob holds the module's own code and which modules it
imports directly. A module is known by its place in the table.
-/

namespace ShaderPack

/-- What the loader knows of a module. -/
structure DependencyEntry where
  /-- The blob with the module's own code. -/
  blob : UInt32
  /-- The modules it imports directly, in order. -/
  deps : List UInt32
  deriving DecidableEq, Repr

/-- The modules of a container. -/
structure DependencyTable where
  /-- The entries, in the order of their ids. -/
  entries : Array DependencyEntry

namespace DependencyTable

/-- The table without modules. -/
def empty : DependencyTable := ⟨#[]⟩

instance : Inhabited DependencyTable := ⟨empty⟩

/-- The number of modules. -/
def count (t : DependencyTable) : Nat := t.entries.size

/-- The entry with an id. -/
def get? (t : DependencyTable) (id : UInt32) : Option DependencyEntry := t.entries[id.toNat]?

/-- Add a module at the end and give its id. -/
def add (t : DependencyTable) (blob : UInt32) (deps : List UInt32) : DependencyTable × UInt32 :=
  (⟨t.entries.push ⟨blob, deps⟩⟩, UInt32.ofNat t.count)

/-- The bytes of an entry: its blob, the count of its imports, and the imports. -/
def entryBytes (e : DependencyEntry) : Bytes :=
  Varint.encode e.blob ++ Varint.encodeCount e.deps.length ++ e.deps.flatMap Varint.encode

/-- The section of a container: the count of modules, then each entry. -/
def toBytes (t : DependencyTable) : Bytes :=
  Varint.encodeCount t.count ++ t.entries.toList.flatMap entryBytes

end DependencyTable

end ShaderPack

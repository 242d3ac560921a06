import ShaderPack.Container.BlobStore
import ShaderPack.Container.DependencyTable
import ShaderPack.Container.StringTable
import ShaderPack.Instruction

/-!
# Containers

A container holds four sections (strings, blobs, dependency table, instructions) behind a header of
fixed size. The header has a magic word, the version of the format, flags, and the length of each
section, so that a reader finds all four.
-/

namespace ShaderPack

/-- Everything a packed program consists of. -/
structure Container where
  /-- Sixteen switches for the loader. -/
  flags : UInt16
  /-- The names of modules. -/
  strings : StringTable
  /-- The stored code. -/
  blobs : BlobStore
  /-- The modules and their imports. -/
  dependencies : DependencyTable
  /-- What the loader is to do. -/
  instructions : Array Instruction

namespace Container

/-- The container with empty sections. -/
def empty : Container := ⟨0, .empty, .empty, .empty, #[]⟩

instance : Inhabited Container := ⟨empty⟩

/-- The first four bytes of every container: `PNGB`. -/
def magic : Bytes := [0x50, 0x4E, 0x47, 0x42]

/-- The version of the format. -/
def version : Nat := 1

/-- The flag that tells the loader to resolve imports itself. -/
def runtimeFlag : UInt16 := 1

/-- The bytes of the instructions. -/
def code (c : Container) : Bytes := Instruction.encodeAll c.instructions.toList

/-- Add an instruction at the end. -/
def push (c : Container) (x : Instruction) : Container :=
  { c with instructions := c.instructions.push x }

/-- The header in front of sections of these lengths. -/
def header (flags : UInt16) (lengths : List Nat) : Bytes :=
  magic ++ Bytes.littleEndian 2 version ++ Bytes.littleEndian 2 flags.toNat ++
    lengths.flatMap (Bytes.littleEndian 4)

/-- The four sections, in the order of the file. -/
def sections (c : Container) : List Bytes :=
  [c.strings.toBytes, c.blobs.toBytes, c.dependencies.toBytes, c.code]

/-- The bytes of a container. -/
def toBytes (c : Container) : Bytes :=
  header c.flags (c.sections.map List.length) ++ c.sections.flatten

end Container

end ShaderPack

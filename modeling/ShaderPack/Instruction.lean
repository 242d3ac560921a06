import ShaderPack.Varint

/-!
# Instructions

The loader of a container runs a stream of instructions: each creates one shader module from stored
code, and a last one ends the stream. This module gives the instructions, their byte form
(`encode`, `encodeAll`), the reader of that form (`decodeAll`) and the text form of listings.
-/

namespace ShaderPack

/-- Where a shader module takes its code from. -/
inductive CodeSource where
  /-- A stored blob, used as it is. -/
  | blob (id : UInt32)
  /-- A module of the dependency table, whose imports the loader puts in front. -/
  | module (id : UInt32)
  deriving DecidableEq, Repr

/-- One step of the loader. -/
inductive Instruction where
  /-- Create the shader module with this handle. -/
  | create (handle : UInt32) (source : CodeSource)
  /-- The stream ends here. -/
  | finish
  deriving DecidableEq, Repr

/-- Why bytes are no instruction stream. Positions count bytes from the start of the stream. -/
inductive DecodeError where
  /-- The handle is cut off or too long. -/
  | truncatedHandle (pos : Nat)
  /-- The byte that tells the kind of source is missing. -/
  | truncatedTag (pos : Nat)
  /-- The id of the source is cut off or too long. -/
  | truncatedId (pos : Nat)
  /-- No kind of source has this tag. -/
  | unknownTag (tag : UInt8)
  /-- No instruction starts with this byte. -/
  | unknownOpcode (opcode : UInt8) (pos : Nat)
  deriving DecidableEq, Repr

/-- The text of a decoding error. -/
def DecodeError.message : DecodeError → String
  | truncatedHandle pos => s!"truncated shader handle at byte {pos}"
  | truncatedTag pos => s!"truncated shader source tag at byte {pos}"
  | truncatedId pos => s!"truncated shader source id at byte {pos}"
  | unknownTag tag => "unknown shader source tag " ++ Bytes.hexLiteral tag
  | unknownOpcode opcode pos => "unknown opcode " ++ Bytes.hexLiteral opcode ++ s!" at byte {pos}"

namespace CodeSource

/-- The byte that tells the kind of a source. -/
def tag : CodeSource → UInt8
  | blob _ => 0
  | module _ => 1

/-- The id inside a source. -/
def id : CodeSource → UInt32
  | blob id => id
  | module id => id

/-- The source with a given tag and id. -/
def ofTag? (tag : UInt8) (id : UInt32) : Option CodeSource :=
  if tag = 0 then some (blob id) else if tag = 1 then some (module id) else none

/-- The text form of a source. -/
def render : CodeSource → String
  | blob id => s!"Blob({id.toNat})"
  | module id => s!"Module({id.toNat})"

end CodeSource

namespace Instruction

/-- The first byte of `create`. -/
def createOpcode : UInt8 := 0x10

/-- The one byte of `finish`. -/
def finishOpcode : UInt8 := 0xFF

/-- The bytes of an instruction. -/
def encode : Instruction → Bytes
  | create handle source =>
    createOpcode :: (Varint.encode handle ++ source.tag :: Varint.encode source.id)
  | finish => [finishOpcode]

/-- The bytes of a stream. -/
def encodeAll (xs : List Instruction) : Bytes := xs.flatMap encode

/-- Read what follows the first byte of `create`, which stood before position `pos`. Gives the
instruction and the count of bytes taken. -/
def decodeCreate (pos : Nat) (bytes : Bytes) : Except DecodeError (Instruction × Nat) :=
  let handle := Varint.decode bytes
  match handle.1 with
  | none => .error (.truncatedHandle (pos + handle.2))
  | some h =>
    match bytes.drop handle.2 with
    | [] => .error (.truncatedTag (pos + handle.2))
    | tag :: rest =>
      let id := Varint.decode rest
      let used := handle.2 + 1 + id.2
      match id.1 with
      | none => .error (.truncatedId (pos + used))
      | some i =>
        match CodeSource.ofTag? tag i with
        | none => .error (.unknownTag tag)
        | some source => .ok (create h source, used)

/-- Read the instruction that starts with byte `opcode` at position `pos` and goes on with `rest`.
Gives the instruction and the count of bytes taken after the first. -/
def decodeOne (pos : Nat) (opcode : UInt8) (rest : Bytes) :
    Except DecodeError (Instruction × Nat) :=
  if opcode = createOpcode then decodeCreate (pos + 1) rest
  else if opcode = finishOpcode then .ok (finish, 0)
  else .error (.unknownOpcode opcode pos)

/-- Read a stream from position `pos` on, behind the instructions in `done`, latest first. -/
def decodeFrom (pos : Nat) (done : List Instruction) : Bytes → Except DecodeError (List Instruction)
  | [] => .ok done.reverse
  | opcode :: rest =>
    match decodeOne pos opcode rest with
    | .error e => .error e
    | .ok (x, used) => decodeFrom (pos + 1 + used) (x :: done) (rest.drop used)
termination_by bytes => bytes.length
decreasing_by simp only [List.length_drop, List.length_cons]; omega

/-- Read a stream of instructions. Bytes after a `finish` are read as more instructions. -/
def decodeAll (bytes : Bytes) : Except DecodeError (List Instruction) := decodeFrom 0 [] bytes

/-- The text form of an instruction, as listings show it. -/
def render : Instruction → String
  | create handle source =>
    "CreateShaderModule \x7b handle: " ++ toString handle.toNat ++ ", source: " ++
      source.render ++ " \x7d"
  | finish => "End"

end Instruction

end ShaderPack

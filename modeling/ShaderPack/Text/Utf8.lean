import ShaderPack.Bytes

/-!
# UTF-8

Source text is held as its UTF-8 bytes, because sizes, limits and offsets all count bytes. This
module writes text as bytes (`encode`) and reads it back in two ways: `decode?` takes well-formed
bytes only, `decodeLossy` puts the replacement character for each part that cannot be read.

To find those parts, `scan` cuts the bytes into characters and broken parts. A broken part is the
longest start of a well-formed character that the next byte, or the end, cuts short; a byte that
starts no character is a broken part of its own.
-/

namespace ShaderPack

namespace Utf8

/-- The UTF-8 bytes of a sequence of characters. -/
def encodeChars (cs : List Char) : Bytes := cs.flatMap String.utf8EncodeChar

/-- The UTF-8 bytes of a text. -/
def encode (s : String) : Bytes := encodeChars s.toList

/-- A character of which some bytes have come in. -/
structure Pending where
  /-- The bits read so far. -/
  bits : Nat
  /-- How many bytes are still to come, less one. -/
  more : Nat
  /-- The least byte that may come next. -/
  low : UInt8
  /-- The greatest byte that may come next. -/
  high : UInt8

/-- What a byte begins when it stands at the start of a character. -/
inductive Lead where
  /-- A character of one byte. -/
  | whole (c : Char)
  /-- A longer character. -/
  | opens (p : Pending)
  /-- Nothing: no character starts with this byte. -/
  | invalid

/-- Read a byte at the start of a character. The bounds on the second byte keep out over-long
forms, surrogates and numbers past the last code point. -/
def lead (b : UInt8) : Lead :=
  if b < 0x80 then .whole (Char.ofNat b.toNat)
  else if b < 0xC2 then .invalid
  else if b < 0xE0 then .opens ⟨b.toNat % 32, 0, 0x80, 0xBF⟩
  else if b = 0xE0 then .opens ⟨0, 1, 0xA0, 0xBF⟩
  else if b = 0xED then .opens ⟨13, 1, 0x80, 0x9F⟩
  else if b < 0xF0 then .opens ⟨b.toNat % 16, 1, 0x80, 0xBF⟩
  else if b = 0xF0 then .opens ⟨0, 2, 0x90, 0xBF⟩
  else if b < 0xF4 then .opens ⟨b.toNat % 8, 2, 0x80, 0xBF⟩
  else if b = 0xF4 then .opens ⟨4, 2, 0x80, 0x8F⟩
  else .invalid

/-- The state of a scan: between characters, or inside one. -/
abbrev ScanState := Option Pending

/-- Read `b` at the start of a character, with the parts found so far, latest first. -/
def scanLead (b : UInt8) (found : List (Option Char)) : ScanState × List (Option Char) :=
  match lead b with
  | .whole c => (none, some c :: found)
  | .opens p => (some p, found)
  | .invalid => (none, none :: found)

/-- Read one byte, with the parts found so far, latest first. A byte that cannot go on with the
character at hand closes it as a broken part and is read again as a first byte. -/
def scanByte (st : ScanState) (b : UInt8) (found : List (Option Char)) :
    ScanState × List (Option Char) :=
  match st with
  | none => scanLead b found
  | some p =>
    if p.low ≤ b ∧ b ≤ p.high then
      let bits := p.bits * 64 + b.toNat % 64
      match p.more with
      | 0 => (none, some (Char.ofNat bits) :: found)
      | more + 1 => (some ⟨bits, more, 0x80, 0xBF⟩, found)
    else
      scanLead b (none :: found)

/-- Scan the bytes from a state on, with the parts found so far, latest first. -/
def scanFrom (st : ScanState) (found : List (Option Char)) : Bytes → List (Option Char)
  | [] =>
    match st with
    | none => found.reverse
    | some _ => (none :: found).reverse
  | b :: rest =>
    let next := scanByte st b found
    scanFrom next.1 next.2 rest

/-- Cut bytes into characters and broken parts, each of the latter shown as `none`. -/
def scan (bytes : Bytes) : List (Option Char) := scanFrom none [] bytes

/-- The character that stands for a broken part. -/
def replacement : Char := Char.ofNat 0xFFFD

/-- Read bytes as text, with `replacement` for every broken part. -/
def decodeLossy (bytes : Bytes) : String :=
  String.ofList ((scan bytes).map fun c => c.getD replacement)

/-- Read bytes as text, if they are well formed. -/
def decode? (bytes : Bytes) : Option String := String.fromUTF8? bytes.toByteArray

/-- Whether the bytes are the encoding of a text. -/
def isValid (bytes : Bytes) : Bool := (decode? bytes).isSome

end Utf8

end ShaderPack

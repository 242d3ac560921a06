/-!
# Byte strings

Code and containers are byte strings. Lists carry them, since every format here is read and written
from the front. `littleEndian` writes a number in a fixed count of bytes, lowest first.
-/

namespace ShaderPack

/-- A string of bytes. -/
abbrev Bytes := List UInt8

namespace Bytes

/-- The lowest `width` bytes of `n`, lowest first. Higher bytes of `n` are left out. -/
def littleEndian : (width : Nat) → (n : Nat) → Bytes
  | 0, _ => []
  | width + 1, n => UInt8.ofNat n :: littleEndian width (n / 256)

/-- A number of `width` bytes takes `width` bytes, whatever its value. -/
@[simp] theorem length_littleEndian (width n : Nat) : (littleEndian width n).length = width := by
  induction width generalizing n with
  | zero => rfl
  | succ width ih => simp [littleEndian, ih]

/-- The hexadecimal digit of a number below sixteen, in lower case. -/
def hexDigit (n : Nat) : Char :=
  if n < 10 then Char.ofNat (48 + n) else Char.ofNat (87 + n)

/-- A byte as two hexadecimal digits. -/
def hexByte (b : UInt8) : List Char := [hexDigit (b.toNat / 16), hexDigit (b.toNat % 16)]

/-- A byte the way messages show it: `0x` and two hexadecimal digits. -/
def hexLiteral (b : UInt8) : String := "0x" ++ String.ofList (hexByte b)

end Bytes

end ShaderPack

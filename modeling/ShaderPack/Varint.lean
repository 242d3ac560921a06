import ShaderPack.Bytes

/-!
# Variable-length numbers

A 32-bit number is written in groups of seven bits, lowest group first; every byte but the last has
its high bit set. Writing uses the fewest groups. Reading also takes padded forms, as long as the
number stays within 32 bits and within five groups.
-/

namespace ShaderPack

namespace Varint

/-- The groups of `n`, lowest first. -/
def encodeNat (n : Nat) : Bytes :=
  if n < 128 then [UInt8.ofNat n] else UInt8.ofNat (n % 128 + 128) :: encodeNat (n / 128)
termination_by n
decreasing_by omega

/-- The bytes of a 32-bit number. -/
def encode (n : UInt32) : Bytes := encodeNat n.toNat

/-- The bytes of a count, of which the lowest 32 bits are kept. -/
def encodeCount (n : Nat) : Bytes := encode (UInt32.ofNat n)

/-- Whether byte `b` may stand as group number `index`: there are five groups, and the fifth holds
the four highest bits. -/
def groupFits (index : Nat) (b : UInt8) : Bool :=
  index < 4 || (index == 4 && b.toNat % 128 < 16)

/-- Read groups from `used` on, `value` being the sum of the groups before. Gives the number, if it
ends as it should, and the count of bytes taken in all; a byte that does not fit is taken. -/
def decodeFrom (used value : Nat) : Bytes → Option UInt32 × Nat
  | [] => (none, used)
  | b :: rest =>
    if groupFits used b then
      let value := value + b.toNat % 128 * Nat.pow 128 used
      if b.toNat < 128 then (some (UInt32.ofNat value), used + 1)
      else decodeFrom (used + 1) value rest
    else (none, used + 1)

/-- Read the number at the front: its value, if it is well formed, and how many bytes were taken. -/
def decode (bytes : Bytes) : Option UInt32 × Nat := decodeFrom 0 0 bytes

/-- Read the number at position `pos`: its value, and the position behind what was taken. -/
def decodeAt (bytes : Bytes) (pos : Nat) : Option UInt32 × Nat :=
  let read := decode (bytes.drop pos)
  (read.1, pos + read.2)

end Varint

end ShaderPack

/-!
# The shortest decimal of a binary64 number

A binary64 number stands for every real number that rounds to it. The shortest decimal is the one
with the fewest digits among those reals; of several with that many digits, the nearest to the
number itself, and of two equally near the one with an even last digit.

The search works on exact natural numbers. With the number written as `significand · 2 ^ exponent`,
everything is counted in quarters of the last binary place, so that both ends of the interval are
whole. For one digit, two digits and so on, only the two neighbours of the number on the decimal
grid can be hits.
-/

namespace ShaderPack

/-- The number `significand · 10 ^ exponent`. -/
structure Decimal where
  /-- The digits, read as one number. -/
  significand : Nat
  /-- The power of ten of the last digit. -/
  exponent : Int
  deriving DecidableEq, Repr

/-- A positive binary64 number `significand · 2 ^ exponent`. -/
structure Binary where
  /-- The digits, read as one number. -/
  significand : Nat
  /-- The power of two of the last digit. -/
  exponent : Int
  /-- Whether the next smaller number is only half as far away as the next greater one. -/
  closerBelow : Bool
  deriving DecidableEq, Repr

namespace Binary

/-- The magnitude of a binary64 number, given by its bits. -/
def ofBits (bits : UInt64) : Binary :=
  let fraction : Nat := bits.toNat % (1 <<< 52)
  let field : Nat := bits.toNat / (1 <<< 52) % 2048
  if field = 0 then ⟨fraction, -1074, false⟩
  else ⟨fraction + (1 <<< 52), (field : Int) - 1075, fraction = 0 && 1 < field⟩

/-- The width of the decimal grid `10 ^ place`, in the unit in which `quarter` counts. -/
def gridWidth (b : Binary) (place : Int) : Nat :=
  Nat.pow 10 place.toNat * Nat.pow 2 (2 - b.exponent).toNat

/-- A quarter of the last binary place, in the unit in which `gridWidth` counts. -/
def quarter (b : Binary) (place : Int) : Nat :=
  Nat.pow 2 (b.exponent - 2).toNat * Nat.pow 10 (-place).toNat

/-- Whether `x` rounds to the number, when a quarter of the last binary place counts `quarter`. Ends
of the interval round to it if the significand is even. -/
def isHit (b : Binary) (quarter x : Nat) : Bool :=
  let low := quarter * (4 * b.significand - if b.closerBelow then 1 else 2)
  let high := quarter * (4 * b.significand + 2)
  if b.significand % 2 = 0 then low ≤ x && x ≤ high else low < x && x < high

/-- The hit among the two neighbours of the number on the grid `10 ^ place`, if there is one. -/
def nearest? (b : Binary) (place : Int) : Option Decimal :=
  let width := b.gridWidth place
  let quarter := b.quarter place
  let x := quarter * (4 * b.significand)
  let digits := x / width
  let below := digits * width
  let above := below + width
  match b.isHit quarter below, b.isHit quarter above with
  | false, false => none
  | true, false => some ⟨digits, place⟩
  | false, true => some ⟨digits + 1, place⟩
  | true, true =>
    if x - below < above - x || (x - below = above - x && digits % 2 = 0) then some ⟨digits, place⟩
    else some ⟨digits + 1, place⟩

/-- Whether the number is `10 ^ place` or more. -/
def reaches (b : Binary) (place : Int) : Bool :=
  b.gridWidth place ≤ b.quarter place * (4 * b.significand)

/-- The power of ten of the leading digit of a positive number. The power of two of its leading
binary digit gives it, up to one, as the decimal logarithm of two is 0.30103. -/
def leadingPlace (b : Binary) : Int :=
  let least := ((b.significand.log2 : Int) + b.exponent) * 30103 / 100000
  if b.reaches (least + 1) then least + 1 else least

/-- The first hit with `digits` digits or more, trying `fuel` counts of digits. -/
def searchFrom (b : Binary) (lead : Int) : (fuel digits : Nat) → Option Decimal
  | 0, _ => none
  | fuel + 1, digits =>
    match b.nearest? (lead - digits + 1) with
    | some d => some d
    | none => b.searchFrom lead fuel (digits + 1)

/-- Seventeen digits are enough for every binary64 number. -/
def mostDigits : Nat := 17

/-- The shortest decimal of a positive number. -/
def shortest (b : Binary) : Decimal :=
  (b.searchFrom b.leadingPlace mostDigits 1).getD ⟨0, 0⟩

end Binary

end ShaderPack

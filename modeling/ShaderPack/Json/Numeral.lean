import ShaderPack.Decimal.Shortest

/-!
# Numbers in JSON texts

`Numeral` is a number as it is spelled. `Number` is what it means: a number without a fraction and
an exponent that fits a 64-bit integer stays whole, any other is a binary64 number.

A binary64 number is read in two steps. The leading digits that fit 64 bits make a significand;
whole digits after them count as zeros and digits of the fraction after them are dropped. Then the
significand, as a binary64 number, is multiplied or divided by a power of ten. A number too great
for binary64 is refused.

It is written with its shortest decimal: positionally with a point if the leading digit is between
the fifth place behind the point and the sixteenth before it, and with an exponent otherwise.
-/

namespace ShaderPack

namespace Json

/-- A number as it is spelled. -/
structure Numeral where
  /-- Whether there is a minus sign. -/
  negative : Bool
  /-- The digits before the point. -/
  whole : List Char
  /-- The digits behind the point; none if there is no point. -/
  fraction : List Char
  /-- Whether the exponent is negative, and its digits. -/
  exponent : Option (Bool × List Char)
  deriving DecidableEq, Repr

/-- What a numeral means. -/
inductive Number where
  /-- A whole number in the range of signed or unsigned 64-bit integers. -/
  | int (n : Int)
  /-- A finite binary64 number. -/
  | float (x : Float)

/-- Whether a character is a decimal digit. -/
def isDigit (c : Char) : Bool := '0' ≤ c && c ≤ '9'

/-- The value of a decimal digit. -/
def digitValue (c : Char) : Nat := c.toNat - 48

/-- The value of a row of decimal digits. -/
def digitsValue (ds : List Char) : Nat := ds.foldl (fun n c => 10 * n + digitValue c) 0

/-- The decimal digits of a number. -/
def digitsOf (n : Nat) : List Char := Nat.toDigits 10 n

namespace Numeral

/-! ## Spelling -/

/-- The characters of a numeral. -/
def render (n : Numeral) : List Char :=
  (if n.negative then ['-'] else []) ++ n.whole ++
    (if n.fraction.isEmpty then [] else '.' :: n.fraction) ++
    match n.exponent with
    | none => []
    | some (negative, digits) => 'e' :: (if negative then '-' else '+') :: digits

/-- Read an exponent: a sign or none, and digits up to the end. -/
def exponentOf? (cs : List Char) : Option (Bool × List Char) :=
  let signed := match cs with
    | '+' :: rest => (false, rest)
    | '-' :: rest => (true, rest)
    | _ => (false, cs)
  if !signed.2.isEmpty && signed.2.all isDigit then some signed else none

/-- Read what follows the whole digits and the fraction. -/
def withExponent? (negative : Bool) (whole fraction : List Char) : List Char → Option Numeral
  | [] => some ⟨negative, whole, fraction, none⟩
  | c :: rest =>
    if c = 'e' || c = 'E' then
      (exponentOf? rest).map fun e => ⟨negative, whole, fraction, some e⟩
    else none

/-- Read what follows the whole digits. -/
def withFraction? (negative : Bool) (whole : List Char) : List Char → Option Numeral
  | '.' :: rest =>
    let fraction := rest.takeWhile isDigit
    if fraction.isEmpty then none
    else withExponent? negative whole fraction (rest.dropWhile isDigit)
  | cs => withExponent? negative whole [] cs

/-- Whether a row of digits can stand before the point: it has a digit, and no zero leads others. -/
def isWhole : List Char → Bool
  | [] => false
  | ['0'] => true
  | c :: _ => c ≠ '0'

/-- Read a numeral without its sign. -/
def unsigned? (negative : Bool) (cs : List Char) : Option Numeral :=
  let whole := cs.takeWhile isDigit
  if isWhole whole then withFraction? negative whole (cs.dropWhile isDigit) else none

/-- The numeral that the characters spell, all of them. -/
def ofChars? : List Char → Option Numeral
  | '-' :: rest => unsigned? true rest
  | cs => unsigned? false cs

/-! ## Meaning -/

/-- The digits of a number that count, as `value · 10 ^ exponent`. -/
structure Significand where
  /-- The number made of the digits. -/
  value : Nat
  /-- The power of ten of the last digit. -/
  exponent : Int
  /-- Whether a digit was left out. -/
  full : Bool
  deriving DecidableEq, Repr

/-- The greatest significand. -/
def maxSignificand : Nat := UInt64.size - 1

/-- Take a digit before the point. Once one does not fit, the others are zeros. -/
def Significand.pushWhole (s : Significand) (c : Char) : Significand :=
  let value := 10 * s.value + digitValue c
  if s.full || maxSignificand < value then ⟨s.value, s.exponent + 1, true⟩
  else ⟨value, s.exponent, false⟩

/-- Take a digit behind the point. Once one does not fit, the others are dropped. -/
def Significand.pushFraction (s : Significand) (c : Char) : Significand :=
  let value := 10 * s.value + digitValue c
  if s.full || maxSignificand < value then { s with full := true }
  else ⟨value, s.exponent - 1, false⟩

/-- The digits before the point. -/
def wholeSignificand (n : Numeral) : Significand := n.whole.foldl .pushWhole ⟨0, 0, false⟩

/-- All digits. The fraction is taken as far as it fits, whatever was left out before the point. -/
def significand (n : Numeral) : Significand :=
  n.fraction.foldl .pushFraction { n.wholeSignificand with full := false }

/-- The power of ten that the exponent of a numeral gives. -/
def exponentValue (n : Numeral) : Int :=
  match n.exponent with
  | none => 0
  | some (negative, digits) =>
    if negative then -(digitsValue digits : Int) else (digitsValue digits : Int)

/-- The greatest power of ten that is used as a factor. -/
def maxFactor : Nat := 308

/-- The powers of ten that are used as factors, each rounded to binary64. -/
def factors : Array Float := (Array.range (maxFactor + 1)).map (Float.ofScientific 1 false)

/-- The factor `10 ^ k`, for `k` up to `maxFactor`. -/
def tenTo (k : Nat) : Float := factors.getD k 0.0

/-- Divide by `10 ^ k`, in steps of at most `10 ^ 308`. -/
def scaleDown (x : Float) (k : Nat) : Float :=
  if k ≤ maxFactor then x / tenTo k
  else if x == 0.0 then x
  else scaleDown (x / tenTo maxFactor) (k - maxFactor)
termination_by k
decreasing_by
  simp only [maxFactor, Nat.not_le] at *
  omega

/-- Multiply by `10 ^ k`, if the result is finite. -/
def scaleUp? (x : Float) (k : Nat) : Option Float :=
  if k ≤ maxFactor then
    let y := x * tenTo k
    if y.isInf then none else some y
  else if x == 0.0 then some x
  else none

/-- The number `value · 10 ^ exponent`, if it is in range. -/
def magnitude? (value : Nat) (exponent : Int) : Option Float :=
  let x := (UInt64.ofNat value).toFloat
  if 0 ≤ exponent then scaleUp? x exponent.toNat else some (scaleDown x (-exponent).toNat)

/-- The binary64 number of a numeral, if it is in range. -/
def float? (n : Numeral) : Option Float :=
  let s := n.significand
  (magnitude? s.value (s.exponent + n.exponentValue)).map fun x => if n.negative then -x else x

/-- The whole number of a numeral that spells one within 64 bits. Negative zero is none. -/
def int? (n : Numeral) : Option Int :=
  let s := n.wholeSignificand
  if !n.fraction.isEmpty || n.exponent.isSome || s.full then none
  else if !n.negative then some s.value
  else if s.value = 0 || UInt64.size / 2 < s.value then none
  else some (-(s.value : Int))

/-- What a numeral means, if it is in range. -/
def value? (n : Numeral) : Option Number :=
  match n.int? with
  | some i => some (.int i)
  | none => n.float?.map .float

end Numeral

namespace Number

/-- A number as a binary64 number. -/
def toFloat : Number → Float
  | int n =>
    let x := (UInt64.ofNat n.natAbs).toFloat
    if n < 0 then -x else x
  | float x => x

/-- The least and the greatest place of a leading digit that is written positionally. -/
def positionalRange : Int × Int := (-5, 15)

/-- The numeral of the decimal number with these digits, of which the first is at `place`. -/
def decimalNumeral (negative : Bool) (digits : List Char) (place : Int) : Numeral :=
  if positionalRange.1 ≤ place && place ≤ positionalRange.2 then
    if place < 0 then
      ⟨negative, ['0'], List.replicate ((-place).toNat - 1) '0' ++ digits, none⟩
    else
      let width := place.toNat + 1
      let whole := digits.take width ++ List.replicate (width - digits.length) '0'
      let fraction := digits.drop width
      ⟨negative, whole, if fraction.isEmpty then ['0'] else fraction, none⟩
  else
    ⟨negative, digits.take 1, digits.drop 1, some (place < 0, digitsOf place.natAbs)⟩

/-- Leave out the zeros at the end of a row of digits, but for the first digit. -/
def trimZeros (digits : List Char) : List Char :=
  match digits with
  | [] => []
  | d :: rest => d :: (rest.reverse.dropWhile (· = '0')).reverse

/-- The numeral of a finite binary64 number. -/
def floatNumeral (x : Float) : Numeral :=
  let bits := x.toBits
  let negative := UInt64.size / 2 ≤ bits.toNat
  let b := Binary.ofBits bits
  if b.significand = 0 then ⟨negative, ['0'], ['0'], none⟩
  else
    let d := b.shortest
    let digits := digitsOf d.significand
    decimalNumeral negative (trimZeros digits) (d.exponent + digits.length - 1)

/-- The numeral of a whole number. -/
def intNumeral (n : Int) : Numeral := ⟨n < 0, digitsOf n.natAbs, [], none⟩

/-- How a number is spelled. -/
def toNumeral : Number → Numeral
  | int n => intNumeral n
  | float x => floatNumeral x

end Number

end Json

end ShaderPack

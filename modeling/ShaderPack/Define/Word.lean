import ShaderPack.Bytes

/-!
# Words of source text

A word is a run of letters, digits and underscores that no such byte borders on. To look for names
among the words, and not for their bytes, keeps longer names that contain them whole. All of these
bytes are below 128, so a word never starts or ends inside a character.
-/

namespace ShaderPack

namespace Word

/-- Whether a byte is a decimal digit. -/
def isDigit (b : UInt8) : Bool := 0x30 ≤ b && b ≤ 0x39

/-- Whether a byte can stand in a word: an ASCII letter, a digit or an underscore. -/
def isWordByte (b : UInt8) : Bool :=
  (0x61 ≤ b && b ≤ 0x7A) || (0x41 ≤ b && b ≤ 0x5A) || isDigit b || b == 0x5F

/-- Whether a byte is a space or a tab. -/
def isBlank (b : UInt8) : Bool := b == 0x20 || b == 0x09

/-- Whether a word starts with a digit, so that it is part of a number. -/
def isNumber : Bytes → Bool
  | [] => false
  | b :: _ => isDigit b

/-- Whether the text behind a word makes it a name that is declared: at most `gap` blanks, then a
colon. -/
def isDeclared : (gap : Nat) → Bytes → Bool
  | _, [] => false
  | 0, b :: _ => b == 0x3A
  | gap + 1, b :: rest => b == 0x3A || (isBlank b && isDeclared gap rest)

end Word

end ShaderPack

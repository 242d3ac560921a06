import ShaderPack.Bytes
import ShaderPack.Json.Numeral

/-!
# Tokens of JSON texts

A JSON text is a sequence of tokens with blanks between them. `Token.render` writes a token and
`Token.lex?` cuts a text into tokens.

A string can hold escapes for single halves of a surrogate pair. Whether that matters depends on
where the string stands, so such a string is a token too, one without a value.
-/

namespace ShaderPack

namespace Json

/-- A token of a JSON text. -/
inductive Token where
  /-- A left brace. -/
  | openObject
  /-- A right brace. -/
  | closeObject
  /-- A left bracket. -/
  | openArray
  /-- A right bracket. -/
  | closeArray
  /-- A comma. -/
  | comma
  /-- A colon. -/
  | colon
  /-- The word `null`. -/
  | null
  /-- One of the words `true` and `false`. -/
  | bool (b : Bool)
  /-- A number. -/
  | num (n : Numeral)
  /-- A string; `none` if it has an unpaired surrogate. -/
  | str (s : Option String)
  deriving DecidableEq, Repr

namespace Token

/-! ## Writing -/

/-- How a character is written inside a string: quotes, backslashes and control characters are
escaped, all others stand for themselves. -/
def escape (c : Char) : List Char :=
  if c = '"' then ['\\', '"']
  else if c = '\\' then ['\\', '\\']
  else if c = '\n' then ['\\', 'n']
  else if c = '\r' then ['\\', 'r']
  else if c = '\t' then ['\\', 't']
  else if c.toNat = 8 then ['\\', 'b']
  else if c.toNat = 12 then ['\\', 'f']
  else if c.toNat < 32 then ['\\', 'u', '0', '0'] ++ Bytes.hexByte (UInt8.ofNat c.toNat)
  else [c]

/-- A string in quotes. -/
def quote (s : String) : List Char := '"' :: (s.toList.flatMap escape ++ ['"'])

/-- The characters of a token. -/
def render : Token → List Char
  | openObject => ['\x7b']
  | closeObject => ['\x7d']
  | openArray => ['[']
  | closeArray => [']']
  | comma => [',']
  | colon => [':']
  | null => ['n', 'u', 'l', 'l']
  | bool true => ['t', 'r', 'u', 'e']
  | bool false => ['f', 'a', 'l', 's', 'e']
  | num n => n.render
  | str s => quote (s.getD "")

/-! ## Strings -/

/-- What a character or an escape of a string stands for. -/
inductive Unit16 where
  /-- A character. -/
  | char (c : Char)
  /-- Half of a surrogate pair. -/
  | half (code : Nat)
  deriving DecidableEq, Repr

/-- The unit with a code below `2 ^ 16`. -/
def Unit16.ofCode (code : Nat) : Unit16 :=
  if 0xD800 ≤ code && code ≤ 0xDFFF then .half code else .char (Char.ofNat code)

/-- The value of a hexadecimal digit. -/
def hexValue? (c : Char) : Option Nat :=
  if isDigit c then some (digitValue c)
  else if 'a' ≤ c && c ≤ 'f' then some (c.toNat - 87)
  else if 'A' ≤ c && c ≤ 'F' then some (c.toNat - 55)
  else none

/-- The code that four hexadecimal digits give. -/
def code? (a b c d : Char) : Option Nat := do
  let a ← hexValue? a
  let b ← hexValue? b
  let c ← hexValue? c
  let d ← hexValue? d
  return ((a * 16 + b) * 16 + c) * 16 + d

/-- The character of an escape of one letter. -/
def letterEscape? (c : Char) : Option Char :=
  if c = '"' || c = '\\' || c = '/' then some c
  else if c = 'b' then some (Char.ofNat 8)
  else if c = 'f' then some (Char.ofNat 12)
  else if c = 'n' then some '\n'
  else if c = 'r' then some '\r'
  else if c = 't' then some '\t'
  else none

/-- Read a string up to its closing quote, behind the units found (latest first). Gives the units
and what follows the quote. -/
def readUnits (found : List Unit16) : List Char → Option (List Unit16 × List Char)
  | [] => none
  | c :: rest =>
    if c = '"' then some (found.reverse, rest)
    else if c = '\\' then
      match rest with
      | 'u' :: h₁ :: h₂ :: h₃ :: h₄ :: rest =>
        match code? h₁ h₂ h₃ h₄ with
        | none => none
        | some code => readUnits (.ofCode code :: found) rest
      | e :: rest =>
        match letterEscape? e with
        | none => none
        | some c => readUnits (.char c :: found) rest
      | [] => none
    else if c.toNat < 32 then none
    else readUnits (.char c :: found) rest

/-- The character of a surrogate pair, if the halves are a high and a low one. -/
def pair? (high low : Nat) : Option Char :=
  if high < 0xDC00 && 0xDC00 ≤ low then
    some (Char.ofNat (0x10000 + (high - 0xD800) * 0x400 + (low - 0xDC00)))
  else none

/-- Put the halves of surrogate pairs together, behind the characters found (latest first). -/
def joinHalves? (found : List Char) : List Unit16 → Option (List Char)
  | [] => some found.reverse
  | .char c :: rest => joinHalves? (c :: found) rest
  | .half high :: .half low :: rest =>
    match pair? high low with
    | none => none
    | some c => joinHalves? (c :: found) rest
  | .half _ :: _ => none

/-- Reading a string takes characters off the text: its closing quote at least. -/
theorem length_readUnits {found : List Unit16} {cs rest : List Char} {us : List Unit16}
    (h : readUnits found cs = some (us, rest)) : rest.length < cs.length := by
  fun_induction readUnits found cs with
  | case2 => simp_all
  | case4 _ _ _ _ _ _ _ _ _ ih => have := ih h; simp only [List.length_cons]; omega
  | case6 _ _ _ _ _ _ _ ih => have := ih h; simp only [List.length_cons]; omega
  | case9 _ _ _ _ _ _ ih => have := ih h; simp only [List.length_cons]; omega
  | _ => simp at h

/-! ## Cutting a text -/

/-- Whether a character may stand between tokens. -/
def isBlank (c : Char) : Bool := c = ' ' || c = '\t' || c = '\n' || c = '\r'

/-- The token that a character is by itself. -/
def mark? (c : Char) : Option Token :=
  if c = '\x7b' then some openObject
  else if c = '\x7d' then some closeObject
  else if c = '[' then some openArray
  else if c = ']' then some closeArray
  else if c = ',' then some comma
  else if c = ':' then some colon
  else none

/-- Whether a character can stand in a number. -/
def isNumeric (c : Char) : Bool :=
  isDigit c || c = '-' || c = '+' || c = '.' || c = 'e' || c = 'E'

/-- Whether a character can stand in one of the words. -/
def isLetter (c : Char) : Bool := 'a' ≤ c && c ≤ 'z'

/-- The token of a word. -/
def word? (cs : List Char) : Option Token :=
  if cs = ['n', 'u', 'l', 'l'] then some null
  else if cs = ['t', 'r', 'u', 'e'] then some (bool true)
  else if cs = ['f', 'a', 'l', 's', 'e'] then some (bool false)
  else none

/-- What is left of a text behind its first characters is no longer than the text. -/
theorem length_dropWhile_le (p : Char → Bool) (cs : List Char) :
    (cs.dropWhile p).length ≤ cs.length :=
  (List.dropWhile_suffix p).length_le

/-- Cut the rest of a text, behind the tokens found (latest first). -/
def lexFrom (found : List Token) (cs : List Char) : Option (List Token) :=
  match cs with
  | [] => some found.reverse
  | c :: rest =>
    if isBlank c then lexFrom found rest
    else
      match mark? c with
      | some t => lexFrom (t :: found) rest
      | none =>
        if c = '"' then
          match h : readUnits [] rest with
          | none => none
          | some (us, after) =>
            have : after.length < rest.length := length_readUnits h
            lexFrom (str ((joinHalves? [] us).map String.ofList) :: found) after
        else if isDigit c || c = '-' then
          match Numeral.ofChars? (c :: rest.takeWhile isNumeric) with
          | none => none
          | some n => lexFrom (num n :: found) (rest.dropWhile isNumeric)
        else if isLetter c then
          match word? (c :: rest.takeWhile isLetter) with
          | none => none
          | some t => lexFrom (t :: found) (rest.dropWhile isLetter)
        else none
termination_by cs.length
decreasing_by
  · simp
  · simp
  · simp; omega
  · have := length_dropWhile_le isNumeric rest
    simp; omega
  · have := length_dropWhile_le isLetter rest
    simp; omega

/-- The tokens of a text, if it can be cut into tokens. -/
def lex? (cs : List Char) : Option (List Token) := lexFrom [] cs

end Token

end Json

end ShaderPack

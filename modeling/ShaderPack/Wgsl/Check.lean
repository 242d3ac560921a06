import ShaderPack.Wgsl.Diagnostic
import ShaderPack.Wgsl.Name

/-!
# Checking shader code

A hand-made fragment of a front end for WGSL. It knows blanks and comments, semicolons, and
functions without parameters and with an empty body. The first token that starts no item is an
error, or the first word behind `fn` that is no name, whichever comes before the other. In a text
without either, a second function of the same name is an error.

On texts of this outline it means to answer as a full front end does. Beyond it, it refuses code
that is valid: every declaration of a constant, a variable, a type or a structure (`const a = 1;`,
`var<private> x: f32;`, `alias T = f32;`, `struct S { a: f32 }`), every attribute (`@compute`), and
every function with a parameter, a result or a statement in its body
(`fn f(x: f32) -> f32 { return x; }`).

`Program.assemble` alone uses `check`. No theorem depends on it: what is proved about assemblies is
proved about `Program.assembleWith`, with any `Check` in its place.
-/

namespace ShaderPack

namespace Wgsl

/-! ## Tokens -/

/-- A token of shader code. -/
inductive Token where
  /-- A keyword or name. -/
  | word (text : String)
  /-- Any other character. -/
  | mark (c : Char)
  deriving DecidableEq, Repr

/-- The text of a token. -/
def Token.text : Token → String
  | word text => text
  | mark c => String.singleton c

/-- A token and the number of its line, counted from one. -/
structure Located where
  /-- The token. -/
  token : Token
  /-- The line. -/
  line : Nat
  deriving DecidableEq, Repr

/-- Whether a character breaks a line, and so ends a comment that goes to the end of the line: a
line feed, a vertical tab, a form feed, a carriage return, a next line (U+0085), a line separator
(U+2028) or a paragraph separator (U+2029). -/
def isLineBreak (c : Char) : Bool :=
  (10 ≤ c.toNat && c.toNat ≤ 13) || c.toNat = 0x85 || c.toNat = 0x2028 || c.toNat = 0x2029

/-- Whether a character may stand between tokens: a space, a tab, a line break, or one of the two
marks that set the direction of writing (U+200E and U+200F). -/
def isBlank (c : Char) : Bool :=
  c = ' ' || c = '\t' || isLineBreak c || c.toNat = 0x200E || c.toNat = 0x200F

/-- Whether a word can start with a character. -/
def isWordStart (c : Char) : Bool := c.isAlpha || c = '_'

/-- Whether a word can go on with a character. -/
def isWordChar (c : Char) : Bool := c.isAlphanum || c = '_'

/-- The number of the line behind a character. Line feeds alone are counted. -/
def lineAfter (line : Nat) (c : Char) : Nat := if c = '\n' then line + 1 else line

/-- Leave out a comment in which `depth` more are open, `before` being the character before. Gives
the line and the text behind the comment; a comment without an end goes to the end of the text. -/
def skipComment (depth : Nat) (before : Char) (line : Nat) : List Char → Nat × List Char
  | [] => (line, [])
  | c :: rest =>
    if before = '*' && c = '/' then
      match depth with
      | 0 => (line, rest)
      | depth + 1 => skipComment depth ' ' line rest
    else if before = '/' && c = '*' then skipComment (depth + 1) ' ' line rest
    else skipComment depth c (lineAfter line c) rest

/-- Leaving out a comment does not make the text longer. -/
theorem length_skipComment_le (depth : Nat) (before : Char) (line : Nat) (cs : List Char) :
    (skipComment depth before line cs).2.length ≤ cs.length := by
  fun_induction skipComment depth before line cs <;>
    simp only [List.length_cons, List.length_nil] <;> omega

/-- The text from the end of a comment that starts with two slashes on. -/
def skipLine (cs : List Char) : List Char := cs.dropWhile fun c => !isLineBreak c

/-- Leaving out the rest of a line does not make the text longer. -/
theorem length_skipLine_le (cs : List Char) : (skipLine cs).length ≤ cs.length :=
  (List.dropWhile_suffix _).length_le

/-- Leaving out the rest of a word does not make the text longer. -/
theorem length_skipWord_le (cs : List Char) : (cs.dropWhile isWordChar).length ≤ cs.length :=
  (List.dropWhile_suffix _).length_le

/-- Cut a text that starts on line `line` into tokens, behind those found (latest first). -/
def tokensFrom (line : Nat) (found : List Located) (cs : List Char) : List Located :=
  match cs with
  | [] => found.reverse
  | '/' :: '/' :: rest => tokensFrom line found (skipLine rest)
  | '/' :: '*' :: rest =>
    let after := skipComment 0 ' ' line rest
    tokensFrom after.1 found after.2
  | c :: rest =>
    if isBlank c then tokensFrom (lineAfter line c) found rest
    else if isWordStart c then
      let text := String.ofList (c :: rest.takeWhile isWordChar)
      tokensFrom line (⟨.word text, line⟩ :: found) (rest.dropWhile isWordChar)
    else tokensFrom line (⟨.mark c, line⟩ :: found) rest
termination_by cs.length
decreasing_by
  · have := length_skipLine_le rest
    simp only [List.length_cons]; omega
  · have := length_skipComment_le 0 ' ' line rest
    simp only [List.length_cons]; omega
  · simp
  · have := length_skipWord_le rest
    simp only [List.length_cons]; omega
  · simp

/-- The tokens of a text. -/
def tokens (text : String) : List Located := tokensFrom 1 [] text.toList

/-! ## Items -/

/-- A function and the line of its name. -/
structure Function where
  /-- Its name. -/
  name : String
  /-- The line. -/
  line : Nat
  deriving DecidableEq, Repr

/-- The diagnostic for a token that is not what has to come. -/
def unexpected (wanted : String) (t : Located) : Diagnostic :=
  ⟨t.line, "expected " ++ wanted ++ ", found '" ++ t.token.text ++ "'"⟩

/-- What can come between items. -/
def wantedItem : String :=
  "global item ('struct', 'const', 'var', 'alias', ';', 'fn') or the end of the file"

/-- The marks of a function behind its name: no parameters and an empty body. -/
def functionMarks : List Char := ['(', ')', '\x7b', '\x7d']

/-- Take marks off the front of tokens; `line` is where a text ends that ends too early. -/
def takeMarks (line : Nat) : List Char → List Located → Except Diagnostic (List Located)
  | [], ts => .ok ts
  | c :: _, [] => .error (unexpected ("'" ++ String.singleton c ++ "'") ⟨.word "", line⟩)
  | c :: cs, t :: ts =>
    if t.token = .mark c then takeMarks t.line cs ts
    else .error (unexpected ("'" ++ String.singleton c ++ "'") t)

/-- Read a function behind the word `fn` on line `line`. -/
def readFunction (line : Nat) : List Located → Except Diagnostic (Function × List Located)
  | [] => .error (unexpected "identifier" ⟨.word "", line⟩)
  | t :: ts =>
    match t.token with
    | .word name =>
      match nameFault? name with
      | some message => .error ⟨t.line, message⟩
      | none =>
        match takeMarks t.line functionMarks ts with
        | .error e => .error e
        | .ok rest => .ok (⟨name, t.line⟩, rest)
    | .mark _ => .error (unexpected "identifier" t)

/-- Taking marks off the front does not make the tokens more. -/
theorem length_takeMarks {line : Nat} {cs : List Char} {ts rest : List Located}
    (h : takeMarks line cs ts = .ok rest) : rest.length ≤ ts.length := by
  fun_induction takeMarks line cs ts with
  | case1 => simp_all
  | case2 => simp at h
  | case3 _ _ _ _ _ _ ih => have := ih h; simp only [List.length_cons]; omega
  | case4 => simp at h

/-- A function takes tokens off the front: its name at least. -/
theorem length_readFunction {line : Nat} {ts rest : List Located} {f : Function}
    (h : readFunction line ts = .ok (f, rest)) : rest.length < ts.length := by
  unfold readFunction at h
  split at h
  · simp at h
  · split at h
    · split at h
      · simp at h
      · split at h
        · simp at h
        · next hm =>
          have := length_takeMarks hm
          simp only [Except.ok.injEq, Prod.mk.injEq] at h
          simp only [List.length_cons, ← h.2]
          omega
    · simp at h

/-- Read items up to the end, behind the functions found (latest first). -/
def itemsFrom (found : List Function) (ts : List Located) : Except Diagnostic (List Function) :=
  match ts with
  | [] => .ok found.reverse
  | t :: rest =>
    if t.token = .mark ';' then itemsFrom found rest
    else if t.token = .word "fn" then
      match h : readFunction t.line rest with
      | .error e => .error e
      | .ok (f, after) =>
        have : after.length < rest.length := length_readFunction h
        itemsFrom (f :: found) after
    else .error (unexpected wantedItem t)
termination_by ts.length
decreasing_by
  · simp
  · simp; omega

/-- The first function whose name one before it has, `names` being the names before. -/
def repeated? (names : List String) : List Function → Option Function
  | [] => none
  | f :: rest => if names.contains f.name then some f else repeated? (f.name :: names) rest

/-- The functions of a text, or what is wrong with it. -/
def functions (text : String) : Except Diagnostic (List Function) :=
  match itemsFrom [] (tokens text) with
  | .error e => .error e
  | .ok fs =>
    match repeated? [] fs with
    | some f => .error ⟨f.line, "redefinition of `" ++ f.name ++ "`"⟩
    | none => .ok fs

/-- A check of shader code: what is wrong with a text, if anything is. -/
abbrev Check := String → Option Diagnostic

/-- The check of this module. -/
def check : Check := fun text =>
  match functions text with
  | .error e => some e
  | .ok _ => none

end Wgsl

end ShaderPack

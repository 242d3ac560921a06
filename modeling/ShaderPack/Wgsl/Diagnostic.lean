import ShaderPack.Kind

/-!
# Diagnostics of shader code

A diagnostic tells what is wrong with a text and on which line. `report` puts it together with the
numbered text, so that one sees what the shader was made of.
-/

namespace ShaderPack

namespace Wgsl

/-- What is wrong with a shader's code. -/
structure Diagnostic where
  /-- The number of the line, counted from one. -/
  line : Nat
  /-- What is wrong there. -/
  message : String
  deriving DecidableEq, Repr

/-- The lines of a text, where `line` has the characters of the line at hand (latest first) and
`found` the lines before (latest first). A line ends with a line feed, which a carriage return may
precede; nothing follows the last line feed. -/
def linesFrom (line : List Char) (found : List (List Char)) : List Char → List (List Char)
  | [] => (if line.isEmpty then found else line.reverse :: found).reverse
  | c :: rest =>
    if c = '\n' then
      let ended := match line with
        | '\r' :: before => before
        | _ => line
      linesFrom [] (ended.reverse :: found) rest
    else linesFrom (c :: line) found rest

/-- The lines of a text, without what ends them. -/
def lines (text : String) : List String := (linesFrom [] [] text.toList).map String.ofList

/-- A number with blanks in front, so that it takes four places or more. -/
def padded (n : Nat) : String :=
  let digits := toString n
  String.ofList (List.replicate (4 - digits.length) ' ') ++ digits

/-- A line of a listing; the failing line has a mark in front. -/
def listedLine (failing : Nat) (number : Nat) (text : String) : String :=
  (if number = failing then ">" else " ") ++ padded number ++ " | " ++ text ++ "\n"

/-- The listing of a text with numbered lines. -/
def listing (failing : Nat) (text : String) : String :=
  String.join ((lines text).zipIdx.map fun e => listedLine failing (e.2 + 1) e.1)

/-- The report on a declaration whose code is refused. -/
def Diagnostic.report (d : Diagnostic) (kind : Kind) (name source : String) : String :=
  kind.name ++ " " ++ name ++ " resolved to invalid WGSL: " ++ d.message ++ "\n" ++
    s!"  at line {d.line}\n" ++ "\nResolved WGSL:\n---\n" ++ listing d.line source ++ "---\n"

end Wgsl

end ShaderPack

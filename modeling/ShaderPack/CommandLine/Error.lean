import ShaderPack.Assembly.Error
import ShaderPack.CommandLine.Arguments
import ShaderPack.Instruction

/-!
# Errors of the command

An error of the command is told as a chain of texts: what failed, and behind it the causes, each the
cause of the one before. `CommandError.report` is what the user sees.
-/

namespace ShaderPack

/-- Why a file cannot be read as text. -/
inductive TextFault where
  /-- The file cannot be read. -/
  | unreadable (fault : FileFault)
  /-- The file is not text. -/
  | notText
  deriving DecidableEq, Repr

/-- The text of a fault. -/
def TextFault.message : TextFault → String
  | unreadable fault => fault.message
  | notText => "stream did not contain valid UTF-8"

/-- Why the command fails. -/
inductive CommandError where
  /-- The arguments are refused. -/
  | arguments (e : ArgumentError)
  /-- The program cannot be read. -/
  | programUnreadable (path : String) (fault : TextFault)
  /-- A text is no program. -/
  | programMalformed
  /-- The file of the program holds no program. -/
  | programFileMalformed (path : String)
  /-- The options cannot be read. -/
  | optionsUnreadable (path : String) (fault : TextFault)
  /-- The file of the options holds none. -/
  | optionsFileMalformed (path : String)
  /-- The program at a path cannot be assembled. -/
  | assemblyFailed (path : String) (e : AssemblyError)
  /-- The instructions cannot be listed. -/
  | undecodable (e : DecodeError)
  /-- The container cannot be written. -/
  | unwritable (path : String) (fault : FileFault)
  deriving DecidableEq, Repr

namespace CommandError

/-- The cause of every text that is not the JSON it should be. -/
def jsonCause : String := "<json error>"

/-- The texts for a text that is no program. -/
def malformedProgram : List String := ["failed to parse program json", jsonCause]

/-- The texts of an error and its causes, outermost first. -/
def chain : CommandError → List String
  | arguments e => [e.message]
  | programUnreadable path fault => ["failed to read program json at " ++ path, fault.message]
  | programMalformed => malformedProgram
  | programFileMalformed path => ("in " ++ path) :: malformedProgram
  | optionsUnreadable path fault => ["failed to read emit options at " ++ path, fault.message]
  | optionsFileMalformed path => ["invalid emit options json in " ++ path, jsonCause]
  | assemblyFailed path e => ("failed to emit " ++ path) :: e.chain
  | undecodable e => [e.message]
  | unwritable path fault => ["failed to write artifact to " ++ path, fault.message]

/-- A text with blanks at the start of each line behind the first. -/
def hang (width : Nat) (text : String) : String :=
  String.ofList (text.toList.flatMap fun c =>
    if c = '\n' then '\n' :: List.replicate width ' ' else [c])

/-- A number in five places. -/
def numbered (n : Nat) : String :=
  let digits := toString n
  String.ofList (List.replicate (5 - digits.length) ' ') ++ digits ++ ": "

/-- The causes, each on a line of its own; more than one are numbered. -/
def causeLines : List String → List String
  | [cause] => ["    " ++ hang 4 cause]
  | causes => causes.zipIdx.map fun e => numbered e.2 ++ hang 7 e.1

/-- The report of a chain of texts. -/
def reportChain : List String → String
  | [] => "Error: "
  | [message] => "Error: " ++ message
  | message :: causes =>
    "Error: " ++ message ++ "\n\nCaused by:" ++
      String.join ((causeLines causes).map fun line => "\n" ++ line)

/-- What the user sees of an error. -/
def report (e : CommandError) : String := reportChain e.chain

end CommandError

end ShaderPack

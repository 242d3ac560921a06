import ShaderPack.Options

/-!
# Command line arguments

Arguments are items: flags that take a value, which is the next argument whatever it looks like, and
switches. If a flag comes more than once, its last value counts.
-/

namespace ShaderPack

/-- The flags that take a value. -/
inductive ValueFlag where
  /-- The program to assemble. -/
  | program
  /-- The file to write the container to. -/
  | out
  /-- The directory of source files. -/
  | baseDir
  /-- A file with options. -/
  | options
  /-- The mode. -/
  | mode
  deriving DecidableEq, Repr

/-- The flags that stand alone. -/
inductive Switch where
  /-- Check the code of shaders. -/
  | validate
  /-- Print a summary. -/
  | summary
  /-- Print the instructions. -/
  | disassemble
  /-- Show all events. -/
  | verbose
  deriving DecidableEq, Repr

/-- The flag that takes a value and is spelled like this. -/
def ValueFlag.ofArgument? (arg : String) : Option ValueFlag :=
  if arg = "--program" then some program
  else if arg = "--out" then some out
  else if arg = "--base-dir" then some baseDir
  else if arg = "--options" then some options
  else if arg = "--mode" then some mode
  else none

/-- The switch that is spelled like this. -/
def Switch.ofArgument? (arg : String) : Option Switch :=
  if arg = "--validate" then some validate
  else if arg = "--summary" then some summary
  else if arg = "--disassemble" then some disassemble
  else if arg = "--verbose" || arg = "-v" then some verbose
  else none

/-- Why arguments are refused. -/
inductive ArgumentError where
  /-- Nothing follows a flag that takes a value. -/
  | missingValue (flag : String)
  /-- No mode has this name, which is given in lower case. -/
  | unknownMode (name : String)
  /-- There is no such flag. -/
  | unknownArgument (arg : String)
  /-- No program is given. -/
  | programRequired
  deriving DecidableEq, Repr

/-- What a command line says. -/
structure CommandLine where
  /-- The program to assemble. -/
  program : Option String
  /-- The file to write the container to. -/
  out : Option String
  /-- The directory of source files. -/
  baseDir : Option String
  /-- A file with options. -/
  options : Option String
  /-- The mode. -/
  mode : Option Mode
  /-- Whether to check the code of shaders. -/
  validate : Bool
  /-- Whether to print a summary. -/
  summary : Bool
  /-- Whether to print the instructions. -/
  disassemble : Bool
  /-- Whether to show all events. -/
  verbose : Bool
  deriving DecidableEq, Repr

namespace ArgumentError

/-- How the program is used. -/
def usage : String :=
  "--program <program.json> [--out <file.pngb>] [--base-dir <dir>] " ++
    "[--options <options.json>] [--mode legacy|runtime] [--validate] [--summary] " ++
    "[--disassemble] [--verbose]"

/-- The text of an error. -/
def message : ArgumentError → String
  | missingValue flag => "missing value for " ++ flag
  | unknownMode name => "unknown emit mode: " ++ name ++ " (supported: legacy, runtime)"
  | unknownArgument arg => "unknown argument: " ++ arg ++ " (usage: " ++ usage ++ ")"
  | programRequired => "--program is required (usage: " ++ usage ++ ")"

end ArgumentError

namespace CommandLine

/-- The command line without arguments. -/
def empty : CommandLine := ⟨none, none, none, none, none, false, false, false, false⟩

/-- Take in a flag with its value. -/
def setValue (c : CommandLine) (flag : ValueFlag) (value : String) :
    Except ArgumentError CommandLine :=
  match flag with
  | .program => .ok { c with program := some value }
  | .out => .ok { c with out := some value }
  | .baseDir => .ok { c with baseDir := some value }
  | .options => .ok { c with options := some value }
  | .mode =>
    match Mode.parse value with
    | .ok m => .ok { c with mode := some m }
    | .error name => .error (.unknownMode name)

/-- Take in a switch. -/
def setSwitch (c : CommandLine) : Switch → CommandLine
  | .validate => { c with validate := true }
  | .summary => { c with summary := true }
  | .disassemble => { c with disassemble := true }
  | .verbose => { c with verbose := true }

/-- Read arguments behind those taken in. -/
def parseFrom (c : CommandLine) : List String → Except ArgumentError CommandLine
  | [] => .ok c
  | arg :: rest =>
    match ValueFlag.ofArgument? arg with
    | some flag =>
      match rest with
      | [] => .error (.missingValue arg)
      | value :: rest =>
        match c.setValue flag value with
        | .error e => .error e
        | .ok c => parseFrom c rest
    | none =>
      match Switch.ofArgument? arg with
      | some switch => parseFrom (c.setSwitch switch) rest
      | none => .error (.unknownArgument arg)

/-- Read arguments. -/
def parse (args : List String) : Except ArgumentError CommandLine := parseFrom empty args

end CommandLine

end ShaderPack

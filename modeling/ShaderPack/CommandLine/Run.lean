import ShaderPack.Assembly.Summary
import ShaderPack.CommandLine.Error
import ShaderPack.Disk.FileTree
import ShaderPack.Program.Format

/-!
# Running the command

The command reads a program and, if asked, options; it assembles the program, prints what the
switches ask for and writes the container. Everything up to the writing is a function of the
arguments and of how files are read (`CommandLine.run`). `CommandLine.runOn` does the whole on a
file tree.
-/

namespace ShaderPack

/-- The text of the file at a path. -/
def Files.readText (files : Files) (path : String) : Except TextFault String :=
  match files path with
  | .error fault => .error (.unreadable fault)
  | .ok bytes =>
    match Utf8.decode? bytes with
    | none => .error .notText
    | some text => .ok text

/-- The program in the file at a path. -/
def Program.load (files : Files) (path : String) : Except CommandError Program :=
  match files.readText path with
  | .error fault => .error (.programUnreadable path fault)
  | .ok text =>
    match Program.parse? text with
    | none => .error (.programFileMalformed path)
    | some p => .ok p

/-- The options in the file at a path. -/
def Options.load (files : Files) (path : String) : Except CommandError Options :=
  match files.readText path with
  | .error fault => .error (.optionsUnreadable path fault)
  | .ok text =>
    match Options.parse? text with
    | none => .error (.optionsFileMalformed path)
    | some o => .ok o

/-- What a run came to before anything is written. -/
structure Run where
  /-- What was printed. -/
  stdout : String
  /-- What was noted, earliest first. -/
  log : Array Event
  /-- The path and bytes of the file that is left to write, if the run did not fail. -/
  result : Except CommandError (Option (String × Bytes))

/-- What a run came to. -/
structure Outcome where
  /-- What was printed. -/
  stdout : String
  /-- What was noted, earliest first. -/
  log : Array Event
  /-- The error, if the run failed. -/
  error : Option CommandError

/-- The exit code of a run. -/
def Outcome.exitCode (o : Outcome) : Nat := if o.error.isNone then 0 else 1

/-- The outcome of a run, if its file was written as `written` tells. -/
def Run.conclude (r : Run) (written : Except FileFault Unit) : Outcome :=
  match r.result with
  | .error e => ⟨r.stdout, r.log, some e⟩
  | .ok none => ⟨r.stdout, r.log, none⟩
  | .ok (some (path, bytes)) =>
    match written with
    | .error fault => ⟨r.stdout, r.log, some (.unwritable path fault)⟩
    | .ok () => ⟨r.stdout, r.log.push (.written path bytes.length), none⟩

namespace CommandLine

/-- The options before those of the command line: from the file that it names, or else the defaults
with the directory of the program. -/
def startOptions (files : Files) (c : CommandLine) (program : String) :
    Except CommandError Options :=
  match c.options with
  | some path => Options.load files path
  | none => .ok { Options.default with baseDir := (Path.parent? program).getD "." }

/-- Put what a command line says over options. -/
def override (c : CommandLine) (o : Options) : Options where
  baseDir := c.baseDir.getD o.baseDir
  mode := c.mode.getD o.mode
  validate := c.validate || o.validate

/-- The options to use for a program. -/
def effectiveOptions (files : Files) (c : CommandLine) (program : String) :
    Except CommandError Options :=
  (c.startOptions files program).map c.override

/-- What is printed of an assembly that went well. -/
def printed (c : CommandLine) (a : Assembly) : String × Except CommandError Unit :=
  let summary := if c.summary then a.summary.pretty ++ "\n" else ""
  if c.disassemble then
    match Instruction.decodeAll a.container.code with
    | .error e => (summary, .error (.undecodable e))
    | .ok xs => (summary ++ String.join (xs.map fun x => x.render ++ "\n"), .ok ())
  else (summary, .ok ())

/-- The file that is left to write for an assembly. -/
def pending (c : CommandLine) (a : Assembly) : Option (String × Bytes) :=
  c.out.map fun path => (path, a.container.toBytes)

/-- Run a command line for the program at a path. -/
def runProgram (files : Files) (c : CommandLine) (path : String) : Run :=
  match Program.load files path with
  | .error e => ⟨"", #[], .error e⟩
  | .ok p =>
    match c.effectiveOptions files path with
    | .error e => ⟨"", #[], .error e⟩
    | .ok o =>
      match p.assemble files o with
      | .error f => ⟨"", f.log, .error (.assemblyFailed path f.error)⟩
      | .ok a =>
        let shown := c.printed a
        ⟨shown.1, a.log, shown.2.map fun _ => c.pending a⟩

/-- Run the command with arguments, up to the writing of its file. -/
def run (files : Files) (args : List String) : Run :=
  match parse args with
  | .error e => ⟨"", #[], .error (.arguments e)⟩
  | .ok c =>
    match c.program with
    | none => ⟨"", #[], .error (.arguments .programRequired)⟩
    | some path => c.runProgram files path

/-- Run the command on a file tree. Gives the tree with the file it wrote. -/
def runOn (t : FileTree) (args : List String) : Outcome × FileTree :=
  let r := run t.read args
  match r.result with
  | .ok (some (path, bytes)) =>
    match t.write path bytes with
    | .error fault => (r.conclude (.error fault), t)
    | .ok t => (r.conclude (.ok ()), t)
  | _ => (r.conclude (.ok ()), t)

/-! ## What a run reads -/

/-- The paths of the source files of a program. -/
def sourcePaths (p : Program) (o : Options) : List String :=
  let fragments := p.fragments.values.map Declaration.fragmentCode
  let inline := p.shaderModules.values.filterMap fun d =>
    match Declaration.codeProperty? d with
    | some (.text s) => some s
    | _ => none
  ((fragments ++ inline).filter Source.isPath).map (Path.join o.baseDir)

/-- The paths of all files that a run reads, as far as the files already read tell. -/
def inputs (files : Files) (args : List String) : List String :=
  match parse args with
  | .error _ => []
  | .ok c =>
    match c.program with
    | none => []
    | some path =>
      let named := path :: c.options.toList
      match Program.load files path, c.effectiveOptions files path with
      | .ok p, .ok o => named ++ sourcePaths p o
      | _, _ => named

end CommandLine

end ShaderPack

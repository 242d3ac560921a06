import ShaderPack.CommandLine.Run

/-!
# The command

Reads the files that a run needs, runs the command on them, and writes what it leaves to write.
-/

namespace ShaderPack

/-- The fault that an error of the system stands for. -/
def FileFault.ofError : IO.Error → FileFault
  | .noFileOrDirectory .. => .notFound
  | e => .other (toString e)

/-- Do something to a file, and take an error as a value. -/
def attemptFile {α : Type} (action : IO α) : IO (Except FileFault α) := do
  try
    return .ok (← action)
  catch e =>
    return .error (.ofError e)

/-- Read the files at paths. -/
def readFiles (paths : List String) : IO (List (String × Except FileFault Bytes)) :=
  paths.mapM fun (path : String) => do
    let read ← attemptFile (IO.FS.readBinFile path)
    return (path, read.map ByteArray.toList)

/-- The view of files that were read. -/
def filesOf (read : List (String × Except FileFault Bytes)) : Files := fun path =>
  (read.lookup path).getD (.error .notFound)

/-- Print what a run came to: its output, the events that matter, and its error. -/
def printOutcome (verbose : Bool) (o : Outcome) : IO Unit := do
  for e in o.log do
    if verbose || e.level ≠ .debug then
      IO.eprintln e.render
  IO.print o.stdout
  if let some e := o.error then
    IO.eprintln e.report

end ShaderPack

open ShaderPack in
/-- Runs the command with the arguments of the process. -/
def main (args : List String) : IO UInt32 := do
  let named ← readFiles (CommandLine.inputs (filesOf []) args)
  let read ← readFiles (CommandLine.inputs (filesOf named) args)
  let run := CommandLine.run (filesOf read) args
  let written ← match run.result with
    | .ok (some (path, bytes)) => attemptFile (IO.FS.writeBinFile path ⟨bytes.toArray⟩)
    | _ => pure (.ok ())
  let outcome := run.conclude written
  let verbose := match CommandLine.parse args with
    | .ok c => c.verbose
    | .error _ => false
  printOutcome verbose outcome
  return UInt32.ofNat outcome.exitCode

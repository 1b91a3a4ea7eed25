import FlatWasm.CommandLine.Task

/-!
# The command

Reads the file that the arguments name, if they name one, and prints what comes of it.
-/

namespace FlatWasm.CommandLine

/-- The bytes of a file, or why they cannot be read. -/
def readFileBytes (path : String) : IO (Except String (List UInt8)) := do
  try
    let bytes ← IO.FS.readBinFile path
    return .ok bytes.data.toList
  catch e =>
    match e with
    | .noFileOrDirectory .. => return .error s!"open {path}: no such file or directory"
    | e => return .error s!"open {path}: {e}"

/-- Prints what a run leaves behind. -/
def finish (output : Output) : IO UInt32 := do
  (← IO.getStdout).putStr output.stdout
  (← IO.getStderr).putStr output.stderr
  return output.exit

end FlatWasm.CommandLine

open FlatWasm.CommandLine in
def main (args : List String) : IO UInt32 := do
  match Invocation.ofArgs args with
  | .done output => finish output
  | .onFile task path => finish (task.run (← readFileBytes path))

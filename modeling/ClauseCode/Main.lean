import ClauseCode.Command.Plan

/-!
# The program

Reads what the plan of a command line asks for, hands it over, and writes the outcome.
-/

open ClauseCode ClauseCode.Command

/-- The rest of a stream. -/
partial def readRest (stream : IO.FS.Stream) (bytes : ByteArray) : IO ByteArray := do
  let chunk ← stream.read 65536
  if chunk.isEmpty then return bytes else readRest stream (bytes ++ chunk)

/-- The content of a file. -/
def readFile (name : String) : IO File := do
  try
    let bytes ← IO.FS.readBinFile name
    return ⟨name, .ok ⟨bytes.toList, .eof⟩⟩
  catch
    | .noFileOrDirectory .. =>
      return ⟨name, .error ("open " ++ name ++ ": no such file or directory")⟩
    | .permissionDenied .. => return ⟨name, .error ("open " ++ name ++ ": permission denied")⟩
    | _ => return ⟨name, .ok ⟨[], .failure ("read " ++ name ++ ": is a directory")⟩⟩

/-- Runs a command line.  Keys are come upon in the order in which they are written. -/
def main (args : List String) : IO UInt32 := do
  match Plan.ofWords args with
  | .error message =>
    (← IO.getStderr).putStrLn ("level=error msg=" ++ Log.value message)
    return 1
  | .ok plan =>
    let files ← plan.files.mapM readFile
    let stdin ←
      if files.isEmpty && plan ≠ .help then readRest (← IO.getStdin) .empty else pure .empty
    let outcome := plan.run (fun _ => .first) files ⟨stdin.toList, .eof⟩
    (← IO.getStderr).putStr (outcome.logText plan.verbose)
    (← IO.getStdout).putStr outcome.output
    match outcome.error with
    | none => return 0
    | some message =>
      (← IO.getStderr).putStrLn ("level=error msg=" ++ Log.value message)
      return 1

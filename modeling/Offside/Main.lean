import Offside.CommandLine

set_option autoImplicit false

/-!
# The program

Reads the file that the first argument names, prints what the run says, and ends with its exit code.
-/
namespace Offside

def readText (path : String) : IO (Except Unreadable String) := do
  try
    let bytes ← IO.FS.readBinFile path
    match String.fromUTF8? bytes with
    | some text => pure (.ok text)
    | none => pure (.error .notText)
  catch
    | .noFileOrDirectory _ _ _ => pure (.error .missing)
    | .inappropriateType _ _ details =>
      pure (.error (if details = "not a directory" then .notDirectory else .directory))
    | e => pure (.error (.other e.toString))

end Offside

def main (arguments : List String) : IO UInt32 := do
  let contents ← Offside.readText (arguments.headD "")
  let transcript := Offside.CommandLine.run (fun _ => contents) arguments
  (← IO.getStdout).putStr transcript.stdout
  (← IO.getStderr).putStr transcript.stderr
  pure transcript.exitCode.toUInt32

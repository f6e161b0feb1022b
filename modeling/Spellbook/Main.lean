import Spellbook.CommandLine

/-!
# The command

Runs the program in the file that the first argument names. What the program reveals goes to the
output; a complaint goes to the error stream.
-/

namespace Spellbook

def openFile (path : String) : IO Opening := do
  match ← (IO.FS.readBinFile path).toBaseIO with
  | .ok bytes => return .bytes (bytes.toList.map UInt8.toNat)
  | .error (.noFileOrDirectory ..) => return .refused .missing
  | .error _ => return .refused .isDirectory

/-- All that can be heard. -/
partial def listenAll (stream : IO.FS.Stream) (heard : String) : IO String := do
  let line ← stream.getLine
  if line.isEmpty then return heard else listenAll stream (heard ++ line)

/-- A number between zero and one. -/
def drawNumber : IO Float := do
  return (← IO.rand 0 (Nat.pow 2 53 - 1)).toFloat / (Nat.pow 2 53).toFloat

/-- Runs the command and gives the code of its end. -/
def command (arguments : List String) : IO UInt32 := do
  let opening ← openFile (arguments.headD "")
  let draws ← (List.replicate 4096 ()).mapM fun _ => drawNumber
  let heard ← listenAll (← IO.getStdin) ""
  let (ending, m) := runCommand (fun _ => opening) arguments (Machine.fresh heard draws)
  IO.print m.output
  let complaint := match ending with
    | .noProgram => some missingPart
    | .notLoaded => some notLoaded
    | .verdict v => v.complaint?
  match complaint with
  | none => return 0
  | some c =>
    IO.eprintln (c.title ++ ": " ++ c.message)
    return 1

end Spellbook

def main (arguments : List String) : IO UInt32 := Spellbook.command arguments

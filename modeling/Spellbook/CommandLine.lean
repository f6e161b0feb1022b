import Spellbook.Files
import Spellbook.Session

/-!
# Running a program from a file

What the command line does: it loads the program that its first argument names, reads it and runs
it. A program that cannot be loaded is announced, and then there is nothing to run.
-/

namespace Spellbook

/-- How the command comes to an end. -/
inductive CommandEnding where
  /-- no program was named -/
  | noProgram
  /-- the program could not be loaded -/
  | notLoaded
  /-- the program was loaded, and came to a verdict -/
  | verdict (v : Verdict)

def Verdict.complaint? : Verdict → Option Complaint
  | misread e => some ⟨"UnexpectedToken", e.found.label, true⟩
  | ended e => e.complaint?

def missingPart : Complaint := ⟨"IndexError", "list index out of range", false⟩

/-- What is reported of a program that could not be loaded. -/
def notLoaded : Complaint := (Fault.noLength Datum.nothing.className).complaint

def announcement (path : String) : ReadRefusal → String
  | .refused .missing => "Error: File not found at " ++ path ++ "\n"
  | e => "An error occurred: " ++ e.message path ++ "\n"

/-- Loads a program and runs it on a machine. -/
def runFile (openPath : String → Opening) (path : String) (m : Machine) : CommandEnding × Machine :=
  match (openPath path).text with
  | .error e => (.notLoaded, { m with output := m.output ++ announcement path e })
  | .ok source =>
    let (v, m) := m.perform source
    (.verdict v, m)

def runCommand (openPath : String → Opening) (arguments : List String) (m : Machine) :
    CommandEnding × Machine :=
  match arguments with
  | [] =>
    (.noProgram, { m with output := m.output ++ "The ancient scrolls were not provided.\n" })
  | path :: _ => runFile openPath path m

end Spellbook

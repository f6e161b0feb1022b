import Spellbook.CommandLine
import Spellbook.Path

/-!
# Trials

A trial runs every program of a directory and compares what it reveals with an expected text. A
program that fails passes its trial if the expected text occurs in the report of its failure. A
program without an expected text counts neither as passed nor as failed. There is no report if one
of the programs does not come to an end.
-/

namespace Spellbook
namespace Trial

/-! ### Paths -/

def programMark : String := ".ssc"

/-- Puts `new` for every occurrence of `old` from the left. The number counts the characters of the
last occurrence that are still to be passed. -/
def replaced (old new : List Char) : Nat → List Char → List Char
  | _, [] => []
  | k + 1, _ :: cs => replaced old new k cs
  | 0, c :: cs =>
    if old.isPrefixOf (c :: cs) then new ++ replaced old new (old.length - 1) cs
    else c :: replaced old new 0 cs

/-- The name of the expected text of the program with a name. -/
def expectedName (name : String) : String :=
  String.ofList (replaced programMark.toList ".out".toList 0 name.toList)

def expectedPath (program : String) : String :=
  Path.join (Path.join (Path.directoryOf program) "output") (expectedName (Path.fileName program))

/-- The name under which a program is reported: its path up to the first point. -/
def reportName (program : String) : String :=
  String.ofList ((Path.afterLast '\\' program.toList).takeWhile (· != '.'))

/-! ### One program -/

/-- How a trial of one program comes out. -/
inductive Result where
  | passed
  | failed
  /-- the expected text cannot be read -/
  | noExpectation (message : String)
  deriving DecidableEq, Repr

/-- Whether a program that came to an end has failed. -/
def hasFailed? : CommandEnding → Option Bool
  | .verdict (.ended .exhausted) => none
  | .verdict (.ended (.done _)) => some false
  | _ => some true

/-- The last line of the report of a failure. A text that cannot be read is only told by the token
that should not be there. -/
def lastLine : CommandEnding → String
  | .verdict (.misread e) => "lark.exceptions.UnexpectedToken: " ++ e.found.label
  | .verdict (.ended e) =>
    match e.complaint? with
    | none => ""
    | some c => (if c.isOwn then "exceptions." else "") ++ c.title ++ ": " ++ c.message
  | .notLoaded => notLoaded.title ++ ": " ++ notLoaded.message
  | .noProgram => missingPart.title ++ ": " ++ missingPart.message

/-- What a trial takes from the machine that it runs on. -/
structure Setting where
  /-- the report of how a program failed, which tells of the places that the failure went through -/
  trace : String → CommandEnding × Machine → String := fun _ attempted => lastLine attempted.1
  /-- whether a name fits a pattern -/
  fits : String → String → Bool := Path.fits

/-- The programs of a directory, by their paths in order. -/
def programsIn (s : FileStore) (path : String) (setting : Setting := {}) : List String :=
  Path.expansions setting.fits s (path ++ "/*" ++ programMark)

def occursIn (part whole : List Char) : Bool :=
  match whole with
  | [] => part.isEmpty
  | c :: cs => part.isPrefixOf (c :: cs) || occursIn part cs

/-- What a program comes to in its trial. The machine is only used for what it can still listen to
and draw. -/
def attempt (s : FileStore) (program : String) (m : Machine) : CommandEnding × Machine :=
  runFile s.openPath program (Machine.mk Scope.empty [] "" m.input m.draws)

/-- Compares what a program came to with what is expected of it. -/
def judge (s : FileStore) (setting : Setting) (program : String) (hasFailed : Bool)
    (attempted : CommandEnding × Machine) : Result :=
  let path := expectedPath program
  match (s.openPath path).text with
  | .error e => .noExpectation (e.message path)
  | .ok expected =>
    let expected := Text.strip expected
    let isMet := if hasFailed then occursIn expected.toList (setting.trace program attempted).toList
      else Text.strip attempted.2.output == expected
    if isMet then .passed else .failed

/-- Runs the trials of several programs, if all come to an end. -/
def runAll (s : FileStore) (setting : Setting) :
    List String → Machine → Option (List (String × Result))
  | [], _ => some []
  | p :: ps, m => do
    let attempted := attempt s p m
    let hasFailed ← hasFailed? attempted.1
    let results ← runAll s setting ps attempted.2
    return (p, judge s setting p hasFailed attempted) :: results

/-! ### The report -/

/-- The marks that colour the report. -/
def heading : String := "\x1b[95m"

def passedColour : String := "\x1b[92m"

def failedColour : String := "\x1b[91m"

def plainColour : String := "\x1b[0m"

/-- Fills a text with blanks from the right. -/
def padRight (width : Nat) (s : String) : String :=
  s ++ String.ofList (List.replicate (width - s.length) ' ')

def Result.text : Result → String
  | passed => passedColour ++ "Passed" ++ plainColour
  | failed => failedColour ++ "Failed" ++ plainColour
  | noExpectation message => failedColour ++ "Failed (error: " ++ message ++ ")" ++ plainColour

def reportText (results : List (String × Result)) : String :=
  let width := (results.map fun (p, _) => (reportName p).length).foldl max 0
  let lines := results.map fun (p, r) => padRight width (reportName p) ++ "\t" ++ r.text ++ "\n"
  let passed := results.countP fun (_, r) => r = .passed
  let failed := results.countP fun (_, r) => r = .failed
  heading ++ "\n#--- Running Test Suite ---#\n" ++ plainColour ++ "\n" ++ String.join lines ++
    heading ++ "\n\n#--- Summary ---#\n" ++ plainColour ++ "\n" ++
    "Total:\t" ++ Decimal.natText (passed + failed) ++ "\n" ++
    passedColour ++ "Passed:\t" ++ Decimal.natText passed ++ "\n" ++
    failedColour ++ "Failed:\t" ++ Decimal.natText failed ++ plainColour ++ "\n\n"

/-- Runs the trials of the directory that the first argument names. -/
def run (s : FileStore) (arguments : List String) (m : Machine) (setting : Setting := {}) :
    Except Complaint String :=
  match arguments with
  | [] => .ok "No directory provided.\n"
  | path :: _ =>
    match programsIn s path setting with
    | [] => .error ⟨"ValueError", "max() arg is an empty sequence", false⟩
    | programs =>
      match runAll s setting programs m with
      | some results => .ok (reportText results)
      | none => .error exhaustion

end Trial
end Spellbook

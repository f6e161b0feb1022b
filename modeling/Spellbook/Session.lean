import Spellbook.Grammar.Reader
import Spellbook.Meaning

/-!
# Sessions

A machine lives through several texts or trees. Each step comes to a `Verdict`; a fault does not
end the session, and what the step did before it stays done.
-/

namespace Spellbook

/-- The fuel of a run. No run that ends takes as many nested parts or turns of a cycle. -/
def endurance : Nat := Nat.pow 2 60

/-- What is reported of a run that did not end well. -/
structure Complaint where
  title : String
  message : String
  /-- whether it is one of the language's own complaints -/
  isOwn : Bool
  deriving DecidableEq, Repr

def Fault.complaint (f : Fault) : Complaint := ⟨f.title, f.message, f.isOwn⟩

def Datum.textOrEmpty (d : Datum) : String :=
  match d.text with
  | .ok s => s
  | .error _ => ""

/-- What is said of a run that came to no end with its fuel. -/
def exhaustion : Complaint := ⟨"Exhausted", "no end was reached", false⟩

/-- What is reported of an ending. An instruction to leave a cycle or an incantation is reported
where there is none to leave. -/
def Ending.complaint? {α : Type} : Ending α → Option Complaint
  | done _ => none
  | proclaimed d => some ⟨"ReturnValue", d.textOrEmpty, true⟩
  | shattered => some ⟨"ShatterError", "No cycle to shatter was found.", true⟩
  | persisted => some ⟨"PersistenceError", "Cannot persist when outside of a cycle.", true⟩
  | failed f => some f.complaint
  | exhausted => some exhaustion

/-- What a step of a session comes to. -/
inductive Verdict where
  | misread (e : SyntaxFault)
  | ended (e : Ending Datum)
  deriving Repr

namespace Machine

/-- A machine that can listen to a text and draw the given numbers. -/
def fresh (input : String) (draws : List Float) : Machine := { input := input.toList, draws }

def run (m : Machine) (t : Tree) : Ending Datum × Machine := t.meaning endurance m

/-- Reads and runs a text. -/
def perform (m : Machine) (source : String) : Verdict × Machine :=
  match Tree.read source with
  | .error e => (.misread e, m)
  | .ok t =>
    let (e, m) := m.run t
    (.ended e, m)

/-- The machine with nothing revealed yet. -/
def silenced (m : Machine) : Machine := { m with output := "" }

end Machine

/-- A step of a session. -/
inductive SessionStep where
  | source (text : String)
  | tree (t : Tree)

/-- Takes a step of a session; the output is that of this step. -/
def SessionStep.take (m : Machine) : SessionStep → Verdict × Machine
  | source text => m.silenced.perform text
  | tree t =>
    let (e, m) := m.silenced.run t
    (.ended e, m)

/-- Takes the steps of a session, and gives what each came to and the machine after it. -/
def runSession (m : Machine) : List SessionStep → List (Verdict × Machine)
  | [] => []
  | s :: ss =>
    let (v, m) := s.take m
    (v, m) :: runSession m ss

end Spellbook

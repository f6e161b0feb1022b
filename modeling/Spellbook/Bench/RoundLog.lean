import Spellbook.Bench.Field
import Spellbook.Bench.Plateau
import Spellbook.Json.Reader
import Spellbook.Text.Column
import Spellbook.Text.Space

/-!
# The log of measurement rounds

Each round appends one line to the log, a JSON object. The lines tell a round its number, how long
the last one is past, and the counts of marked benchmarks in earlier rounds. A log that cannot be
read keeps a round from being written down, and does not stop it.
-/

namespace Spellbook
namespace Bench

def logLines (log : String) : List String :=
  (Text.split '\n' log).filter fun l => Text.strip l != ""

def nextRound (log : String) : Nat := (logLines log).length + 1

def logEntries (log : String) : Except Mishap (List JsonValue) :=
  (logLines log).mapM fun l => (JsonValue.read l).mapError Mishap.notJson

/-- The count that a value of an entry stands for: whole numbers and truth values are counts. -/
def tally? : JsonValue → Option Tally
  | .int n => some (.count n)
  | .truth b => some (.flag b)
  | _ => none

/-- The counts of marked benchmarks in earlier rounds, without the rounds that had none. -/
def logHistory (entries : List JsonValue) : Except Mishap (List Tally) := do
  let counts ← entries.mapM fun e => e.getOr "n_below_repo_time" .null
  return counts.filterMap tally?

def sinceLast (entries : List JsonValue) (now : JsonValue) : Except Mishap JsonValue :=
  match entries.getLast? with
  | none => .ok (.float 0.0)
  | some e => do
    let last ← e.getOr "ts" now
    return (← now.minus last).roundTo 2

/-- What a round writes down. -/
structure RoundEntry where
  percent : JsonValue
  covered : JsonValue
  statements : JsonValue
  benches : Nat
  errors : Nat
  seconds : JsonValue
  shares : List (String × Float)
  below : Option Nat
  standings : List (String × String)
  faulty : Nat

def RoundEntry.json (e : RoundEntry) (round : Nat) (now sinceLast : JsonValue) : JsonValue :=
  .object
    [("round", .int round),
     ("ts", now),
     ("wall_since_prev_s", sinceLast),
     ("coverage_pct", e.percent),
     ("covered_lines", e.covered),
     ("num_statements", e.statements),
     ("n_bench_fns", .int e.benches),
     ("n_bench_errors", .int e.errors),
     ("cov_measure_s", e.seconds),
     ("repo_time_pct", .object (e.shares.map fun (n, p) => (n, .float p))),
     ("n_below_repo_time", (e.below.map fun n => JsonValue.int n).getD .null),
     ("semcheck", .object (e.standings.map fun (n, l) => (n, .text l))),
     ("n_not_self_checking", .int e.faulty)]

/-- What a round takes from the log and adds to it. -/
structure LogStep where
  round : Nat
  history : List Tally
  added : String

/-- Takes the history from a log and writes a round down. -/
def logStep (log : String) (now : JsonValue) (entry : RoundEntry) : LogStep :=
  let round := nextRound log
  match logEntries log with
  | .error _ => ⟨round, [], ""⟩
  | .ok entries =>
    match logHistory entries with
    | .error _ => ⟨round, [], ""⟩
    | .ok history =>
      match sinceLast entries now with
      | .error _ => ⟨round, history, ""⟩
      | .ok since => ⟨round, history, (entry.json round now since).write ++ "\n"⟩

end Bench
end Spellbook

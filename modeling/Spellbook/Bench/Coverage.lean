import Spellbook.Bench.Field
import Spellbook.Bench.Suite
import Spellbook.Json.Reader

/-!
# Coverage of a run

After all benchmarks ran once, the coverage report gets the number of benchmarks and their errors,
and one line sums it up. A report that cannot be completed stays as it was; once written it stays
written, even if the summary fails.
-/

namespace Spellbook

def Suite.errors (s : Suite) : List (String × String) :=
  match s.loading with
  | some m => [("<import>", m.line)]
  | none => s.inOrder.filterMap fun b =>
    match b.outcome [] with
    | .ok _ => none
    | .error h => some (b.name, h.line)

/-- The number of benchmarks of a suite. -/
def Suite.count (s : Suite) : Nat := if s.loading.isSome then 0 else s.inOrder.length

namespace Bench

/-- What came of completing a report: the file's text, and the printed line or a mishap. -/
structure CoverageEnding where
  file : String
  printed : Except Mishap String

/-- A report with the errors and the number of benchmarks among its remarks. -/
def completeReport (s : Suite) (report : JsonValue) : Except Mishap JsonValue :=
  match report with
  | .object fields =>
    match (JsonValue.lookup "meta" fields).getD (.object []) with
    | .object remarks =>
      let errors := JsonValue.object (s.errors.map fun (n, e) => (n, .text e))
      let remarks := JsonValue.setField "_pti_bench_errors" errors remarks
      let remarks := JsonValue.setField "_pti_n_benches" (.int s.count) remarks
      .ok (.object (JsonValue.setField "meta" (.object remarks) fields))
    | v => .error (.notAssignable v)
  | v => .error (.notObject v "setdefault")

def coverageLine (s : Suite) (report : JsonValue) : Except Mishap String := do
  let totals ← report.need "totals"
  let percent ← (← totals.need "percent_covered").fixed 1
  let covered := (← totals.need "covered_lines").display
  let statements := (← totals.need "num_statements").display
  return "coverage: " ++ percent ++ "% (" ++ covered ++ "/" ++ statements ++ " stmts, " ++
    Decimal.natText s.count ++ " benches, " ++ Decimal.natText s.errors.length ++ " errors)\n"

def recordCoverage (s : Suite) (report : String) : CoverageEnding :=
  match JsonValue.read report with
  | .error e => ⟨report, .error (.notJson e)⟩
  | .ok v =>
    match completeReport s v with
    | .error m => ⟨report, .error m⟩
    | .ok v => ⟨v.write, coverageLine s v⟩

end Bench
end Spellbook

import Spellbook.Bench.Field
import Spellbook.Bench.Path

/-!
# The coverage table

One row for each file, the least covered first, with its statements, how many of them were missed,
the percentage covered and the first missed lines; then a row for all files together.
-/

namespace Spellbook
namespace Bench

/-- A row of the table. -/
structure CoverageRow where
  name : String
  statements : JsonValue
  missed : JsonValue
  percent : JsonValue
  lines : List JsonValue

/-- The most characters of a name that are shown. -/
def nameLimit : Nat := 60

/-- The most missed lines that are shown. -/
def lineLimit : Nat := 12

/-- The name of a file in the table: absolute paths are given from the repository's root. -/
def fileName (path : String) : String :=
  if path.startsWith "/" then relative (placeOf path) else path

def CoverageRow.of (path : String) (entry : JsonValue) : Except Mishap CoverageRow := do
  let summary ← entry.part "summary"
  let lines ← entry.getOr "missing_lines" (.list [])
  return {
    name := fileName path
    statements := ← summary.getOr "num_statements" (.int 0)
    missed := ← summary.getOr "missing_lines" (.int 0)
    percent := ← summary.getOr "percent_covered" (.float 0.0)
    lines := lines.items }

/-- Whether one row comes no later than another. -/
def CoverageRow.notAfter (a b : CoverageRow) : Bool :=
  match a.percent.toFloat, b.percent.toFloat with
  | .ok x, .ok y => !(decide (y < x))
  | _, _ => true

/-- The missed lines of a row; a mark says that there are more. -/
def CoverageRow.lineText (r : CoverageRow) : String :=
  String.intercalate "," ((r.lines.take lineLimit).map JsonValue.display) ++
    (if lineLimit < r.lines.length then "…" else "")

/-- The first columns of a row. -/
def columns (width : Nat) (name : String) (statements missed percent : JsonValue) :
    Except Mishap String := do
  return Text.alignLeft width name ++ "  " ++ Text.alignRight 5 statements.display ++ "  " ++
    Text.alignRight 4 missed.display ++ "  " ++ Text.alignRight 4 (← percent.fixed 0) ++ "%"

def CoverageRow.text (width : Nat) (r : CoverageRow) : Except Mishap String := do
  let front ← columns width (String.ofList (r.name.toList.take nameLimit))
    r.statements r.missed r.percent
  return front ++ "  " ++ r.lineText ++ "\n"

def nameWidth (rows : List CoverageRow) : Nat :=
  min nameLimit ((rows.map fun r => r.name.length).foldl max "Name".length)

/-- The lines of the table. The totals are the percentage, the covered lines and the statements. -/
def coverageTable (files : List (String × JsonValue)) (percent covered statements : JsonValue) :
    List (Except Mishap String) :=
  match files.mapM fun (path, entry) => CoverageRow.of path entry with
  | .error m => [.error m]
  | .ok rows =>
    let width := nameWidth rows
    let rule := String.ofList (List.replicate (width + 42) '-') ++ "\n"
    let total : Except Mishap String := do
      let missed ← statements.minus covered
      return (← columns width "TOTAL" statements missed percent) ++ "\n"
    [.ok (Text.alignLeft width "Name" ++ "  Stmts  Miss  Cover  Missing\n"), .ok rule] ++
      (rows.mergeSort CoverageRow.notAfter).map (CoverageRow.text width) ++ [.ok rule, total]

end Bench
end Spellbook

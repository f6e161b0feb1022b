import Spellbook.Bench.Field
import Spellbook.Text.Column

/-!
# The standing of benchmarks

What the evidence of a self-check says of a benchmark. The first fault that applies is the one that
is named.
-/

namespace Spellbook
namespace Bench

/-- What is wrong with a benchmark, if anything. -/
inductive Standing where
  | repositoryModified
  | failed
  | returnsNothing
  | unstable
  | returnsInput
  | tooFast
  | lowShare
  | sameForAllSettings
  | fineWithoutSettings
  | fine
  deriving DecidableEq, Repr

namespace Standing

def label : Standing → String
  | .repositoryModified => "repo-modified"
  | .failed => "error"
  | .returnsNothing => "returns-none"
  | .unstable => "unstable"
  | .returnsInput => "returns-input"
  | .tooFast => "too-fast"
  | .lowShare => "low-repo-time"
  | .sameForAllSettings => "param-invariant"
  | .fineWithoutSettings => "ok-unparam"
  | .fine => "ok"

/-- Whether nothing needs to be mended. -/
def isFine : Standing → Bool
  | .fineWithoutSettings => true
  | .fine => true
  | _ => false

end Standing

/-- What a line of the self-check shows. -/
structure Checked where
  name : String
  standing : Standing
  kind : String
  share : Float
  milliseconds : Float

/-- The middle of some numbers: of an even count, half way between the two in the middle. -/
def median (xs : List Float) : Float :=
  let sorted := xs.mergeSort fun a b => !(decide (b < a))
  let n := sorted.length
  if n = 0 then 0.0
  else if n % 2 = 1 then sorted.getD (n / 2) 0.0
  else (sorted.getD (n / 2 - 1) 0.0 + sorted.getD (n / 2) 0.0) / 2.0

def least : List Float → Float
  | [] => 0.0
  | x :: xs => xs.foldl (fun a b => if b < a then b else a) x

def allAlike (vs : List JsonValue) : Bool :=
  match vs with
  | [] => true
  | v :: rest => rest.all fun w => w.write == v.write

/-- The time below which a run is too fast to measure, in milliseconds. -/
def leastMilliseconds : Float := 1.0

/-- The share of the repository's own code below which a benchmark measures something else. -/
def leastShare : Float := 0.5

def judge (modified : Bool) (name : String) (evidence : JsonValue) : Except Mishap Checked := do
  let result ← evidence.getOr "ret_type" .null
  let repeated := (← evidence.part "fp_stable").items
  let bySetting := (← (← evidence.part "fp_by_param").entries).map (·.2)
  let parameters := (← evidence.part "param_fps").items
  let times ← (← (← evidence.part "repo_tt_ms").entries).mapM fun (_, v) => v.toFloat
  let shares ← (← (← evidence.part "repo_frac").entries).mapM fun (_, v) => v.toFloat
  let kind := if result.isSomething then result.display else "?"
  let time := median times
  let share := least shares
  let standing :=
    if modified then Standing.repositoryModified
    else if kind == "?" || kind.startsWith "<" then .failed
    else if kind == "NoneType" then .returnsNothing
    else if repeated.isEmpty || !allAlike repeated then .unstable
    else if parameters.any fun p =>
      some p.write == repeated.head?.map JsonValue.write then .returnsInput
    else if !times.isEmpty && time < leastMilliseconds then .tooFast
    else if !shares.isEmpty && share < leastShare then .lowShare
    else if bySetting.length < 2 then .fineWithoutSettings
    else if allAlike bySetting then .sameForAllSettings
    else .fine
  return ⟨name, standing, kind, share, time⟩

/-- A line of the self-check; a star says that something needs to be mended. -/
def Checked.text (c : Checked) : String :=
  "  " ++ (if c.standing.isFine then " " else "*") ++ " " ++ Text.alignLeft 32 c.name ++ " " ++
    Text.alignLeft 16 c.standing.label ++ " (" ++ c.kind ++ ", repo " ++
      floatFixedText (100.0 * c.share) 0 ++
    "%) " ++ floatFixedText c.milliseconds 1 ++ "ms\n"

/-- What the labels ask for. -/
def standingHints : String :=
  "\nself-check (* = fix needed):\n" ++
  "  returns-none: run() has no return — collect and return the call results\n" ++
  "  unstable: seed RNG in setup; avoid time/uuid/id in the return\n" ++
  "  returns-input: return repo output, not the parameter value\n" ++
  "  low-repo-time: <50% of run() time is in repo code — move glue to setup\n" ++
  "  param-invariant: return something derived from run()'s work, not setup\n" ++
  "  repo-modified: revert edits to repo files (git checkout -- <path>)\n"

/-- The lines of the self-check: first what needs to be mended, each part in the order of names. -/
def standingLines (rows : List Checked) : String :=
  let inOrder := rows.mergeSort fun a b => !(decide (b.name < a.name))
  let (fine, faulty) := inOrder.partition fun c => c.standing.isFine
  standingHints ++ String.join ((faulty ++ fine).map Checked.text)

end Bench
end Spellbook

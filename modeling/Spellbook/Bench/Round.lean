import Spellbook.Bench.CoverageTable
import Spellbook.Bench.RoundLog
import Spellbook.Bench.Standing

/-!
# A round of measurement

A round runs the coverage tool, then the tools on time and self-check if they are there, writes the
figures to the log and prints a report. Without coverage there is no round; trouble with the other
tools is told and leaves out what they would have said.
-/

namespace Spellbook
namespace Bench

/-- What came of running a tool. -/
inductive ToolRun where
  | finished (code : Int) (out err : String)
  | failed (m : Mishap)

/-- All that a round finds. -/
structure RoundInput where
  coverageRun : ToolRun
  timeRun : Option ToolRun
  checkRun : Option ToolRun
  changesRun : ToolRun
  coverage : Option String
  benchText : Option String
  log : String
  began : JsonValue
  ended : JsonValue
  now : JsonValue

/-- How a round ended. -/
inductive RoundEnding where
  | done
  | exit (code : Int)
  | failed (m : Mishap)

/-- What a round printed, said on the side and added to the log. -/
structure RoundReport where
  out : String
  err : String
  added : String
  ending : RoundEnding

/-! ### The other tools -/

/-- The object in the last line that a tool printed; a tool that printed nothing says nothing. -/
def lastObject (out : String) : Except Mishap JsonValue :=
  let text := Text.strip out
  if text =
    "" then .ok (.object []) else (JsonValue.read (Text.lastLine text)).mapError Mishap.notJson

def trouble (tool : String) (m : Mishap) : String := "[" ++ tool ++ " runner: " ++ m.line ++ "]\n"

/-- The percentages of time, the hottest groups, and what is said on the side. -/
structure TimeFigures where
  shares : List (String × Float)
  hottest : JsonValue
  err : String

def timeFigures : Option ToolRun → TimeFigures
  | none => ⟨[], .object [], ""⟩
  | some (.failed m) => ⟨[], .object [], trouble "repotime" m⟩
  | some (.finished _ out err) =>
    let figures : Except Mishap (List (String × Float) × JsonValue) := do
      let report ← lastObject out
      let shares ← (← (← report.part "repo_time_pct").entries).mapM fun (n, v) =>
        do return (n, ← v.toFloat)
      return (shares, ← report.part "hot_ext")
    match figures with
    | .ok (shares, hottest) => ⟨shares, hottest, err⟩
    | .error m => ⟨[], .object [], err ++ trouble "repotime" m⟩

/-- Whether a changed file is one that rounds themselves write. -/
def isOfRounds (path : String) : Bool :=
  path == "microbench.py" || path.startsWith "_pti_" || path.startsWith ".pti_"

/-- The changed files of the repository; each line names one after two marks and a blank. -/
def changedFiles : ToolRun → List String
  | .failed _ => []
  | .finished _ out _ =>
    (((Text.split '\n' out).filter fun l => Text.strip l != "").map
      fun l => String.ofList (l.toList.drop 3)).filter fun p => !isOfRounds p

/-- The judged benchmarks, and what is said on the side. -/
structure CheckFigures where
  rows : List Checked
  err : String

/-- Judges benchmarks up to the first that cannot be judged. -/
def judgeAll (modified : Bool) : List (String × JsonValue) → List Checked × Option Mishap
  | [] => ([], none)
  | (name, evidence) :: rest =>
    match evidence with
    | .object _ =>
      match judge modified name evidence with
      | .ok c =>
        let (cs, m) := judgeAll modified rest
        (c :: cs, m)
      | .error m => ([], some m)
    | _ => judgeAll modified rest

/-- The standings that the self-check gives. -/
def checkFigures (modified : Bool) : Option ToolRun → CheckFigures
  | none => ⟨[], ""⟩
  | some (.failed m) => ⟨[], trouble "semcheck" m⟩
  | some (.finished _ out err) =>
    let found : Except Mishap (List (String × JsonValue)) := do
      (← (← lastObject out).part "semcheck").entries
    match found with
    | .error m => ⟨[], err ++ trouble "semcheck" m⟩
    | .ok entries =>
      let (rows, m) := judgeAll modified entries
      ⟨rows, err ++ (m.map (trouble "semcheck")).getD ""⟩

/-! ### Counting benchmarks -/

def isNameChar (c : Char) : Bool := c.isAlphanum || c == '_' || 128 ≤ c.toNat

def definesBench (line : String) : Bool :=
  let start := "def bench_".toList
  start.isPrefixOf line.toList && ((line.toList.drop start.length).head?.map isNameChar).getD false

def countBenches (text : String) : Nat := ((Text.split '\n' text).filter definesBench).length

/-! ### The report -/

/-- A benchmark is marked if it spends fewer percent of its time in the repository's own code. -/
def leastPercent : Float := 45.0

def enoughCoverage : Float := 60.0

/-- The most errors that are listed. -/
def errorLimit : Nat := 8

/-- The most changed files that are listed. -/
def changeLimit : Nat := 10

/-- The percentages of the benchmarks that ran. -/
def ranShares (shares : List (String × Float)) : List Float :=
  (shares.map (·.2)).filter fun p => !(decide (p < 0.0))

/-- The number of benchmarks with too little time in the repository's own code. -/
def belowCount (shares : List (String × Float)) : Nat :=
  ((ranShares shares).filter (· < leastPercent)).length

def errorLines (errors : List (String × JsonValue)) : String :=
  if errors.isEmpty then ""
  else "\n" ++ Decimal.natText errors.length ++ " bench error(s):\n" ++
    String.join ((errors.take errorLimit).map fun (n, e) => "  " ++ n ++ ": " ++ e.display ++ "\n")

/-- The hottest groups of a benchmark. -/
def hottestText (hottest : JsonValue) (name : String) : Except Mishap String := do
  let groups := ((hottest.get? name).getD .null).items
  if groups.isEmpty then return ""
  else
    let parts ← groups.mapM fun g =>
      match g with
      | .list [p, n] => do return n.display ++ " " ++ (← p.fixed 0) ++ "%"
      | v => .error (.notIndexed v)
    return " (hot: " ++ String.intercalate " " parts ++ ")"

/-- The line of a benchmark in the part on time. -/
def shareLine (hottest : JsonValue) (name : String) (p : Float) : Except Mishap String := do
  let isLow := !(decide (p < 0.0)) && p < leastPercent
  let shown := if p < 0.0 then 0.0 else p
  let remark ← if p <
    0.0 then pure "  <error>" else if isLow then hottestText hottest name else pure ""
  return "  " ++ (if isLow then "*" else " ") ++ " " ++ Text.alignLeft 32 name ++ " " ++
    Text.alignRight 5 (floatFixedText shown 1) ++ "%" ++ remark ++ "\n"

/-- The part on time, the smallest percentage first. -/
def shareLines (f : TimeFigures) : List (Except Mishap String) :=
  if f.shares.isEmpty then []
  else
    .ok "\nrepo_time (target 50%; * = below 45%):\n" ::
      (f.shares.mergeSort fun a b => !(decide (b.2 < a.2))).map fun (n, p) =>
        shareLine f.hottest n p

def changeLines (files : List String) : String :=
  if files.isEmpty then ""
  else "\n** repo modified (" ++ Decimal.natText files.length ++
    " file(s)) — revert these; only microbench.py is yours to edit:\n" ++
    String.join ((files.take changeLimit).map fun f => "   " ++ f ++ "\n")

/-- The number of benchmarks that need mending. -/
def faultyCount (rows : List Checked) : Nat := (rows.filter fun c => !c.standing.isFine).length

def roundLine (round benches : Nat) (percent seconds : JsonValue) (shares : List (String × Float))
    (rows : List Checked) : Except Mishap String := do
  return "\n[round " ++ Decimal.natText round ++ ": " ++ Decimal.natText benches ++ " benches, " ++
    (← percent.fixed 1) ++ "% covered" ++
    (if shares.isEmpty then ""
     else ", " ++ Decimal.natText (belowCount shares) ++ "/" ++
       Decimal.natText (ranShares shares).length ++
      " below repo_time 45%") ++
    (if rows.isEmpty then ""
     else ", " ++ Decimal.natText (faultyCount rows) ++ "/" ++ Decimal.natText rows.length ++
       " not self-checking") ++
    ", measured in " ++ (← seconds.fixed 1) ++ "s]\n"

/-- The announcement that the rounds end, if they do: it needs enough coverage and a benchmark that
ran. -/
def stopLine (percent : Float) (shares : List (String × Float)) (history : List Tally) : String :=
  if percent < enoughCoverage || (ranShares shares).isEmpty then ""
  else ((stop? history (belowCount shares)).map Stop.text).getD ""

/-- Pieces of a report up to the first that could not be made. -/
def printAll : List (Except Mishap String) → String × Option Mishap
  | [] => ("", none)
  | .error m :: _ => ("", some m)
  | .ok s :: rest =>
    let (t, m) := printAll rest
    (s ++ t, m)

/-! ### The round -/

/-- A coverage report taken apart. -/
structure CoverageFigures where
  percent : Float
  covered : JsonValue
  statements : JsonValue
  files : List (String × JsonValue)
  errors : List (String × JsonValue)

def CoverageFigures.of (report : String) : Except Mishap CoverageFigures := do
  let report ← (JsonValue.read report).mapError Mishap.notJson
  let totals ← report.part "totals"
  let remarks ← report.part "meta"
  return {
    percent := ← (← totals.getOr "percent_covered" (.float 0.0)).toFloat
    covered := ← totals.getOr "covered_lines" (.int 0)
    statements := ← totals.getOr "num_statements" (.int 0)
    files := ← (← report.part "files").entries
    errors := ← (← remarks.part "_pti_bench_errors").entries }

namespace RoundInput

def times (i : RoundInput) : TimeFigures := timeFigures i.timeRun

/-- The changed files, which are asked for with the self-check. -/
def changed (i : RoundInput) : List String :=
  if i.checkRun.isSome then changedFiles i.changesRun else []

/-- The standings of the benchmarks. -/
def checks (i : RoundInput) : CheckFigures := checkFigures (!i.changed.isEmpty) i.checkRun

def benches (i : RoundInput) : Nat := (i.benchText.map countBenches).getD 0

/-- The number of marked benchmarks, if a benchmark ran at all. -/
def below (i : RoundInput) : Option Nat :=
  if (ranShares i.times.shares).isEmpty then none else some (belowCount i.times.shares)

def entry (i : RoundInput) (c : CoverageFigures) (seconds : JsonValue) : RoundEntry :=
  { percent := .float c.percent
    covered := c.covered
    statements := c.statements
    benches := i.benches
    errors := c.errors.length
    seconds := seconds.roundTo 3
    shares := i.times.shares
    below := i.below
    standings := i.checks.rows.map fun r => (r.name, r.standing.label)
    faulty := faultyCount i.checks.rows }

/-- What the round takes from the log and adds to it. -/
def step (i : RoundInput) (c : CoverageFigures) (seconds : JsonValue) : LogStep :=
  logStep i.log i.now (i.entry c seconds)

/-- The report in pieces, up to the line that sums the round up. -/
def pieces (i : RoundInput) (c : CoverageFigures) (seconds : JsonValue) :
    List (Except Mishap String) :=
  coverageTable c.files (.float c.percent) c.covered c.statements ++
    [.ok (errorLines c.errors)] ++ shareLines i.times ++
    [.ok (changeLines i.changed),
      .ok (if i.checks.rows.isEmpty then "" else standingLines i.checks.rows),
     roundLine (i.step c seconds).round i.benches (.float c.percent)
       seconds i.times.shares i.checks.rows]

end RoundInput

def roundWithCoverage (i : RoundInput) (c : CoverageFigures) : RoundReport :=
  let err := i.times.err ++ i.checks.err
  match i.ended.minus i.began with
  | .error m => ⟨"", err, "", .failed m⟩
  | .ok seconds =>
    let step := i.step c seconds
    let (out, m) :=
      printAll (i.pieces c seconds ++ [.ok (stopLine c.percent i.times.shares step.history)])
    ⟨out, err, step.added, match m with
      | none => .done
      | some m => .failed m⟩

def measureRound (i : RoundInput) : RoundReport :=
  match i.coverageRun with
  | .failed m => ⟨"", "", "", .failed m⟩
  | .finished code out err =>
    match code, i.coverage with
    | 0, some report =>
      match CoverageFigures.of report with
      | .ok c => roundWithCoverage i c
      | .error m => ⟨"", "", "", .failed m⟩
    | _, _ =>
      ⟨"coverage measurement failed (exit " ++ Sample.intDigits code ++ ")\n" ++ out ++ "\n", err,
        "",
       .exit (if code = 0 then 1 else code)⟩

end Bench
end Spellbook

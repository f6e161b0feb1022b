import Spellbook.Files
import Spellbook.Session

/-!
# Workloads

Spells that keep a machine busy, each with one parameter that is put into its text, and the figures
that are read off the runes afterwards. Their results are simple functions of the parameter, so
that a machine that is wrong is noticed: a sum of equal steps, a Fibonacci number, a square.
-/

namespace Spellbook

/-- A workload. -/
inductive Workload where
  | arithmetic
  | functions
  | controlFlow
  | strings
  | squares
  | faults
  deriving DecidableEq, Repr

namespace Workload

def all : List Workload := [.arithmetic, .functions, .controlFlow, .strings, .squares, .faults]

def name : Workload → String
  | .arithmetic => "interpret_arithmetic"
  | .functions => "interpret_functions"
  | .controlFlow => "interpret_control_flow"
  | .strings => "interpret_strings"
  | .squares => "parse_and_run"
  | .faults => "error_paths"

def parameter : Workload → String
  | .functions => "depth"
  | .faults => "n_rounds"
  | _ => "n_loops"

/-- The parameter that is taken if none is given. -/
def usual : Workload → Int
  | .arithmetic => 20
  | .functions => 9
  | .controlFlow => 40
  | .strings => 15
  | .squares => 150
  | .faults => 3

/-! ### Spells -/

/-- Adds the same sum over and over. -/
def arithmeticSpell (turns : String) : String :=
  "rune total = 0;\n" ++
  "cycle (i 1 -> " ++ turns ++ ") \x7b\n" ++
  "    total = total + 6 * 7 + 17 // 5 + 17 % 5 + 2 ^ 3 - 1;\n" ++
  "\x7d\n"

/-- Calls itself twice, calls with two arguments, and calls with none. -/
def functionsSpell (depth : String) : String :=
  "incantation fib ~n \x7b\n" ++
  "    foretell (n <= 1) \x7b\n" ++
  "        proclaim n;\n" ++
  "    \x7d\n" ++
  "    proclaim cast fib ~:n - 1:~ + cast fib ~:n - 2:~;\n" ++
  "\x7d\n" ++
  "incantation area ~a ~b \x7b\n" ++
  "    proclaim a * b;\n" ++
  "\x7d\n" ++
  "incantation unit \x7b\n" ++
  "    proclaim 1;\n" ++
  "\x7d\n" ++
  "rune v1 = cast fib ~:" ++ depth ++ ":~;\n" ++
  "rune v2 = cast area ~:2, 7:~;\n" ++
  "rune v3 = cast unit ~::~;\n"

/-- Branches three ways on each turn, with cycles that are left early inside, and counts the
characters of a word at the end. -/
def controlFlowSpell (turns : String) : String :=
  "rune total = 1;\n" ++
  "rune count = 0;\n" ++
  "cycle (i 0 -> " ++ turns ++ ") \x7b\n" ++
  "    foretell (i % 3 == 0) \x7b total += 3; \x7d\n" ++
  "    shift (i % 3 == 1) \x7b total += 2; \x7d\n" ++
  "    resolve \x7b total += 1; \x7d\n" ++
  "    cycle (j 1 -> 9) \x7b\n" ++
  "        foretell (j == 4) \x7b persist; \x7d\n" ++
  "        foretell (j > 7) \x7b shatter; \x7d\n" ++
  "        total += 2;\n" ++
  "    \x7d\n" ++
  "\x7d\n" ++
  "cycle (c betwixt \"spell\") \x7b count++; \x7d\n"

/-- Measures a line before writing it anew with values put into it. -/
def stringsSpell (turns : String) : String :=
  "rune who = \"mage\";\n" ++
  "rune line = \"\";\n" ++
  "rune total = 0;\n" ++
  "cycle (i 1 -> " ++ turns ++ ") \x7b\n" ++
  "    total = total + measure line;\n" ++
  "    line = $\"hello \x7bwho\x7d lvl \x7b7\x7d pi \x7b3.25\x7d on \x7bTruthsung\x7d\";\n" ++
  "\x7d\n" ++
  "rune size = measure $\"The scroll of \x7bline\x7d\";\n"

/-- Adds the odd numbers, so that the sum is a square. -/
def squaresSpell (turns : String) : String :=
  "rune acc=0;cycle(i 1-> " ++ turns ++ ")\x7bacc=acc+i*2-1;\x7d"

/-- Spells that fail, each for a reason of its own. -/
def faultySpells : List String :=
  ["reveal nobody;",
   "sealed rune a = 1; a = 2;",
   "rune a = 1; rune a = 2;",
   "cast nothing ~::~;",
   "reveal transmute \"x\" -> int;",
   "dispel nobody;",
   "shatter;"]

/-! ### Results -/

/-- Why a workload has no result. -/
inductive Trouble where
  | misread (e : SyntaxFault)
  | complaint (c : Complaint)
  deriving Repr

def perform (spell : String) : Except Trouble Machine :=
  match (Machine.fresh "" []).perform spell with
  | (.misread e, _) => .error (.misread e)
  | (.ended e, m) =>
    match e.complaint? with
    | some c => .error (.complaint c)
    | none => .ok m

/-- The value of a rune. -/
def held (m : Machine) (name : String) : Datum :=
  match (m.scope.find? name).bind Entry.value with
  | some v => .bare v
  | none => .nothing

/-- The sum of a spell that adds numbers up, and how many of some files cannot be loaded. -/
def squaresFigures (openPath : String → Opening) (paths : List String) (spell : String) :
    Except Trouble Datum := do
  let m ← perform spell
  return .tuple [held m "acc", .bare (.int (paths.countP fun p => !(openPath p).text.isOk))]

def lostPaths : List String := ["lost.ssc", "lost.txt"]

/-- The points for each spell that fails. -/
def faultPoints : Int := 10

/-- The points of a round of spells that fail. -/
def faultRound : Int :=
  faultySpells.foldl (fun points s =>
    match perform s with
    | .ok _ => points
    | .error _ => points + faultPoints) 0

/-- The figures of a workload after its parameter was put into its text. -/
def figures (w : Workload) (parameter : String) : Except Trouble Datum :=
  match w with
  | .arithmetic => do return held (← perform (arithmeticSpell parameter)) "total"
  | .functions => do
    let m ← perform (functionsSpell parameter)
    return .tuple [held m "v1", held m "v2", held m "v3"]
  | .controlFlow => do
    let m ← perform (controlFlowSpell parameter)
    return .tuple [held m "total", held m "count"]
  | .strings => do
    let m ← perform (stringsSpell parameter)
    return .tuple [held m "total", held m "line", held m "size"]
  | .squares => squaresFigures (fun _ => .refused .missing) lostPaths (squaresSpell parameter)
  | .faults =>
    match Numeral.readInt parameter with
    | .ok n => .ok (.bare (.int (n.toNat * faultRound)))
    | .error _ =>
      .error (.complaint ⟨"TypeError", "'str' object cannot be interpreted as an integer", false⟩)

/-! ### Calls by name -/

def unknownWorkload (name : String) : Complaint :=
  ⟨"AttributeError", "module 'microbench' has no attribute 'bench_" ++ name ++ "'", false⟩

/-- A call with a parameter that the workload does not have. -/
def unknownParameter (w : Workload) (parameter : String) : Complaint :=
  ⟨"TypeError", "bench_" ++ w.name ++ "() got an unexpected keyword argument '" ++ parameter ++ "'",
    false⟩

/-- Calls a workload by name with the texts of its parameters. -/
def call (name : String) (parameters : List (String × String)) : Except Trouble Datum :=
  match all.find? fun w => w.name == name with
  | none => .error (.complaint (unknownWorkload name))
  | some w =>
    match parameters.find? fun p => p.1 != w.parameter with
    | some p => .error (.complaint (w.unknownParameter p.1))
    | none => w.figures ((parameters.lookup w.parameter).getD (Fault.intText w.usual))

end Workload
end Spellbook

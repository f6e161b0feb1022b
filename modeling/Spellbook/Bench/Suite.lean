import Spellbook.Bench.Mishap
import Spellbook.Bench.Profile
import Spellbook.Bench.Sample

/-!
# Benchmarks

A benchmark has a name, settings of its parameters under which it can also be run, and what came of
running and profiling it. The benchmarks of a suite are taken in the order of their names.
-/

namespace Spellbook

abbrev Setting := List (String × Sample)

def Setting.line (s : Setting) : String :=
  String.intercalate "," (s.map fun (k, v) => k ++ "=" ++ v.display)

/-- A benchmark with its results. -/
structure Bench where
  name : String
  value : Sample
  bySetting : List (String × Sample)
  settings : List Setting
  mishap : Option Mishap
  runsOut : Bool
  profiles : List Bench.Profile

namespace Bench

/-- Why a benchmark gave no value. -/
inductive Halt where
  | mishap (m : Mishap)
  | outOfTime

/-- The mark that stands in place of a result. -/
def Halt.mark : Halt → String
  | .mishap m => m.mark
  | .outOfTime => "<timeout>"

/-- Why a benchmark gave no value, in one line. -/
def Halt.line : Halt → String
  | .mishap m => m.line
  | .outOfTime => "_T: "

/-- What a run under a setting gives. -/
def outcome (b : Bench) (s : Setting) : Except Halt Sample :=
  match b.mishap with
  | some m => .error (.mishap m)
  | none =>
    if b.runsOut then .error .outOfTime
    else .ok ((b.bySetting.lookup (Setting.line s)).getD b.value)

/-- The profile of the run with a number, counted from zero; the last profile repeats. -/
def profile (b : Bench) (n : Nat) : Profile := (b.profiles[n]? <|> b.profiles.getLast?).getD .empty

end Bench

/-- The benchmarks that were loaded, or why they were not. -/
structure Suite where
  benches : List Bench
  loading : Option Mishap

namespace Suite

def isBenchName (name : String) : Bool := name.startsWith "bench_"

def inOrder (s : Suite) : List Bench :=
  (s.benches.filter fun b => isBenchName b.name).mergeSort fun a b => !(decide (b.name < a.name))

end Suite
end Spellbook

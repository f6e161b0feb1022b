import Spellbook.Bench.Sample

/-!
# Plateaus

Rounds of measurement end when no benchmark is marked any more, or when the best count of marked
benchmarks has not been beaten for some rounds. `Plateau.of` follows a sequence of counts: it holds
the least count so far and how many rounds went by since that count was first reached.
-/

namespace Spellbook
namespace Bench

/-- A count from the log. A truth value counts as one or zero, and is shown as its word. -/
inductive Tally where
  | count (n : Int)
  | flag (b : Bool)
  deriving DecidableEq, Repr

def Tally.value : Tally → Int
  | .count n => n
  | .flag b => if b then 1 else 0

def Tally.text : Tally → String
  | .count n => Sample.intDigits n
  | .flag b => Sample.truthWord b

/-- The least count so far, and the number of rounds since it was first reached. -/
structure Plateau where
  best : Tally
  since : Nat
  deriving DecidableEq, Repr

namespace Plateau

/-- Goes on by one round: only a smaller count is a new best one. -/
def step (p : Plateau) (t : Tally) : Plateau :=
  if t.value < p.best.value then ⟨t, 0⟩ else ⟨p.best, p.since + 1⟩

/-- Follows a sequence of counts. -/
def of (first : Tally) (rest : List Tally) : Plateau := rest.foldl step ⟨first, 0⟩

/-- The number of rounds without a better count that ends the measurement. -/
def patience : Nat := 3

end Plateau

/-- Why the rounds of measurement end. -/
inductive Stop where
  | noneBelow
  | plateau (p : Plateau)
  deriving DecidableEq, Repr

/-- Whether the rounds end, given the counts of earlier rounds and the present one. -/
def stop? (history : List Tally) (current : Nat) : Option Stop :=
  if current = 0 then some .noneBelow
  else
    let now := Tally.count current
    let p := match history with
      | [] => Plateau.of now []
      | first :: rest => Plateau.of first (rest ++ [now])
    if Plateau.patience ≤ p.since then some (.plateau p) else none

/-- The announcement that the rounds end. -/
def Stop.text (s : Stop) : String :=
  let reason := match s with
    | .noneBelow => "0 below"
    | .plateau p =>
      "no improvement in " ++ Decimal.natText p.since ++ " rounds; best " ++ p.best.text ++ " below"
  "\n>>> STOP: repo_time converged (" ++ reason ++ "). Finalize microbench.py now. <<<\n"

end Bench
end Spellbook

import Spellbook.Proofs.Law

/-!
# One cycle for four

The four kinds of cycle differ in what is asked before a turn, in what is done between two turns,
and in what is left when there are no more turns to ask for. `turns` is a cycle of any kind, and
each of the four is one (`rangeTurns_eq_turns` and the others), so that what holds of all cycles is
proved once.
-/

namespace Spellbook

/-- A cycle with any number of turns left. It asks before each turn whether to do it, and does
something between two turns. -/
def turns (body : Spell Datum) (between last : Spell Unit) : List (Spell Bool) → Spell Unit
  | [] => last
  | ask :: asks => do
    if ← ask then
      if ← goesOn body then
        between
        turns body between last asks

/-- A cycle over a range asks whether its rune is within the range. -/
def askRange (name : String) (stop : Value) : Spell Bool := do
  let e ← Spell.known name
  (heldDatum e.value).compare .atMost (.rune stop)

/-- A cycle over a text gives its rune the next character. -/
def askEach (name : String) (c : Char) : Spell Bool := do
  let _ ← Spell.known name
  Spell.modify name fun e => { e with past := e.value, value := some (.text (String.singleton c)) }
  return true

/-- A cycle with a condition asks whether that is false. -/
def askLest (condition : Spell Datum) : Spell Bool := do
  let d ← condition
  return !(← d.truth)

section
variable (body : Spell Datum)

theorem rangeTurns_eq_turns (name : String) (stop step : Value) (fuel : Nat) :
    rangeTurns body name stop step fuel =
    turns body (stepRange name step) (Spell.finish .exhausted)
    (List.replicate fuel (askRange name stop)) := by
  induction fuel with
  | zero => rfl
  | succ fuel ih =>
    funext m
    rw [rangeTurns, List.replicate_succ, turns, askRange, ih, Spell.bind_assoc]
    rfl

theorem eachTurn_eq_turns (name : String) (cs : List Char) :
    eachTurn body name cs = turns body (pure ()) (pure ()) (cs.map (askEach name)) := by
  induction cs with
  | nil => rfl
  | cons c cs ih =>
    funext m
    rw [eachTurn, List.map_cons, turns, askEach, ih, Spell.bind_assoc]
    rfl

theorem lestTurns_eq_turns (condition : Spell Datum) (fuel : Nat) : lestTurns condition body fuel =
    turns body (pure ()) (Spell.finish .exhausted) (List.replicate fuel (askLest condition)) := by
  induction fuel with
  | zero => rfl
  | succ fuel ih =>
    funext m
    rw [lestTurns, List.replicate_succ, turns, askLest, ih, Spell.bind_assoc]
    refine Spell.bind_congr fun d m' _ => ?_
    cases d.truth with
    | error f => rfl
    | ok isTrue => rfl

theorem endlessTurns_eq_turns (fuel : Nat) : endlessTurns body fuel =
    turns body (pure ()) (Spell.finish .exhausted) (List.replicate fuel (pure true)) := by
  induction fuel with
  | zero => rfl
  | succ fuel ih =>
    funext m
    rw [endlessTurns, List.replicate_succ, turns, ih]
    rfl

end

end Spellbook

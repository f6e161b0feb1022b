import Spellbook.Bench.Path
import Spellbook.Number.Shortest

/-!
# Profiles

A profile lists how long each file ran by itself. The time is divided into the repository's own
code, native code, and the rest.
-/

namespace Spellbook
namespace Bench

/-- The time that a file ran by itself, in seconds. -/
structure Frame where
  path : String
  seconds : Float

/-- The frames of one run and its whole time in seconds. -/
structure Profile where
  frames : List Frame
  total : Float

namespace Frame

/-- Whether the frame stands for builtin code, which has no file. -/
def isBuiltin (f : Frame) : Bool := f.path == "~"

/-- Whether the frame is of code that was not written in the language of the benchmarks. -/
def isNative (f : Frame) : Bool := f.isBuiltin || f.path.endsWith ".so" || f.path.endsWith ".pyd"

/-- Whether the frame is of the repository's own code. -/
def isOwn (f : Frame) : Bool :=
  !f.isBuiltin && !f.path.startsWith "<" && Bench.isOwn (placeOf f.path)

/-- The group that a frame outside the repository's own code counts to. -/
def group (f : Frame) : String :=
  if f.isBuiltin then "builtins"
  else if !f.path.startsWith "<" && placeOf f.path == benchFile then "<run() body>"
  else stem f.path

end Frame

namespace Profile

def empty : Profile := ⟨[], 0.0⟩

def time (p : Profile) (which : Frame → Bool) : Float :=
  (p.frames.filter which).foldl (fun t f => t + f.seconds) 0.0

/-- The part of the whole time; nothing has no parts. -/
def share (p : Profile) (seconds : Float) : Float :=
  if p.total == 0.0 then 0.0 else seconds / p.total

/-- The part of the whole time in percent with one decimal. -/
def percent (p : Profile) (seconds : Float) : Float :=
  if p.total == 0.0 then 0.0 else floatRoundTo (100.0 * seconds / p.total) 1

/-- Adds time to a group. -/
def addTo (name : String) (seconds : Float) : List (String × Float) → List (String × Float)
  | [] => [(name, 0.0 + seconds)]
  | (n, t) :: rest =>
    if n = name then (n, t + seconds) :: rest else (n, t) :: addTo name seconds rest

/-- The time of each group outside the repository's own code, without the groups that took none. -/
def groups (p : Profile) : List (String × Float) :=
  ((p.frames.filter fun f => !f.isOwn).foldl (fun gs f => addTo f.group f.seconds gs) []).filter
    fun g => 0.0 < g.2

/-- The two groups with the greatest percentages, the greatest first; of equal ones the later name
comes first. -/
def hottest (p : Profile) : List (Float × String) :=
  let rows := p.groups.map fun (n, t) => (p.percent t, n)
  (rows.mergeSort fun a b => b.1 < a.1 || (b.1 == a.1 && !(decide (a.2 < b.2)))).take 2

end Profile
end Bench
end Spellbook

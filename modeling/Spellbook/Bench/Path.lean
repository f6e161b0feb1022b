import Spellbook.Text.Column

/-!
# Paths of profiled code

Paths are taken from the root and without detours. Code counts as the repository's own if it lies
below the repository's root and no pattern sets it aside.
-/

namespace Spellbook
namespace Bench

def root : List String := ["repo"]

def benchFile : List String := ["repo", "microbench.py"]

def namesOf (path : String) : List String :=
  (Text.split '/' path).filter fun n => n != "" && n != "."

/-- Follows names from a place; two points go one step back. -/
def follow (place : List String) : List String → List String
  | [] => place
  | n :: rest => follow (if n = ".." then place.dropLast else place ++ [n]) rest

/-- The place that a path names; a path that does not start at the root starts at the repository. -/
def placeOf (path : String) : List String :=
  if path.startsWith "/" then follow [] (namesOf path) else follow root (namesOf path)

def pathOf (place : List String) : String := "/" ++ String.intercalate "/" place

/-- The path from the repository's root to a place. -/
def relative (place : List String) : String :=
  let shared := if root.isPrefixOf place then root.length else 0
  let steps := List.replicate (root.length - shared) ".." ++ place.drop shared
  if steps.isEmpty then "." else String.intercalate "/" steps

/-- Whether a text has the form of a pattern, in which a star stands for any characters. -/
def fits : List Char → List Char → Bool
  | [], cs => cs.isEmpty
  | p :: ps, cs =>
    if p = '*' then (suffixes cs).any fun rest => fits ps rest
    else match cs with
      | [] => false
      | c :: cs => p == c && fits ps cs
where
  /-- The text and what is left of it after each of its characters. -/
  suffixes : List Char → List (List Char)
    | [] => [[]]
    | c :: cs => (c :: cs) :: suffixes cs

/-- The patterns of code below the root that is not the repository's own. -/
def setAside : List String :=
  ["*/site-packages/*", "*/dist-packages/*", "*/vendor/*", "*/build/*", "*/.venv/*", "*/venv/*",
   "*.egg-info/*", "*/_pti_*"]

/-- Whether code at a place is the repository's own: below its root, not set aside, and not the
benchmarks themselves. -/
def isOwn (place : List String) : Bool :=
  root.isPrefixOf place && place.length > root.length && place != benchFile &&
    !setAside.any fun p => fits p.toList (pathOf place).toList

/-- The last name of a path without its extension. -/
def stem (path : String) : String :=
  let name := ((Text.split '/' path).getLast?.getD "").toList
  let back := name.reverse
  let extension := back.takeWhile (· != '.')
  let front := (back.drop (extension.length + 1)).reverse
  -- a name that only starts with points has no extension
  if extension.length = back.length || front.all (· == '.') then String.ofList name
  else String.ofList front

end Bench
end Spellbook

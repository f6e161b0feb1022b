import Spellbook.Files

/-!
# Paths and patterns

Paths are taken apart at slashes. A path can be a pattern that many paths fit: in each of its parts
`*` stands for any characters, `?` for one, and `[...]` for one of a set. A part without these
stands for itself. A name that begins with a point only fits a pattern that begins with one.
-/

namespace Spellbook
namespace Path

/-- The part of a text after the last occurrence of a character. -/
def afterLast (c : Char) (cs : List Char) : List Char := (cs.reverse.takeWhile (· != c)).reverse

/-- The part of a path up to its last slash, without slashes at its end. -/
def directoryOf (path : String) : String :=
  let front := (path.toList.reverse.dropWhile (· != '/'))
  let bare := front.dropWhile (· == '/')
  String.ofList (if bare.isEmpty then front else bare).reverse

def fileName (path : String) : String := String.ofList (afterLast '/' path.toList)

def join (directory name : String) : String :=
  if directory.isEmpty || directory.endsWith "/" then directory ++
    name else directory ++ "/" ++ name

/-! ### Patterns of names -/

/-- A place of a pattern. -/
inductive Place where
  /-- any characters, or none -/
  | many
  /-- one character -/
  | one
  /-- one character of a set, or one that is not in it -/
  | among (isNegated : Bool) (ranges : List (Char × Char))
  /-- the character itself -/
  | char (c : Char)
  deriving DecidableEq, Repr

/-- The ranges of a set. A hyphen between two characters makes a range, which holds nothing if it
goes backwards. -/
def ranges : List Char → List (Char × Char)
  | low :: '-' :: high :: cs => (low, high) :: ranges cs
  | c :: cs => (c, c) :: ranges cs
  | [] => []

/-- The place that the characters between brackets stand for. -/
def setPlace : List Char → Place
  | '!' :: cs => .among true (ranges cs)
  | cs => .among false (ranges cs)

/-- How many characters a set has before the bracket that closes it. That is not its first
character. -/
def setLength? (cs : List Char) : Option Nat :=
  let negation := if cs.head? = some '!' then 1 else 0
  let first := if cs[negation]? = some ']' then negation + 1 else negation
  ((cs.drop first).findIdx? (· = ']')).map (first + ·)

/-- The places of a pattern. The number counts the characters of the last set that are still to be
passed. -/
def places : Nat → List Char → List Place
  | _, [] => []
  | k + 1, _ :: cs => places k cs
  | 0, '*' :: cs => .many :: places 0 cs
  | 0, '?' :: cs => .one :: places 0 cs
  | 0, '[' :: cs =>
    match setLength? cs with
    | none => .char '[' :: places 0 cs
    | some k => setPlace (cs.take k) :: places (k + 1) cs
  | 0, c :: cs => .char c :: places 0 cs

def Place.admits : Place → Char → Bool
  | many, _ => true
  | one, _ => true
  | among isNegated rs, c => (rs.any fun r => r.1 ≤ c && c ≤ r.2) != isNegated
  | char d, c => c = d

def fitPlaces : List Place → List Char → Bool
  | [], cs => cs.isEmpty
  | .many :: ps, cs => (List.range (cs.length + 1)).any fun k => fitPlaces ps (cs.drop k)
  | _ :: _, [] => false
  | p :: ps, c :: cs => p.admits c && fitPlaces ps cs

def fits (pattern name : String) : Bool := fitPlaces (places 0 pattern.toList) name.toList

/-! ### Patterns of paths -/

/-- Whether a text is a pattern of other texts than itself. -/
def isPattern (s : String) : Bool := s.toList.any fun c => c = '*' || c = '?' || c = '['

def parts (path : String) : List String := (path.toList.splitOn '/').map String.ofList

/-- The directory before the first part of a path that is a pattern. -/
def plainDirectory (path : String) : String :=
  match (parts path).takeWhile fun c => !isPattern c with
  | [] => ""
  | cs => directoryOf ("/".intercalate cs ++ "/")

/-- The parts of a path from the first that is a pattern. -/
def patternParts (path : String) : List String :=
  ((parts path).dropWhile fun c => !isPattern c).filter (· != "")

section
variable (fits : String → String → Bool) (s : FileStore)

/-- The names in a directory that fit a part of a path. If the path goes on after it, only
directories do. -/
def namesFitting (directory part : String) (goesOn : Bool) : List String :=
  if isPattern part then
    (s.namesIn directory).filter fun n =>
      (part.startsWith "." || !n.startsWith ".") && fits part n &&
        (!goesOn || s.isDirectory (join directory n))
  else if s.leads (join directory part) then [part]
  else []

/-- The paths that go on from directories by names that fit the parts of a path. -/
def extensions : List String → List String → List String
  | [], directories => directories
  | c :: cs, directories =>
    extensions cs (directories.flatMap fun d => (namesFitting fits s d c !cs.isEmpty).map (join d))

def expansions (pattern : String) : List String :=
  (extensions fits s (patternParts pattern) [plainDirectory pattern]).mergeSort (· ≤ ·)

end

end Path
end Spellbook

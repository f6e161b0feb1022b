/-!
# Texts in columns

Aligning texts to a width, and the lines of a text.
-/

namespace Spellbook
namespace Text

def blanks (n : Nat) : String := String.ofList (List.replicate n ' ')

/-- A text at the left end of a column; one that is too long is kept whole. -/
def alignLeft (width : Nat) (s : String) : String := s ++ blanks (width - s.length)

/-- A text at the right end of a column; one that is too long is kept whole. -/
def alignRight (width : Nat) (s : String) : String := blanks (width - s.length) ++ s

def endsLine (c : Char) : Bool :=
  (10 ≤ c.toNat && c.toNat ≤ 13) || (0x1c ≤ c.toNat && c.toNat ≤ 0x1e) || c.toNat == 0x85 ||
    c.toNat == 0x2028 || c.toNat == 0x2029

/-- The last line of a text, which does not end in a line break. -/
def lastLine (s : String) : String :=
  String.ofList (s.toList.reverse.takeWhile fun c => !endsLine c).reverse

def pieces (mark : Char) : List Char → List (List Char)
  | [] => [[]]
  | c :: cs =>
    if c = mark then [] :: pieces mark cs
    else match pieces mark cs with
      | [] => [[c]]
      | p :: ps => (c :: p) :: ps

/-- The pieces of a text between the marks. -/
def split (mark : Char) (s : String) : List String := (pieces mark s.toList).map String.ofList

end Text
end Spellbook

/-!
# Escapes in texts

The text between the quotes of a literal is taken byte by byte. A backslash starts an escape; every
other byte stands for the character with its number, also the bytes of a character beyond the basic
range. `Escape.decode` gives the characters, or the first escape that is none. What it has to know
of characters for that, beyond their numbers, is given to it.
-/

namespace Spellbook
namespace Text
namespace Escape

/-- What is wrong with an escape. -/
inductive Reason where
  | endsInBackslash
  | shortX
  | shortU
  | shortLongU
  | beyondRange
  | malformedName
  | unknownName
  deriving DecidableEq, Repr

/-- A broken escape: the bytes from `first` to `last`. -/
structure Broken where
  first : Nat
  last : Nat
  reason : Reason
  deriving DecidableEq, Repr

/-- What is known of characters: those that have a name, and what stands for the half of a pair of
numbers, which is no character. -/
structure Characters where
  named : List Nat → Option Char := fun _ => none
  half : Nat → Char := fun _ => '\x00'

/-- The value of a hexadecimal digit. -/
def hexValue? (b : Nat) : Option Nat :=
  if 48 ≤ b ∧ b ≤ 57 then some (b - 48)
  else if 97 ≤ b ∧ b ≤ 102 then some (b - 87)
  else if 65 ≤ b ∧ b ≤ 70 then some (b - 55)
  else none

/-- The hexadecimal digits at the front, at most `count`: their number, their value and the rest. -/
def takeHex : Nat → Nat → Nat → List Nat → Nat × Nat × List Nat
  | 0, taken, value, bs => (taken, value, bs)
  | _ + 1, taken, value, [] => (taken, value, [])
  | count + 1, taken, value, b :: bs =>
    match hexValue? b with
    | some d => takeHex count (taken + 1) (value * 16 + d) bs
    | none => (taken, value, b :: bs)

/-- The octal digits at the front, at most `count`: their number, their value and the rest. -/
def takeOctal : Nat → Nat → Nat → List Nat → Nat × Nat × List Nat
  | 0, taken, value, bs => (taken, value, bs)
  | _ + 1, taken, value, [] => (taken, value, [])
  | count + 1, taken, value, b :: bs =>
    if 48 ≤ b ∧ b ≤ 55 then takeOctal count (taken + 1) (value * 8 + (b - 48)) bs
    else (taken, value, b :: bs)

/-- What an escape gives: characters, the number of bytes after the backslash, and the rest. -/
abbrev Step := Except Broken (List Char × Nat × List Nat)

/-- A hexadecimal escape of `count` digits; the backslash stands at `pos`. -/
def hexEscape (t : Characters) (pos count : Nat) (short : Reason) (bs : List Nat) : Step :=
  let (taken, value, rest) := takeHex count 0 0 bs
  if taken < count then .error ⟨pos, pos + 1 + taken, short⟩
  else if 0x10ffff < value then .error ⟨pos, pos + 1 + taken, .beyondRange⟩
  else .ok ([if value.isValidChar then Char.ofNat value else t.half value], taken + 1, rest)

def nameEscape (t : Characters) (pos : Nat) : List Nat → Step
  | 123 :: bs =>
    let name := bs.takeWhile (· != 125)
    match bs.dropWhile (· != 125) with
    | [] => .error ⟨pos, pos + 2 + name.length, .malformedName⟩
    | _ :: rest =>
      if name.isEmpty then .error ⟨pos, pos + 2, .malformedName⟩
      else
        match t.named name with
        | none => .error ⟨pos, pos + 3 + name.length, .unknownName⟩
        | some c => .ok ([c], name.length + 3, rest)
  | _ => .error ⟨pos, pos + 1, .malformedName⟩

/-- The escape after a backslash that stands at `pos`. -/
def escape (t : Characters) (pos : Nat) : List Nat → Step
  | [] => .error ⟨pos, pos, .endsInBackslash⟩
  | b :: bs =>
    match Char.ofNat b with
    | '\n' => .ok ([], 1, bs)
    | '\\' => .ok (['\\'], 1, bs)
    | '\'' => .ok (['\''], 1, bs)
    | '"' => .ok (['"'], 1, bs)
    | 'a' => .ok (['\x07'], 1, bs)
    | 'b' => .ok (['\x08'], 1, bs)
    | 'f' => .ok (['\x0c'], 1, bs)
    | 'n' => .ok (['\n'], 1, bs)
    | 'r' => .ok (['\r'], 1, bs)
    | 't' => .ok (['\t'], 1, bs)
    | 'v' => .ok (['\x0b'], 1, bs)
    | 'x' => hexEscape t pos 2 .shortX bs
    | 'u' => hexEscape t pos 4 .shortU bs
    | 'U' => hexEscape t pos 8 .shortLongU bs
    | 'N' => nameEscape t pos bs
    | c =>
      if 48 ≤ b ∧ b ≤ 55 then
        let (taken, value, rest) := takeOctal 3 0 0 (b :: bs)
        .ok ([Char.ofNat value], taken, rest)
      else .ok (['\\', c], 1, bs)

/-- The characters of the bytes from the place `pos` on. -/
def decodeFrom (t : Characters) : Nat → Nat → List Nat → Except Broken (List Char)
  | 0, _, _ => .ok []
  | _, _, [] => .ok []
  | fuel + 1, pos, b :: bs =>
    if b = 92 then
      match escape t pos bs with
      | .error e => .error e
      | .ok (cs, taken, rest) => (decodeFrom t fuel (pos + 1 + taken) rest).map (cs ++ ·)
    else (decodeFrom t fuel (pos + 1) bs).map (Char.ofNat b :: ·)

def bytesOf (s : String) : List Nat := s.toUTF8.toList.map UInt8.toNat

/-- The text that a literal stands for, given what stands between its quotes. -/
def decode (s : String) (t : Characters := {}) : Except Broken String :=
  let bytes := bytesOf s
  (decodeFrom t bytes.length 0 bytes).map String.ofList

end Escape
end Text
end Spellbook

/-!
# Texts as bytes

Decoding the bytes of a file. `Utf8.decode` gives the characters, or the first bytes that are no
character: the longest run that could still have become one.
-/

namespace Spellbook
namespace Text
namespace Utf8

/-- Why bytes are no character. -/
inductive Reason where
  | badStart
  | badContinuation
  | cutShort
  deriving DecidableEq, Repr

/-- Bytes that are no character: `count` of them from `position` on, the first of which is
`byte`. -/
structure Broken where
  position : Nat
  count : Nat
  byte : Nat
  reason : Reason
  deriving DecidableEq, Repr

/-- What a first byte announces: the number of bytes that follow, its own bits, and the range of
the second byte. -/
structure Lead where
  following : Nat
  bits : Nat
  low : Nat
  high : Nat

/-- What a first byte announces, if it can be one. -/
def lead? (b : Nat) : Option Lead :=
  if b < 0x80 then some ⟨0, b, 0x80, 0xbf⟩
  else if b < 0xc2 then none
  else if b < 0xe0 then some ⟨1, b - 0xc0, 0x80, 0xbf⟩
  else if b < 0xf0 then
    some ⟨2, b - 0xe0, if b = 0xe0 then 0xa0 else 0x80, if b = 0xed then 0x9f else 0xbf⟩
  else if b < 0xf5 then
    some ⟨3, b - 0xf0, if b = 0xf0 then 0x90 else 0x80, if b = 0xf4 then 0x8f else 0xbf⟩
  else none

/-- Reads `n` further bytes of a character, the first of them within a range: the character's
number and the rest, or how many bytes fit and why the next does not. -/
def further : Nat → Nat → Nat → Nat → Nat → List Nat → Except (Nat × Reason) (Nat × List Nat)
  | 0, _, _, _, value, bs => .ok (value, bs)
  | _ + 1, taken, _, _, _, [] => .error (taken, .cutShort)
  | n + 1, taken, low, high, value, b :: bs =>
    if low ≤ b ∧ b ≤ high then further n (taken + 1) 0x80 0xbf (value * 64 + (b - 0x80)) bs
    else .error (taken, .badContinuation)

/-- Decodes the bytes from a position on; `fuel` bounds the number of characters. -/
def decodeFrom : Nat → Nat → List Nat → List Char → Except Broken (List Char)
  | 0, _, _, done => .ok done.reverse
  | _, _, [], done => .ok done.reverse
  | fuel + 1, position, b :: bs, done =>
    match lead? b with
    | none => .error ⟨position, 1, b, .badStart⟩
    | some l =>
      match further l.following 1 l.low l.high l.bits bs with
      | .error (taken, reason) => .error ⟨position, taken, b, reason⟩
      | .ok (value, rest) =>
        decodeFrom fuel (position + 1 + l.following) rest (Char.ofNat value :: done)

def decode (bytes : List Nat) : Except Broken String :=
  (decodeFrom bytes.length 0 bytes []).map String.ofList

end Utf8
end Text
end Spellbook

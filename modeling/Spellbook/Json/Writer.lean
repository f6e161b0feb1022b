import Spellbook.Json.Value
import Spellbook.Number.Shortest
import Spellbook.Text.Quoted

/-!
# Written JSON

The written form of a value: a comma and a blank between entries, a colon and a blank after a
name, and only ASCII characters, the others as escapes of their UTF-16 units.
-/

namespace Spellbook
namespace JsonValue

def unitEscape (n : Nat) : List Char := '\\' :: 'u' :: Text.hexText 4 n

def escapedChar (c : Char) : List Char :=
  if c = '"' then ['\\', '"']
  else if c = '\\' then ['\\', '\\']
  else if c = '\n' then ['\\', 'n']
  else if c = '\r' then ['\\', 'r']
  else if c = '\t' then ['\\', 't']
  else if c.toNat = 8 then ['\\', 'b']
  else if c.toNat = 12 then ['\\', 'f']
  else if 32 ≤ c.toNat && c.toNat ≤ 126 then [c]
  else if c.toNat < 0x10000 then unitEscape c.toNat
  else
    let n := c.toNat - 0x10000
    unitEscape (0xd800 + n / 0x400) ++ unitEscape (0xdc00 + n % 0x400)

def textText (s : String) : String := "\"" ++ String.ofList (s.toList.flatMap escapedChar) ++ "\""

/-- A written float; the values outside the numbers are spelled out. -/
def floatNumeral (x : Float) : String :=
  match FloatView.of x with
  | .infinite negative => signText negative ++ "Infinity"
  | .nan => "NaN"
  | _ => floatText x

def intNumeral (n : Int) : String := signText (n < 0) ++ Decimal.natText n.natAbs

mutual

def write : JsonValue → String
  | .null => "null"
  | .truth b => if b then "true" else "false"
  | .int n => intNumeral n
  | .float x => floatNumeral x
  | .text s => textText s
  | .list items => "[" ++ String.intercalate ", " (writeItems items) ++ "]"
  | .object fields => "\x7b" ++ String.intercalate ", " (writeFields fields) ++ "\x7d"

def writeItems : List JsonValue → List String
  | [] => []
  | v :: rest => v.write :: writeItems rest

/-- The written entries of an object. -/
def writeFields : List (String × JsonValue) → List String
  | [] => []
  | (k, v) :: rest => (textText k ++ ": " ++ v.write) :: writeFields rest

end

end JsonValue
end Spellbook

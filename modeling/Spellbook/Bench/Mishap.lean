import Spellbook.Json.Value
import Spellbook.Number.Shortest
import Spellbook.Text.Quoted

/-!
# Mishaps

What goes wrong while benchmarks are loaded, run and reported: the name of a kind and a message.
The kinds come from outside, with the benchmarks, so they are kept as names.
-/

namespace Spellbook

/-- Something that went wrong. -/
structure Mishap where
  kind : String
  detail : String
  deriving DecidableEq, Repr

namespace Mishap

/-- The message; a missing key is named in quotes. -/
def message (m : Mishap) : String := if m.kind = "KeyError" then Text.quoted m.detail else m.detail

/-- Kind and message in one line. -/
def line (m : Mishap) : String := m.kind ++ ": " ++ m.message

/-- The kind as it stands in place of a result. -/
def mark (m : Mishap) : String := "<" ++ m.kind ++ ">"

def notJson (message : String) : Mishap := ⟨"JSONDecodeError", message⟩

def noField (name : String) : Mishap := ⟨"KeyError", name⟩

/-- Something that is not an object was asked for what objects have. -/
def notObject (v : JsonValue) (asked : String) : Mishap :=
  ⟨"AttributeError", "'" ++ v.kindName ++ "' object has no attribute '" ++ asked ++ "'"⟩

/-- A field of something that has no fields. -/
def notIndexed (v : JsonValue) : Mishap :=
  ⟨"TypeError", match v with
    | .list _ => "list indices must be integers or slices, not str"
    | .text _ => "string indices must be integers, not 'str'"
    | _ => "'" ++ v.kindName ++ "' object is not subscriptable"⟩

/-- Setting a field of something that has no fields. -/
def notAssignable (v : JsonValue) : Mishap :=
  ⟨"TypeError", match v with
    | .list _ => "list indices must be integers or slices, not str"
    | _ => "'" ++ v.kindName ++ "' object does not support item assignment"⟩

/-- A value that is laid out as a number and is none. -/
def notFormatted (v : JsonValue) : Mishap :=
  match v with
  | .text _ => ⟨"ValueError", "Unknown format code 'f' for object of type 'str'"⟩
  | _ => ⟨"TypeError", "unsupported format string passed to " ++ v.kindName ++ ".__format__"⟩

/-- A value that is taken as a float and is none. -/
def notFloat (v : JsonValue) : Mishap :=
  match v with
  | .text s => ⟨"ValueError", "could not convert string to float: " ++ Text.quoted s⟩
  | _ => ⟨"TypeError", "float() argument must be a string or a real number, not '" ++
      v.kindName ++ "'"⟩

end Mishap
end Spellbook

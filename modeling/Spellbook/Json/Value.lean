/-!
# JSON values

Whole numbers and floats are kept apart, because a whole number is written without a
point, and the fields of an object keep the order in which they were first set.
-/

namespace Spellbook

/-- A JSON value. -/
inductive JsonValue where
  | null
  | truth (b : Bool)
  | int (n : Int)
  | float (x : Float)
  | text (s : String)
  | list (items : List JsonValue)
  | object (fields : List (String × JsonValue))
  deriving Inhabited

namespace JsonValue

/-! ### Fields -/

def lookup (name : String) : List (String × JsonValue) → Option JsonValue
  | [] => none
  | (k, v) :: rest => if k = name then some v else lookup name rest

/-- Sets a field: in its place if the name is there, at the end if it is new. -/
def setField (name : String) (value : JsonValue) :
    List (String × JsonValue) → List (String × JsonValue)
  | [] => [(name, value)]
  | (k, v) :: rest => if k = name then (k, value) :: rest else (k, v) :: setField name value rest

/-- The fields of an object; any other value has none. -/
def fields : JsonValue → List (String × JsonValue)
  | .object fs => fs
  | _ => []

/-- A field of an object. -/
def get? (v : JsonValue) (name : String) : Option JsonValue := lookup name v.fields

/-! ### Kinds -/

/-- Whether the value counts as something: null, false, zero and what is empty do not. -/
def isSomething : JsonValue → Bool
  | .null => false
  | .truth b => b
  | .int n => n != 0
  | .float x => x != 0.0
  | .text s => s != ""
  | .list items => !items.isEmpty
  | .object fields => !fields.isEmpty

/-- The word for the kind of a value in complaints about it. -/
def kindName : JsonValue → String
  | .null => "NoneType"
  | .truth _ => "bool"
  | .int _ => "int"
  | .float _ => "float"
  | .text _ => "str"
  | .list _ => "list"
  | .object _ => "dict"

/-- The whole number that a value is; a truth value counts as one or zero. -/
def int? : JsonValue → Option Int
  | .int n => some n
  | .truth b => some (if b then 1 else 0)
  | _ => none

end JsonValue
end Spellbook

/-!
# JSON values

A value as a JSON text shows it. Numbers are kept as they are written, since how large they may be
depends on what they are read for. A string whose escapes have half a surrogate pair is well-formed
but has no value.
-/

namespace Cegar

inductive JsonValue where
  | null
  | bool (b : Bool)
  /-- A number as it is written. -/
  | number (text : List Char)
  | string (s : Option String)
  | array (vs : List JsonValue)
  | object (fields : List (Option String × JsonValue))
deriving Inhabited

namespace JsonValue

/-- A string that has a value. -/
def str (s : String) : JsonValue := .string (some s)

/-- An object whose field names have a value. -/
def obj (fields : List (String × JsonValue)) : JsonValue :=
  .object (fields.map fun (k, v) => (some k, v))

/-- The string, if it is one that has a value. -/
def string? : JsonValue → Option String
  | .string s => s
  | _ => none

def bool? : JsonValue → Option Bool
  | .bool b => some b
  | _ => none

end JsonValue

end Cegar

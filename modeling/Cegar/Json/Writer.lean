import Cegar.Json.Value

/-!
# Writing JSON

The compact form: no blanks, and only those characters escaped that have to be.
-/

namespace Cegar.JsonValue

/-- The digits of a control character in hexadecimal, two of them. -/
def hexPair (n : Nat) : List Char := [Nat.digitChar (n / 16), Nat.digitChar (n % 16)]

/-- A character as it is written in a string. -/
def escape (c : Char) : List Char :=
  match c with
  | '"' => ['\\', '"']
  | '\\' => ['\\', '\\']
  | '\n' => ['\\', 'n']
  | '\r' => ['\\', 'r']
  | '\t' => ['\\', 't']
  | '\x08' => ['\\', 'b']
  | '\x0c' => ['\\', 'f']
  | c => if c.toNat < 32 then ['\\', 'u', '0', '0'] ++ hexPair c.toNat else [c]

def writeString (s : String) : List Char := '"' :: s.toList.flatMap escape ++ ['"']

mutual

def write : JsonValue → List Char
  | .null => ['n', 'u', 'l', 'l']
  | .bool true => ['t', 'r', 'u', 'e']
  | .bool false => ['f', 'a', 'l', 's', 'e']
  | .number text => text
  | .string s => writeString (s.getD "")
  | .array vs => '[' :: writeItems vs
  | .object fs => '\x7b' :: writeFields fs

/-- The values of an array and the closing bracket. -/
def writeItems : List JsonValue → List Char
  | [] => [']']
  | [v] => v.write ++ [']']
  | v :: vs => v.write ++ ',' :: writeItems vs

/-- The fields of an object and the closing brace. -/
def writeFields : List (Option String × JsonValue) → List Char
  | [] => ['\x7d']
  | [(k, v)] => writeString (k.getD "") ++ ':' :: v.write ++ ['\x7d']
  | (k, v) :: fs => writeString (k.getD "") ++ ':' :: v.write ++ ',' :: writeFields fs

end

def text (v : JsonValue) : String := String.ofList v.write

end Cegar.JsonValue

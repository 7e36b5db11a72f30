import Cegar.Json.Value

/-!
# Reading JSON

Each reader takes characters from the front of a text and returns what is left. Blanks are spaces,
tabs and line breaks. A number has no leading zero, and a string has no bare control character.
-/

namespace Cegar.JsonValue

def skipBlanks : List Char → List Char
  | c :: cs => if c = ' ' || c = '\n' || c = '\t' || c = '\r' then skipBlanks cs else c :: cs
  | [] => []

/-! ### Numbers -/

/-- One digit or more. -/
def readDigits (cs : List Char) : Option (List Char × List Char) :=
  let digits := cs.takeWhile Char.isDigit
  if digits.isEmpty then none else some (digits, cs.dropWhile Char.isDigit)

/-- Digits of which the first is no zero, or a single zero. -/
def readWhole (cs : List Char) : Option (List Char × List Char) := do
  let (digits, rest) ← readDigits cs
  match digits with
  | '0' :: _ :: _ => none
  | _ => some (digits, rest)

/-- The digits after the point, if there is one. -/
def readFraction : List Char → Option (List Char × List Char)
  | '.' :: cs => do
    let (digits, rest) ← readDigits cs
    return ('.' :: digits, rest)
  | cs => some ([], cs)

/-- The sign of an exponent, if there is one. -/
def readSign : List Char → List Char × List Char
  | c :: cs => if c = '+' || c = '-' then ([c], cs) else ([], c :: cs)
  | [] => ([], [])

/-- The exponent, if there is one. -/
def readExponent : List Char → Option (List Char × List Char)
  | c :: cs =>
    if c = 'e' || c = 'E' then do
      let (sign, rest) := readSign cs
      let (digits, rest) ← readDigits rest
      return (c :: sign ++ digits, rest)
    else some ([], c :: cs)
  | [] => some ([], [])

/-- A number without its sign. -/
def readUnsigned (cs : List Char) : Option (List Char × List Char) := do
  let (whole, rest) ← readWhole cs
  let (fraction, rest) ← readFraction rest
  let (exponent, rest) ← readExponent rest
  return (whole ++ fraction ++ exponent, rest)

def readNumber : List Char → Option (List Char × List Char)
  | '-' :: cs => do
    let (digits, rest) ← readUnsigned cs
    return ('-' :: digits, rest)
  | cs => readUnsigned cs

/-! ### Strings -/

def hexValue? (c : Char) : Option Nat :=
  if c.isDigit then some (c.toNat - '0'.toNat)
  else if 'a' ≤ c && c ≤ 'f' then some (c.toNat - 'a'.toNat + 10)
  else if 'A' ≤ c && c ≤ 'F' then some (c.toNat - 'A'.toNat + 10)
  else none

/-- The number that four hexadecimal digits denote. -/
def hex4? (a b c d : Char) : Option Nat := do
  return (((← hexValue? a) * 16 + (← hexValue? b)) * 16 + (← hexValue? c)) * 16 + (← hexValue? d)

/-- What a backslash and one more character stand for. -/
def simpleEscape? : Char → Option Char
  | '"' => some '"'
  | '\\' => some '\\'
  | '/' => some '/'
  | 'b' => some '\x08'
  | 'f' => some '\x0c'
  | 'n' => some '\n'
  | 'r' => some '\r'
  | 't' => some '\t'
  | _ => none

/-- A unit of the text of a string: a character, or a code of four hexadecimal digits. -/
inductive Piece where
  | char (c : Char)
  | code (n : Nat)

/-- The units of a string up to the closing quote. -/
def readPieces : List Char → Option (List Piece × List Char)
  | '"' :: cs => some ([], cs)
  | '\\' :: 'u' :: a :: b :: c :: d :: cs => do
    let n ← hex4? a b c d
    let (ps, rest) ← readPieces cs
    return (.code n :: ps, rest)
  | '\\' :: c :: cs => do
    let c ← simpleEscape? c
    let (ps, rest) ← readPieces cs
    return (.char c :: ps, rest)
  | c :: cs =>
    if c = '\\' || c.toNat < 32 then none
    else do
      let (ps, rest) ← readPieces cs
      return (.char c :: ps, rest)
  | [] => none

/-- The first half of a surrogate pair. -/
def isLeading (n : Nat) : Bool := 0xd800 ≤ n && n ≤ 0xdbff

/-- The second half of a surrogate pair. -/
def isTrailing (n : Nat) : Bool := 0xdc00 ≤ n && n ≤ 0xdfff

/-- The characters that the units stand for; none if half of a pair stands alone. -/
def joinPieces : List Piece → Option (List Char)
  | [] => some []
  | .char c :: ps => (joinPieces ps).map (c :: ·)
  | .code m :: .code n :: ps =>
    if isLeading m then
      if isTrailing n then
        (joinPieces ps).map (Char.ofNat (0x10000 + (m - 0xd800) * 0x400 + (n - 0xdc00)) :: ·)
      else none
    else if isTrailing m then none
    else (joinPieces (.code n :: ps)).map (Char.ofNat m :: ·)
  | .code m :: ps =>
    if isLeading m || isTrailing m then none else (joinPieces ps).map (Char.ofNat m :: ·)

/-- The rest of a string after its opening quote. -/
def readString (cs : List Char) : Option (Option String × List Char) := do
  let (ps, rest) ← readPieces cs
  return ((joinPieces ps).map String.ofList, rest)

/-! ### Values -/

/-- The rest of a word such as `null`. -/
def readWord : List Char → List Char → Option (List Char)
  | [], cs => some cs
  | w :: ws, c :: cs => if w = c then readWord ws cs else none
  | _ :: _, [] => none

mutual

/-- A value. Reading a value or an item uses up characters, so the length of the text is enough
fuel. -/
def readValue : Nat → List Char → Option (JsonValue × List Char)
  | 0, _ => none
  | k + 1, cs =>
    match skipBlanks cs with
    | 'n' :: cs => do return (.null, ← readWord ['u', 'l', 'l'] cs)
    | 't' :: cs => do return (.bool true, ← readWord ['r', 'u', 'e'] cs)
    | 'f' :: cs => do return (.bool false, ← readWord ['a', 'l', 's', 'e'] cs)
    | '"' :: cs => do
      let (s, rest) ← readString cs
      return (.string s, rest)
    | '[' :: cs =>
      match skipBlanks cs with
      | ']' :: rest => some (.array [], rest)
      | cs => do
        let (vs, rest) ← readItems k cs
        return (.array vs, rest)
    | '\x7b' :: cs =>
      match skipBlanks cs with
      | '\x7d' :: rest => some (.object [], rest)
      | cs => do
        let (fs, rest) ← readFields k cs
        return (.object fs, rest)
    | cs => do
      let (digits, rest) ← readNumber cs
      return (.number digits, rest)

/-- The values of an array, one at least, up to the closing bracket. -/
def readItems : Nat → List Char → Option (List JsonValue × List Char)
  | 0, _ => none
  | k + 1, cs => do
    let (v, rest) ← readValue k cs
    match skipBlanks rest with
    | ']' :: rest => return ([v], rest)
    | ',' :: rest =>
      let (vs, rest) ← readItems k rest
      return (v :: vs, rest)
    | _ => none

/-- The fields of an object, one at least, up to the closing brace. -/
def readFields : Nat → List Char → Option (List (Option String × JsonValue) × List Char)
  | 0, _ => none
  | k + 1, cs =>
    match skipBlanks cs with
    | '"' :: cs => do
      let (name, rest) ← readString cs
      match skipBlanks rest with
      | ':' :: rest =>
        let (v, rest) ← readValue k rest
        match skipBlanks rest with
        | '\x7d' :: rest => return ([(name, v)], rest)
        | ',' :: rest =>
          let (fs, rest) ← readFields k rest
          return ((name, v) :: fs, rest)
        | _ => none
      | _ => none
    | _ => none

end

/-- Reads a text that holds one value and nothing else. -/
def ofText? (s : String) : Option JsonValue := do
  let (v, rest) ← readValue (2 * s.toList.length + 2) s.toList
  if (skipBlanks rest).isEmpty then some v else none

end Cegar.JsonValue

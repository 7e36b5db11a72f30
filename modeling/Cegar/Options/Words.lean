import Cegar.Options.Error

/-!
# Splitting a command line into words

Blanks divide words. Single quotes keep all that is between them. Double quotes do so too, except
that a backslash before a dollar sign, a back quote, a double quote or a backslash disappears.
Outside of quotes a backslash makes the next character part of the word. It stands for itself at
the end and before a line break, which divides words all the same.
-/

namespace Cegar

/-- The characters with the property White_Space. -/
def isBlank (c : Char) : Bool :=
  let n := c.toNat
  (9 ≤ n && n ≤ 13) || n == 0x20 || n == 0x85 || n == 0xa0 || n == 0x1680
    || (0x2000 ≤ n && n ≤ 0x200a) || n == 0x2028 || n == 0x2029 || n == 0x202f || n == 0x205f
    || n == 0x3000

namespace Words

/-- Where the reader is. -/
inductive Mode where
  /-- Outside of quotes. -/
  | plain
  | single
  | double

/-- What a backslash and a character stand for between double quotes. -/
def unescape (c : Char) : List Char :=
  if c = '$' || c.toNat = 0x60 || c = '"' || c = '\\' then [c] else ['\\', c]

/-- The words of a text. The word being read, if there is one, is reversed. -/
def splitFrom : Mode → Option (List Char) → List Char → Except ConfigError (List String)
  | .plain, none, [] => .ok []
  | .plain, some w, [] => .ok [String.ofList w.reverse]
  | .plain, w, ['\\'] => .ok [String.ofList ('\\' :: w.getD []).reverse]
  | .plain, w, '\\' :: c :: cs =>
    if c = '\n' then do
      return String.ofList ('\\' :: w.getD []).reverse :: (← splitFrom .plain none cs)
    else splitFrom .plain (some (c :: w.getD [])) cs
  | .plain, w, c :: cs =>
    if isBlank c then
      match w with
      | some w => do return String.ofList w.reverse :: (← splitFrom .plain none cs)
      | none => splitFrom .plain none cs
    else if c = '\'' then splitFrom .single (some (w.getD [])) cs
    else if c = '"' then splitFrom .double (some (w.getD [])) cs
    else splitFrom .plain (some (c :: w.getD [])) cs
  | .single, w, c :: cs =>
    if c = '\'' then splitFrom .plain w cs else splitFrom .single (some (c :: w.getD [])) cs
  | .double, w, '\\' :: c :: cs =>
    if c = '\n' then .error .mismatchedQuotes
    else splitFrom .double (some ((unescape c).reverse ++ w.getD [])) cs
  | .double, w, c :: cs =>
    if c = '"' then splitFrom .plain w cs
    else splitFrom .double (some (c :: w.getD [])) cs
  | .single, _, [] | .double, _, [] => .error .mismatchedQuotes

def split (s : String) : Except ConfigError (List String) := splitFrom .plain none s.toList

end Words

end Cegar

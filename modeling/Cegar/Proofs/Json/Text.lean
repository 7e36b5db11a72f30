import Cegar.Json.Reader
import Cegar.Json.Writer

/-!
# Reading undoes writing

What is written can be read again, whatever follows, as long as what follows does not go on with the
number that was written last. Strings come back character by character: each is written as one unit
that stands for it. A text is at least half as long as the fuel that reading it takes.

* **`JsonValue.Writable`**: values whose strings and field names have a value, and whose numbers are
  integers;
* **`JsonValue.readString_write`**, **`JsonValue.readNumber_toDigits`**: strings and numbers come back;
* **`JsonValue.Writable.recovers`**: so do all writable values;
* **`JsonValue.ofText?_text`**: the text of a writable value is read as that value.
-/

namespace Cegar.JsonValue

variable {c d : Char} {cs rest : List Char} {k n : Nat} {v : JsonValue}

/-! ## Numbers -/

/-- What may stand behind a value: nothing, or something that ends it. -/
def Delimits (rest : List Char) : Prop := ∀ c ∈ rest.head?, c = ',' ∨ c = ']' ∨ c = '\x7d'

theorem delimits_nil : Delimits [] := by simp [Delimits]

theorem delimits_cons (hc : c = ',' ∨ c = ']' ∨ c = '\x7d') : Delimits (c :: rest) := by
  simpa [Delimits] using hc

/-- Decimal digits start with a zero only if there is no other digit. -/
theorem toDigits_ne_zero_cons : Nat.toDigits 10 n ≠ '0' :: c :: cs := by
  induction n using Nat.strongRecOn generalizing c cs with
  | _ n ih =>
    rcases Nat.lt_or_ge n 10 with hn | hn
    · rw [Nat.toDigits_of_lt_base hn]
      simp
    · rw [Nat.toDigits_of_base_le (by decide) hn]
      intro h
      cases hds : Nat.toDigits 10 (n / 10) with
      | nil => exact Nat.toDigits_ne_nil hds
      | cons d ds =>
        rw [hds, List.cons_append] at h
        obtain ⟨rfl, -⟩ := List.cons.inj h
        cases ds with
        | cons e es => exact ih (n / 10) (by omega) hds
        | nil =>
          -- a single zero is the number zero, but there were two digits to start with
          have hvalue := congrArg (Nat.ofDigitChars 10 · 0) hds
          simp only [Nat.ofDigitChars_toDigits (b := 10) (by decide) (by decide)] at hvalue
          have : Nat.ofDigitChars 10 ['0'] 0 = 0 := rfl
          omega

/-- Digits are read up to the delimiter. -/
theorem readDigits_toDigits (hrest : Delimits rest) :
    readDigits (Nat.toDigits 10 n ++ rest) = some (Nat.toDigits 10 n, rest) := by
  have hdigits : ∀ c ∈ Nat.toDigits 10 n, c.isDigit = true := fun c hc =>
    Nat.isDigit_of_mem_toDigits (by decide) (by decide) hc
  have hstop : rest.takeWhile Char.isDigit = [] ∧ rest.dropWhile Char.isDigit = rest := by
    cases rest with
    | nil => exact ⟨rfl, rfl⟩
    | cons c rest => rcases hrest c rfl with rfl | rfl | rfl <;> exact ⟨rfl, rfl⟩
  unfold readDigits
  rw [List.takeWhile_append_of_pos hdigits, List.dropWhile_append_of_pos hdigits, hstop.1, hstop.2,
    List.append_nil]
  simp [Nat.toDigits_ne_nil]

theorem readUnsigned_toDigits (hrest : Delimits rest) :
    readUnsigned (Nat.toDigits 10 n ++ rest) = some (Nat.toDigits 10 n, rest) := by
  have hwhole : readWhole (Nat.toDigits 10 n ++ rest) = some (Nat.toDigits 10 n, rest) := by
    unfold readWhole
    rw [readDigits_toDigits hrest]
    simp only [Option.bind_eq_bind, Option.bind_some]
    split
    · next heq => exact absurd heq toDigits_ne_zero_cons
    · rfl
  have hfraction : readFraction rest = some ([], rest) := by
    cases rest with
    | nil => rfl
    | cons c rest => rcases hrest c rfl with rfl | rfl | rfl <;> rfl
  have hexponent : readExponent rest = some ([], rest) := by
    cases rest with
    | nil => rfl
    | cons c rest => rcases hrest c rfl with rfl | rfl | rfl <;> rfl
  simp [readUnsigned, hwhole, hfraction, hexponent]

/-! ## Strings -/

attribute [local simp] readPieces joinPieces

/-- The unit that a character is written as. -/
def pieceOf (c : Char) : Piece :=
  if c.toNat < 32 ∧ ['\n', '\r', '\t', '\x08', '\x0c'].contains c = false then .code c.toNat
  else .char c

/-- A short escape stands for its character. -/
theorem readPieces_simple (h : simpleEscape? c = some d) :
    readPieces ('\\' :: c :: cs) = (readPieces cs).map fun r => (.char d :: r.1, r.2) := by
  rw [readPieces, h]
  · cases readPieces cs <;> rfl
  · rintro a b e f cs rfl -
    cases h

/-- A code of four digits stands for the character with that code. -/
theorem readPieces_code {a b : Char} (h : hex4? a b c d = some n) :
    readPieces ('\\' :: 'u' :: a :: b :: c :: d :: cs) =
      (readPieces cs).map fun r => (.code n :: r.1, r.2) := by
  rw [readPieces, h]
  cases readPieces cs <;> rfl

/-- Any other character stands for itself. -/
theorem readPieces_plain (hquote : c ≠ '"') (hslash : c ≠ '\\') (hc : 32 ≤ c.toNat) :
    readPieces (c :: cs) = (readPieces cs).map fun r => (.char c :: r.1, r.2) := by
  rw [readPieces, if_neg]
  · cases readPieces cs <;> rfl
  · simp [hslash, hc]
  · exact hquote
  · rintro a b e f cs rfl -
    exact hslash rfl
  · rintro a cs rfl -
    exact hslash rfl

theorem hexValue?_digitChar : ∀ n < 16, hexValue? (Nat.digitChar n) = some n := by
  decide

theorem hex4?_hexPair (h : n < 32) :
    hex4? '0' '0' (Nat.digitChar (n / 16)) (Nat.digitChar (n % 16)) = some n := by
  simp only [hex4?, hexValue?_digitChar (n / 16) (by omega), hexValue?_digitChar (n % 16) (by omega)]
  show some _ = some n
  congr 1
  have : hexValue? '0' = some 0 := rfl
  omega

/-- What a character is written as is read as the character. -/
theorem readPieces_escape :
    readPieces (escape c ++ cs) = (readPieces cs).map fun r => (pieceOf c :: r.1, r.2) := by
  unfold escape
  split
  -- the characters that have an escape of their own
  · exact readPieces_simple rfl
  · exact readPieces_simple rfl
  · exact readPieces_simple rfl
  · exact readPieces_simple rfl
  · exact readPieces_simple rfl
  · exact readPieces_simple rfl
  · exact readPieces_simple rfl
  · next hquote hslash hn hr ht hb hf =>
    have hlisted : ['\n', '\r', '\t', '\x08', '\x0c'].contains c = false := by
      simp [show c ≠ '\n' from hn, show c ≠ '\r' from hr, show c ≠ '\t' from ht,
        show c ≠ '\x08' from hb, show c ≠ '\x0c' from hf]
    -- other control characters are written as codes, and all the rest as it is
    split
    · next hc =>
      rw [pieceOf, hlisted]
      simp only [hc]
      exact readPieces_code (hex4?_hexPair hc)
    · next hc =>
      rw [pieceOf, hlisted]
      simp only [hc]
      exact readPieces_plain hquote hslash (Nat.le_of_not_lt hc)

/-- Pieces are joined to the characters that they stand for. -/
theorem joinPieces_cons {ps : List Piece} :
    joinPieces (pieceOf c :: ps) = (joinPieces ps).map (c :: ·) := by
  unfold pieceOf
  split
  · next hc =>
    -- the code of a control character is no half of a pair, so it stands alone
    obtain ⟨hsmall, -⟩ := hc
    have hleading : isLeading c.toNat = false := by
      simp [isLeading]; omega
    have htrailing : isTrailing c.toNat = false := by
      simp [isTrailing]; omega
    cases ps with
    | nil => simp [hleading, htrailing]
    | cons p ps =>
      cases p with
      | char d => simp [hleading, htrailing]
      | code n => simp [hleading, htrailing]
  · simp

/-- A string is read as it was written. -/
theorem readString_write {s : String} :
    readString (s.toList.flatMap escape ++ '"' :: rest) = some (some s, rest) := by
  have hpieces : ∀ cs : List Char, readPieces (cs.flatMap escape ++ '"' :: rest) =
      some (cs.map pieceOf, rest) := by
    intro cs
    induction cs with
    | nil => simp
    | cons c cs ih =>
      rw [List.flatMap_cons, List.append_assoc, readPieces_escape, ih]
      rfl
  have hjoin : ∀ cs : List Char, joinPieces (cs.map pieceOf) = some cs := by
    intro cs
    induction cs with
    | nil => rfl
    | cons c cs ih =>
      rw [List.map_cons, joinPieces_cons, ih]
      rfl
  unfold readString
  rw [hpieces]
  simp [hjoin]

/-! ## Values -/

attribute [local simp] readValue readItems readFields writeItems writeFields

/-- A value that can be written and read again. -/
inductive Writable : JsonValue → Prop
  | null : Writable .null
  | bool (b : Bool) : Writable (.bool b)
  | natural (n : Nat) : Writable (.number (Nat.toDigits 10 n))
  | negative (n : Nat) : Writable (.number ('-' :: Nat.toDigits 10 n))
  | string (s : String) : Writable (.string (some s))
  | array {vs : List JsonValue} (hvs : ∀ v ∈ vs, Writable v) : Writable (.array vs)
  | object {fs : List (String × JsonValue)} (hfs : ∀ f ∈ fs, Writable f.2) : Writable (.obj fs)

/-- A number without fraction and exponent is read as it was written. -/
theorem readNumber_toDigits (hrest : Delimits rest) :
    readNumber (Nat.toDigits 10 n ++ rest) = some (Nat.toDigits 10 n, rest) := by
  rw [readNumber, readUnsigned_toDigits hrest]
  intro cs hcs
  cases hds : Nat.toDigits 10 n with
  | nil => exact Nat.toDigits_ne_nil hds
  | cons d ds =>
    rw [hds] at hcs
    cases hcs
    have := Nat.isDigit_of_mem_toDigits (b := 10) (n := n) (by decide) (by decide)
      (hds ▸ List.mem_cons_self)
    exact absurd this (by decide)

theorem skipBlanks_cons (h : c ∉ [' ', '\n', '\t', '\r']) : skipBlanks (c :: cs) = c :: cs := by
  rw [skipBlanks, if_neg]
  simpa [and_assoc, or_assoc] using h

/-- Characters that numbers start with. -/
def StartsNumber (c : Char) : Prop := c = '-' ∨ c.isDigit = true

theorem StartsNumber.ne (h : StartsNumber c) (hd : d.isDigit = false) (hminus : d ≠ '-') :
    c ≠ d := by
  rintro rfl
  rcases h with rfl | h
  · exact hminus rfl
  · rw [hd] at h
    cases h

theorem exists_startsNumber : ∃ c cs, Nat.toDigits 10 n = c :: cs ∧ StartsNumber c := by
  cases hds : Nat.toDigits 10 n with
  | nil => exact absurd hds Nat.toDigits_ne_nil
  | cons d ds =>
    exact ⟨d, ds, rfl, .inr (Nat.isDigit_of_mem_toDigits (b := 10) (n := n) (by decide) (by decide)
      (hds ▸ List.mem_cons_self))⟩

/-- A digit or a minus sign begins a number. -/
theorem readValue_number (hc : StartsNumber c) :
    readValue (k + 1) (c :: cs) = (readNumber (c :: cs)).map fun r => (.number r.1, r.2) := by
  have hskip : skipBlanks (c :: cs) = c :: cs := skipBlanks_cons (by
    simp [hc.ne (d := ' ') rfl (by decide), hc.ne (d := '\n') rfl (by decide),
      hc.ne (d := '\t') rfl (by decide), hc.ne (d := '\r') rfl (by decide)])
  rw [readValue, hskip]
  -- none of the other values starts like a number
  split
  · next h => cases h; exact absurd rfl (hc.ne rfl (by decide))
  · next h => cases h; exact absurd rfl (hc.ne rfl (by decide))
  · next h => cases h; exact absurd rfl (hc.ne rfl (by decide))
  · next h => cases h; exact absurd rfl (hc.ne rfl (by decide))
  · next h => cases h; exact absurd rfl (hc.ne rfl (by decide))
  · next h => cases h; exact absurd rfl (hc.ne rfl (by decide))
  · cases readNumber (c :: cs) <;> rfl

/-- A value is written without a blank or a closing bracket in front. -/
theorem Writable.write_head (h : Writable v) :
    ∃ c cs, v.write = c :: cs ∧ c ∉ [' ', '\n', '\t', '\r'] ∧ c ≠ ']' := by
  have hnumber {c : Char} (hc : StartsNumber c) : c ∉ [' ', '\n', '\t', '\r'] ∧ c ≠ ']' := by
    simp [hc.ne (d := ' ') rfl (by decide), hc.ne (d := '\n') rfl (by decide),
      hc.ne (d := '\t') rfl (by decide), hc.ne (d := '\r') rfl (by decide),
      hc.ne (d := ']') rfl (by decide)]
  cases h with
  | null => exact ⟨_, _, rfl, by decide, by decide⟩
  | bool b => cases b <;> exact ⟨_, _, rfl, by decide, by decide⟩
  | natural n =>
    obtain ⟨c, cs, hcs, hc⟩ := exists_startsNumber (n := n)
    exact ⟨c, cs, hcs, hnumber hc⟩
  | negative n => exact ⟨_, _, rfl, by decide, by decide⟩
  | string s => exact ⟨_, _, rfl, by decide, by decide⟩
  | array hvs => exact ⟨_, _, rfl, by decide, by decide⟩
  | object hfs => exact ⟨_, _, rfl, by decide, by decide⟩

/-- Nothing is written as nothing. -/
theorem Writable.length_pos (h : Writable v) : 0 < v.write.length := by
  obtain ⟨c, cs, hcs, -⟩ := h.write_head
  simp [hcs]

/-- The value is read from its text, with fuel for twice the length. -/
def Recovers (v : JsonValue) : Prop := ∀ k rest, Delimits rest → 2 * v.write.length ≤ k + 2 →
  readValue (k + 1) (v.write ++ rest) = some (v, rest)

/-! ### Items -/

theorem readItems_last (hv : readValue k cs = some (v, ']' :: rest)) :
    readItems (k + 1) cs = some ([v], rest) := by
  simp [hv, skipBlanks_cons]

/-- A comma is followed by another item. -/
theorem readItems_more {cs' : List Char} (hv : readValue k cs = some (v, ',' :: cs')) :
    readItems (k + 1) cs = (readItems k cs').map fun r => (v :: r.1, r.2) := by
  rw [readItems, hv]
  simp only [Option.bind_eq_bind, Option.bind_some, skipBlanks_cons (by decide : ',' ∉ _)]
  cases readItems k cs' <;> rfl

/-- An array is read as it was written. -/
theorem readItems_write {vs : List JsonValue} (hne : vs ≠ []) (hvs : ∀ v ∈ vs, Writable v)
    (hread : ∀ v ∈ vs, Recovers v) (hk : 2 * (writeItems vs).length ≤ k + 2) :
    readItems (k + 1) (writeItems vs ++ rest) = some (vs, rest) := by
  -- an item takes one unit of fuel from those behind it, and its delimiter brings in two
  induction vs generalizing k with
  | nil => exact absurd rfl hne
  | cons v vs ih =>
    have hpos := (hvs v (by simp)).length_pos
    cases vs with
    | nil =>
      rw [writeItems, List.append_assoc, List.singleton_append]
      rw [writeItems, List.length_append, List.length_singleton] at hk
      obtain ⟨k, rfl⟩ : ∃ j, k = j + 1 := ⟨k - 1, by omega⟩
      exact readItems_last (hread v (by simp) k _ (delimits_cons (by decide)) (by omega))
    | cons w ws =>
      rw [writeItems, List.append_assoc, List.cons_append]
      rw [writeItems, List.length_append, List.length_cons] at hk
      obtain ⟨k, rfl⟩ : ∃ j, k = j + 1 := ⟨k - 1, by omega⟩
      rw [readItems_more (hread v (by simp) k _ (delimits_cons (by decide)) (by omega)),
        ih (by simp) (fun u hu => hvs u (List.mem_cons_of_mem _ hu))
          (fun u hu => hread u (List.mem_cons_of_mem _ hu)) (by omega)]
      · rfl
      all_goals simp

theorem exists_writeItems (v : JsonValue) (vs : List JsonValue) :
    ∃ tail, writeItems (v :: vs) = v.write ++ tail := by
  cases vs with
  | nil => exact ⟨_, rfl⟩
  | cons w ws => exact ⟨_, by rw [writeItems]; simp⟩

theorem readValue_array (hblank : c ∉ [' ', '\n', '\t', '\r']) (hc : c ≠ ']') :
    readValue (k + 1) ('[' :: c :: cs) =
      (readItems k (c :: cs)).map fun r => (.array r.1, r.2) := by
  rw [readValue, skipBlanks_cons (by decide)]
  simp only [skipBlanks_cons hblank]
  split
  · next h => cases h; exact absurd rfl hc
  · cases readItems k (c :: cs) <;> rfl

/-! ### Fields -/

/-- Fields as they are read: their names have a value. -/
def named (fs : List (String × JsonValue)) : List (Option String × JsonValue) :=
  fs.map fun f => (some f.1, f.2)

theorem writeFields_single (f : String × JsonValue) :
    writeFields (named [f]) = writeString f.1 ++ ':' :: (f.2.write ++ ['\x7d']) := by
  simp [named]

theorem writeFields_cons (f g : String × JsonValue) (fs : List (String × JsonValue)) :
    writeFields (named (f :: g :: fs)) =
      writeString f.1 ++ ':' :: (f.2.write ++ ',' :: writeFields (named (g :: fs))) := by
  simp [named]

theorem readFields_last {name : String} (hv : readValue k cs = some (v, '\x7d' :: rest)) :
    readFields (k + 1) (writeString name ++ ':' :: cs) = some ([(some name, v)], rest) := by
  simp only [writeString, List.cons_append, List.append_assoc, List.nil_append]
  simp [skipBlanks_cons, readString_write, hv]

/-- A comma is followed by another field. -/
theorem readFields_more {name : String} {cs' : List Char}
    (hv : readValue k cs = some (v, ',' :: cs')) :
    readFields (k + 1) (writeString name ++ ':' :: cs) =
      (readFields k cs').map fun r => ((some name, v) :: r.1, r.2) := by
  simp only [writeString, List.cons_append, List.append_assoc, List.nil_append]
  rw [readFields, skipBlanks_cons (by decide)]
  simp only [readString_write, Option.bind_eq_bind, Option.bind_some,
    skipBlanks_cons (by decide : ':' ∉ _), hv, skipBlanks_cons (by decide : ',' ∉ _)]
  cases readFields k cs' <;> rfl

/-- An object is read as it was written. -/
theorem readFields_write {fs : List (String × JsonValue)} (hne : fs ≠ [])
    (hfs : ∀ f ∈ fs, Writable f.2) (hread : ∀ f ∈ fs, Recovers f.2)
    (hk : 2 * (writeFields (named fs)).length ≤ k + 2) :
    readFields (k + 1) (writeFields (named fs) ++ rest) = some (named fs, rest) := by
  induction fs generalizing k with
  | nil => exact absurd rfl hne
  | cons f fs ih =>
    have hpos := (hfs f (by simp)).length_pos
    cases fs with
    | nil =>
      rw [writeFields_single] at hk ⊢
      simp only [List.length_append, List.length_cons] at hk
      simp only [List.append_assoc, List.cons_append, List.nil_append]
      obtain ⟨k, rfl⟩ : ∃ j, k = j + 1 := ⟨k - 1, by omega⟩
      exact readFields_last (hread f (by simp) k _ (delimits_cons (by decide)) (by omega))
    | cons g gs =>
      rw [writeFields_cons] at hk ⊢
      simp only [List.length_append, List.length_cons] at hk
      simp only [List.append_assoc, List.cons_append]
      obtain ⟨k, rfl⟩ : ∃ j, k = j + 1 := ⟨k - 1, by omega⟩
      rw [readFields_more (hread f (by simp) k _ (delimits_cons (by decide)) (by omega)),
        ih (by simp) (fun u hu => hfs u (List.mem_cons_of_mem _ hu))
          (fun u hu => hread u (List.mem_cons_of_mem _ hu)) (by omega)]
      rfl

theorem exists_writeFields (f : String × JsonValue) (fs : List (String × JsonValue)) :
    ∃ tail, writeFields (named (f :: fs)) = '"' :: tail := by
  cases fs with
  | nil => exact ⟨_, writeFields_single f⟩
  | cons g gs => exact ⟨_, writeFields_cons f g gs⟩

theorem readValue_object : readValue (k + 1) ('\x7b' :: '"' :: cs) =
    (readFields k ('"' :: cs)).map fun r => (.object r.1, r.2) := by
  cases hfs : readFields k ('"' :: cs) <;> simp [skipBlanks_cons, hfs]

/-! ### All values -/

/-- Every value that can be written is read as it was written. -/
theorem Writable.recovers (h : Writable v) : Recovers v := by
  -- the opening bracket of an array or object brings in the fuel that going inside takes
  induction h with
  | null => exact fun k rest _ _ => rfl
  | bool b => cases b <;> exact fun k rest _ _ => rfl
  | natural n =>
    intro k rest hrest _
    obtain ⟨c, cs, hcs, hc⟩ := exists_startsNumber (n := n)
    have hread := readNumber_toDigits (n := n) hrest
    rw [hcs] at hread
    rw [write, hcs, List.cons_append, readValue_number hc, ← List.cons_append, hread]
    rfl
  | negative n =>
    intro k rest hrest _
    rw [write, List.cons_append, readValue_number (.inl rfl), readNumber,
      readUnsigned_toDigits hrest]
    rfl
  | string s =>
    intro k rest _ _
    have hread : readString (s.toList.flatMap escape ++ '"' :: rest) = some (some s, rest) :=
      readString_write
    show (readString (s.toList.flatMap escape ++ ['"'] ++ rest) >>= _) = _
    rw [List.append_assoc, List.singleton_append, hread]
    rfl
  | @array vs hvs ih =>
    intro k rest _ hk
    cases vs with
    | nil => rfl
    | cons v vs =>
      obtain ⟨c, cs, hcs, hblank, hc⟩ := (hvs v (by simp)).write_head
      obtain ⟨tail, htail⟩ := exists_writeItems v vs
      rw [hcs, List.cons_append] at htail
      rw [write, List.length_cons, htail, List.length_cons] at hk
      obtain ⟨k, rfl⟩ : ∃ j, k = j + 1 := ⟨k - 1, by omega⟩
      have hitems : readItems (k + 1) (writeItems (v :: vs) ++ rest) = some (v :: vs, rest) :=
        readItems_write (by simp) hvs ih (by rw [htail, List.length_cons]; omega)
      rw [htail, List.cons_append] at hitems
      rw [write, htail, List.cons_append, List.cons_append, readValue_array hblank hc, hitems]
      rfl
  | @object fs hfs ih =>
    intro k rest _ hk
    cases fs with
    | nil => rfl
    | cons f fs =>
      obtain ⟨tail, htail⟩ := exists_writeFields f fs
      have hlength : (obj (f :: fs)).write.length = (writeFields (named (f :: fs))).length + 1 := rfl
      rw [hlength, htail, List.length_cons] at hk
      obtain ⟨k, rfl⟩ : ∃ j, k = j + 1 := ⟨k - 1, by omega⟩
      have hfields : readFields (k + 1) (writeFields (named (f :: fs)) ++ rest) =
          some (named (f :: fs), rest) :=
        readFields_write (by simp) hfs ih (by rw [htail, List.length_cons]; omega)
      show readValue _ ('\x7b' :: writeFields (named (f :: fs)) ++ rest) = _
      rw [htail, List.cons_append] at hfields
      rw [htail, List.cons_append, List.cons_append, readValue_object, hfields]
      rfl

/-- The text of a writable value holds that value and nothing else. -/
theorem ofText?_text (h : Writable v) : ofText? v.text = some v := by
  have hread := h.recovers (2 * v.write.length + 1) [] delimits_nil (by omega)
  rw [List.append_nil] at hread
  rw [ofText?, text, String.toList_ofList, hread]
  rfl

end Cegar.JsonValue

import Std.Data.ExtTreeMap

/-!
# Saturating 128-bit integers

Numerals, values and coefficients are signed integers of 128 bits. Their arithmetic saturates: a
result outside the range is replaced by the bound it passed. A few places need the exact result
and give up when it does not fit; they go through `Int128.ofInt?`.
-/

namespace Cegar

/-- The least 128-bit integer, the negation of two to the power of 127. -/
def Int128.minVal : Int := -170141183460469231731687303715884105728

/-- The greatest 128-bit integer. -/
def Int128.maxVal : Int := 170141183460469231731687303715884105727

/-- An integer between `Int128.minVal` and `Int128.maxVal`. -/
structure Int128 where
  val : Int
  min_le : Int128.minVal ≤ val
  le_max : val ≤ Int128.maxVal
deriving DecidableEq

namespace Int128

@[ext] theorem ext {a b : Int128} (h : a.val = b.val) : a = b := by
  cases a; cases b; cases h; rfl

theorem val_inj {a b : Int128} : a.val = b.val ↔ a = b :=
  ⟨ext, fun h => h ▸ rfl⟩

theorem minVal_le_maxVal : minVal ≤ maxVal := by decide

/-- The integer closest to `z` that fits: this is what a saturating operation leaves. -/
def clamp (z : Int) : Int128 :=
  if lo : z < minVal then ⟨minVal, Int.le_refl _, minVal_le_maxVal⟩
  else if hi : maxVal < z then ⟨maxVal, minVal_le_maxVal, Int.le_refl _⟩
  else ⟨z, Int.not_lt.1 lo, Int.not_lt.1 hi⟩

/-- The integer `z` itself, if it fits. -/
def ofInt? (z : Int) : Option Int128 :=
  if h : minVal ≤ z ∧ z ≤ maxVal then some ⟨z, h.1, h.2⟩ else none

/-- What fits is left as it is. -/
theorem val_clamp_of_fits {z : Int} (lo : minVal ≤ z) (hi : z ≤ maxVal) : (clamp z).val = z := by
  unfold clamp
  rw [dif_neg (Int.not_lt.2 lo), dif_neg (Int.not_lt.2 hi)]

@[simp] theorem clamp_val (a : Int128) : clamp a.val = a :=
  ext (val_clamp_of_fits a.min_le a.le_max)

@[simp] theorem ofInt?_val (a : Int128) : ofInt? a.val = some a := by
  simp [ofInt?, a.min_le, a.le_max]

/-- A result is given only if it fits. -/
theorem val_of_ofInt? {z : Int} {a : Int128} (h : ofInt? z = some a) : a.val = z := by
  unfold ofInt? at h
  split at h
  · cases h; rfl
  · cases h

instance (n : Nat) : OfNat Int128 n := ⟨clamp n⟩

instance : Inhabited Int128 := ⟨0⟩

/-! ### Saturating arithmetic -/

instance : Add Int128 := ⟨fun a b => clamp (a.val + b.val)⟩

instance : Sub Int128 := ⟨fun a b => clamp (a.val - b.val)⟩

instance : Mul Int128 := ⟨fun a b => clamp (a.val * b.val)⟩

instance : Neg Int128 := ⟨fun a => clamp (-a.val)⟩

/-- The magnitude; that of the least integer saturates to the greatest. -/
def abs (a : Int128) : Int128 := clamp a.val.natAbs

/-- The quotient rounded so that the remainder is not negative. It fits whenever `b` is positive. -/
def ediv (a b : Int128) : Int128 := clamp (a.val / b.val)

theorem add_def (a b : Int128) : a + b = clamp (a.val + b.val) := rfl

/-! ### Order -/

instance : Ord Int128 := ⟨compareOn val⟩

instance : Std.TransOrd Int128 := inferInstanceAs (Std.TransCmp (compareOn val))

instance : Std.LawfulEqOrd Int128 where
  eq_of_compare h := ext (Std.LawfulEqOrd.eq_of_compare h)

instance : LT Int128 := ⟨fun a b => a.val < b.val⟩

instance : LE Int128 := ⟨fun a b => a.val ≤ b.val⟩

instance (a b : Int128) : Decidable (a < b) := inferInstanceAs (Decidable (a.val < b.val))

instance (a b : Int128) : Decidable (a ≤ b) := inferInstanceAs (Decidable (a.val ≤ b.val))

theorem lt_def (a b : Int128) : a < b ↔ a.val < b.val := Iff.rfl

theorem le_def (a b : Int128) : a ≤ b ↔ a.val ≤ b.val := Iff.rfl

/-! ### Decimal text -/

/-- Decimal digits, after a minus sign for a negative integer. -/
def text (a : Int128) : String :=
  match a.val with
  | .ofNat n => Nat.repr n
  | .negSucc n => "-" ++ Nat.repr (n + 1)

end Int128

/-! ## Decimal numbers -/

namespace Decimal

/-- The number that a list of decimal digits denotes. -/
def ofDigits (cs : List Char) : Nat :=
  cs.foldl (fun n c => n * 10 + (c.toNat - '0'.toNat)) 0

/-- Reads a number without a sign: one digit or more and nothing else. -/
def nat? (cs : List Char) : Option Nat :=
  if cs.isEmpty || !cs.all Char.isDigit then none else some (ofDigits cs)

/-- Reads a number that may have a plus sign. -/
def signedNat? : List Char → Option Nat
  | '+' :: cs => nat? cs
  | cs => nat? cs

/-- Reads a number that may have a sign. -/
def int? : List Char → Option Int
  | '-' :: cs => (nat? cs).map fun n => -(n : Int)
  | cs => (signedNat? cs).map fun n => (n : Int)

end Decimal

end Cegar

import Cegar.Expr.Vars

/-!
# Evaluation

Expressions are evaluated under an assignment that may leave variables open. An open variable makes
what depends on it unknown, unless evaluation is to be complete: then it counts as zero or false.
Integer arithmetic saturates.
-/

namespace Cegar

/-- A truth value, or an integer of type `ι`. -/
inductive Datum (ι : Type) where
  | bool (b : Bool)
  | int (n : ι)
deriving DecidableEq, Inhabited

def Datum.bool? {ι : Type} : Datum ι → Option Bool
  | .bool b => some b
  | .int _ => none

/-- A truth value or a 128-bit integer. -/
abbrev Value := Datum Int128

/-- What an open variable of this type counts as. -/
def Ty.default : Ty → Value
  | .bool => .bool false
  | .int => .int 0

abbrev Assignment := Std.ExtTreeMap Var Value

def ArithOp.apply : ArithOp → Int128 → Int128 → Int128
  | .add, m, n => m + n
  | .sub, m, n => m - n
  | .mul, m, n => m * n

/-- Whether a comparison of two integers holds. -/
def CmpOp.holds : CmpOp → Int128 → Int128 → Bool
  | .eq, m, n => m = n
  | .ne, m, n => m ≠ n
  | .lt, m, n => m < n
  | .le, m, n => m ≤ n
  | .gt, m, n => n < m
  | .ge, m, n => n ≤ m

/-- Compares two values. Equality is defined on all values, the order on integers only. -/
def CmpOp.apply : CmpOp → Value → Value → Option Bool
  | .eq, x, y => some (x = y)
  | .ne, x, y => some (x ≠ y)
  | op, .int m, .int n => some (op.holds m n)
  | _, _, _ => none

/-- Connects two truth values that may be unknown: one operand can decide alone. -/
def LogicOp.apply (op : LogicOp) : Option Bool → Option Bool → Option Bool
  | some x, some y => some (if x = op.unit then y else !op.unit)
  | some x, none | none, some x => if x = op.unit then none else some !op.unit
  | none, none => none

/-- The value under `a`, if it is known. -/
def Expr.eval (a : Assignment) (complete : Bool) : Expr → Option Value
  | .bool b => some (.bool b)
  | .num n => some (.int n)
  | .var v =>
    match a[v]? with
    | some x => some x
    | none => if complete then some v.ty.default else none
  | .arith op l r =>
    match l.eval a complete, r.eval a complete with
    | some (.int m), some (.int n) => some (.int (op.apply m n))
    | _, _ => none
  | .neg e =>
    match e.eval a complete with
    | some (.int n) => some (.int (-n))
    | _ => none
  | .cmp op l r =>
    match l.eval a complete, r.eval a complete with
    | some x, some y => (op.apply x y).map .bool
    | _, _ => none
  | .logic op l r =>
    (op.apply ((l.eval a complete).bind Datum.bool?) ((r.eval a complete).bind Datum.bool?)).map
      .bool
  | .not e =>
    match e.eval a complete with
    | some (.bool b) => some (.bool !b)
    | _ => none

end Cegar

import Cegar.Solver.Value

/-!
# Linear terms

The view of a comparison that bounds the search: a sum of multiples of open variables and a
constant, compared with zero. Coefficients that are zero are left out.
-/

namespace Cegar

structure LinearTerm where
  coeffs : Std.ExtTreeMap Var Int128
  const : Int128

namespace LinearTerm

def ofConst (n : Int128) : LinearTerm := ⟨∅, n⟩

def ofVar (v : Var) : LinearTerm := ⟨(∅ : Std.ExtTreeMap Var Int128).insert v 1, 0⟩

/-- `t + k * u`. -/
def addMul (t u : LinearTerm) (k : Int128) : LinearTerm :=
  ⟨(u.coeffs.foldl (fun m v c => m.insert v (m.getD v 0 + c * k)) t.coeffs).filter
      fun _ c => c ≠ 0,
    t.const + u.const * k⟩

/-- `k * t`. -/
def scale (t : LinearTerm) (k : Int128) : LinearTerm := (ofConst 0).addMul t k

end LinearTerm

namespace Expr

/-- The linear term of an integer expression, with assigned variables replaced by their values;
none if it is not linear in the open ones. -/
def linear? (a : Assignment) : Expr → Option LinearTerm
  | .num n => some (.ofConst n)
  | .var v =>
    match v.ty, a[v]? with
    | .int, some (.int n) => some (.ofConst n)
    | .int, none => some (.ofVar v)
    | _, _ => none
  | .arith .add l r => do return (← l.linear? a).addMul (← r.linear? a) 1
  | .arith .sub l r => do return (← l.linear? a).addMul (← r.linear? a) (-1)
  | .arith .mul l r => do
    let t ← l.linear? a
    let u ← r.linear? a
    if t.coeffs.isEmpty then some (u.scale t.const)
    else if u.coeffs.isEmpty then some (t.scale u.const)
    else none
  | .neg e => do return (← e.linear? a).scale (-1)
  | _ => none

/-- The left side of a comparison minus its right side. -/
def difference? (a : Assignment) : Expr → Option LinearTerm
  | .cmp _ l r => do return (← l.linear? a).addMul (← r.linear? a) (-1)
  | _ => none

end Expr

end Cegar

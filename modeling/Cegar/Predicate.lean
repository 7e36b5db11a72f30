import Cegar.Error
import Cegar.Expr.Vars

/-!
# Predicates

The boolean expressions that abstractions are made of. A predicate speaks about at least one
variable, and about variables as such, not about single writes to them.
-/

namespace Cegar

namespace Expr

/-- What an expression has to be to serve as a predicate. -/
def IsPredicate (e : Expr) : Prop :=
  e.ty = .bool ∧ e.vars ≠ ∅ ∧ e.vars.all (·.index.isNone) = true

instance (e : Expr) : Decidable e.IsPredicate := inferInstanceAs (Decidable (_ ∧ _))

end Expr

structure Predicate where
  expr : Expr
  isPredicate : expr.IsPredicate
deriving DecidableEq

namespace Predicate

instance : Ord Predicate := ⟨compareOn expr⟩

instance : Std.TransOrd Predicate := inferInstanceAs (Std.TransCmp (compareOn expr))

instance : Std.LawfulEqOrd Predicate where
  eq_of_compare {a b} h := by
    cases a; cases b
    have h : compare (_ : Expr) _ = .eq := h
    cases Std.LawfulEqOrd.eq_of_compare h; rfl

def ofExpr (e : Expr) : Except Error Predicate :=
  if h : e.IsPredicate then .ok ⟨e, h⟩ else .error (.notPredicate e)

/-- Turns a list of expressions into predicates; the first one that is none is the error. -/
def ofExprs : List Expr → Except Error (List Predicate)
  | [] => .ok []
  | e :: es => do
    let p ← ofExpr e
    return p :: (← ofExprs es)

def text (p : Predicate) : String := p.expr.text

end Predicate

end Cegar

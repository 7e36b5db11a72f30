import Cegar.Expr.Vars

/-!
# Conjuncts and atoms

The parts of a formula that the solver and the interpolation work on: the operands of its top level
conjunction, its atoms in order of first occurrence, and the form of an atom in which an atom and
its negation are the same predicate.
-/

namespace Cegar.Expr

/-- All subexpressions, each before its operands, which follow from left to right. -/
def subterms : Expr → List Expr
  | .bool b => [.bool b]
  | .num n => [.num n]
  | .var v => [.var v]
  | .arith op l r => .arith op l r :: (l.subterms ++ r.subterms)
  | .neg e => .neg e :: e.subterms
  | .cmp op l r => .cmp op l r :: (l.subterms ++ r.subterms)
  | .logic op l r => .logic op l r :: (l.subterms ++ r.subterms)
  | .not e => .not e :: e.subterms

/-- The atoms, also those below other atoms, in order of first occurrence. -/
def atoms (e : Expr) : List Expr := (e.subterms.filter isAtom).eraseDups

/-- The operands of the top level conjunction. The constant true stands for the empty one. -/
def conjuncts : Expr → List Expr
  | .logic .and l r => l.conjuncts ++ r.conjuncts
  | .bool true => []
  | e => [e]

/-- Drops negations and turns the comparison into one of `==`, `<` and `<=`. -/
def normalAtom : Expr → Expr
  | .not e => e.normalAtom
  | .cmp .ne l r => .cmp .eq l r
  | .cmp .gt l r => .cmp .lt r l
  | .cmp .ge l r => .cmp .le r l
  | e => e

end Cegar.Expr

import Cegar.Abort
import Cegar.Solver.Linear
import Cegar.Expr.Atoms
import Cegar.Sorting

/-!
# Queries and the values worth trying

What is left of a satisfiability question once definitions are gone, and the values each open
variable is tried with. Two kinds of domain lose no solution:

* if every integer comparison bounds a variable or the difference of two, some solution lies in a
  box that the constants determine;
* if the comparisons with a variable are linear in it and mention no other open variable, only
  values next to a point where one of them changes matter.

Otherwise the variable is searched in a fixed range, which may miss solutions.
-/

namespace Cegar

/-- The integer comparisons of a formula, found through its boolean structure. -/
def Expr.comparisons : Expr → List Expr
  | .logic _ l r => l.comparisons ++ r.comparisons
  | .not e => e.comparisons
  | .cmp .eq l r =>
    if l.ty = .bool then l.comparisons ++ r.comparisons else [.cmp .eq l r]
  | .cmp .ne l r =>
    if l.ty = .bool then l.comparisons ++ r.comparisons else [.cmp .ne l r]
  | .cmp op l r => [.cmp op l r]
  | _ => []

/-- Whether coefficients are those of a bound on a variable or on a difference of two. -/
def isDifference : List Int128 → Except Abort Bool
  | [] => .ok true
  | [a] => do return (← Int128.exact a.val.natAbs) = 1
  | [a, b] => do
    if (← Int128.exact a.val.natAbs) = 1 then return (← Int128.exact (a.val + b.val)) = 0
    else return false
  | _ => .ok false

/-- Adds up the bound over the comparisons; none once one of them is no difference constraint. A
strict or negated comparison moves its constant by one. -/
def differenceBoundFrom (bound : Int128) : List Expr → Except Abort (Option Int128)
  | [] => .ok (some bound)
  | atom :: atoms =>
    match atom.difference? ∅ with
    | none => .ok none
    | some t => do
      if ← isDifference (t.coeffs.toList.map Prod.snd) then
        differenceBoundFrom (bound + (t.const.abs + 1) * 2) atoms
      else return none

/-- A magnitude within which difference constraints have a solution if they have one. -/
def differenceBound (atoms : List Expr) : Except Abort (Option Int128) :=
  differenceBoundFrom 1 atoms

structure Query where
  conjuncts : List Expr
  /-- In the order in which they are decided. -/
  vars : List Var
  /-- The integer comparisons, each with its variables. -/
  atoms : List (Expr × VarSet)
  differenceBound : Option Int128

namespace Query

/-- Variables are decided by index, unindexed ones as index 0, then by name. -/
def decidedBefore (v w : Var) : Bool :=
  (compare (v.index.getD 0) (w.index.getD 0)).then (compare v.name w.name) |>.isLE

def ofConjuncts (conjuncts : List Expr) : Except Abort Query := do
  let atoms := conjuncts.flatMap Expr.comparisons
  return {
    conjuncts
    vars := sortBy decidedBefore (conjuncts.flatMap fun c => c.vars.toList).eraseDups
    atoms := atoms.eraseDups.map fun e => (e, e.vars)
    differenceBound := ← Cegar.differenceBound atoms }

/-- The greatest integer up to `-k / a`, where `a * x + k` changes sign. -/
def turningFloor (a k : Int128) : Except Abort Int128 :=
  if a < 0 then do return k.ediv (← Int128.exact (-a.val)) else .ok ((-k).ediv a)

/-- The four integers around it. -/
def turningValues (a k : Int128) : Except Abort (List Int128) := do
  let floor ← turningFloor a k
  return [floor - 1, floor, floor + 1, floor + 2]

/-- The values next to which a comparison with `x` can change, given the assigned variables; none
if a comparison is not linear in `x` or has another open variable. -/
def turningValuesOf (x : Var) (a : Assignment) :
    List (Expr × VarSet) → Except Abort (Option (List Int128))
  | [] => .ok (some [])
  | (atom, vars) :: atoms =>
    if !vars.contains x then turningValuesOf x a atoms
    else match atom.difference? a with
      | none => .ok none
      | some t =>
        if t.coeffs.keys.any (· ≠ x) then .ok none
        else match t.coeffs[x]? with
          | none => turningValuesOf x a atoms
          | some c => do
            let values ← turningValues c t.const
            return (← turningValuesOf x a atoms).map (values ++ ·)

/-- Zero and the values next to which a comparison with `x` can change. -/
def criticalValues (q : Query) (x : Var) (a : Assignment) :
    Except Abort (Option (List Int128)) := do
  return (← turningValuesOf x a q.atoms).map (0 :: ·)

end Query

/-- The values that a variable is tried with, small magnitudes first. -/
inductive Domain where
  /-- False, then true. -/
  | truth
  /-- All integers up to a magnitude. -/
  | box (bound : Int128)
  /-- Just these integers. -/
  | points (values : List Int128)
  /-- All integers up to a magnitude, though a solution may lie beyond it. -/
  | cut (bound : Int128)

namespace Domain

/-- The element at position `i` of 0, 1, -1, 2, -2 and so on. -/
def alternating (i : Nat) : Int128 :=
  Int128.clamp (if i % 2 = 0 then -(i / 2 : Nat) else (i / 2 + 1 : Nat))

def size : Domain → Nat
  | .truth => 2
  | .box bound | .cut bound => 2 * bound.val.toNat + 1
  | .points values => values.length

def get (d : Domain) (i : Nat) : Value :=
  match d with
  | .truth => .bool (i != 0)
  | .box _ | .cut _ => .int (alternating i)
  | .points values => .int (values.getD i 0)

/-- Whether solutions may have been left out. -/
def isCut : Domain → Bool
  | .cut _ => true
  | _ => false

/-- Smaller magnitudes first, and of two integers of one magnitude the positive one. -/
def triedBefore (m n : Int128) : Bool :=
  (compare m.abs n.abs).then (compare (m.val < 0 : Bool).toNat (n.val < 0 : Bool).toNat) |>.isLE

end Domain

/-- The values to try `x` with; `range` is the magnitude to fall back on. -/
def Query.domain (q : Query) (range : Int128) (x : Var) (a : Assignment) :
    Except Abort Domain :=
  match x.ty, q.differenceBound with
  | .bool, _ => .ok .truth
  | .int, some bound => .ok (.box bound)
  | .int, none => do
    match ← q.criticalValues x a with
    | some values => return .points (sortBy Domain.triedBefore values.eraseDups)
    | none => return .cut range

end Cegar

import Cegar.Options.Basic
import Cegar.PathFormula
import Cegar.Predicate
import Cegar.Solver.Session

/-!
# Abstractions of blocks

What a block of transitions implies about the predicates at its end, and implication between
abstractions. Where the solver cannot tell, the answer errs on the side that keeps more states.
-/

namespace Cegar

open SolverM

/-- A predicate and the same predicate over the variables at the end of a block. -/
structure Tracked where
  predicate : Expr
  indexed : Expr

namespace Tracked

def ofPredicates (ps : List Predicate) (ssa : SsaMap) : List Tracked :=
  ps.map fun p => ⟨p.expr, p.expr.indexed ssa⟩

/-- Both forms, negated. -/
def complement (t : Tracked) : Tracked := ⟨t.predicate.complement, t.indexed.complement⟩

/-- The predicate with the sign that it has in the solver's model, if it has a value there. -/
def signed? (s : Solver) (t : Tracked) : Option Tracked :=
  match s.truth? t.indexed with
  | some true => some t
  | some false => some t.complement
  | none => none

end Tracked

/-- The formula of a block: the abstraction that it starts from and its transitions. -/
def blockFormula (prior : Expr) (ssa : SsaMap) (block : PathFormula) : Expr :=
  (prior.indexed ssa).and block.formula

/-- The largest number of cubes in a boolean abstraction. -/
def cubeLimit : Nat := 4096

/-- Collects the sign patterns that models of the assertions give the predicates. Each one found is
excluded from then on. With more patterns than `n`, or without an answer, the abstraction is
true. -/
def enumerateCubes (ts : List Tracked) (n : Nat) (cubes : List Expr) : SolverM Expr := do
  match ← solve with
  | .unsat => return Expr.disj cubes.reverse
  | .undefined => return .bool true
  | .sat =>
    match n with
    | 0 => return .bool true
    | n + 1 =>
      let literals := ts.filterMap (Tracked.signed? (← get))
      modify (·.assert (Expr.conj (literals.map (·.indexed))).complement)
      enumerateCubes ts n (Expr.conj (literals.map (·.predicate)) :: cubes)

/-- The strongest boolean combination of the predicates. -/
def booleanAbstraction (formula : Expr) (ts : List Tracked) : SolverM Expr := inScope do
  modify (·.assert formula)
  enumerateCubes ts cubeLimit []

/-- The predicate or its negation, if the formula implies one of them. -/
def impliedLiteral? (formula literal : Expr) : SolverM (Option Bool) := do
  if ← isUnsat (formula.and literal.complement) then return some true
  if ← isUnsat (formula.and literal) then return some false
  return none

/-- Conjoins the literals over the predicates that the formula implies. -/
def addLiterals (formula : Expr) : List Tracked → Expr → SolverM Expr
  | [], result => return result
  | t :: ts, result => do
    match ← impliedLiteral? formula t.indexed with
    | some true => addLiterals formula ts (result.and t.predicate)
    | some false => addLiterals formula ts (result.and t.predicate.complement)
    | none => addLiterals formula ts result

/-- The strongest conjunction of literals over the predicates. -/
def cartesianAbstraction (formula : Expr) (ts : List Tracked) : SolverM Expr := do
  if ← isUnsat formula then return .bool false
  addLiterals formula ts (.bool true)

/-- What a block that starts from `prior` implies about the predicates at its end. -/
def abstractBlock (kind : AbstractionKind) (prior : Expr) (ssa : SsaMap) (block : PathFormula)
    (ps : List Predicate) : SolverM Expr := do
  let formula := blockFormula prior ssa block
  if ps.isEmpty then return .bool (!(← isUnsat formula))
  let ts := Tracked.ofPredicates ps block.ssa
  match kind with
  | .boolean => booleanAbstraction formula ts
  | .cartesian => cartesianAbstraction formula ts

/-- Whether a block that starts from `prior` is known to have no execution. -/
def blockInfeasible (prior : Expr) (ssa : SsaMap) (block : PathFormula) : SolverM Bool :=
  isUnsat (blockFormula prior ssa block)

/-- Whether `a` is known to imply `b`. -/
def implied (a b : Expr) : SolverM Bool :=
  if a = b || a.known = some false || b.known = some true then return true
  else isUnsat (a.and b.complement)

end Cegar

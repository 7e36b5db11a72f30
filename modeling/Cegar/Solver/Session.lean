import Cegar.Solver.Basic

/-!
# Sessions with the solver

Computations that put questions to one solver after another.
-/

namespace Cegar

abbrev SolverM := StateT Solver (Except Abort)

namespace SolverM

/-- Decides what is asserted. -/
def solve : SolverM Answer := Solver.solve

/-- Opens a scope for `act` and closes it afterwards. -/
def inScope {α : Type} (act : SolverM α) : SolverM α := do
  modify Solver.push
  let a ← act
  modify Solver.pop
  return a

/-- Whether the formula is satisfiable. The solver is not asked about a constant. -/
def ask (e : Expr) : SolverM Answer :=
  match e.known with
  | some true => return .sat
  | some false => return .unsat
  | none => fun s => s.check e

/-- Whether the formula is known to be unsatisfiable. -/
def isUnsat (e : Expr) : SolverM Bool := return (← ask e) = .unsat

end SolverM

end Cegar

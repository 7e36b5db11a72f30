import Cegar.Expr.Text
import Cegar.Solver.Basic

/-!
# Text of the solver

A model lists its variables in their order, one per line. What is asserted is written as commands,
from the outermost scope on.
-/

namespace Cegar

def Value.text : Value → String
  | .bool b => if b then "true" else "false"
  | .int n => n.text

def Assignment.text (m : Assignment) : String :=
  "\n".intercalate (m.toList.map fun (v, x) => v.text ++ " -> " ++ x.text)

namespace Solver

/-- The last model, if the last answer came with one. -/
def modelText (s : Solver) : String :=
  match s.model with
  | some m => m.text
  | none => "no model"

def assertionsText (s : Solver) : String :=
  "\n".intercalate (s.assertions.map fun e => "(assert " ++ e.text ++ ")")

/-- The solver with its range. -/
def text (s : Solver) : String :=
  "BoundedSolver[-" ++ s.range.text ++ ", " ++ s.range.text ++ "]"

end Solver

end Cegar

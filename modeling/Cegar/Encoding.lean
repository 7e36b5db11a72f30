import Cegar.Automaton.Basic
import Cegar.Error
import Cegar.PathFormula

/-!
# Statements as formulas

How a path formula grows along an edge. A write gets the next index of its variable, and what is
read has the indices from before the write. An assumption also writes the branch variable of its
location, so that a model tells which way the path went.
-/

namespace Cegar

/-- A computation that can fail with an error or be aborted. -/
abbrev Attempt := ExceptT Error (Except Abort)

namespace SsaMap

/-- Records one more write to `name`. -/
def fresh (m : SsaMap) (name : String) (ty : Ty) : Except Abort (SsaMap × UInt32) :=
  match m.fresh? name ty with
  | some r => .ok r
  | none => .error .overflow

end SsaMap

namespace PathFormula

/-- The variable that a statement writes to. -/
def writeTarget : Expr → Attempt Var
  | .var v => pure v
  | e => throw (.writeTarget e)

/-- Writes a variable; `value`, if there is one, is over indexed variables already. -/
def write (p : PathFormula) (target : Expr) (value : Option Expr) : Attempt PathFormula := do
  let v ← writeTarget target
  let (ssa, index) ← p.ssa.fresh v.name v.ty
  match value with
  | some value => return p.conjoin (.eq (.var ⟨v.name, v.ty, some index⟩) value) ssa
  | none => return { p with ssa }

/-- Binds parameters one after the other; all arguments are read with the indices of `read`. -/
def bind (read : SsaMap) : PathFormula → List (Expr × Expr) → Attempt PathFormula
  | p, [] => pure p
  | p, (parameter, argument) :: rest => do
    bind read (← p.write parameter (some (argument.indexed read))) rest

/-- Takes the branch at `source` on which the condition evaluates to `truth`. -/
def branch (p : PathFormula) (source : Location) (condition : Expr) (truth : Bool) :
    Attempt PathFormula := do
  let condition := condition.indexed p.ssa
  let (ssa, index) ← p.ssa.fresh (Var.branchName source.idx) .bool
  let taken : Expr := .var (Var.branch source.idx index)
  if truth then return p.conjoin (condition.and taken) ssa
  else return p.conjoin (condition.complement.and taken.complement) ssa

/-- Extends a path formula by the statement of an edge that leaves `source`. -/
def extend (p : PathFormula) (source : Location) (edge : EdgeId) : Statement → Attempt PathFormula
  | .blank | .callToReturn | .ret none => pure p
  | .declare target initial => p.write target (initial.map (·.indexed p.ssa))
  | .assign target value | .ret (some (target, value)) =>
    p.write target (some (value.indexed p.ssa))
  | .assume condition truth => p.branch source condition truth
  | .call bindings => bind p.ssa p bindings
  | .unknown description => throw (.unknownStatement edge description)

end PathFormula

end Cegar

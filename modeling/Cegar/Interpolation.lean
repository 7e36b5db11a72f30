import Cegar.Abstraction
import Cegar.Expr.Atoms

/-!
# Counterexample traces

A counterexample is a sequence of blocks. Either all of them can be executed one after the other,
or at each cut between two blocks there may be predicates that follow from what comes before and
contradict what comes after. They are sought among the atoms of the two sides.
-/

namespace Cegar

open SolverM

/-- The largest number of atoms tried at one cut. -/
def candidateLimit : Nat := 32

/-- The variables that both sides speak about, apart from branch variables. -/
def sharedVars (before after : Expr) : VarSet :=
  after.vars.filter fun v => before.vars.contains v && !v.isBranch

/-- The atoms of both sides that speak about shared variables only, and about some. -/
def candidates (before after : Expr) : List Expr :=
  let shared := sharedVars before after
  let atoms := (before.atoms ++ after.atoms).filter fun e =>
    !e.vars.isEmpty && e.vars.toList.all (shared.contains ·)
  atoms.eraseDups.take candidateLimit

/-- The candidates with the signs with which the formula implies them. -/
def impliedLiterals (formula : Expr) : List Expr → SolverM (List Expr)
  | [] => return []
  | e :: es => do
    let sign ← impliedLiteral? formula e
    let rest ← impliedLiterals formula es
    match sign with
    | some true => return e :: rest
    | some false => return e.complement :: rest
    | none => return rest

/-- Whether the literals together are known to contradict the formula. -/
def contradicts (literals : List Expr) (formula : Expr) : SolverM Bool :=
  isUnsat ((Expr.conj literals).and formula)

/-- Drops one literal after the other, if those kept and those to come still contradict the
formula. -/
def dropNeedless (formula : Expr) : List Expr → List Expr → SolverM (List Expr)
  | kept, [] => return kept
  | kept, e :: es => do
    if ← contradicts (kept ++ es) formula then dropNeedless formula kept es
    else dropNeedless formula (kept ++ [e]) es

/-- Literals over shared variables that follow from what comes before a cut and contradict what
comes after it; none if there are no such literals. -/
def interpolantLiterals (before after : Expr) : SolverM (List Expr) := do
  if (sharedVars before after).isEmpty then return []
  if ← isUnsat before then return []
  let literals ← impliedLiterals before (candidates before after)
  if ← contradicts literals after then dropNeedless after [] literals
  else return []

/-- Errors that leave the solver as it is. -/
abbrev TraceM := ExceptT Error SolverM

/-- The predicates to track at a cut. -/
def interpolate (before after : Expr) : TraceM (List Predicate) := do
  let literals ← interpolantLiterals before after
  let ps ← MonadExcept.ofExcept (Predicate.ofExprs (literals.map fun e => e.normalAtom.unindexed))
  return ps.eraseDups

/-- The predicates at each cut, where `before` are the blocks before the first of `blocks`. The
end of the trace is no cut. -/
def interpolants : List Expr → List Expr → TraceM (List (List Predicate))
  | _, [] => return []
  | _, [_] => return [[]]
  | before, b :: blocks => do
    let before := before ++ [b]
    let ps ← interpolate (Expr.conj before) (Expr.conj blocks)
    return ps :: (← interpolants before blocks)

/-- What is known about a counterexample. -/
inductive Trace where
  /-- It can be executed. The model has the branches taken. -/
  | feasible (branches : Std.ExtTreeMap Var Bool)
  /-- It cannot. For each block there are predicates to track at its end. -/
  | spurious (predicates : List (List Predicate))

/-- The values of the branch variables of a formula in the solver's model. -/
def Solver.branches (s : Solver) (e : Expr) : Std.ExtTreeMap Var Bool :=
  e.vars.foldl (fun m v =>
    if v.isBranch then
      match s.truth? (.var v) with
      | some b => m.insert v b
      | none => m
    else m) ∅

/-- Finds out whether blocks can be executed one after the other. -/
def Trace.ofBlocks (blocks : List PathFormula) : TraceM Trace := do
  let formulas := blocks.map (·.formula)
  let whole := Expr.conj formulas
  let answer ← (inScope do modify (·.assert whole); solve : SolverM Answer)
  match answer with
  | .sat => return .feasible ((← get).branches whole)
  | .unsat => return .spurious (← interpolants [] formulas)
  | .undefined => throw .undecidedTrace

end Cegar

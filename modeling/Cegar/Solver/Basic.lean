import Cegar.Solver.Definitions
import Cegar.Solver.Search

/-!
# The solver

A stack of scopes of assertions and the question whether they can hold together. The answer is
sought without help from outside: definitions are eliminated, then the remaining variables are
searched. A search that had to leave out values or ran out of steps gives no verdict.

The solver keeps a transcript of the questions it answered, which is what conclusions drawn from
its answers rest on.
-/

namespace Cegar

/-- The answer to a satisfiability question. -/
inductive Answer where
  | sat
  | unsat
  /-- The solver could not tell. -/
  | undefined
deriving DecidableEq

/-- Extends a model to the variables whose definitions were eliminated, the last one first. -/
def Definition.restore (ds : List Definition) (a : Assignment) : Assignment :=
  ds.foldr (fun d a => match d.term.eval a true with
    | some x => a.insert d.var x
    | none => a) a

/-- Decides whether assertions can hold together, by a search that has spent `effort` already. A model
comes with the answer `sat` only. What the search has spent in the end is returned too. -/
def decideAssertions (range : Int128) (assertions : List Expr) (effort : Query.Effort) :
    Except Abort (Answer × Option Assignment × Query.Effort) := do
  let (conjuncts, definitions) := Definition.eliminate (assertions.flatMap Expr.conjuncts)
  let query ← Query.ofConjuncts conjuncts
  let result ← query.search range ∅ effort
  let effort := result.effort
  match result.verdict with
  | some true => return (.sat, some (Definition.restore definitions result.assignment), effort)
  | some false => return (if effort.cut then .undefined else .unsat, none, effort)
  | none => return (.undefined, none, effort)

/-- A question that the solver was asked. -/
structure Exchange where
  assertions : List Expr
  answer : Answer

structure Solver where
  /-- The magnitude that a search falls back on. -/
  range : Int128
  /-- The open scopes, the innermost first. -/
  scopes : List (List Expr)
  /-- The model of the last question, if the answer was `sat`. -/
  model : Option Assignment
  /-- What the last search has spent. -/
  effort : Query.Effort
  /-- The questions answered so far, the latest first. -/
  transcript : List Exchange

namespace Solver

def defaultRange : Int128 := 16

/-- A solver with the given scopes that has answered no question. -/
def unasked (range : Int128) (scopes : List (List Expr)) : Solver :=
  { range, scopes, model := none, effort := .zero, transcript := [] }

/-- A solver without assertions. The sign of the range does not matter, but its magnitude has to
be an integer. -/
def new (range : Int128) : Except Abort Solver := do
  return .unasked (← Int128.exact range.val.natAbs) [[]]

/-- Asserts into the innermost scope. -/
def assert (s : Solver) (e : Expr) : Solver :=
  match s.scopes with
  | [] => s
  | scope :: scopes => { s with scopes := (scope ++ [e]) :: scopes }

/-- Opens a scope. -/
def push (s : Solver) : Solver := { s with scopes := [] :: s.scopes }

/-- Drops the innermost scope; the outermost one stays. -/
def pop (s : Solver) : Solver :=
  match s.scopes with
  | _ :: scope :: scopes => { s with scopes := scope :: scopes }
  | _ => s

/-- What is asserted in the open scopes, from the outermost on. -/
def assertions (s : Solver) : List Expr := s.scopes.reverse.flatten

/-- Forgets what the last search has spent. -/
def resetEffort (s : Solver) : Solver := { s with effort := .zero }

/-- Decides the assertions of the open scopes. -/
def solve (s : Solver) : Except Abort (Answer × Solver) := do
  let s := s.resetEffort
  let (answer, model, effort) ← decideAssertions s.range s.assertions s.effort
  return (answer, { s with model, effort, transcript := ⟨s.assertions, answer⟩ :: s.transcript })

/-- Every search starts with nothing spent. -/
theorem solve_eq (s : Solver) :
    s.solve = (decideAssertions s.range s.assertions .zero).map fun r =>
      (r.1, { s with
        model := r.2.1
        effort := r.2.2
        transcript := ⟨s.assertions, r.1⟩ :: s.transcript }) := by
  show (decideAssertions s.range s.assertions .zero >>= _) = _
  cases decideAssertions s.range s.assertions .zero <;> rfl

/-- Decides the assertions together with `e`, and leaves the scopes as they were. -/
def check (s : Solver) (e : Expr) : Except Abort (Answer × Solver) := do
  let (answer, s) ← (s.push.assert e).solve
  return (answer, s.pop)

/-- The truth value of `e` in the last model, where open variables count as zero and false. -/
def truth? (s : Solver) (e : Expr) : Option Bool := do
  (← e.eval (← s.model) true).bool?

end Solver

end Cegar

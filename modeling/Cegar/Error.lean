import Cegar.Expr.Text
import Cegar.Id
import Cegar.Options.Error

/-!
# Errors

The conditions that end an analysis. Infeasible branches and spurious counterexamples are none.
-/

namespace Cegar

/-- What is wrong with a path through the explored graph. -/
inductive PathDefect where
  | noRoot
  | cycle (target : NodeId)
  | unreachable (target : NodeId)
  | notInGraph (n : NodeId)
  /-- An abstraction state does not come right after its predecessor. -/
  | discontinued (id : AbstractionId) (previous : Option AbstractionId)
  | noAbstractionState
  /-- The last state lies in a block that the path does not end in. -/
  | foreignEnd (owner : AbstractionId)
  | empty
deriving DecidableEq

inductive Error where
  /-- Something other than a variable is written to. -/
  | writeTarget (target : Expr)
  /-- The statement of the edge has no meaning. -/
  | unknownStatement (edge : EdgeId) (description : String)
  /-- The same path is refined again and yields nothing new. -/
  | noProgress (path : List Location)
  /-- The solver cannot tell whether a counterexample is spurious. -/
  | undecidedTrace
  | invalidPath (defect : PathDefect)
  /-- A state that stands for everything has no successors to speak of. -/
  | unexpectedTop
  | notPredicate (e : Expr)
  | configuration (cause : ConfigError)
deriving DecidableEq

/-- The text of an id that may be missing. -/
def Id.optionText {kind : Kind} : Option (Id kind) → String
  | some i => "Some(" ++ i.text ++ ")"
  | none => "None"

def PathDefect.message : PathDefect → String
  | .noRoot => "the graph has no root"
  | .cycle target => target.text ++ " lies on a cycle"
  | .unreachable target => target.text ++ " is not reachable from the root"
  | .notInGraph n => n.text ++ " is not in the graph"
  | .discontinued id previous => id.text ++ " does not follow " ++ Id.optionText previous
  | .noAbstractionState => "the path has no abstraction states"
  | .foreignEnd owner => "the last state belongs to " ++ owner.text
  | .empty => "empty path"

def Error.message : Error → String
  | .writeTarget target =>
    "unrecognized edge " ++ target.text ++ ": the target of a write must be a variable"
  | .unknownStatement edge description => "unrecognized edge " ++ edge.text ++ ": " ++ description
  | .noProgress path =>
    "refinement failed: no new predicates for repeated error path ["
      ++ ", ".intercalate (path.map Id.text) ++ "]"
  | .undecidedTrace => "solver could not decide the counterexample trace"
  | .invalidPath defect => "invalid error path: " ++ defect.message
  | .unexpectedTop => "unexpected abstract state: Top"
  | .notPredicate e => e.text ++ " cannot be used as a predicate"
  | .configuration cause => "invalid configuration: " ++ cause.message

end Cegar

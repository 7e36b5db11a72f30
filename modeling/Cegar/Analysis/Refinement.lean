import Cegar.Analysis.Basic
import Cegar.Analysis.TargetPath

/-!
# Refinement

A path to an error location is a counterexample only if its blocks can be executed one after the
other. If they cannot, the predicates that rule it out join the precision, and the graph has to be
explored again from the first location where one of them is new.
-/

namespace Cegar

inductive Refinement where
  /-- The path cannot be executed: all below `root` is to be explored again. -/
  | spurious (precision : Precision) (root : NodeId)
  /-- The path can be executed. -/
  | real (path : TargetPath)

namespace Refinement

/-- An abstraction state on a path, with its node. -/
structure Stop where
  node : NodeId
  state : AbstractionState

/-- The abstraction states on a path; `last` is the one before it. Each has to be the predecessor
of the next. -/
def stops (arena : Arena) (g : Graph) (last : Option AbstractionId) :
    Path → ExceptT PathDefect (Except Abort) (List Stop)
  | [] => return []
  | hop :: path => do
    match g.nodes[hop.node]? with
    | none => throw (.notInGraph hop.node)
    | some node =>
      match node.state with
      | .abstraction id =>
        let state ← arena.get id
        if state.previous ≠ last then throw (.discontinued id state.previous)
        return ⟨hop.node, state⟩ :: (← stops arena g (some id) path)
      | _ => stops arena g last path

/-- The block that a path ends inside of, if it does. -/
def openBlock (g : Graph) (path : Path) (stops : List Stop) :
    Except PathDefect (List PathFormula) := do
  match path.getLast?.bind fun hop => g.nodes[hop.node]? with
  | none => throw .empty
  | some node =>
    match node.state with
    | .inner s =>
      if stops.getLast?.map (·.state.id) ≠ some s.owner then throw (.foreignEnd s.owner)
      return [s.path]
    | _ => return []

/-- The abstraction states on a path and the blocks that it consists of. -/
def split (arena : Arena) (g : Graph) (path : Path) :
    ExceptT PathDefect (Except Abort) (List Stop × List PathFormula) := do
  let stops ← stops arena g none path
  if stops.isEmpty then throw .noAbstractionState
  let rest ← MonadExcept.ofExcept (openBlock g path stops)
  return (stops, stops.map (·.state.block) ++ rest)

/-- Predicates for the stop at the end of each block, each with its stop. -/
def suggestions (stops : List Stop) (predicates : List (List Predicate)) :
    List (Stop × Predicate) :=
  (stops.zip predicates).flatMap fun (s, ps) => ps.map (s, ·)

/-- Where exploration has to start again: at the first stop with a new predicate. Without any, it
starts after the initial state, but only if the last path was a different one. -/
def restartPoint? (precision : Precision) (lastPath : Option (List Location)) (stops : List Stop)
    (new : List (Stop × Predicate)) : Option NodeId :=
  match new.find? fun (s, q) => !precision.tracks s.state.location q with
  | some (s, _) => some s.node
  | none =>
    if lastPath = some (stops.map (·.state.location)) then none
    else (stops[1]?.or stops.head?).map (·.node)

end Refinement

namespace Analysis

/-- Errors about a path as errors of the analysis. -/
def onPath {α : Type} (act : ExceptT PathDefect (Except Abort) α) : TryM α := do
  let result : Except PathDefect α ← ExceptT.lift (liftM act.run)
  match result with
  | .ok a => return a
  | .error d => throw (.invalidPath d)

/-- Finds out whether a path can be executed, and what to track if it cannot. -/
def analysePath (p : Problem) (g : Graph) (path : Path) : TryM Refinement := do
  let (stops, blocks) ← onPath (Refinement.split (← get).arena g path)
  match ← ExceptT.mk (consult (Trace.ofBlocks blocks)) with
  | .feasible branches => return .real (← onPath (TargetPath.find p.automaton g path branches))
  | .spurious predicates =>
    let a ← get
    let new := Refinement.suggestions stops predicates
    let locations := stops.map (·.state.location)
    match Refinement.restartPoint? a.precision a.lastPath stops new with
    | none => throw (.noProgress locations)
    | some root =>
      set { a with lastPath := some locations }
      let (precision, _) := a.precision.refine (new.map fun (s, q) => (s.state.location, q))
      return .spurious precision root

/-- Analyses a path from the root to an error location. If it is spurious, exploration starts from
the refined precision from now on. -/
def refine (p : Problem) (g : Graph) (path : Path) : TryM Refinement := do
  let result ← ExceptT.lift (analysePath p g path).run
  count fun s => { s with refinements := s.refinements + 1 }
  match result with
  | .ok (.spurious precision root) =>
    count fun s => { s with spurious := s.spurious + 1 }
    modify fun a => { a with precision := a.precision.join precision }
    return .spurious precision root
  | .ok (.real path) =>
    count fun s => { s with real := s.real + 1 }
    return .real path
  | .error e => throw e

end Analysis

end Cegar

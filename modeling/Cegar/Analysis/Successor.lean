import Cegar.Analysis.Basic
import Cegar.Encoding

/-!
# Successors of states

A state is carried along an edge by extending its path formula. At some locations the block is then
complete and gets abstracted; at the others it goes on, unless a check finds it infeasible.
-/

namespace Cegar.Analysis

/-- Extends a path formula by an edge; what was done before is looked up. -/
def extendPath (edge : Edge) (e : EdgeId) (path : PathFormula) : TryM PathFormula := do
  match (← get).cache.path? e path with
  | some q =>
    count fun s => { s with pathCacheHits := s.pathCacheHits + 1 }
    return q
  | none =>
    let q ← ExceptT.mk (liftM (path.extend edge.source e edge.statement).run)
    modify fun a => { a with cache := a.cache.insertPath e path q }
    return q

/-- Whether a block of `size` edges, if it is due for a check, turns out to be infeasible. -/
def prunes (p : Problem) (owner : AbstractionState) (size : Nat) (path : PathFormula) :
    AnalysisM Bool := do
  if p.options.satCheck = 0 || size % p.options.satCheck ≠ 0 then return false
  count fun s => { s with satChecks := s.satChecks + 1 }
  let infeasible ← consult (blockInfeasible owner.abstraction owner.ssa path)
  if infeasible then count fun s => { s with unsatSatChecks := s.unsatSatChecks + 1 }
  return infeasible

/-- Completes a block at `l`. There is no state if the abstraction is false. -/
def completeBlock (p : Problem) (precision : Precision) (owner : AbstractionState) (l : Location)
    (size : Nat) (path : PathFormula) : AnalysisM (Option State) := do
  let ps := precision.predicatesAt l
  let abstraction ← consult
    (abstractBlock p.options.abstraction owner.abstraction owner.ssa path ps)
  count (·.addAbstraction size ps.length)
  if abstraction.known = some false then
    count fun s => { s with infeasibleAbstractions := s.infeasibleAbstractions + 1 }
    return none
  return some (.abstraction (← allocate l abstraction path (some owner.id)))

/-- The successor of a block of `size` edges along an edge, if it is feasible. -/
def extendBlock (p : Problem) (precision : Precision) (owner : AbstractionState)
    (path : PathFormula) (size : Nat) (e : EdgeId) : TryM (Option State) := do
  let edge ← p.automaton.edge e
  let reached ← precision.policy.thresholdReached size
  let node ← p.automaton.node edge.target
  let path ← extendPath edge e path
  if precision.policy.abstracts node (p.automaton.isCallSite edge.target) reached then
    completeBlock p precision owner edge.target (size + 1) path
  else if ← prunes p owner (size + 1) path then return none
  else return some (.inner ⟨⟨owner.id, edge.target, size + 1, path⟩, none⟩)

/-- The successor of a state along an edge, if there is one. -/
def successor (p : Problem) (precision : Precision) (s : State) (e : EdgeId) :
    TryM (Option State) := do
  match s with
  | .top => throw .unexpectedTop
  | .bottom => return none
  | .abstraction id =>
    let owner ← abstractionState id
    extendBlock p precision owner owner.fresh 0 e
  | .inner s => extendBlock p precision (← abstractionState s.owner) s.path s.size e

/-- The successors of a state along some edges. -/
def successorsAlong (p : Problem) (precision : Precision) (s : State) :
    List EdgeId → TryM (List (EdgeId × State))
  | [] => return []
  | e :: es => do
    let first ← successor p precision s e
    let rest ← successorsAlong p precision s es
    return first.toList.map (e, ·) ++ rest

/-- The successors of a state along all edges that leave its location. -/
def successors (p : Problem) (precision : Precision) (s : State) :
    TryM (List (EdgeId × State)) := do
  match ← s.location? (← get).arena with
  | some l => successorsAlong p precision s (p.automaton.leaving l)
  | none =>
    match s with
    | .bottom => return []
    | _ => throw .unexpectedTop

end Cegar.Analysis

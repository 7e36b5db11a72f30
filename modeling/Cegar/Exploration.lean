import Cegar.Analysis.Coverage
import Cegar.Analysis.Refinement
import Cegar.Analysis.Successor

/-!
# Exploration

The graph is grown from its root. Nodes wait in a queue to be expanded. A successor is merged into
the nodes at its location as far as that is possible; if one of them covers it then, it is dropped,
else it becomes a new node. A node that changed is expanded again, and so is a node whose dropped
successor has lost its cover.
-/

namespace Cegar

/-- A node one of whose successors was dropped, and the node that covers that successor. -/
structure Cover where
  node : NodeId
  cover : NodeId

structure Exploration where
  graph : Graph
  /-- The nodes at each location, in the order of their creation. -/
  reached : Std.ExtTreeMap Location (List NodeId)
  /-- The nodes to be expanded, the next one first. -/
  waitlist : List NodeId
  covered : List Cover
  /-- The number of nodes taken from the waitlist so far. -/
  steps : Nat

namespace Exploration

def empty (freeing : Freeing) : Exploration := ⟨.empty freeing, ∅, [], [], 0⟩

/-- Exploration gives up when it has taken this many steps. -/
def stepLimit : Nat := 10000

variable (x : Exploration)

/-- The nodes at a location, in the order of their creation. -/
def reachedAt (l : Location) : List NodeId := x.reached[l]?.getD []

/-- Adds a new node at a location, which has to be expanded. -/
def addReached (l : Location) (n : NodeId) : Exploration :=
  { x with
    reached := x.reached.insert l (x.reachedAt l ++ [n])
    waitlist := x.waitlist ++ [n] }

/-- Queues a node, also if it waits already. -/
def enqueue (n : NodeId) : Exploration := { x with waitlist := x.waitlist ++ [n] }

/-- Queues a node unless it waits already. -/
def enqueueNew (n : NodeId) : Exploration := if n ∈ x.waitlist then x else x.enqueue n

/-- Adds the initial state as the root. -/
def addRoot (p : Problem) : AnalysisM Exploration := do
  let initial ← Analysis.initialState p.automaton.entry
  let (n, graph) := x.graph.addRoot initial p.automaton.entry
  return { x with graph }.addReached p.automaton.entry n

/-- The graph with nothing but the root. -/
def start (freeing : Freeing) (p : Problem) : AnalysisM Exploration := (empty freeing).addRoot p

/-- Forgets nodes that are no longer in the graph. Nodes that have lost a cover are queued. This
has to happen before nodes are added, which may get the numbers of removed ones. -/
def prune : Exploration :=
  let kept := { x with
    reached := x.reached.map fun _ ns => ns.filter x.graph.contains
    waitlist := x.waitlist.filter x.graph.contains
    covered := x.covered.filter fun c => x.graph.contains c.cover && x.graph.contains c.node }
  let lost := x.covered.filter fun c => !x.graph.contains c.cover && x.graph.contains c.node
  lost.foldl (fun x c => x.enqueueNew c.node) kept

/-- Removes the subtrees of all children of a node. -/
def cutBelow (n : NodeId) : Exploration :=
  prune { x with graph :=
    (x.graph.children n).foldl (fun g (child, _) => (g.removeSubtree child).2) x.graph }

/-- Merges a successor of `node` into the node `r` at the same location, if that changes `r`. What
was explored from `r` no longer counts then. -/
def mergeInto (p : Problem) (node : NodeId) (edge : EdgeId) (successor : State) (r : NodeId) :
    AnalysisM Exploration := do
  match x.graph.nodes[r]? with
  | none => return x
  | some n =>
    match ← Analysis.merge? p successor n.state with
    | none => return x
    | some merged =>
      if merged.same n.state then return x
      let x := x.cutBelow r
      if !x.graph.contains r then return x
      let graph := x.graph.replace r merged
      let graph ← if graph.contains node then graph.addEdge ⟨node, r, edge⟩ else pure graph
      return { x with graph }.enqueue r

/-- Merges a successor into one node after the other. -/
def mergeIntoAll (p : Problem) (node : NodeId) (edge : EdgeId) (successor : State) :
    List NodeId → Exploration → AnalysisM Exploration
  | [], x => return x
  | r :: rs, x => do mergeIntoAll p node edge successor rs (← x.mergeInto p node edge successor r)

/-- The first of some nodes that covers a state. -/
def coverAmong (p : Problem) (s : State) : List NodeId → AnalysisM (Option NodeId)
  | [] => return none
  | r :: rs => do
    match x.graph.nodes[r]? with
    | some n => if ← Analysis.covers p s n.state then return some r else coverAmong p s rs
    | none => coverAmong p s rs

/-- Merges a successor into the nodes at its location, if states are to be merged. -/
def mergeSuccessor (p : Problem) (node : NodeId) (edge : EdgeId) (successor : State)
    (l : Location) : AnalysisM Exploration :=
  match p.options.merge with
  | .sep => return x
  | .join => mergeIntoAll p node edge successor (x.reachedAt l) x

/-- Adds a successor of a node. -/
def addSuccessor (p : Problem) (node : NodeId) (edge : EdgeId) (successor : State) (l : Location) :
    AnalysisM Exploration := do
  let x ← x.mergeSuccessor p node edge successor l
  let cover ← x.coverAmong p successor (x.reachedAt l)
  if !x.graph.contains node then return x
  match cover with
  | some c => return { x with covered := x.covered ++ [⟨node, c⟩] }
  | none =>
    let (child, graph) ← x.graph.addChild node edge successor l
    return { x with graph }.addReached l child

/-- Adds the successors of a node for as long as the node itself is there. -/
def addSuccessors (p : Problem) (node : NodeId) :
    List (EdgeId × State) → Exploration → AnalysisM Exploration
  | [], x => return x
  | (edge, successor) :: rest, x => do
    if !x.graph.contains node then return x
    match ← successor.location? (← get).arena with
    | some l => addSuccessors p node rest (← x.addSuccessor p node edge successor l)
    | none => addSuccessors p node rest x

/-- How exploration ends. -/
inductive Outcome where
  /-- All is explored. -/
  | complete
  /-- A node at an error location was reached. -/
  | target (n : NodeId)
  | failed (e : Error)

/-- Takes one node from the waitlist and expands it, unless it is at an error location. Without an
outcome there is more to do. -/
def step (p : Problem) : AnalysisM (Option Outcome × Exploration) := do
  match x.waitlist with
  | [] => return (some .complete, x)
  | n :: waitlist =>
    let x := { x with waitlist, steps := x.steps + 1 }
    if stepLimit ≤ x.steps then throw .tooManySteps
    match x.graph.nodes[n]? with
    | none => return (none, x)
    | some node =>
      if ← Analysis.isTarget p node.state then return (some (.target n), x)
      match ← (Analysis.successors p (← get).precision node.state).run with
      | .error e => return (some (.failed e), x)
      | .ok successors => return (none, ← addSuccessors p n successors x)

/-- At most `k` steps. -/
def runWithin (p : Problem) : Nat → Exploration → AnalysisM (Outcome × Exploration)
  | 0, _ => throw .tooManySteps
  | k + 1, x => do
    match ← x.step p with
    | (none, x) => runWithin p k x
    | (some outcome, x) => return (outcome, x)

/-- Explores until a node at an error location is to be expanded, or nothing is left. Each step is
counted, and the count stays below the limit, so that many steps are enough. -/
def run (p : Problem) : AnalysisM (Outcome × Exploration) := runWithin p stepLimit x

/-- Removes a node and all below it, and queues the nodes that lost a child, to be expanded with
the precision of now. If nothing is left, exploration starts anew. -/
def restartFrom (p : Problem) (n : NodeId) : AnalysisM Exploration := do
  let (parents, graph) := x.graph.removeSubtree n
  let x := prune { x with graph }
  match graph.root with
  | none => addRoot { x with covered := [] } p
  | some _ => return parents.foldl enqueueNew x

end Exploration

end Cegar

import Cegar.Automaton.Basic
import Cegar.Sorting
import Cegar.State.Basic

/-!
# The explored graph

The states reached so far, and along which edges of the automaton they were reached. Nodes are
numbered; the number of a removed node is given out again, the one freed last first. A removal frees
the numbers of many nodes, and nothing is fixed about their order: it is part of the graph.
-/

namespace Cegar

structure GraphNode where
  state : State
  location : Location

def GraphNode.text (n : GraphNode) : String :=
  "ArgNode \x7b state: " ++ n.state.text ++ ", location: " ++ n.location.text ++ " \x7d"

/-- An edge of the explored graph, with the edge of the automaton that it follows. -/
structure Link where
  source : NodeId
  target : NodeId
  label : EdgeId
deriving DecidableEq

/-- In which order removals free numbers. Each number is freed once; apart from that the order is
left open, and every removal may have another one. -/
structure Freeing where
  /-- The numbers that the `k`-th removal frees, the first one to be given out first. -/
  arrange : (k : Nat) → List NodeId → List NodeId
  perm : ∀ k ns, (arrange k ns).Perm ns

/-- Large numbers are given out first. -/
def Freeing.descending : Freeing := ⟨fun _ ns => ns.reverse, fun _ ns => ns.reverse_perm⟩

structure Graph where
  nodes : Std.ExtTreeMap NodeId GraphNode
  /-- Numbers to be given out again, the next one first. -/
  free : List NodeId
  /-- The edges, the latest first. -/
  links : List Link
  root : Option NodeId
  freeing : Freeing
  /-- The number of removals so far. -/
  removals : Nat

namespace Graph

def empty (freeing : Freeing := .descending) : Graph := ⟨∅, [], [], none, freeing, 0⟩

variable (g : Graph)

/-! ### Growing -/

/-- Adds a node without edges. -/
def addNode (state : State) (location : Location) : NodeId × Graph :=
  match g.free with
  | n :: free => (n, { g with nodes := g.nodes.insert n ⟨state, location⟩, free })
  | [] =>
    let n := ⟨g.nodes.size⟩
    (n, { g with nodes := g.nodes.insert n ⟨state, location⟩ })

/-- Adds a node, which becomes the root. -/
def addRoot (state : State) (location : Location) : NodeId × Graph :=
  let (n, g) := g.addNode state location
  (n, { g with root := some n })

def contains (n : NodeId) : Bool := g.nodes.contains n

/-- Adds an edge between nodes that have to exist. -/
def link (l : Link) : Except Abort Graph :=
  if !g.contains l.source then .error (.noNode l.source)
  else if !g.contains l.target then .error (.noNode l.target)
  else .ok { g with links := l :: g.links }

def addChild (parent : NodeId) (label : EdgeId) (state : State) (location : Location) :
    Except Abort (NodeId × Graph) := do
  let (n, g) := g.addNode state location
  return (n, ← g.link ⟨parent, n, label⟩)

/-- Adds an edge unless it is there already. -/
def addEdge (l : Link) : Except Abort Graph :=
  if l ∈ g.links then .ok g else g.link l

/-- Replaces the state of a node, if there is such a node. -/
def replace (n : NodeId) (state : State) : Graph :=
  match g.nodes[n]? with
  | some node => { g with nodes := g.nodes.insert n { node with state } }
  | none => g

/-! ### Neighbours -/

/-- Whether one neighbour is listed before another: by number, then by edge. -/
def before (a b : NodeId × EdgeId) : Bool :=
  ((compare a.1 b.1).then (compare a.2 b.2)).isLE

/-- The children of a node with the edges that lead to them. -/
def children (n : NodeId) : List (NodeId × EdgeId) :=
  sortBy before ((g.links.filter (·.source = n)).map fun l => (l.target, l.label))

/-- The parents of a node with the edges that lead from them. -/
def incoming (n : NodeId) : List (NodeId × EdgeId) :=
  sortBy before ((g.links.filter (·.target = n)).map fun l => (l.source, l.label))

/-- The parents of a node. -/
def parents (n : NodeId) : List NodeId :=
  (Std.ExtTreeSet.ofList ((g.links.filter (·.target = n)).map (·.source))).toList

/-! ### Shrinking -/

/-- The node and all that is reachable from it. -/
def subtree (n : NodeId) : Std.ExtTreeSet NodeId :=
  reachable (g.links.map fun l => (l.source, l.target)) n

/-- Removes a node and all that is reachable from it. The other nodes that lose a child are
returned. -/
def removeSubtree (n : NodeId) : List NodeId × Graph :=
  if !g.contains n then ([], g)
  else
    let removed := g.subtree n
    let lost := g.links.filter fun l => removed.contains l.target && !removed.contains l.source
    (( Std.ExtTreeSet.ofList (lost.map (·.source))).toList,
      { g with
        nodes := g.nodes.filter fun m _ => !removed.contains m
        free := g.freeing.arrange g.removals removed.toList ++ g.free
        links := g.links.filter fun l => !removed.contains l.source && !removed.contains l.target
        root := g.root.filter fun r => !removed.contains r
        removals := g.removals + 1 })

def text : String :=
  "Arg(" ++ Nat.repr g.nodes.size ++ " nodes, root "
    ++ (match g.root with
      | some r => "Some(" ++ r.text ++ ")"
      | none => "None") ++ ")"

end Graph

end Cegar

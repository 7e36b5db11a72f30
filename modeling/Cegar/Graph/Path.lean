import Cegar.Error
import Cegar.Graph.Basic

/-!
# Paths through the explored graph

A path is a list of nodes, each but the last with the edge of the automaton that leads on.
-/

namespace Cegar

structure Hop where
  node : NodeId
  edge : Option EdgeId
deriving DecidableEq

abbrev Path := List Hop

namespace Graph

variable (g : Graph)

/-- The edge from the parent with the smallest number; of several from it the latest. -/
def oldestIncoming (n : NodeId) : Option Link :=
  (g.links.filter (·.target = n)).foldl (fun best l =>
    match best with
    | some b => if l.source.idx < b.source.idx then some l else some b
    | none => some l) none

/-- Walks back from `n` to the root in at most `k` steps; `path` leads from `n` to `target`. -/
def walkBack (root target : NodeId) : Nat → NodeId → Path → Except PathDefect Path
  | k, n, path =>
    if n = root then .ok path
    else match k with
      | 0 => .error (.cycle target)
      | k + 1 =>
        match g.oldestIncoming n with
        | some l => walkBack root target k l.source (⟨l.source, some l.label⟩ :: path)
        | none => .error (.unreachable target)

/-- The path from the root to `target` that always comes from the parent with the smallest
number. A walk with more steps than there are nodes is on a cycle. -/
def pathTo (target : NodeId) : Except PathDefect Path :=
  match g.root with
  | some root => g.walkBack root target g.nodes.size target [⟨target, none⟩]
  | none => .error .noRoot

end Graph

end Cegar

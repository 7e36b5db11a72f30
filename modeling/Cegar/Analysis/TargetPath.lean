import Cegar.Automaton.Basic
import Cegar.Graph.Path

/-!
# Paths of feasible counterexamples

Merged states stand for several ways through a block, so a feasible counterexample does not say yet
which way was taken. The values of the branch variables do: the walk from the root takes the branch
that they tell.
-/

namespace Cegar

structure TargetPath where
  nodes : List NodeId
  edges : List EdgeId
  /-- Some branch could not be resolved, so the path need not be the one that the model has. -/
  imprecise : Bool

namespace TargetPath

/-- Falls back on the path along which the target was found. -/
def ofPath (path : Path) : TargetPath :=
  ⟨path.map (·.node), path.filterMap (·.edge), true⟩

/-- One more step of the walk. -/
def extend (t : TargetPath) (n : NodeId) (e : EdgeId) (guessed : Bool) : TargetPath :=
  ⟨t.nodes ++ [n], t.edges ++ [e], t.imprecise || guessed⟩

/-- Whether an edge is an assumption, and which one. -/
def assumption? (a : Automaton) (e : EdgeId) : Except Abort (Option Bool) := do
  match (← a.edge e).statement with
  | .assume _ truth => return some truth
  | _ => return none

/-- The first child behind an assumption with this truth value. -/
def childTaking (a : Automaton) (truth : Bool) :
    List (NodeId × EdgeId) → Except Abort (Option (NodeId × EdgeId))
  | [] => return none
  | (n, e) :: children => do
    if (← assumption? a e) = some truth then return some (n, e)
    childTaking a truth children

/-- The child to go to: the only one, or the one on the branch taken on this visit. -/
def resolve (a : Automaton) (branches : Std.ExtTreeMap Var Bool) (l : Location) (visit : Nat)
    (children : List (NodeId × EdgeId)) : Except Abort (Option (NodeId × EdgeId)) :=
  match children with
  | [child] => return some child
  | [_, _] =>
    match branches[Var.branch l.idx visit.toUInt32]? with
    | some truth => childTaking a truth children
    | none => return none
  | _ => return none

/-- Where the walk is: the node, the number of assumptions passed at each location, and the path so
far. -/
structure Walk where
  current : NodeId
  visits : Std.ExtTreeMap Location Nat
  soFar : TargetPath

/-- One step of the walk; none if it cannot go on. An unresolved branch is left towards the error
path if that is possible, else by the first edge. -/
def Walk.step? (a : Automaton) (g : Graph) (path : Path) (branches : Std.ExtTreeMap Var Bool)
    (w : Walk) : Except Abort (Option Walk) := do
  match g.nodes[w.current]? with
  | none => return none
  | some node =>
    let visits := w.visits[node.location]?.getD 0
    let children := g.children w.current
    let choice ← resolve a branches node.location (visits + 1) children
    let guess := (children.find? fun c => path.any (·.node = c.1)).or children.head?
    match choice.or guess with
    | none => return none
    | some (n, e) =>
      let visits ← do
        if (← assumption? a e).isSome then pure (w.visits.insert node.location (visits + 1))
        else pure w.visits
      return some ⟨n, visits, w.soFar.extend n e choice.isNone⟩

/-- Walks to the target in at most `k` steps; none if the walk gets stuck or too long. -/
def Walk.run? (a : Automaton) (g : Graph) (path : Path) (branches : Std.ExtTreeMap Var Bool)
    (target : NodeId) : Nat → Walk → Except Abort (Option TargetPath)
  | k, w => do
    if w.current = target then return some w.soFar
    match k with
    | 0 => return none
    | k + 1 =>
      match ← w.step? a g path branches with
      | some w => run? a g path branches target k w
      | none => return none

/-- The path from the root to the end of `path` that takes the given branches. -/
def find (a : Automaton) (g : Graph) (path : Path) (branches : Std.ExtTreeMap Var Bool) :
    ExceptT PathDefect (Except Abort) TargetPath := do
  match g.root, path.getLast? with
  | some root, some last =>
    let walk : Walk := ⟨root, ∅, ⟨[root], [], false⟩⟩
    let found ← walk.run? a g path branches last.node g.nodes.size
    return found.getD (ofPath path)
  | _, _ => throw .empty

end TargetPath

end Cegar

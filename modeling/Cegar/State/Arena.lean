import Cegar.Abort
import Cegar.PathFormula

/-!
# Abstraction states

An abstraction state ends a block of transitions. What the block implies about the predicates is
kept as the abstraction, and the transitions themselves are kept to rebuild counterexamples.
Abstraction states are numbered in the order of their creation and live in an arena for good.
-/

namespace Cegar

structure AbstractionState where
  id : AbstractionId
  location : Location
  /-- What is known here, over predicates, whose variables have no index. -/
  abstraction : Expr
  /-- The transitions of the block that ends here. -/
  block : PathFormula
  /-- The abstraction state in which the block starts; initial states have none. -/
  previous : Option AbstractionId
deriving DecidableEq

namespace AbstractionState

/-- The numbering of writes at this state. -/
def ssa (a : AbstractionState) : SsaMap := a.block.ssa

/-- What the next block starts from. -/
def fresh (a : AbstractionState) : PathFormula := .empty a.ssa

/-- The abstraction over the variables as they are at this state. -/
def formula (a : AbstractionState) : Expr := a.abstraction.indexed a.ssa

def text (a : AbstractionState) : String :=
  "A" ++ Nat.repr a.id.idx ++ "@" ++ Nat.repr a.location.idx ++ ": " ++ a.abstraction.text

end AbstractionState

structure Arena where
  states : Array AbstractionState

namespace Arena

def empty : Arena := ⟨#[]⟩

def size (a : Arena) : Nat := a.states.size

/-- Adds a state, which gets the next number. -/
def allocate (a : Arena) (location : Location) (abstraction : Expr) (block : PathFormula)
    (previous : Option AbstractionId) : AbstractionState × Arena :=
  let state := ⟨⟨a.size⟩, location, abstraction, block, previous⟩
  (state, ⟨a.states.push state⟩)

def get? (a : Arena) (id : AbstractionId) : Option AbstractionState := a.states[id.idx]?

def get (a : Arena) (id : AbstractionId) : Except Abort AbstractionState :=
  match a.get? id with
  | some s => .ok s
  | none => .error (.noAbstraction id)

/-- The predecessors of a state, the first one first, followed by `rest`. Predecessors are older
than their successors, so there are fewer than `n` of them for the `n`-th state. -/
def traceWithin (a : Arena) : Nat → AbstractionId → List AbstractionId → List AbstractionId
  | 0, id, rest => id :: rest
  | n + 1, id, rest =>
    match (a.get? id).bind (·.previous) with
    | some p => traceWithin a n p (id :: rest)
    | none => id :: rest

/-- The chain of abstraction states from an initial one to `id`. -/
def trace (a : Arena) (id : AbstractionId) : List AbstractionId := a.traceWithin a.size id []

def text (a : Arena) : String := "AbstractionArena(" ++ Nat.repr a.size ++ " states)"

end Arena

end Cegar

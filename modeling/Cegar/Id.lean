import Std.Data.ExtTreeMap

/-!
# Numbered things

Locations and edges of the automaton, abstraction states and nodes of the explored graph are all
identified by numbers. The kind in the type keeps the four apart.
-/

namespace Cegar

inductive Kind where
  | location
  | edge
  | abstraction
  | node
deriving DecidableEq

/-- How a number of this kind is labelled in messages. -/
def Kind.label : Kind → String
  | .location | .node => "NodeIndex"
  | .edge => "EdgeIndex"
  | .abstraction => "AbstractionId"

structure Id (kind : Kind) where
  idx : Nat
deriving DecidableEq, Inhabited

/-- A program location. -/
abbrev Location := Id .location

/-- An edge of the automaton. -/
abbrev EdgeId := Id .edge

/-- An abstraction state. -/
abbrev AbstractionId := Id .abstraction

/-- A node of the explored graph. -/
abbrev NodeId := Id .node

namespace Id

variable {kind : Kind}

instance : Ord (Id kind) := ⟨compareOn idx⟩

instance : Std.TransOrd (Id kind) := inferInstanceAs (Std.TransCmp (compareOn idx))

instance : Std.LawfulEqOrd (Id kind) where
  eq_of_compare {a b} h := by
    have : a.idx = b.idx := Std.LawfulEqOrd.eq_of_compare h
    cases a; cases b; cases this; rfl

/-- The number with its label, as messages show it. -/
def text (i : Id kind) : String := kind.label ++ "(" ++ Nat.repr i.idx ++ ")"

end Id

end Cegar

import Cegar.State.Arena

/-!
# Abstract states

A state of the analysis is an abstraction state or lies inside a block, where it carries the path
formula since the abstraction state that owns the block. Two states inside a block that were merged
are remembered as the inputs of the result, but the inputs do not count when states are compared.
-/

namespace Cegar

/-- What identifies a state inside a block. -/
structure Segment where
  /-- The abstraction state in which the block starts. -/
  owner : AbstractionId
  location : Location
  /-- The number of edges since the owner, the largest one if there are several ways. -/
  size : Nat
  path : PathFormula
deriving DecidableEq

namespace Segment

/-- The order in which segments are looked up. -/
def order : Segment → Segment → Ordering :=
  compareLex (compareOn owner) (compareLex (compareOn location)
    (compareLex (compareOn size) (compareOn path)))

instance : Ord Segment := ⟨order⟩

instance : Std.TransOrd Segment :=
  inferInstanceAs (Std.TransCmp (compareLex (compareOn owner) (compareLex (compareOn location)
    (compareLex (compareOn size) (compareOn path)))))

theorem compare_def (s t : Segment) :
    compare s t = (compare s.owner t.owner).then ((compare s.location t.location).then
      ((compare s.size t.size).then (compare s.path t.path))) := rfl

instance : Std.LawfulEqOrd Segment where
  eq_of_compare {s t} h := by
    rw [compare_def, Ordering.then_eq_eq, Ordering.then_eq_eq, Ordering.then_eq_eq] at h
    obtain ⟨howner, hlocation, hsize, hpath⟩ := h
    cases s; cases t
    cases Std.LawfulEqOrd.eq_of_compare howner
    cases Std.LawfulEqOrd.eq_of_compare hlocation
    cases Std.LawfulEqOrd.eq_of_compare hsize
    cases Std.LawfulEqOrd.eq_of_compare hpath
    rfl

def text (s : Segment) : String :=
  "N(A" ++ Nat.repr s.owner.idx ++ ")@" ++ Nat.repr s.location.idx ++ "[" ++ Nat.repr s.size
    ++ "]: " ++ s.path.text

end Segment

/-- A state inside a block. -/
structure Inner extends Segment where
  /-- The two states that were merged into this one. -/
  inputs : Option (Segment × Segment)
deriving DecidableEq

namespace Inner

def merged (s : Inner) : Bool := s.inputs.isSome

/-- Whether `t` was merged into this state. -/
def absorbs (s : Inner) (t : Segment) : Bool :=
  match s.inputs with
  | some (a, b) => a = t || b = t
  | none => false

/-- The union of two states of one block at one location. -/
def merge (s t : Segment) : Inner where
  owner := s.owner
  location := s.location
  size := max s.size t.size
  path := s.path.or t.path
  inputs := some (s, t)

end Inner

inductive State where
  /-- Every concrete state. -/
  | top
  /-- No concrete state. -/
  | bottom
  | abstraction (id : AbstractionId)
  | inner (s : Inner)

namespace State

/-- Whether two states are the same, however they came about. -/
def same : State → State → Bool
  | .top, .top | .bottom, .bottom => true
  | .abstraction a, .abstraction b => a = b
  | .inner s, .inner t => s.toSegment = t.toSegment
  | _, _ => false

def isAbstraction : State → Bool
  | .abstraction _ => true
  | _ => false

/-- The abstraction state that the state depends on; an abstraction state owns itself. -/
def owner? : State → Option AbstractionId
  | .abstraction id => some id
  | .inner s => some s.owner
  | .top | .bottom => none

/-- Bottom is neutral; any other two states have no better upper bound than top. -/
def join : State → State → State
  | .bottom, s | s, .bottom => s
  | _, _ => .top

def text : State → String
  | .top => "Top"
  | .bottom => "Bottom"
  | .abstraction id => "Abstraction(" ++ id.text ++ ")"
  | .inner s => "NonAbstraction(" ++ s.toSegment.text ++ ")"

/-- Where the state is; top and bottom are nowhere. -/
def location? (a : Arena) : State → Except Abort (Option Location)
  | .abstraction id => return some (← a.get id).location
  | .inner s => return some s.location
  | .top | .bottom => return none

/-- The concrete states that the state stands for, over indexed variables. -/
def formula (a : Arena) : State → Except Abort Expr
  | .top => return .bool true
  | .bottom => return .bool false
  | .abstraction id => return (← a.get id).formula
  | .inner s => return (← a.get s.owner).formula.and s.path.formula

end State

end Cegar

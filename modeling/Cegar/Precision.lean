import Cegar.Options.Basic
import Cegar.Predicate
import Std.Data.ExtTreeMap

/-!
# Precisions

A precision says which predicates are tracked where. A location may have predicates of its own; the
others share the global ones. Precisions only ever grow.
-/

namespace Cegar

abbrev PredicateSet := Std.ExtTreeSet Predicate

structure Precision where
  /-- The predicates of locations that have their own. -/
  own : Std.ExtTreeMap Location PredicateSet
  /-- The predicates of all other locations. -/
  everywhere : PredicateSet
  policy : Policy

namespace Precision

def empty (policy : Policy) : Precision := ⟨∅, ∅, policy⟩

/-- Tracks the same predicates at every location. -/
def ofGlobal (policy : Policy) (ps : List Predicate) : Precision :=
  ⟨∅, ps.foldl (·.insert ·) ∅, policy⟩

variable (p : Precision)

/-- The set of predicates tracked at a location. -/
def setAt (l : Location) : PredicateSet := p.own[l]?.getD p.everywhere

/-- The predicates tracked at a location, in ascending order. -/
def predicatesAt (l : Location) : List Predicate := (p.setAt l).toList

def tracks (l : Location) (q : Predicate) : Bool := (p.setAt l).contains q

/-- Tracks one more predicate at a location, which keeps those that it has. -/
def insert (l : Location) (q : Predicate) : Precision :=
  { p with own := p.own.insert l ((p.setAt l).insert q) }

/-- Tracks predicates one after the other; `changed` tells whether one was new so far. -/
def refineFrom : Precision → (changed : Bool) → List (Location × Predicate) → Precision × Bool
  | p, changed, [] => (p, changed)
  | p, changed, (l, q) :: qs =>
    if p.tracks l q then p.refineFrom changed qs else (p.insert l q).refineFrom true qs

/-- Tracks more predicates, and tells whether any of them is new at its location. -/
def refine (qs : List (Location × Predicate)) : Precision × Bool := p.refineFrom false qs

/-- Tracks what either precision tracks. A location with predicates of its own in the first
precision only does not get the global ones of the second. -/
def join (p q : Precision) : Precision where
  own := q.own.foldl (fun own l s => own.insert l (p.setAt l ∪ s)) p.own
  everywhere := p.everywhere ∪ q.everywhere
  policy := p.policy

/-- The number of predicates, counted once for each location that has them as its own. -/
def count : Nat := p.own.foldl (fun n _ s => n + s.size) p.everywhere.size

def setText (s : PredicateSet) : String :=
  "[" ++ ", ".intercalate (s.toList.map Predicate.text) ++ "]"

def text : String :=
  let own := p.own.toList.map fun (l, s) => l.text ++ ": " ++ setText s
  "\x7b" ++ ", ".intercalate (own ++ ["\"global\": " ++ setText p.everywhere]) ++ "\x7d"

end Precision

end Cegar

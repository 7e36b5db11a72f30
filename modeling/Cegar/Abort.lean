import Cegar.Id
import Cegar.Int128

/-!
# Aborted runs

Some calls cannot be answered at all: an exact result does not fit its width, a number names
nothing, or exploration goes on for too long. Such a run ends on the spot; it is no error that a
caller could handle.
-/

namespace Cegar

inductive Abort where
  /-- An exact result does not fit its width. -/
  | overflow
  | noLocation (l : Location)
  | noEdge (e : EdgeId)
  | noNode (n : NodeId)
  | noAbstraction (id : AbstractionId)
  /-- Exploration took more steps than it may. -/
  | tooManySteps
deriving DecidableEq

/-- The integer `z`, which has to fit. -/
def Int128.exact (z : Int) : Except Abort Int128 :=
  match ofInt? z with
  | some n => .ok n
  | none => .error .overflow

theorem Int128.val_of_exact {z : Int} {n : Int128} (h : Int128.exact z = .ok n) : n.val = z := by
  unfold Int128.exact at h
  split at h
  · next hfits =>
    cases h
    exact val_of_ofInt? hfits
  · cases h

end Cegar

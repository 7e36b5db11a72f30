import Cegar.Analysis.Basic

/-!
# Merging and coverage

States of one block at one location can be merged into one, and a state that is covered by another
one needs no exploration of its own.
-/

namespace Cegar.Analysis

/-- The union of two states of one block at one location; one that was formed before is looked
up. -/
def union (s t : Segment) : AnalysisM Inner := do
  match (← get).cache.merge? s t with
  | some m =>
    count fun s => { s with mergeCacheHits := s.mergeCacheHits + 1 }
    return m
  | none =>
    let m := Inner.merge s t
    count fun s => { s with merges := s.merges + 1 }
    modify fun x => { x with cache := x.cache.insertMerge s t m }
    return m

/-- Merges `s` into `t`; none if the two are not to be merged. -/
def merge? (p : Problem) (s t : State) : AnalysisM (Option State) := do
  match p.options.merge, s, t with
  | .join, .inner a, .inner b =>
    if a.owner ≠ b.owner || a.location ≠ b.location || a.toSegment = b.toSegment then return none
    return some (.inner (← union a.toSegment b.toSegment))
  | _, _, _ => return none

/-- What is in the place of `t` once `s` is merged into it. -/
def merge (p : Problem) (s t : State) : AnalysisM State := return (← merge? p s t).getD t

/-- Whether `t` is known to cover all that `s` stands for. -/
def covers (p : Problem) (s t : State) : AnalysisM Bool := do
  match s, t with
  | .bottom, _ | _, .top => return true
  | _, .bottom | .top, _ => return false
  | .abstraction a, .abstraction b =>
    if a = b then return true
    consult (implied (← abstractionState a).abstraction (← abstractionState b).abstraction)
  | .inner s, .abstraction b =>
    if !p.options.symbolicCoverage then return false
    let owner ← abstractionState s.owner
    let cover ← abstractionState b
    consult (implied (owner.formula.and s.path.formula) (cover.abstraction.indexed s.path.ssa))
  | .abstraction _, .inner _ => return false
  | .inner s, .inner t => return s.toSegment = t.toSegment || t.absorbs s.toSegment

end Cegar.Analysis

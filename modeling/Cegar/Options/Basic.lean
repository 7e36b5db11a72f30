import Cegar.Automaton.Basic

/-!
# Options

What a user can choose about an analysis, and the rule that picks the locations at which states
are abstracted.
-/

namespace Cegar

/-- How the abstraction of a block is computed. -/
inductive AbstractionKind where
  /-- The strongest boolean combination of the predicates. -/
  | boolean
  /-- The strongest conjunction of predicates and negated predicates. -/
  | cartesian
deriving DecidableEq

/-- How messages show what computes abstractions of this kind. -/
def AbstractionKind.text : AbstractionKind → String
  | .boolean => "SolverFormulaManager(Boolean)"
  | .cartesian => "SolverFormulaManager(Cartesian)"

/-- Whether states of one block that reach the same location are merged. -/
inductive MergeKind where
  | sep
  | join
deriving DecidableEq

/-- How the block size combines with the structure of the automaton. -/
inductive Combination where
  | or
  | and
deriving DecidableEq

/-- Where states are abstracted. -/
structure Policy where
  atLoopHeads : Bool := true
  atFunctionEntries : Bool := false
  atReturnSites : Bool := false
  atCallSites : Bool := false
  /-- Error locations are abstracted whatever the other choices are. -/
  atTargets : Bool := true
  /-- The number of edges after which a block is complete; zero sets no limit. -/
  blockSize : Nat := 0
  combination : Combination := .or
deriving DecidableEq

structure Options extends Policy where
  /-- The satisfiability of a block is checked every so many edges; zero means never. -/
  satCheck : Nat := 0
  abstraction : AbstractionKind := .boolean
  merge : MergeKind := .join
  /-- Whether abstraction states may cover states inside a block. -/
  symbolicCoverage : Bool := false
  solverRange : Int128 := 16
deriving DecidableEq

/-- Sizes are below this limit. -/
def sizeLimit : Nat := UInt64.size

namespace Policy

/-- Whether a block of `size` edges is complete with one more edge. -/
def thresholdReached (p : Policy) (size : Nat) : Except Abort Bool :=
  if p.blockSize = 0 then .ok false
  else if size + 1 < sizeLimit then .ok (decide (p.blockSize ≤ size + 1))
  else .error .overflow

/-- Whether the place of a location in the automaton calls for abstraction. -/
def structural (p : Policy) (n : Node) (callSite : Bool) : Bool :=
  (p.atLoopHeads && n.loopHead) || (p.atFunctionEntries && n.functionEntry)
    || (p.atReturnSites && n.returnSite) || (p.atCallSites && callSite)

/-- Whether a state that reaches the location is abstracted. -/
def abstracts (p : Policy) (n : Node) (callSite thresholdReached : Bool) : Bool :=
  if p.atTargets && n.error then true
  else match p.combination with
    | .or => p.structural n callSite || thresholdReached
    | .and => p.structural n callSite && (thresholdReached || p.blockSize == 0)

end Policy

end Cegar

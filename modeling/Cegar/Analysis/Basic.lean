import Cegar.Automaton.Basic
import Cegar.Interpolation
import Cegar.Precision
import Cegar.State.Basic

/-!
# The state of an analysis

What an analysis keeps between its operations: the solver, the abstraction states, results to be
used again, counters, and the precision that exploration starts from.
-/

namespace Cegar

/-- What is analysed, and how. -/
structure Problem where
  automaton : Automaton
  options : Options

/-- Counters of the work done. -/
structure Statistics where
  abstractions : Nat := 0
  /-- Abstractions that came out false. -/
  infeasibleAbstractions : Nat := 0
  satChecks : Nat := 0
  /-- Satisfiability checks that failed. -/
  unsatSatChecks : Nat := 0
  maxBlockSize : Nat := 0
  maxPredicates : Nat := 0
  pathCacheHits : Nat := 0
  merges : Nat := 0
  mergeCacheHits : Nat := 0
  refinements : Nat := 0
  spurious : Nat := 0
  real : Nat := 0
deriving DecidableEq

namespace Statistics

/-- Counts the abstraction of a block of `size` edges with `predicates` predicates. -/
def addAbstraction (s : Statistics) (size predicates : Nat) : Statistics :=
  { s with
    abstractions := s.abstractions + 1
    maxBlockSize := max s.maxBlockSize size
    maxPredicates := max s.maxPredicates predicates }

end Statistics

/-- Results to be used again. -/
structure Cache where
  /-- How path formulas were extended by edges. -/
  paths : Std.ExtTreeMap EdgeId (Std.ExtTreeMap PathFormula PathFormula)
  /-- What the merges of two states were. -/
  merges : Std.ExtTreeMap Segment (Std.ExtTreeMap Segment Inner)
  /-- The initial states. -/
  initial : Std.ExtTreeMap Location AbstractionId

namespace Cache

def empty : Cache := ⟨∅, ∅, ∅⟩

variable (c : Cache)

def path? (e : EdgeId) (p : PathFormula) : Option PathFormula := do (← c.paths[e]?)[p]?

def insertPath (e : EdgeId) (p q : PathFormula) : Cache :=
  { c with paths := c.paths.insert e ((c.paths[e]?.getD ∅).insert p q) }

def merge? (s t : Segment) : Option Inner := do (← c.merges[s]?)[t]?

def insertMerge (s t : Segment) (m : Inner) : Cache :=
  { c with merges := c.merges.insert s ((c.merges[s]?.getD ∅).insert t m) }

/-- The number of extensions kept. -/
def pathCount : Nat := c.paths.foldl (fun n _ m => n + m.size) 0

/-- The number of blocks in which states were merged. -/
def mergeOwnerCount : Nat := (Std.ExtTreeSet.ofList (c.merges.keys.map (·.owner))).size

end Cache

structure Analysis where
  solver : Solver
  arena : Arena
  cache : Cache
  statistics : Statistics
  /-- The abstraction locations of the path that was found spurious last. -/
  lastPath : Option (List Location)
  /-- What exploration starts from. -/
  precision : Precision

/-- Operations of an analysis. -/
abbrev AnalysisM := StateT Analysis (Except Abort)

/-- Operations of an analysis that can fail; what they did before they failed stays done. -/
abbrev TryM := ExceptT Error AnalysisM

namespace Analysis

def new (options : Options) : Except Abort Analysis := do
  return {
    solver := ← Solver.new options.solverRange
    arena := .empty
    cache := .empty
    statistics := {}
    lastPath := none
    precision := .empty options.toPolicy }

/-- Puts a question to the solver. -/
def consult {α : Type} (act : SolverM α) : AnalysisM α := fun a => do
  let (x, solver) ← act a.solver
  return (x, { a with solver })

/-- Counts something. -/
def count (f : Statistics → Statistics) : AnalysisM Unit :=
  modify fun a => { a with statistics := f a.statistics }

/-- The abstraction state with this number. -/
def abstractionState (id : AbstractionId) : AnalysisM AbstractionState := do
  (← get).arena.get id

/-- Adds an abstraction state. -/
def allocate (location : Location) (abstraction : Expr) (block : PathFormula)
    (previous : Option AbstractionId) : AnalysisM AbstractionId :=
  modifyGet fun a =>
    let (s, arena) := a.arena.allocate location abstraction block previous
    (s.id, { a with arena })

/-- The abstraction state at a location about which nothing is known. There is one for each
location. -/
def initialState (l : Location) : AnalysisM State := do
  match (← get).cache.initial[l]? with
  | some id => return .abstraction id
  | none =>
    let id ← allocate l (.bool true) (.empty .empty) none
    modify fun a => { a with cache := { a.cache with initial := a.cache.initial.insert l id } }
    return .abstraction id

/-- Whether the state is at an error location. -/
def isTarget (p : Problem) (s : State) : AnalysisM Bool := do
  match ← s.location? (← get).arena with
  | some l => return (← p.automaton.node l).error
  | none => return false

def text (p : Problem) (a : Analysis) : String :=
  "PredicateCpa \x7b cfa: " ++ p.automaton.text
    ++ ", manager: " ++ p.options.abstraction.text
    ++ ", cache: AnalysisCache(" ++ a.arena.text
    ++ ", " ++ Nat.repr a.cache.pathCount ++ " path formulas"
    ++ ", " ++ Nat.repr a.cache.mergeOwnerCount ++ " merge owners) \x7d"

end Analysis

end Cegar

import Cegar.Exploration

/-!
# Verification

Exploration and refinement take turns. Exploration looks for a path to an error location. If the
path can be executed, the program is unsafe; if not, the precision is refined and exploration goes
on. A program whose exploration finds no path is safe.
-/

namespace Cegar

inductive Verdict where
  | safe
  | unsafePath (path : TargetPath)
  /-- The number of rounds allowed is used up. -/
  | undecided
  | failed (e : Error)

/-- What became of a path to an error location. -/
inductive RoundResult where
  | spurious (precision : Precision) (root : Option State)
  | real (path : TargetPath) (states : List State)
  | failed

/-- A path to an error location that was looked at. -/
structure Round where
  edges : List EdgeId
  /-- The states on the path, as they were then. -/
  states : List State
  result : RoundResult

/-- What a run of the loop comes to. -/
structure Report where
  verdict : Verdict
  /-- The paths that were looked at, in order. -/
  rounds : List Round
  exploration : Exploration

namespace Report

def addRound (r : Report) (round : Round) : Report := { r with rounds := round :: r.rounds }

/-- The states at some nodes of the graph. -/
def statesAt (g : Graph) (ns : List NodeId) : List State :=
  ns.filterMap fun n => g.nodes[n]?.map (·.state)

/-- How a round ends: with a report, or with an exploration to go on from. -/
inductive Progress where
  | done (r : Report)
  | again (round : Round) (x : Exploration)

/-- Explores until a path to an error location is found, and looks at that path. -/
def playRound (p : Problem) (x : Exploration) : AnalysisM Progress := do
  let (outcome, x) ← x.run p
  match outcome with
  | .target n =>
    match x.graph.pathTo n with
    | .error d => return .done ⟨.failed (.invalidPath d), [], x⟩
    | .ok path =>
      let round (result : RoundResult) : Round :=
        ⟨path.filterMap (·.edge), statesAt x.graph (path.map (·.node)), result⟩
      match ← (Analysis.refine p x.graph path).run with
      | .error e => return .done ⟨.failed e, [round .failed], x⟩
      | .ok (.real target) =>
        return .done
          ⟨.unsafePath target, [round (.real target (statesAt x.graph target.nodes))], x⟩
      | .ok (.spurious precision root) =>
        let round := round (.spurious precision (x.graph.nodes[root]?.map (·.state)))
        return .again round (← x.restartFrom p root)
  | .failed e => return .done ⟨.failed e, [], x⟩
  | .complete => return .done ⟨.safe, [], x⟩

/-- Plays rounds with at most `k` refinements after the first one. -/
def runFrom (p : Problem) : Nat → Exploration → AnalysisM Report
  | k, x => do
    match ← playRound p x with
    | .done r => return r
    | .again round x =>
      match k with
      | 0 => return ⟨.undecided, [round], x⟩
      | k + 1 => return (← runFrom p k x).addRound round

/-- Checks a program with at most `max` refinements, in which removals free the numbers of nodes in
the given order. -/
def checkWith (freeing : Freeing) (p : Problem) (max : Nat) : AnalysisM Report := do
  runFrom p max (← Exploration.start freeing p)

/-- Checks a program with at most `max` refinements. -/
def check (p : Problem) (max : Nat) : AnalysisM Report := checkWith .descending p max

end Report

end Cegar

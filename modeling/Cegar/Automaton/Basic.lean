import Cegar.Abort
import Cegar.Expr.Basic
import Std.Data.ExtTreeSet

/-!
# Control-flow automata

A program is a graph of locations whose edges carry statements. Variables in statements have no
index. `Automaton.build?` derives two marks from the edges: a location is a loop head if it
dominates the source of an edge that enters it, and a return site if a summary edge enters it. What
edges lead to is found by adding the targets of edges until nothing is new.
-/

namespace Cegar

/-! ## Reachability -/

section

variable {α : Type} [Ord α] [Std.TransOrd α]

/-- Adds the target of every edge whose source is in the set. -/
def addTargets (edges : List (α × α)) (s : Std.ExtTreeSet α) : Std.ExtTreeSet α :=
  edges.foldl (fun s (a, b) => if s.contains a then s.insert b else s) s

/-- At most `n` rounds of adding targets, fewer if a round finds nothing new. -/
def reachableWithin (edges : List (α × α)) : Nat → Std.ExtTreeSet α → Std.ExtTreeSet α
  | 0, s => s
  | n + 1, s =>
    let t := addTargets edges s
    if t.size = s.size then s else reachableWithin edges n t

/-- Everything that the edges lead to from `a`, and `a` itself. Every round but the last finds the
target of some edge, so there are at most as many rounds as edges. -/
def reachable (edges : List (α × α)) (a : α) : Std.ExtTreeSet α :=
  reachableWithin edges edges.length ((∅ : Std.ExtTreeSet α).insert a)

end

/-! ## Automata -/

structure Node where
  function : String
  /-- The target of an edge from a location that it dominates. -/
  loopHead : Bool
  functionEntry : Bool
  /-- Entered by the summary edge of a call. -/
  returnSite : Bool
  /-- Reaching this location violates the property. -/
  error : Bool
deriving DecidableEq, Inhabited

namespace Node

def plain (function : String) : Node := ⟨function, false, false, false, false⟩

def entryOf (function : String) : Node := { plain function with functionEntry := true }

def errorOf (function : String) : Node := { plain function with error := true }

end Node

/-- The statement of an edge. -/
inductive Statement where
  /-- No effect. -/
  | blank
  /-- A variable comes into scope, with an initial value or an arbitrary one. -/
  | declare (target : Expr) (initial : Option Expr)
  | assign (target value : Expr)
  /-- Passes only if the condition evaluates to `truth`. -/
  | assume (condition : Expr) (truth : Bool)
  /-- Binds parameters to arguments, all of them at once. -/
  | call (bindings : List (Expr × Expr))
  /-- Returns to the caller, where the result may be assigned. -/
  | ret (result : Option (Expr × Expr))
  /-- The summary edge from a call to its return site. -/
  | callToReturn
  /-- A statement that has no meaning here, such as inline assembly. -/
  | unknown (description : String)
deriving DecidableEq, Inhabited

structure Edge where
  source : Location
  target : Location
  statement : Statement
deriving DecidableEq, Inhabited

/-- The two edges of a branch: to `yes` if the condition holds, to `no` if it does not. -/
def Edge.branch (source : Location) (condition : Expr) (yes no : Location) : List Edge :=
  [⟨source, yes, .assume condition true⟩, ⟨source, no, .assume condition false⟩]

/-- Whether all edges join locations below `n`, and the entry is one. -/
def Joins (n : Nat) (edges : Array Edge) (entry : Location) : Prop :=
  entry.idx < n ∧ ∀ e ∈ edges, e.source.idx < n ∧ e.target.idx < n

instance (n : Nat) (edges : Array Edge) (entry : Location) : Decidable (Joins n edges entry) :=
  inferInstanceAs (Decidable (_ ∧ _))

structure Automaton where
  nodes : Array Node
  edges : Array Edge
  entry : Location
  joins : Joins nodes.size edges entry

namespace Automaton

/-! ### Marks -/

def endpoints (edges : Array Edge) : List (Location × Location) :=
  edges.toList.map fun e => (e.source, e.target)

/-- What can be reached from `entry` without passing through `d`. -/
def reachableAvoiding (edges : List (Location × Location)) (entry d : Location) :
    Std.ExtTreeSet Location :=
  if entry = d then ∅ else reachable (edges.filter fun (s, t) => s ≠ d && t ≠ d) entry

/-- Whether `l` can be reached from `entry`, but only through `d`. -/
def dominates (edges : List (Location × Location)) (entry d l : Location) : Bool :=
  (reachable edges entry).contains l && !(reachableAvoiding edges entry d).contains l

def isLoopHead (edges : Array Edge) (entry l : Location) : Bool :=
  edges.any fun e => e.target = l && dominates (endpoints edges) entry l e.source

def isReturnSite (edges : Array Edge) (l : Location) : Bool :=
  edges.any fun e => e.target = l && e.statement = .callToReturn

/-- Marks the loop heads and return sites; none if an edge or the entry has no location. -/
def build? (nodes : Array Node) (edges : Array Edge) (entry : Location) : Option Automaton :=
  if h : Joins nodes.size edges entry then
    some {
      nodes := nodes.mapIdx fun i n => { n with
        loopHead := n.loopHead || isLoopHead edges entry ⟨i⟩
        returnSite := n.returnSite || isReturnSite edges ⟨i⟩ }
      edges
      entry
      joins := by simpa using h }
  else none

/-! ### Access -/

variable (a : Automaton)

def node (l : Location) : Except Abort Node :=
  match a.nodes[l.idx]? with
  | some n => .ok n
  | none => .error (.noLocation l)

def edge (e : EdgeId) : Except Abort Edge :=
  match a.edges[e.idx]? with
  | some e => .ok e
  | none => .error (.noEdge e)

/-- The numbers of the edges that satisfy `p`, in ascending order. -/
def edgesWhere (p : Edge → Bool) : List EdgeId :=
  (a.edges.toList.zipIdx.filter fun (e, _) => p e).map fun (_, i) => ⟨i⟩

def leaving (l : Location) : List EdgeId := a.edgesWhere fun e => e.source = l

/-- The edge from `s` to `t`; of several the one added last. -/
def edgeBetween (s t : Location) : Option EdgeId :=
  (a.edgesWhere fun e => e.source = s && e.target = t).getLast?

/-- Whether a call leaves the location. -/
def isCallSite (l : Location) : Bool :=
  a.edges.any fun e => e.source = l && e.statement matches .call _

def text : String :=
  "Cfa(" ++ Nat.repr a.nodes.size ++ " nodes, " ++ Nat.repr a.edges.size ++ " edges)"

end Automaton

end Cegar

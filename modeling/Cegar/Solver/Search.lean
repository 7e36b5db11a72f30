import Cegar.Solver.Query

/-!
# Search

Backtracking over the variables of a query, with propagation of forced values at every step. There
is one assignment, which is changed in place. A search that succeeds leaves a model in it. One that
does not has to take back what it assigned: the variables that were forced, which it notes on a trail,
and the one that it tried. The number of steps is limited, and a search notes when it had to cut off
a domain.
-/

namespace Cegar.Query

/-! ### Forced values -/

/-- The variable that an expression is, if the assignment leaves it open. -/
def open? (a : Assignment) : Expr → Option Var
  | .var v => if a.contains v then none else some v
  | _ => none

/-- The value that a conjunct forces on an open variable: as a literal, or as an equation with a
side that can be evaluated. -/
def forced? (a : Assignment) : Expr → Option (Var × Value)
  | .var v => (open? a (.var v)).map (·, .bool true)
  | .not e => (open? a e).map (·, .bool false)
  | .cmp .eq l r =>
    match open? a l, open? a r with
    | some v, _ => (r.eval a false).map (v, ·)
    | none, some v => (l.eval a false).map (v, ·)
    | none, none => none
  | _ => none

/-! ### Effort and results -/

/-- The number of partial assignments that a search may look at. -/
def stepLimit : Nat := 2000000

/-- What a search has spent so far. -/
structure Effort where
  steps : Nat
  /-- Whether some domain left out values. -/
  cut : Bool

def Effort.zero : Effort := ⟨0, false⟩

structure Result where
  /-- True if there is a model, false if there is none in the domains searched, none if the steps
  ran out. -/
  verdict : Option Bool
  /-- What the search leaves behind. -/
  assignment : Assignment
  effort : Effort

end Cegar.Query

namespace Cegar.Search

open Query

/-! ### Propagation -/

/-- An assignment, and the variables that were assigned on the way to it, the latest first. -/
structure Trail where
  assignment : Assignment
  assigned : List Var

/-- Assigns a variable and notes it. -/
def Trail.assign (t : Trail) (v : Var) (x : Value) : Trail :=
  ⟨t.assignment.insert v x, v :: t.assigned⟩

/-- Takes the values of variables back. -/
def takeBack (vs : List Var) (a : Assignment) : Assignment := vs.foldl (fun a v => a.erase v) a

/-- One pass over the conjuncts; `changed` tells whether a value was forced. None if a conjunct is
false; what was forced before it stays assigned. -/
def pass : List Expr → (changed : Bool) → Trail → Option Bool × Trail
  | [], changed, t => (some changed, t)
  | c :: cs, changed, t =>
    match c.eval t.assignment false with
    | some (.bool false) => (none, t)
    | some _ => pass cs changed t
    | none =>
      match forced? t.assignment c with
      | some (v, x) => pass cs true (t.assign v x)
      | none => pass cs changed t

/-- Passes until nothing changes, at most `n`. False if a conjunct is. -/
def propagateWithin (cs : List Expr) : Nat → Trail → Bool × Trail
  | 0, t => (true, t)
  | n + 1, t =>
    match pass cs false t with
    | (none, t) => (false, t)
    | (some true, t) => propagateWithin cs n t
    | (some false, t) => (true, t)

/-- Assigns what the conjuncts force. Every pass but the last assigns a variable, so one pass more
than there are variables is enough. -/
def propagate (q : Query) (a : Assignment) : Bool × Trail :=
  propagateWithin q.conjuncts (q.vars.length + 1) ⟨a, []⟩

/-! ### Backtracking -/

/-- One step: propagates, then goes on with `next`. Takes back what was propagated if that leads to
no model. -/
def step (q : Query) (next : Assignment → Effort → Except Abort Result)
    (a : Assignment) (e : Effort) : Except Abort Result :=
  let e := { e with steps := e.steps + 1 }
  if stepLimit < e.steps then .ok ⟨none, a, e⟩
  else match propagate q a with
    | (false, t) => .ok ⟨some false, takeBack t.assigned t.assignment, e⟩
    | (true, t) =>
      match next t.assignment e with
      | .error f => .error f
      | .ok r =>
        .ok (if r.verdict = some true then r
          else { r with assignment := takeBack t.assigned r.assignment })

/-- Tries `x` with the `n` values of a domain from position `i` on, each in the place of the one
before, until one leads to a model or the steps run out. Takes back the last one if there is no
model. -/
def tryFrom (x : Var) (d : Domain) (attempt : Assignment → Effort → Except Abort Result) :
    (n i : Nat) → Assignment → Effort → Except Abort Result
  | 0, _, a, e => .ok ⟨some false, a.erase x, e⟩
  | n + 1, i, a, e =>
    match attempt (a.insert x (d.get i)) e with
    | .error f => .error f
    | .ok r =>
      match r.verdict with
      | some true => .ok r
      | some false => tryFrom x d attempt n (i + 1) r.assignment r.effort
      | none => .ok { r with assignment := r.assignment.erase x }

/-- Settles the open ones among the given variables in turn. -/
def settle (q : Query) (range : Int128) : List Var → Assignment → Effort → Except Abort Result
  | [], a, e => .ok ⟨some true, a, e⟩
  | x :: xs, a, e =>
    if a.contains x then settle q range xs a e
    else match q.domain range x a with
      | .error f => .error f
      | .ok d =>
        tryFrom x d (step q (settle q range xs)) d.size 0 a { e with cut := e.cut || d.isCut }

end Cegar.Search

namespace Cegar.Query

/-- Searches for a model that extends `a`. -/
def search (q : Query) (range : Int128) (a : Assignment) (e : Effort) : Except Abort Result :=
  Search.step q (Search.settle q range q.vars) a e

end Cegar.Query

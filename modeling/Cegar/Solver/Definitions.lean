import Cegar.Expr.Atoms

/-!
# Elimination of definitions

A conjunct `v == t` where `v` does not occur in `t` defines `v`: it is removed and `t` takes the
place of `v` everywhere else. What is left has no definitions, and the values of the defined
variables follow from any of its models.
-/

namespace Cegar

/-- A variable and the term that gives its value. -/
structure Definition where
  var : Var
  term : Expr

namespace Definition

/-- `v := t`, if `l` is a variable that does not occur in `r`. -/
def ofSides? : Expr → Expr → Option Definition
  | .var v, t => if t.vars.contains v then none else some ⟨v, t⟩
  | _, _ => none

/-- The definition that a conjunct is, the left side tried first. -/
def ofConjunct? : Expr → Option Definition
  | .cmp .eq l r => (ofSides? l r).or (ofSides? r l)
  | _ => none

/-- The first conjunct that is a definition, and the other conjuncts. -/
def split? : List Expr → Option (Definition × List Expr)
  | [] => none
  | c :: cs =>
    match ofConjunct? c with
    | some d => some (d, cs)
    | none => (split? cs).map fun (d, rest) => (d, c :: rest)

/-- Replaces the defined variable and takes apart the conjunctions that appear. -/
def applyTo (d : Definition) (cs : List Expr) : List Expr :=
  cs.flatMap fun c => (c.subst (.var d.var) d.term).conjuncts

/-- At most `n` rounds of elimination. -/
def eliminateWithin : Nat → List Expr → List Expr × List Definition
  | 0, cs => (cs, [])
  | n + 1, cs =>
    match split? cs with
    | none => (cs, [])
    | some (d, rest) =>
      let (left, ds) := eliminateWithin n (d.applyTo rest)
      (left, d :: ds)

/-- The conjuncts that are left, and the definitions in order of elimination. Each round removes a
variable for good, so there are at most as many rounds as variables. -/
def eliminate (cs : List Expr) : List Expr × List Definition :=
  eliminateWithin (Expr.varsOfList cs).size cs

end Definition

end Cegar

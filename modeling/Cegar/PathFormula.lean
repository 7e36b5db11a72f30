import Cegar.Ssa
import Cegar.Expr.Text

/-!
# Path formulas

A formula over indexed variables for the transitions since some point of a path, with the
numbering of writes that holds after them.
-/

namespace Cegar

structure PathFormula where
  formula : Expr
  ssa : SsaMap
deriving DecidableEq, Inhabited

namespace PathFormula

/-- No transition yet: the formula true. -/
def empty (ssa : SsaMap) : PathFormula := ⟨.bool true, ssa⟩

/-- Conjoins `e`, which is over indexed variables already, and moves on to `ssa`. -/
def conjoin (p : PathFormula) (e : Expr) (ssa : SsaMap) : PathFormula := ⟨p.formula.and e, ssa⟩

/-- The equation that carries the value of a variable from write `low` on to write `high`. -/
def carry (name : String) (ty : Ty) (high low : UInt32) : Expr :=
  .eq (.var ⟨name, ty, some high⟩) (.var ⟨name, ty, some low⟩)

/-- For variables written more often in `q` than in `p`: `p`'s value is carried on. -/
def carriesTo (p q : PathFormula) : List Expr :=
  q.ssa.writes.toList.filterMap fun (name, w) =>
    if p.ssa.index name < w.index then some (carry name w.ty w.index (p.ssa.index name)) else none

/-- For variables written more often in `p` than in `q`: `q`'s value is carried on. Those that `q`
has an entry for come first. -/
def carriesFrom (p q : PathFormula) : List Expr :=
  (q.ssa.writes.toList.filterMap fun (name, w) =>
    if w.index < p.ssa.index name then some (carry name w.ty (p.ssa.index name) w.index) else none)
  ++ p.ssa.writes.toList.filterMap fun (name, w) =>
    if !q.ssa.writes.contains name && 0 < w.index then some (carry name w.ty w.index 0) else none

/-- The disjunction over a common numbering: where the two differ the larger index is used, and
the side with the smaller one carries its value on to it. -/
def or (p q : PathFormula) : PathFormula :=
  ⟨(Expr.conj (p.formula :: carriesTo p q)).or (Expr.conj (q.formula :: carriesFrom p q)),
    p.ssa.merge q.ssa⟩

/-- The order in which path formulas are looked up. The numbering, which tells most of them apart,
is compared before the formula, which may be large. -/
instance : Ord PathFormula := ⟨compareLex (compareOn (·.ssa.versions)) (compareOn formula)⟩

instance : Std.TransOrd PathFormula :=
  inferInstanceAs (Std.TransCmp (compareLex (compareOn (·.ssa.versions)) (compareOn formula)))

theorem compare_def (p q : PathFormula) :
    compare p q = (compare p.ssa.versions q.ssa.versions).then (compare p.formula q.formula) := rfl

instance : Std.LawfulEqOrd PathFormula where
  eq_of_compare {p q} h := by
    rw [compare_def, Ordering.then_eq_eq] at h
    cases p; cases q
    cases SsaMap.versions_inj (Std.LawfulEqOrd.eq_of_compare h.1)
    cases Std.LawfulEqOrd.eq_of_compare h.2
    rfl

def text (p : PathFormula) : String := p.formula.text ++ " " ++ p.ssa.text

end PathFormula

end Cegar

import Cegar.Expr.Order
import Std.Data.ExtTreeSet

/-!
# Variables of an expression

The set of variables that occur, renaming of all of them at once, and replacement of a
subexpression.
-/

namespace Cegar

abbrev VarSet := Std.ExtTreeSet Var

namespace Expr

/-- Adds the variables of an expression to a set. -/
def addVars : Expr → VarSet → VarSet
  | .bool _, s | .num _, s => s
  | .var v, s => s.insert v
  | .arith _ l r, s | .cmp _ l r, s | .logic _ l r, s => r.addVars (l.addVars s)
  | .neg e, s | .not e, s => e.addVars s

/-- The variables that occur, each with the index it occurs with. -/
def vars (e : Expr) : VarSet := e.addVars ∅

/-- The variables of a list of expressions. -/
def varsOfList (es : List Expr) : VarSet := es.foldl (fun s e => addVars e s) ∅

/-- Renames every variable. -/
def mapVars (f : Var → Var) : Expr → Expr
  | .bool b => .bool b
  | .num n => .num n
  | .var v => .var (f v)
  | .arith op l r => .arith op (l.mapVars f) (r.mapVars f)
  | .neg e => .neg (e.mapVars f)
  | .cmp op l r => .cmp op (l.mapVars f) (r.mapVars f)
  | .logic op l r => .logic op (l.mapVars f) (r.mapVars f)
  | .not e => .not (e.mapVars f)

/-- The expression with all indices dropped. -/
def unindexed (e : Expr) : Expr := e.mapVars Var.unindexed

/-- Replaces every outermost occurrence of `target`. -/
def subst (e target replacement : Expr) : Expr :=
  if e = target then replacement
  else match e with
    | .bool b => .bool b
    | .num n => .num n
    | .var v => .var v
    | .arith op l r => .arith op (l.subst target replacement) (r.subst target replacement)
    | .neg e => .neg (e.subst target replacement)
    | .cmp op l r => .cmp op (l.subst target replacement) (r.subst target replacement)
    | .logic op l r => .logic op (l.subst target replacement) (r.subst target replacement)
    | .not e => .not (e.subst target replacement)

/-! ### Membership in `vars` -/

/-- The variables that are added to a set. -/
theorem mem_addVars {v : Var} {e : Expr} {s : VarSet} :
    v ∈ e.addVars s ↔ v ∈ e.vars ∨ v ∈ s := by
  unfold vars
  induction e generalizing s with
  | bool | num => simp [addVars]
  | var w =>
    show v ∈ s.insert w ↔ v ∈ (∅ : VarSet).insert w ∨ v ∈ s
    simp
  | arith _ l r ihl ihr | cmp _ l r ihl ihr | logic _ l r ihl ihr =>
    show v ∈ r.addVars (l.addVars s) ↔ v ∈ r.addVars (l.addVars ∅) ∨ v ∈ s
    rw [ihr, ihl, ihr (s := l.addVars ∅)]
    simp [or_assoc, or_comm]
  | neg e ih | not e ih => exact ih

@[simp] theorem vars_bool (b : Bool) : (Expr.bool b).vars = ∅ := rfl

@[simp] theorem vars_num (n : Int128) : (Expr.num n).vars = ∅ := rfl

@[simp] theorem vars_neg (e : Expr) : (Expr.neg e).vars = e.vars := rfl

@[simp] theorem vars_not (e : Expr) : (Expr.not e).vars = e.vars := rfl

@[simp] theorem mem_vars_var {v w : Var} : v ∈ (Expr.var w).vars ↔ v = w := by
  have hinsert : v ∈ (∅ : VarSet).insert w ↔ w = v := by simp
  exact hinsert.trans eq_comm

@[simp] theorem mem_vars_arith {v : Var} {op : ArithOp} {l r : Expr} :
    v ∈ (Expr.arith op l r).vars ↔ v ∈ l.vars ∨ v ∈ r.vars :=
  (mem_addVars (e := r) (s := l.vars)).trans or_comm

@[simp] theorem mem_vars_cmp {v : Var} {op : CmpOp} {l r : Expr} :
    v ∈ (Expr.cmp op l r).vars ↔ v ∈ l.vars ∨ v ∈ r.vars :=
  (mem_addVars (e := r) (s := l.vars)).trans or_comm

@[simp] theorem mem_vars_logic {v : Var} {op : LogicOp} {l r : Expr} :
    v ∈ (Expr.logic op l r).vars ↔ v ∈ l.vars ∨ v ∈ r.vars :=
  (mem_addVars (e := r) (s := l.vars)).trans or_comm

/-- The variables of some expression of the list. -/
theorem mem_varsOfList {v : Var} {es : List Expr} :
    v ∈ varsOfList es ↔ ∃ e ∈ es, v ∈ e.vars := by
  have hfold (s : VarSet) :
      v ∈ es.foldl (fun s e => addVars e s) s ↔ v ∈ s ∨ ∃ e ∈ es, v ∈ e.vars := by
    induction es generalizing s with
    | nil => simp
    | cons e es ih => rw [List.foldl_cons, ih, mem_addVars]; simp [or_assoc, or_left_comm]
  simp [varsOfList, hfold]

end Expr

end Cegar

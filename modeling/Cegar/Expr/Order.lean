import Cegar.Expr.Basic

/-!
# The order of expressions

Sets and maps of expressions are listed in one fixed order: first by the outermost operator, then
by the operands from left to right. Variables compare by name, then type, then index, and a
variable without an index comes before its indexed versions. Names compare by code points, which
is also the order of their UTF-8 bytes.
-/

namespace Cegar

/-! ### Variables -/

theorem Ty.ctorIdx_inj {a b : Ty} (h : a.ctorIdx = b.ctorIdx) : a = b := by
  cases a <;> cases b <;> first | rfl | cases h

namespace Var

instance : Ord Var :=
  ⟨compareLex (compareOn name) (compareLex (compareOn (·.ty.ctorIdx)) (compareOn index))⟩

instance : Std.TransOrd Var :=
  inferInstanceAs (Std.TransCmp
    (compareLex (compareOn name) (compareLex (compareOn (·.ty.ctorIdx)) (compareOn index))))

theorem compare_def (a b : Var) :
    compare a b =
      (compare a.name b.name).then
        ((compare a.ty.ctorIdx b.ty.ctorIdx).then (compare a.index b.index)) := rfl

instance : Std.LawfulEqOrd Var where
  eq_of_compare {a b} h := by
    rw [compare_def, Ordering.then_eq_eq, Ordering.then_eq_eq] at h
    obtain ⟨hname, hty, hindex⟩ := h
    cases a; cases b
    rw [Std.LawfulEqOrd.compare_eq_iff_eq] at hname hty hindex
    cases hname; cases hindex; cases Ty.ctorIdx_inj hty; rfl

end Var

/-! ### Expressions -/

theorem ArithOp.ctorIdx_inj {a b : ArithOp} (h : a.ctorIdx = b.ctorIdx) : a = b := by
  cases a <;> cases b <;> first | rfl | cases h

theorem CmpOp.ctorIdx_inj {a b : CmpOp} (h : a.ctorIdx = b.ctorIdx) : a = b := by
  cases a <;> cases b <;> first | rfl | cases h

theorem LogicOp.ctorIdx_inj {a b : LogicOp} (h : a.ctorIdx = b.ctorIdx) : a = b := by
  cases a <;> cases b <;> first | rfl | cases h

namespace Expr

/-- Operators in the order in which they are declared, and true before false; then the operands
from left to right. -/
protected def compare : Expr → Expr → Ordering
  | .bool a, .bool b => compare (!a).toNat (!b).toNat
  | .num a, .num b => compare a b
  | .var a, .var b => compare a b
  | .arith o l r, .arith o' l' r' =>
    (compare o.ctorIdx o'.ctorIdx).then ((l.compare l').then (r.compare r'))
  | .neg a, .neg b => a.compare b
  | .cmp o l r, .cmp o' l' r' =>
    (compare o.ctorIdx o'.ctorIdx).then ((l.compare l').then (r.compare r'))
  | .logic o l r, .logic o' l' r' =>
    (compare o.ctorIdx o'.ctorIdx).then ((l.compare l').then (r.compare r'))
  | .not a, .not b => a.compare b
  | a, b => compare a.ctorIdx b.ctorIdx

instance : Ord Expr := ⟨Expr.compare⟩

@[simp] theorem compare_arith (o o' : ArithOp) (l l' r r' : Expr) :
    (arith o l r).compare (arith o' l' r') =
      (compare o.ctorIdx o'.ctorIdx).then ((l.compare l').then (r.compare r')) := rfl

@[simp] theorem compare_cmp (o o' : CmpOp) (l l' r r' : Expr) :
    (cmp o l r).compare (cmp o' l' r') =
      (compare o.ctorIdx o'.ctorIdx).then ((l.compare l').then (r.compare r')) := rfl

@[simp] theorem compare_logic (o o' : LogicOp) (l l' r r' : Expr) :
    (logic o l r).compare (logic o' l' r') =
      (compare o.ctorIdx o'.ctorIdx).then ((l.compare l').then (r.compare r')) := rfl

/-- Expressions with different outermost operators are ordered by these. -/
theorem compare_of_ctorIdx_ne {a b : Expr} (h : a.ctorIdx ≠ b.ctorIdx) :
    a.compare b = compare a.ctorIdx b.ctorIdx := by
  cases a <;> cases b <;> first | rfl | exact absurd rfl h

theorem compare_self (a : Expr) : a.compare a = .eq := by
  induction a with
  | bool | num | var => exact Std.ReflOrd.compare_self
  | arith o l r ihl ihr | cmp o l r ihl ihr | logic o l r ihl ihr => simp [ihl, ihr]
  | neg e ih | not e ih => exact ih

/-- Equal in the order means with the same outermost operator. -/
theorem ctorIdx_eq_of_compare {a b : Expr} (h : a.compare b = .eq) : a.ctorIdx = b.ctorIdx := by
  refine Decidable.byContradiction fun hne => hne ?_
  rwa [compare_of_ctorIdx_ne hne, Nat.compare_eq_eq] at h

/-- Equal in the order means equal. -/
theorem eq_of_compare {a b : Expr} (h : a.compare b = .eq) : a = b := by
  induction a generalizing b <;> cases b
  case bool.bool x y => cases x <;> cases y <;> first | rfl | cases h
  case num.num | var.var => rw [Std.LawfulEqOrd.eq_of_compare h]
  case neg.neg ih _ | not.not ih _ => rw [ih h]
  case arith.arith ihl ihr _ _ _ =>
    rw [compare_arith, Ordering.then_eq_eq, Ordering.then_eq_eq, Nat.compare_eq_eq] at h
    rw [ArithOp.ctorIdx_inj h.1, ihl h.2.1, ihr h.2.2]
  case cmp.cmp ihl ihr _ _ _ =>
    rw [compare_cmp, Ordering.then_eq_eq, Ordering.then_eq_eq, Nat.compare_eq_eq] at h
    rw [CmpOp.ctorIdx_inj h.1, ihl h.2.1, ihr h.2.2]
  case logic.logic ihl ihr _ _ _ =>
    rw [compare_logic, Ordering.then_eq_eq, Ordering.then_eq_eq, Nat.compare_eq_eq] at h
    rw [LogicOp.ctorIdx_inj h.1, ihl h.2.1, ihr h.2.2]
  all_goals exact absurd (ctorIdx_eq_of_compare h) nofun

theorem compare_eq_iff {a b : Expr} : a.compare b = .eq ↔ a = b :=
  ⟨eq_of_compare, fun h => h ▸ compare_self a⟩

/-- The order of the outermost operators comes first. -/
theorem ctorIdx_le_of_compare_lt {a b : Expr} (h : a.compare b = .lt) :
    a.ctorIdx ≤ b.ctorIdx := by
  by_cases hne : a.ctorIdx = b.ctorIdx
  · exact Nat.le_of_eq hne
  · rw [compare_of_ctorIdx_ne hne, Nat.compare_eq_lt] at h
    exact Nat.le_of_lt h

theorem swap_compare_of_ctorIdx_ne {a b : Expr} (h : a.ctorIdx ≠ b.ctorIdx) :
    (a.compare b).swap = b.compare a := by
  rw [compare_of_ctorIdx_ne h, compare_of_ctorIdx_ne h.symm]
  exact Std.OrientedOrd.eq_swap.symm

/-- Comparing the other way round turns the result around. -/
theorem swap_compare (a b : Expr) : (a.compare b).swap = b.compare a := by
  induction a generalizing b <;> cases b
  case bool.bool | num.num | var.var => exact Std.OrientedOrd.eq_swap.symm
  case neg.neg ih _ | not.not ih _ => exact ih _
  case arith.arith ihl ihr _ _ _ | cmp.cmp ihl ihr _ _ _ | logic.logic ihl ihr _ _ _ =>
    simp only [compare_arith, compare_cmp, compare_logic, Ordering.swap_then, ihl, ihr]
    rw [← Std.OrientedOrd.eq_swap]
  all_goals exact swap_compare_of_ctorIdx_ne nofun

/-- Transitivity, where some of the outermost operators differ. -/
theorem compare_lt_trans_of_ctorIdx_ne {a b c : Expr}
    (hab : a.compare b = .lt) (hbc : b.compare c = .lt)
    (h : a.ctorIdx ≠ b.ctorIdx ∨ b.ctorIdx ≠ c.ctorIdx) : a.compare c = .lt := by
  have := ctorIdx_le_of_compare_lt hab
  have := ctorIdx_le_of_compare_lt hbc
  have hne : a.ctorIdx ≠ c.ctorIdx := by omega
  rw [compare_of_ctorIdx_ne hne, Nat.compare_eq_lt]
  omega

/-- Lexicographic steps compose: the operator decides, then the left operand, then the right. -/
theorem then_lt_trans {m n k : Nat} {l l' l'' r r' r'' : Expr}
    (ihl : l.compare l' = .lt → l'.compare l'' = .lt → l.compare l'' = .lt)
    (ihr : r.compare r' = .lt → r'.compare r'' = .lt → r.compare r'' = .lt)
    (h : (compare m n).then ((l.compare l').then (r.compare r')) = .lt)
    (h' : (compare n k).then ((l'.compare l'').then (r'.compare r'')) = .lt) :
    (compare m k).then ((l.compare l'').then (r.compare r'')) = .lt := by
  simp only [Ordering.then_eq_lt, Nat.compare_eq_lt, Nat.compare_eq_eq, compare_eq_iff] at *
  rcases h with h | ⟨rfl, h | ⟨rfl, h⟩⟩ <;> rcases h' with h' | ⟨rfl, h' | ⟨rfl, h'⟩⟩
  case inl.inl => exact .inl (Nat.lt_trans h h')
  case inr.inl.inr.inl => exact .inr ⟨rfl, .inl (ihl h h')⟩
  case inr.inr.inr.inr => exact .inr ⟨rfl, .inr ⟨rfl, ihr h h'⟩⟩
  all_goals simp_all

/-- The order is transitive. -/
theorem compare_lt_trans {a b c : Expr} (hab : a.compare b = .lt) (hbc : b.compare c = .lt) :
    a.compare c = .lt := by
  induction a generalizing b c <;> cases b
  case bool.bool =>
    cases c
    case bool =>
      exact Nat.compare_eq_lt.2 (Nat.lt_trans (Nat.compare_eq_lt.1 hab) (Nat.compare_eq_lt.1 hbc))
    all_goals exact compare_lt_trans_of_ctorIdx_ne hab hbc (.inr nofun)
  case num.num a b =>
    cases c
    case num c =>
      show compare a c = .lt
      exact Std.TransCmp.lt_trans hab hbc
    all_goals exact compare_lt_trans_of_ctorIdx_ne hab hbc (.inr nofun)
  case var.var a b =>
    cases c
    case var c =>
      show compare a c = .lt
      exact Std.TransCmp.lt_trans hab hbc
    all_goals exact compare_lt_trans_of_ctorIdx_ne hab hbc (.inr nofun)
  case neg.neg ih _ =>
    cases c
    case neg => exact ih hab hbc
    all_goals exact compare_lt_trans_of_ctorIdx_ne hab hbc (.inr nofun)
  case not.not ih _ =>
    cases c
    case not => exact ih hab hbc
    all_goals exact compare_lt_trans_of_ctorIdx_ne hab hbc (.inr nofun)
  case arith.arith ihl ihr _ _ _ =>
    cases c
    case arith => exact then_lt_trans ihl ihr hab hbc
    all_goals exact compare_lt_trans_of_ctorIdx_ne hab hbc (.inr nofun)
  case cmp.cmp ihl ihr _ _ _ =>
    cases c
    case cmp => exact then_lt_trans ihl ihr hab hbc
    all_goals exact compare_lt_trans_of_ctorIdx_ne hab hbc (.inr nofun)
  case logic.logic ihl ihr _ _ _ =>
    cases c
    case logic => exact then_lt_trans ihl ihr hab hbc
    all_goals exact compare_lt_trans_of_ctorIdx_ne hab hbc (.inr nofun)
  all_goals exact compare_lt_trans_of_ctorIdx_ne hab hbc (.inl nofun)

instance : Std.TransOrd Expr where
  eq_swap {a b} := (swap_compare b a).symm
  isLE_trans {a b c} hab hbc := by
    rw [Ordering.isLE_iff_eq_lt_or_eq_eq] at hab hbc
    rcases hab with hab | hab
    · rcases hbc with hbc | hbc
      · exact Ordering.isLE_iff_eq_lt_or_eq_eq.2 (.inl (compare_lt_trans hab hbc))
      · cases eq_of_compare hbc
        exact Ordering.isLE_iff_eq_lt_or_eq_eq.2 (.inl hab)
    · cases eq_of_compare hab
      exact Ordering.isLE_iff_eq_lt_or_eq_eq.2 hbc

instance : Std.LawfulEqOrd Expr where
  eq_of_compare := eq_of_compare

end Expr

end Cegar

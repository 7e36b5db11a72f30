import Cegar.Proofs.WellSorted

/-!
# Evaluation under a growing assignment

An assignment may leave variables open, and evaluation finds out what it can: one operand may decide
a connective alone. What it has found out is never taken back, however the open variables are
assigned later on, and also if they count as zero and false in the end. This does not depend on
types. Once all variables of a well-sorted expression are assigned, nothing is left to find out.

* **`LogicOp.apply_mono`**: connectives do not take back what they know;
* **`Expr.eval_mono`**: neither does evaluation, whatever more is known about the variables;
* **`Expr.eval_assigned`**: with all variables assigned a well-sorted expression has a value of its
  type;
* **`Expr.eval_persists`**: the three ways in which evaluation goes on.
-/

namespace Cegar

namespace Assignment

variable {P : Var → Prop} {a b c : Assignment} {v : Var}

/-- What `a` assigns has the same value in `b`, which may assign more. -/
def Extends (b a : Assignment) : Prop := ∀ (v : Var) (x : Value), a[v]? = some x → b[v]? = some x

theorem Extends.refl (a : Assignment) : a.Extends a := fun _ _ h => h

theorem Extends.trans (h : Extends c b) (h' : Extends b a) : Extends c a :=
  fun v x hx => h v x (h' v x hx)

/-- An open variable may be assigned. -/
theorem extends_insert (hopen : a.contains v = false) (x : Value) : Extends (a.insert v x) a := by
  intro w y hw
  rw [Std.ExtTreeMap.getElem?_insert]
  split
  · next heq =>
    cases Std.LawfulEqOrd.compare_eq_iff_eq.1 heq
    rw [Std.ExtTreeMap.contains_eq_isSome_getElem?, hw] at hopen
    cases hopen
  · exact hw

/-- What is assigned stays assigned. -/
theorem Extends.contains (h : b.Extends a) (hv : a.contains v = true) : b.contains v = true := by
  rw [Std.ExtTreeMap.contains_eq_isSome_getElem?] at hv ⊢
  obtain ⟨x, hx⟩ := Option.isSome_iff_exists.1 hv
  rw [h v x hx]
  rfl

/-- The part of an assignment that keeps to the types. -/
def typedPart (a : Assignment) : Assignment := a.filter fun v x => x.ty = v.ty

theorem typed_typedPart (a : Assignment) : a.typedPart.Typed := by
  intro v x h
  rw [typedPart, Std.ExtTreeMap.getElem?_filter'] at h
  exact of_decide_eq_true (Option.filter_eq_some_iff.1 h).2

/-- Variables of their types are kept. -/
theorem TypedOn.getElem?_typedPart (h : a.TypedOn P) (hv : P v) : a.typedPart[v]? = a[v]? := by
  rw [typedPart, Std.ExtTreeMap.getElem?_filter']
  cases hx : a[v]? with
  | none => rfl
  | some x => exact Option.filter_eq_some_iff.2 ⟨rfl, decide_eq_true (h v hv x hx)⟩

end Assignment

/-- A connective has a result if one operand decides it alone, or if both operands leave it open. -/
theorem LogicOp.apply_eq_some {op : LogicOp} {x y : Option Bool} {b : Bool} :
    op.apply x y = some b ↔
      ((x = some !op.unit ∨ y = some !op.unit) ∧ b = !op.unit) ∨
        (x = some op.unit ∧ y = some op.unit ∧ b = op.unit) := by
  cases op <;> rcases x with _ | ⟨⟨⟩⟩ <;> rcases y with _ | ⟨⟨⟩⟩ <;> cases b <;> decide

/-- A connective that is known from some operands stays so when more are known. -/
theorem LogicOp.apply_mono {op : LogicOp} {x x' y y' : Option Bool}
    (hx : ∀ b, x = some b → x' = some b) (hy : ∀ b, y = some b → y' = some b) {b : Bool}
    (h : op.apply x y = some b) : op.apply x' y' = some b := by
  rw [apply_eq_some] at h ⊢
  rcases h with ⟨hdecided, rfl⟩ | ⟨hunit, hunit', rfl⟩
  · exact .inl ⟨hdecided.imp (hx _) (hy _), rfl⟩
  · exact .inr ⟨hx _ hunit, hy _ hunit', rfl⟩

namespace Expr

variable {P : Var → Prop} {a b : Assignment} {complete complete' : Bool} {e : Expr} {x : Value}

/-- The value depends on what is known about the variables that occur. -/
theorem eval_congr_vars
    (h : ∀ v ∈ e.vars, (Expr.var v).eval a complete = (Expr.var v).eval b complete') :
    e.eval a complete = e.eval b complete' := by
  induction e with
  | bool | num => rfl
  | var v => exact h v (by simp)
  | arith op l r ihl ihr | cmp op l r ihl ihr | logic op l r ihl ihr =>
    simp only [eval, ihl fun v hv => h v (by simp [hv]), ihr fun v hv => h v (by simp [hv])]
  | neg e ih | not e ih => simp only [eval, ih fun v hv => h v (by simpa using hv)]

/-- What is known stays known when more is known about the variables. -/
theorem eval_mono
    (hvars : ∀ v ∈ e.vars, ∀ x, (Expr.var v).eval a complete = some x →
      (Expr.var v).eval b complete' = some x)
    (h : e.eval a complete = some x) : e.eval b complete' = some x := by
  induction e generalizing x with
  | bool | num => exact h
  | var v => exact hvars v (by simp) x h
  | arith op l r ihl ihr =>
    obtain ⟨m, n, hl, hr, hx⟩ := eval_arith_eq_some.1 h
    exact eval_arith_eq_some.2 ⟨m, n, ihl (fun v hv => hvars v (by simp [hv])) hl,
      ihr (fun v hv => hvars v (by simp [hv])) hr, hx⟩
  | neg e ih =>
    obtain ⟨n, he, hx⟩ := eval_neg_eq_some.1 h
    exact eval_neg_eq_some.2 ⟨n, ih (fun v hv => hvars v (by simpa using hv)) he, hx⟩
  | cmp op l r ihl ihr =>
    obtain ⟨y, z, c, hl, hr, hx⟩ := eval_cmp_eq_some.1 h
    exact eval_cmp_eq_some.2 ⟨y, z, c, ihl (fun v hv => hvars v (by simp [hv])) hl,
      ihr (fun v hv => hvars v (by simp [hv])) hr, hx⟩
  | logic op l r ihl ihr =>
    obtain ⟨c, hc, rfl⟩ := Option.map_eq_some_iff.1 h
    have operand {d : Expr} (ih : ∀ {x}, d.eval a complete = some x → d.eval b complete' = some x) :
        ∀ c, (d.eval a complete).bind Datum.bool? = some c →
          (d.eval b complete').bind Datum.bool? = some c := by
      intro c hc
      obtain ⟨y, hy, hyc⟩ := Option.bind_eq_some_iff.1 hc
      rw [ih hy]
      exact hyc
    rw [eval, LogicOp.apply_mono (operand (ihl fun v hv => hvars v (by simp [hv])))
      (operand (ihr fun v hv => hvars v (by simp [hv]))) hc]
    rfl
  | not e ih =>
    obtain ⟨c, he, hx⟩ := eval_not_eq_some.1 h
    exact eval_not_eq_some.2 ⟨c, ih (fun v hv => hvars v (by simpa using hv)) he, hx⟩

theorem eval_var_eq_some {v : Var} : (Expr.var v).eval a false = some x ↔ a[v]? = some x := by
  simp only [eval]
  cases a[v]? <;> simp

/-- More assignments change nothing that is known. -/
theorem eval_of_extends (hab : b.Extends a) (h : e.eval a false = some x) :
    e.eval b false = some x :=
  eval_mono (fun v _ y hy => eval_var_eq_some.2 (hab v y (eval_var_eq_some.1 hy))) h

/-- Counting open variables as zero and false does not change what is known without that. -/
theorem eval_true_of_eval (h : e.eval a false = some x) : e.eval a true = some x := by
  refine eval_mono (fun v _ y hy => ?_) h
  rw [eval, eval_var_eq_some.1 hy]

/-! ## Types -/

/-- Evaluation looks at the variables that occur only. -/
theorem eval_typedPart (ha : a.TypedOn P) (he : ∀ v ∈ e.vars, P v) :
    e.eval a.typedPart complete = e.eval a complete :=
  eval_congr_vars fun v hv => by simp only [eval, ha.getElem?_typedPart (he v hv)]

/-- What is known about an expression has its type. -/
theorem ty_of_eval (ha : a.TypedOn P) (hs : e.WellSorted) (he : ∀ v ∈ e.vars, P v)
    (h : e.eval a complete = some x) : x.ty = e.ty := by
  have hx : e.eval a true = some x := by
    cases complete with
    | true => exact h
    | false => exact eval_true_of_eval h
  rw [← eval_typedPart ha he, eval_complete a.typed_typedPart hs] at hx
  cases hx
  exact ty_valueIn _ e

/-- Once all variables are assigned nothing is left to find out. -/
theorem eval_of_assigned (h : ∀ v ∈ e.vars, a.contains v) : e.eval a false = e.eval a true := by
  refine eval_congr_vars fun v hv => ?_
  have hassigned := h v hv
  rw [Std.ExtTreeMap.contains_eq_isSome_getElem?] at hassigned
  obtain ⟨x, hx⟩ := Option.isSome_iff_exists.1 hassigned
  simp only [eval, hx]

/-- A well-sorted expression whose variables are all assigned has a value of its type. -/
theorem eval_assigned (hs : e.WellSorted) (ha : a.TypedOn (· ∈ e.vars))
    (hall : ∀ v ∈ e.vars, a.contains v) : ∃ x, e.eval a false = some x ∧ x.ty = e.ty := by
  have hvalue := eval_complete a.typed_typedPart hs
  rw [eval_typedPart ha fun v hv => hv, ← eval_of_assigned hall] at hvalue
  exact ⟨_, hvalue, ty_valueIn _ e⟩

/-- What is known under an assignment is known under every assignment that extends it, and it is what
complete evaluation finds. With all variables assigned values of their types, a well-sorted
expression is known, and has its type. -/
theorem eval_persists (hab : b.Extends a) :
    (∀ x, e.eval a false = some x → e.eval b false = some x ∧ e.eval a true = some x) ∧
    (e.WellSorted → (∀ v ∈ e.vars, ∃ x, a[v]? = some x ∧ x.ty = v.ty) →
      ∃ x, e.eval a false = some x ∧ x.ty = e.ty) := by
  refine ⟨fun x hx => ⟨eval_of_extends hab hx, eval_true_of_eval hx⟩, fun hs hall => ?_⟩
  refine eval_assigned hs (fun v hv x hx => ?_) fun v hv => ?_
  · obtain ⟨y, hy, hty⟩ := hall v hv
    cases hx.symm.trans hy
    exact hty
  · obtain ⟨y, hy, -⟩ := hall v hv
    rw [Std.ExtTreeMap.contains_eq_isSome_getElem?, hy]
    rfl

/-- `x == 1` for an integer `x`. -/
def isOne : Expr := .cmp .eq varX (.num 1)

/-- `c < 3 || x == 1` for a truth value `c`, of which the first operand never has a value. -/
def isOneLoosely : Expr := .logic .or (.cmp .lt varC (.num 3)) isOne

/-- Only `x` is assigned. -/
def oneAssigned : Assignment := (∅ : Assignment).insert varX (.int 1)

/-- Both `x` and `c` are assigned. -/
def bothAssigned : Assignment := oneAssigned.insert varC (.bool false)

theorem eval_persists_isOne :
    (¬ isOneLoosely.WellSorted ∧ isOneLoosely.eval bothAssigned false = some (.bool true) ∧
      isOneLoosely.eval oneAssigned true = some (.bool true)) ∧
    isOne.WellSorted ∧ ∃ x, isOne.eval oneAssigned false = some x ∧ x.ty = .bool := by
  have hextends : bothAssigned.Extends oneAssigned := Assignment.extends_insert (by decide) _
  refine ⟨⟨by decide, (eval_persists (e := isOneLoosely) hextends).1 _ (by decide)⟩, by decide, ?_⟩
  refine (eval_persists (e := isOne) hextends).2 (by decide) fun v hv => ?_
  have hx : v = varX := by simpa [isOne] using hv
  subst hx
  exact ⟨.int 1, by decide, rfl⟩

end Expr

end Cegar

import Cegar.Proofs.Meaning

/-!
# Well-sorted expressions

In a well-sorted expression every operand has the type that its operator asks for. Formulas are the
boolean ones among them; `Expr.IsFormula P` also says that all variables satisfy `P`, and every
operation on formulas that the analysis uses keeps it.

For well-sorted expressions the evaluation under an assignment, which may leave variables open,
agrees with the value in an environment:

* **`Expr.valueIn_of_eval`**: what is known under an assignment is the value in every environment
  that extends it, as long as no arithmetic on the way was cut short;
* **`Expr.eval_complete`**: complete evaluation is the value in the environment in which open
  variables are zero or false.
-/

namespace Cegar

namespace Expr

def WellSorted : Expr → Prop
  | .bool _ | .num _ | .var _ => True
  | .arith _ l r => l.ty = .int ∧ r.ty = .int ∧ l.WellSorted ∧ r.WellSorted
  | .neg e => e.ty = .int ∧ e.WellSorted
  | .cmp op l r =>
    l.ty = r.ty ∧ (l.ty = .bool → op = .eq ∨ op = .ne) ∧ l.WellSorted ∧ r.WellSorted
  | .logic _ l r => l.ty = .bool ∧ r.ty = .bool ∧ l.WellSorted ∧ r.WellSorted
  | .not e => e.ty = .bool ∧ e.WellSorted

instance decidableWellSorted : (e : Expr) → Decidable e.WellSorted
  | .bool _ | .num _ | .var _ => isTrue trivial
  | .arith _ l r | .cmp _ l r | .logic _ l r =>
    have := decidableWellSorted l
    have := decidableWellSorted r
    inferInstanceAs (Decidable (_ ∧ _ ∧ _ ∧ _))
  | .neg e | .not e =>
    have := decidableWellSorted e
    inferInstanceAs (Decidable (_ ∧ _))

/-! ## Classes that the connectives do not leave -/

/-- A class of expressions that contains the constants and what connectives make of its members. -/
structure Closed (F : Expr → Prop) : Prop where
  const : ∀ b, F (.bool b)
  connect : ∀ op l r, F l → F r → F (Expr.connect op l r)
  complement : ∀ e, F e → F e.complement

namespace Closed

variable {F : Expr → Prop} {e l r : Expr} {es : List Expr}

theorem and (h : Closed F) (hl : F l) (hr : F r) : F (l.and r) := h.connect .and l r hl hr

theorem or (h : Closed F) (hl : F l) (hr : F r) : F (l.or r) := h.connect .or l r hl hr

/-- A conjunction of members is a member. -/
theorem conj (h : Closed F) (hes : ∀ d ∈ es, F d) : F (conj es) := by
  have step : ∀ e, F e → F (es.foldl Expr.and e) := by
    induction es with
    | nil => exact fun e he => he
    | cons d es ih =>
      exact fun e he => ih (fun c hc => hes c (by simp [hc])) _ (h.and he (hes d (by simp)))
  exact step _ (h.const true)

/-- A disjunction of members is a member. -/
theorem disj (h : Closed F) (hes : ∀ d ∈ es, F d) : F (disj es) := by
  have step : ∀ e, F e → F (es.foldl Expr.or e) := by
    induction es with
    | nil => exact fun e he => he
    | cons d es ih =>
      exact fun e he => ih (fun c hc => hes c (by simp [hc])) _ (h.or he (hes d (by simp)))
  exact step _ (h.const false)

end Closed

/-- What a connective that simplifies can come to: a constant, one of its operands, or the plain
connective. -/
theorem connect_cases (op : LogicOp) (l r : Expr) :
    connect op l r = .bool (!op.unit) ∨ connect op l r = l ∨ connect op l r = r ∨
      connect op l r = .logic op l r := by
  grind [connect]

/-- Connectives bring in no variables. -/
theorem closed_vars (P : Var → Prop) : Closed fun e => ∀ v ∈ e.vars, P v where
  const b v hv := by simp at hv
  connect op l r hl hr := by
    rcases connect_cases op l r with h | h | h | h <;> rw [h]
    · simp
    · exact hl
    · exact hr
    · intro v hv
      rcases mem_vars_logic.1 hv with hv | hv
      · exact hl v hv
      · exact hr v hv
  complement e h := by
    cases e with
    | bool b =>
      intro v hv
      simp [Expr.complement] at hv
    | _ => exact h

/-! ## Formulas over a set of variables -/

/-- A well-sorted boolean expression all of whose variables satisfy `P`. -/
structure IsFormula (P : Var → Prop) (e : Expr) : Prop where
  sorted : e.WellSorted
  bool : e.ty = .bool
  vars : ∀ v ∈ e.vars, P v

namespace IsFormula

variable {P Q : Var → Prop} {e l r : Expr}

/-- It is enough to know the class of the variables that occur. -/
theorem mono (h : e.IsFormula P) (hPQ : ∀ v ∈ e.vars, P v → Q v) : e.IsFormula Q :=
  ⟨h.sorted, h.bool, fun v hv => hPQ v hv (h.vars v hv)⟩

theorem const (b : Bool) : (Expr.bool b).IsFormula P :=
  ⟨trivial, rfl, fun v hv => by simp at hv⟩

theorem var {v : Var} (hty : v.ty = .bool) (hv : P v) : (Expr.var v).IsFormula P :=
  ⟨trivial, hty, fun w hw => by rw [mem_vars_var.1 hw]; exact hv⟩

/-- An equation between well-sorted terms of one type. -/
theorem eq (hl : l.WellSorted) (hr : r.WellSorted) (hty : l.ty = r.ty)
    (hPl : ∀ v ∈ l.vars, P v) (hPr : ∀ v ∈ r.vars, P v) : (Expr.eq l r).IsFormula P := by
  refine ⟨⟨hty, fun _ => .inl rfl, hl, hr⟩, rfl, fun v hv => ?_⟩
  rcases mem_vars_cmp.1 hv with hv | hv
  · exact hPl v hv
  · exact hPr v hv

/-- A connective of formulas is a formula. -/
theorem connect (op : LogicOp) (hl : l.IsFormula P) (hr : r.IsFormula P) :
    (connect op l r).IsFormula P := by
  have hvars := (closed_vars P).connect op l r hl.vars hr.vars
  rcases connect_cases op l r with h | h | h | h <;> rw [h] at hvars ⊢
  · exact const _
  · exact hl
  · exact hr
  · exact ⟨⟨hl.bool, hr.bool, hl.sorted, hr.sorted⟩, rfl, hvars⟩

theorem and (hl : l.IsFormula P) (hr : r.IsFormula P) : (l.and r).IsFormula P := hl.connect .and hr

/-- The complement of a formula is a formula. -/
theorem complement (h : e.IsFormula P) : e.complement.IsFormula P := by
  cases e with
  | bool b => exact const _
  | not e => exact ⟨h.sorted.2, h.sorted.1, h.vars⟩
  | num | neg | arith => exact ⟨⟨h.bool, h.sorted⟩, rfl, h.vars⟩
  | var | cmp | logic => exact ⟨⟨h.bool, h.sorted⟩, rfl, h.vars⟩

theorem closed (P : Var → Prop) : Closed (IsFormula P) :=
  ⟨const, fun op _ _ hl hr => hl.connect op hr, fun _ h => h.complement⟩

theorem conj {es : List Expr} (hes : ∀ d ∈ es, d.IsFormula P) : (conj es).IsFormula P :=
  (closed P).conj hes

/-- The conjuncts of a formula are formulas. -/
theorem conjuncts (h : e.IsFormula P) : ∀ c ∈ e.conjuncts, c.IsFormula P := by
  fun_induction Expr.conjuncts e with
  | case1 l r ihl ihr =>
    have hl := ihl ⟨h.sorted.2.2.1, h.sorted.1, fun v hv => h.vars v (by simp [hv])⟩
    have hr := ihr ⟨h.sorted.2.2.2, h.sorted.2.1, fun v hv => h.vars v (by simp [hv])⟩
    intro c hc
    rcases List.mem_append.1 hc with hc | hc
    · exact hl c hc
    · exact hr c hc
  | case2 => simp
  | case3 e => simpa using h

theorem flatMap_conjuncts {es : List Expr} (hes : ∀ e ∈ es, e.IsFormula P) :
    ∀ c ∈ es.flatMap Expr.conjuncts, c.IsFormula P := by
  intro c hc
  obtain ⟨e, he, hc⟩ := List.mem_flatMap.1 hc
  exact (hes e he).conjuncts c hc

end IsFormula

/-! ## Renaming and substitution -/

@[simp] theorem ty_mapVars {f : Var → Var} (hf : ∀ v, (f v).ty = v.ty) (e : Expr) :
    (e.mapVars f).ty = e.ty := by
  cases e with
  | var v => exact hf v
  | _ => rfl

theorem mem_vars_mapVars {f : Var → Var} {e : Expr} {w : Var} :
    w ∈ (e.mapVars f).vars ↔ ∃ v ∈ e.vars, f v = w := by
  induction e with
  | bool | num => simp [mapVars]
  | var v => simp [mapVars, eq_comm]
  | arith op l r ihl ihr | cmp op l r ihl ihr | logic op l r ihl ihr =>
    simp [mapVars, ihl, ihr, or_and_right, exists_or]
  | neg e ih | not e ih => simpa [mapVars] using ih

/-- Renaming keeps an expression well-sorted if it keeps types. -/
theorem WellSorted.mapVars {f : Var → Var} (hf : ∀ v, (f v).ty = v.ty) {e : Expr}
    (h : e.WellSorted) : (e.mapVars f).WellSorted := by
  induction e with
  | bool | num | var => trivial
  | arith op l r ihl ihr | cmp op l r ihl ihr | logic op l r ihl ihr =>
    simp only [WellSorted, Expr.mapVars, ty_mapVars hf] at h ⊢
    exact ⟨h.1, h.2.1, ihl h.2.2.1, ihr h.2.2.2⟩
  | neg e ih | not e ih =>
    simp only [WellSorted, Expr.mapVars, ty_mapVars hf] at h ⊢
    exact ⟨h.1, ih h.2⟩

/-- Renaming takes a formula over one class to a formula over another. -/
theorem IsFormula.mapVars {P Q : Var → Prop} {f : Var → Var} (hf : ∀ v, (f v).ty = v.ty) {e : Expr}
    (h : e.IsFormula P) (hPQ : ∀ v ∈ e.vars, Q (f v)) : (e.mapVars f).IsFormula Q := by
  refine ⟨h.sorted.mapVars hf, by rw [ty_mapVars hf, h.bool], fun w hw => ?_⟩
  obtain ⟨v, hv, rfl⟩ := mem_vars_mapVars.1 hw
  exact hPQ v hv

theorem ty_subst {v : Var} {t : Expr} (ht : t.ty = v.ty) (e : Expr) :
    (e.subst (.var v) t).ty = e.ty := by
  cases e with
  | var w =>
    by_cases hw : w = v
    · subst hw
      rw [subst, if_pos rfl]
      exact ht
    · simp [subst, hw]
  | _ => simp [subst, ty]

/-- Replacing a variable by a well-sorted term of its type keeps an expression well-sorted. -/
theorem WellSorted.subst {v : Var} {t : Expr} (ht : t.ty = v.ty) (hts : t.WellSorted) {e : Expr}
    (h : e.WellSorted) : (e.subst (.var v) t).WellSorted := by
  induction e with
  | bool | num => simp [Expr.subst, WellSorted]
  | var w =>
    by_cases hw : w = v
    · subst hw; simpa [Expr.subst] using hts
    · simp [Expr.subst, hw, WellSorted]
  | arith op l r ihl ihr | cmp op l r ihl ihr | logic op l r ihl ihr =>
    simp only [WellSorted] at h
    simp only [Expr.subst, reduceCtorEq, if_false, WellSorted, ty_subst ht]
    exact ⟨h.1, h.2.1, ihl h.2.2.1, ihr h.2.2.2⟩
  | neg e ih | not e ih =>
    simp only [WellSorted] at h
    simp only [Expr.subst, reduceCtorEq, if_false, WellSorted, ty_subst ht]
    exact ⟨h.1, ih h.2⟩

/-- Substitution brings in the variables of the term and may take out the one replaced. -/
theorem mem_vars_subst {v w : Var} {t e : Expr} (h : w ∈ (e.subst (.var v) t).vars) :
    w ∈ t.vars ∨ (w ∈ e.vars ∧ w ≠ v) := by
  induction e with
  | bool | num => simp [Expr.subst] at h
  | var u =>
    by_cases hu : u = v
    · subst hu
      rw [Expr.subst, if_pos rfl] at h
      exact .inl h
    · simp only [Expr.subst, var.injEq, hu, if_false, mem_vars_var] at h
      subst h
      exact .inr ⟨by simp, hu⟩
  | arith op l r ihl ihr | cmp op l r ihl ihr | logic op l r ihl ihr =>
    simp only [Expr.subst, reduceCtorEq, if_false, mem_vars_arith, mem_vars_cmp,
      mem_vars_logic] at h ⊢
    rcases h with h | h
    · exact (ihl h).imp_right fun hw => ⟨.inl hw.1, hw.2⟩
    · exact (ihr h).imp_right fun hw => ⟨.inr hw.1, hw.2⟩
  | neg e ih | not e ih =>
    simp only [Expr.subst, reduceCtorEq, if_false, vars_neg, vars_not] at h ⊢
    exact ih h

/-! ## Evaluation under an assignment

An environment extends an assignment if it gives the assigned variables the same values. What the
evaluation under the assignment finds out then holds in the environment. Over the integers that is
so only if no saturating operation replaced its result. -/

end Expr

variable {ι : Type} [Arithmetic ι]

/-- Assigned variables have the values that they are assigned. -/
def Env.Extends (ρ : Env ι) (a : Assignment) : Prop :=
  ∀ v x, a[v]? = some x → ρ.val v = .ofValue x

/-- One more variable is assigned the value that it has. -/
theorem Env.Extends.insert {ρ : Env ι} {a : Assignment} {v : Var} {x : Value} (h : ρ.Extends a)
    (hv : ρ.val v = .ofValue x) : ρ.Extends (a.insert v x) := by
  intro w y hw
  rw [Std.ExtTreeMap.getElem?_insert] at hw
  split at hw
  · next heq =>
    rw [Std.LawfulEqOrd.compare_eq_iff_eq] at heq
    cases heq
    cases hw
    exact hv
  · exact h w y hw

/-- An open variable may have any value. -/
theorem Env.Extends.set {ρ : Env ι} {a : Assignment} (h : ρ.Extends a) {v : Var}
    (hopen : a.contains v = false) (x : Datum ι) : (ρ.set v x).Extends a := by
  intro w y hw
  have hne : w ≠ v := by
    rintro rfl
    rw [Std.ExtTreeMap.contains_eq_isSome_getElem?, hw] at hopen
    cases hopen
  rw [Env.val_set_ne x hne]
  exact h w y hw

theorem Env.extends_empty (ρ : Env ι) : ρ.Extends (∅ : Assignment) := by
  intro v x h
  simp at h

namespace Expr

section

attribute [local simp] eval

variable {a : Assignment} {complete : Bool} {e l r : Expr} {x : Value}

/-- An operation has a value where both of its operands have one of the right type. -/
theorem eval_arith_eq_some {op : ArithOp} : (arith op l r).eval a complete = some x ↔
    ∃ m n, l.eval a complete = some (.int m) ∧ r.eval a complete = some (.int n) ∧
      .int (op.apply m n) = x := by
  rcases hl : l.eval a complete with _ | ⟨_ | m⟩ <;>
    rcases hr : r.eval a complete with _ | ⟨_ | n⟩ <;> simp [hl, hr]

theorem eval_neg_eq_some : (neg e).eval a complete = some x ↔
    ∃ n, e.eval a complete = some (.int n) ∧ .int (-n) = x := by
  rcases he : e.eval a complete with _ | ⟨_ | n⟩ <;> simp [he]

/-- A comparison has a value where both of its operands have one and can be compared. -/
theorem eval_cmp_eq_some {op : CmpOp} : (cmp op l r).eval a complete = some x ↔
    ∃ y z b, l.eval a complete = some y ∧ r.eval a complete = some z ∧ op.apply y z = some b ∧
      .bool b = x := by
  rcases hl : l.eval a complete with _ | y <;> rcases hr : r.eval a complete with _ | z <;>
    simp [hl, hr]

theorem eval_not_eq_some : (not e).eval a complete = some x ↔
    ∃ b, e.eval a complete = some (.bool b) ∧ .bool (!b) = x := by
  rcases he : e.eval a complete with _ | ⟨b | _⟩ <;> simp [he]

end

variable (ι) in
/-- No operation that the evaluation of an expression performs under `a` replaces its result by a
bound, seen from `ι`. The second operand is looked at only if the first one has a value. -/
def Faithful (a : Assignment) : Expr → Prop
  | .bool _ | .num _ | .var _ => True
  | .arith op l r => l.Faithful a ∧ ∀ m, l.eval a false = some (.int m) → r.Faithful a ∧
      ∀ n, r.eval a false = some (.int n) →
        (Arithmetic.num (op.apply m n) : ι) =
          Arithmetic.apply op (Arithmetic.num m) (Arithmetic.num n)
  | .neg e => e.Faithful a ∧
      ∀ n, e.eval a false = some (.int n) →
        (Arithmetic.num (-n) : ι) = Arithmetic.neg (Arithmetic.num n)
  | .cmp _ l r => l.Faithful a ∧ (l.eval a false ≠ none → r.Faithful a)
  | .logic _ l r => l.Faithful a ∧ r.Faithful a
  | .not e => e.Faithful a

instance decidableForallInt {p : Int128 → Prop} [DecidablePred p] :
    (x : Option Value) → Decidable (∀ n, x = some (.int n) → p n)
  | some (.int n) => decidable_of_iff (p n) ⟨fun h m hm => by cases hm; exact h, fun h => h n rfl⟩
  | some (.bool _) | none => isTrue fun _ h => by cases h

instance decidableFaithful (a : Assignment) : (e : Expr) → Decidable (e.Faithful Int a)
  | .bool _ | .num _ | .var _ => isTrue trivial
  | .arith _ l r | .cmp _ l r | .logic _ l r =>
    have := decidableFaithful a l
    have := decidableFaithful a r
    inferInstanceAs (Decidable (_ ∧ _))
  | .neg e =>
    have := decidableFaithful a e
    inferInstanceAs (Decidable (_ ∧ _))
  | .not e => decidableFaithful a e

/-- Comparing known values is comparing them in `ι`. -/
theorem relates_of_apply {op : CmpOp} {x y : Value} {b : Bool} (h : op.apply x y = some b)
    (hty : x.ty = y.ty) : op.relates (.ofValue x : Datum ι) (.ofValue y) = b := by
  cases x with
  | int m =>
    cases y with
    | bool => cases hty
    | int n => cases op <;> cases h <;>
        simp [CmpOp.relates, Datum.ofValue, Arithmetic.holds_num, CmpOp.holds]
  | bool x =>
    cases y with
    | int => cases hty
    | bool y => cases op <;> cases h <;> cases x <;> cases y <;> rfl

/-- One operand may decide a connective alone. -/
theorem combine_of_apply {op : LogicOp} {x y : Option Bool} {b : Bool} (h : op.apply x y = some b)
    {p q : Bool} (hx : ∀ c, x = some c → p = c) (hy : ∀ c, y = some c → q = c) :
    op.combine p q = b := by
  cases op <;> cases x <;> cases y <;>
    simp_all [LogicOp.apply, LogicOp.combine, LogicOp.unit]

/-- What is known under an assignment holds in every environment that extends it. -/
theorem valueIn_of_eval {ρ : Env ι} {a : Assignment} (hρ : ρ.Extends a) {e : Expr}
    (hs : e.WellSorted) (hf : e.Faithful ι a) {x : Value} (h : e.eval a false = some x) :
    e.valueIn ρ = .ofValue x := by
  induction e generalizing x with
  | bool b | num n => cases h; rfl
  | var v =>
    simp only [eval] at h
    split at h
    · next y hy => cases h; exact hρ v _ hy
    · simp at h
  | arith op l r ihl ihr =>
    obtain ⟨m, n, hl, hr, rfl⟩ := eval_arith_eq_some.1 h
    obtain ⟨hrf, hop⟩ := hf.2 m hl
    simp [valueIn, ihl hs.2.2.1 hf.1 hl, ihr hs.2.2.2 hrf hr, Datum.ofValue, hop n hr]
  | neg e ih =>
    obtain ⟨n, he, rfl⟩ := eval_neg_eq_some.1 h
    simp [valueIn, ih hs.2 hf.1 he, Datum.ofValue, hf.2 n he]
  | cmp op l r ihl ihr =>
    obtain ⟨y, z, b, hl, hr, hb, rfl⟩ := eval_cmp_eq_some.1 h
    have hvl := ihl hs.2.2.1 hf.1 hl
    have hvr := ihr hs.2.2.2 (hf.2 (by simp [hl])) hr
    have hty : y.ty = z.ty := by
      have := hs.1
      rwa [← ty_valueIn ρ l, ← ty_valueIn ρ r, hvl, hvr, Datum.ty_ofValue,
        Datum.ty_ofValue] at this
    rw [valueIn, hvl, hvr, relates_of_apply hb hty]
    rfl
  | logic op l r ihl ihr =>
    obtain ⟨b, hb, rfl⟩ := Option.map_eq_some_iff.1 h
    have operand {d : Expr} (ih : ∀ {x}, d.eval a false = some x → d.valueIn ρ = .ofValue x) :
        ∀ c, (d.eval a false).bind Datum.bool? = some c → (d.valueIn ρ).isTrue = c := by
      intro c hc
      obtain ⟨y, hy, hyc⟩ := Option.bind_eq_some_iff.1 hc
      rw [ih hy]
      cases y <;> simp_all [Datum.bool?, Datum.ofValue]
    show Datum.bool _ = _
    rw [combine_of_apply hb (operand (ihl hs.2.2.1 hf.1)) (operand (ihr hs.2.2.2 hf.2))]
    rfl
  | not e ih =>
    obtain ⟨b, he, rfl⟩ := eval_not_eq_some.1 h
    simp [valueIn, ih hs.2 hf he, Datum.ofValue]

end Expr

/-! ## Complete evaluation -/

namespace Assignment

/-- Every variable is assigned a value of its type. -/
def Typed (a : Assignment) : Prop := ∀ (v : Var) (x : Value), a[v]? = some x → x.ty = v.ty

/-- The environment in which open variables are zero or false. -/
def env (a : Assignment) (h : a.Typed) : Store where
  val v := a[v]?.getD v.ty.default
  typed v := by
    cases hv : a[v]? with
    | some x => exact h v x hv
    | none => cases hty : v.ty <;> simp [Ty.default]

variable {P : Var → Prop} {a : Assignment} {v : Var} {x : Value}

/-- The variables that satisfy `P` are open or assigned a value of their type. -/
def TypedOn (P : Var → Prop) (a : Assignment) : Prop :=
  ∀ v, P v → ∀ x, a[v]? = some x → x.ty = v.ty

/-- One more variable is assigned a value of its type. -/
theorem TypedOn.insert (h : a.TypedOn P) (hx : x.ty = v.ty) : TypedOn P (a.insert v x) := by
  intro w hw y hy
  rw [Std.ExtTreeMap.getElem?_insert] at hy
  split at hy
  · next heq =>
    cases Std.LawfulEqOrd.compare_eq_iff_eq.1 heq
    cases hy
    exact hx
  · exact h w hw y hy

theorem Typed.insert (h : a.Typed) (hx : x.ty = v.ty) : Typed (a.insert v x) := by
  have hon : a.TypedOn fun _ => True := fun v _ => h v
  exact fun w => hon.insert hx w trivial

theorem typed_empty : Typed (∅ : Assignment) := by
  intro v x h
  simp at h

end Assignment

namespace Expr

/-- Where all variables of a well-sorted expression have the values of an environment, evaluation has a
result, the value in the environment. -/
theorem eval_eq_valueIn {a : Assignment} {complete : Bool} {ρ : Store} {e : Expr}
    (hvars : ∀ v ∈ e.vars, (Expr.var v).eval a complete = some (ρ.val v)) (hs : e.WellSorted) :
    e.eval a complete = some (e.valueIn ρ) := by
  induction e with
  | bool | num => rfl
  | var v => exact hvars v (by simp)
  | arith op l r ihl ihr =>
    have hl : l.valueIn ρ = .int _ := Datum.eq_int_of_ty (by rw [ty_valueIn, hs.1])
    have hr : r.valueIn ρ = .int _ := Datum.eq_int_of_ty (by rw [ty_valueIn, hs.2.1])
    rw [eval, ihl (fun v hv => hvars v (by simp [hv])) hs.2.2.1,
      ihr (fun v hv => hvars v (by simp [hv])) hs.2.2.2, hl, hr, valueIn]
    rfl
  | neg e ih =>
    have he : e.valueIn ρ = .int _ := Datum.eq_int_of_ty (by rw [ty_valueIn, hs.1])
    rw [eval, ih (fun v hv => hvars v (by simpa using hv)) hs.2, he, valueIn]
    rfl
  | cmp op l r ihl ihr =>
    rw [eval, ihl (fun v hv => hvars v (by simp [hv])) hs.2.2.1,
      ihr (fun v hv => hvars v (by simp [hv])) hs.2.2.2, valueIn]
    have hty : (l.valueIn ρ).ty = (r.valueIn ρ).ty := by simpa using hs.1
    have hop : (l.valueIn ρ).ty = .bool → op = .eq ∨ op = .ne := by simpa using hs.2.1
    generalize l.valueIn ρ = x, r.valueIn ρ = y at hty hop
    have hb : (op.apply x y).isSome := by
      cases x <;> cases y <;> cases op <;> simp_all [CmpOp.apply, Datum.ty]
    obtain ⟨b, hb⟩ := Option.isSome_iff_exists.1 hb
    have hr : op.relates (.ofValue x : Datum Int128) (.ofValue y) = b := relates_of_apply hb hty
    simp only [Datum.ofValue_self] at hr
    simp [hb, hr]
  | logic op l r ihl ihr =>
    have hl : l.valueIn ρ = .bool _ := valueIn_eq_bool hs.1
    have hr : r.valueIn ρ = .bool _ := valueIn_eq_bool hs.2.1
    rw [eval, ihl (fun v hv => hvars v (by simp [hv])) hs.2.2.1,
      ihr (fun v hv => hvars v (by simp [hv])) hs.2.2.2, hl, hr, valueIn, hl, hr]
    cases op <;> cases l.truth ρ <;> cases r.truth ρ <;> rfl
  | not e ih =>
    have he : e.valueIn ρ = .bool _ := valueIn_eq_bool hs.1
    rw [eval, ih (fun v hv => hvars v (by simpa using hv)) hs.2, he, valueIn, he]
    rfl

/-- On well-sorted expressions complete evaluation always has a result, the value in the
environment of the assignment. -/
theorem eval_complete {a : Assignment} (h : a.Typed) {e : Expr} (hs : e.WellSorted) :
    e.eval a true = some (e.valueIn (a.env h)) := by
  refine eval_eq_valueIn (fun v _ => ?_) hs
  simp only [eval, Assignment.env]
  cases a[v]? <;> rfl

/-- A model, in the words of the solver: the formula evaluates to true. -/
theorem eval_complete_eq_true {a : Assignment} (h : a.Typed) {P : Var → Prop} {e : Expr}
    (hs : e.IsFormula P) : e.eval a true = some (.bool true) ↔ e.truth (a.env h) = true := by
  rw [eval_complete h hs.sorted, valueIn_eq_bool hs.bool]
  simp

end Expr

end Cegar

import Cegar.Proofs.Evaluation

/-!
# Stores that satisfy a formula

A store satisfies an expression if the expression evaluates to true under the values of the store.
For formulas that is their truth value, but evaluation also has a say about expressions that are not
well-sorted, and it is evaluation that the solver goes by.

* **`Expr.holds_iff_truth`**: on formulas the two agree;
* **`Expr.holds_and`**, **`Expr.holds_or`**: the connectives that simplify mean what the plain ones
  mean, whatever they are applied to.
-/

namespace Cegar

namespace Env

variable {V : Store} {vs : List Var} {v : Var}

/-- The assignment of the given variables that a store has. -/
def restrict (V : Store) (vs : List Var) : Assignment :=
  vs.foldr (fun v a => a.insert v (V.val v)) ∅

/-- A store gives variables values of their types. -/
theorem typed_restrict (V : Store) (vs : List Var) : (V.restrict vs).Typed := by
  induction vs with
  | nil => exact Assignment.typed_empty
  | cons v vs ih => exact ih.insert (V.typed v)

theorem getElem?_restrict (hv : v ∈ vs) : (V.restrict vs)[v]? = some (V.val v) := by
  induction vs with
  | nil => cases hv
  | cons w vs ih =>
    show ((V.restrict vs).insert w (V.val w))[v]? = _
    rw [Std.ExtTreeMap.getElem?_insert]
    split
    · next heq => rw [Std.LawfulEqOrd.compare_eq_iff_eq.1 heq]
    · next hne =>
      refine ih ((List.mem_cons.1 hv).resolve_left fun h => hne ?_)
      rw [h]
      exact Std.ReflCmp.compare_self

end Env

namespace Expr

variable {V V' : Store} {e l r : Expr}

/-- The expression evaluates to true under the values of the store. -/
def Holds (e : Expr) (V : Store) : Prop :=
  e.eval (V.restrict e.vars.toList) true = some (.bool true)

instance (e : Expr) (V : Store) : Decidable (e.Holds V) :=
  inferInstanceAs (Decidable (_ = _))

/-- Any assignment that has the values of the store will do. -/
theorem holds_iff_eval {a : Assignment} (h : ∀ v ∈ e.vars, a[v]? = some (V.val v)) :
    e.Holds V ↔ e.eval a true = some (.bool true) := by
  rw [Holds, eval_congr_vars fun v hv => ?_]
  rw [eval, eval, h v hv, Env.getElem?_restrict (Std.ExtTreeSet.mem_toList.2 hv)]

/-- Only the variables that occur matter. -/
theorem holds_congr (h : ∀ v ∈ e.vars, V.val v = V'.val v) : e.Holds V ↔ e.Holds V' := by
  refine holds_iff_eval fun v hv => ?_
  rw [h v hv, Env.getElem?_restrict (Std.ExtTreeSet.mem_toList.2 hv)]

/-- A formula holds exactly if it is true. -/
theorem holds_iff_truth {P : Var → Prop} (he : e.IsFormula P) : e.Holds V ↔ e.truth V = true := by
  have ht := V.typed_restrict e.vars.toList
  rw [Holds, eval_complete_eq_true ht he]
  rw [truth_congr fun v hv => ?_]
  show Option.getD _ _ = _
  rw [Env.getElem?_restrict (Std.ExtTreeSet.mem_toList.2 hv)]
  rfl

/-- Renamed, an expression has the value that it has where the new names are looked up. -/
theorem eval_mapVars {f : Var → Var} (hf : ∀ v, (f v).ty = v.ty) {a b : Assignment}
    {complete : Bool} (h : ∀ v ∈ e.vars, a[f v]? = b[v]?) :
    (e.mapVars f).eval a complete = e.eval b complete := by
  induction e with
  | bool | num => rfl
  | var v => simp only [mapVars, eval, h v (by simp), hf]
  | arith op l r ihl ihr | cmp op l r ihl ihr | logic op l r ihl ihr =>
    simp only [mapVars, eval, ihl fun v hv => h v (by simp [hv]),
      ihr fun v hv => h v (by simp [hv])]
  | neg e ih | not e ih => simp only [mapVars, eval, ih fun v hv => h v (by simpa using hv)]

/-- Renaming the variables of an expression is renaming the store. -/
theorem holds_mapVars {f : Var → Var} (hf : ∀ v, (f v).ty = v.ty) :
    (e.mapVars f).Holds V ↔ e.Holds (V.rename f hf) := by
  rw [Holds, Holds, eval_mapVars hf fun v hv => ?_]
  have hfv : f v ∈ (e.mapVars f).vars := mem_vars_mapVars.2 ⟨v, hv, rfl⟩
  rw [Env.getElem?_restrict (Std.ExtTreeSet.mem_toList.2 hfv),
    Env.getElem?_restrict (Std.ExtTreeSet.mem_toList.2 hv)]
  rfl

/-! ## Connectives -/

@[simp] theorem holds_bool {b : Bool} : (Expr.bool b).Holds V ↔ b = true := by
  simp [Holds, eval]

/-- A connective holds by its operands, which need not both have a value. -/
theorem holds_logic {op : LogicOp} : (Expr.logic op l r).Holds V ↔ match op with
    | .and => l.Holds V ∧ r.Holds V
    | .or => l.Holds V ∨ r.Holds V := by
  have hval {v : Var} (hv : v ∈ (Expr.logic op l r).vars) :
      (V.restrict (Expr.logic op l r).vars.toList)[v]? = some (V.val v) :=
    Env.getElem?_restrict (Std.ExtTreeSet.mem_toList.2 hv)
  rw [holds_iff_eval (e := l) fun v hv => hval (mem_vars_logic.2 (.inl hv)),
    holds_iff_eval (e := r) fun v hv => hval (mem_vars_logic.2 (.inr hv)), Holds, eval]
  generalize l.eval _ true = x, r.eval _ true = y
  -- an operand that is no truth value is as good as unknown
  cases op <;> rcases x with _ | ⟨⟨⟩ | ⟨⟩⟩ | _ <;> rcases y with _ | ⟨⟨⟩ | ⟨⟩⟩ | _ <;>
    simp [LogicOp.apply, LogicOp.unit, Datum.bool?]

/-- The connectives that simplify hold where the plain ones do. -/
theorem holds_connect {op : LogicOp} : (connect op l r).Holds V ↔ (Expr.logic op l r).Holds V := by
  unfold connect
  split
  · next h =>
    rw [holds_logic]
    cases op <;> rcases h with rfl | rfl <;> simp [LogicOp.unit]
  · split
    · next h =>
      rw [h, holds_logic]
      cases op <;> simp [LogicOp.unit]
    · split
      · next h =>
        rw [h, holds_logic]
        cases op <;> simp [LogicOp.unit]
      · split
        · next h =>
          rw [h, holds_logic]
          cases op <;> simp
        · exact Iff.rfl

@[simp] theorem holds_and : (l.and r).Holds V ↔ l.Holds V ∧ r.Holds V :=
  holds_connect.trans holds_logic

@[simp] theorem holds_or : (l.or r).Holds V ↔ l.Holds V ∨ r.Holds V :=
  holds_connect.trans holds_logic

/-- A conjunction holds if all its operands do. -/
theorem holds_conj {es : List Expr} : (conj es).Holds V ↔ ∀ d ∈ es, d.Holds V := by
  have step : ∀ e, (es.foldl Expr.and e).Holds V ↔ e.Holds V ∧ ∀ d ∈ es, d.Holds V := by
    induction es with
    | nil => simp
    | cons d es ih =>
      intro e
      rw [List.foldl_cons, ih, holds_and, List.forall_mem_cons, and_assoc]
  rw [conj, step, holds_bool]
  simp

end Expr

end Cegar

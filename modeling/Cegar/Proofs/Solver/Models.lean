import Cegar.Proofs.Inversion
import Cegar.Proofs.Solver.Backtracking
import Cegar.Proofs.Solver.Elimination

/-!
# Models that the search finds

When the search succeeds, every variable of the query is assigned and the last propagation went over
all conjuncts without finding a false one. With all variables assigned a conjunct that is not false
is true, so the assignment is a model. It extends the assignment that the search was given, since
only open variables are assigned.

* **`Query.propagate_spec`**: propagation stops only when a pass changes nothing, because every
  other pass assigns a variable and there are more passes than variables;
* **`Query.search_invariant`**: a property that propagation and assigning open variables keep holds
  of what a successful search leaves behind;
* **`Query.search_stable`**: what a successful search leaves behind assigns all variables and is
  stable;
* **`Query.search_restores`**: a search leaves a model behind, or the assignment that it was given;
* **`decideAssertions_sat`**: the answer `sat` comes with a model of the assertions.
-/

namespace Cegar

namespace Query

variable {P : Var → Prop} {a a' : Assignment} {cs : List Expr} {changed changed' : Bool}

/-- No conjunct is known to be false. -/
def Stable (cs : List Expr) (a : Assignment) : Prop := ∀ c ∈ cs, c.eval a false ≠ some (.bool false)

/-- A formula whose variables are all assigned is true if it is not false. -/
theorem eval_eq_true {c : Expr} (ha : a.TypedOn P) (hc : c.IsFormula P)
    (hall : ∀ v ∈ c.vars, a.contains v) (hne : c.eval a false ≠ some (.bool false)) :
    c.eval a false = some (.bool true) := by
  obtain ⟨x, hx, hty⟩ := Expr.eval_assigned hc.sorted (fun v hv => ha v (hc.vars v hv)) hall
  cases x with
  | int n =>
    rw [hc.bool] at hty
    cases hty
  | bool b =>
    cases b with
    | true => exact hx
    | false => exact absurd hx hne

/-- Under a stable assignment of all variables every conjunct is true. -/
theorem Stable.eval_eq_true (h : Stable cs a) (ha : a.TypedOn P) (hcs : ∀ c ∈ cs, c.IsFormula P)
    (hall : ∀ c ∈ cs, ∀ v ∈ c.vars, a.contains v) :
    ∀ c ∈ cs, c.eval a false = some (.bool true) := fun c hc =>
  Query.eval_eq_true ha (hcs c hc) (hall c hc) (h c hc)

/-! ## Propagation -/

/-- The value that a formula forces has the type of the variable. -/
theorem ty_of_forced? {c : Expr} (hc : c.IsFormula P) (ha : a.TypedOn P) {v : Var} {x : Value}
    (h : forced? a c = some (v, x)) : x.ty = v.ty := by
  have hvars := hc.vars
  obtain ⟨-, ⟨rfl, rfl⟩ | ⟨rfl, rfl⟩ | ⟨t, rfl | rfl, ht⟩⟩ := forced?_eq_some h
  · exact hc.bool.symm
  · exact hc.sorted.1.symm
  · rw [Expr.ty_of_eval ha hc.sorted.2.2.2 (fun v hv => hvars v (by simp [hv])) ht]
    exact hc.sorted.1.symm
  · rw [Expr.ty_of_eval ha hc.sorted.2.2.1 (fun v hv => hvars v (by simp [hv])) ht]
    exact hc.sorted.1

/-- What is forced is a variable of the conjunct. -/
theorem mem_vars_of_forced? {c : Expr} {v : Var} {x : Value} (h : forced? a c = some (v, x)) :
    v ∈ c.vars := by
  obtain ⟨-, ⟨rfl, -⟩ | ⟨rfl, -⟩ | ⟨t, rfl | rfl, -⟩⟩ := forced?_eq_some h <;> simp

/-- The number of variables that are still open. -/
def openCount (vars : List Var) (a : Assignment) : Nat := vars.countP fun v => !a.contains v

theorem openCount_insert_le (vars : List Var) (a : Assignment) (v : Var) (x : Value) :
    openCount vars (a.insert v x) ≤ openCount vars a := by
  refine List.countP_mono_left fun w _ hw => ?_
  simp only [Std.ExtTreeMap.contains_insert, Bool.not_or, Bool.and_eq_true] at hw
  exact hw.2

/-- Assigning an open variable leaves fewer. -/
theorem openCount_insert_lt {vars : List Var} {v : Var} (hv : v ∈ vars) (x : Value)
    (hopen : a.contains v = false) : openCount vars (a.insert v x) < openCount vars a := by
  induction vars with
  | nil => cases hv
  | cons w vars ih =>
    simp only [openCount, List.countP_cons]
    by_cases hw : w = v
    · subst hw
      have hle := openCount_insert_le vars a w x
      have hself : (a.insert w x).contains w = true := by simp [Std.ExtTreeMap.contains_insert]
      simp only [openCount] at hle
      rw [hself, hopen]
      simp only [Bool.not_true, Bool.not_false, Bool.false_eq_true, if_false, if_true]
      omega
    · have hlt := ih ((List.mem_cons.1 hv).resolve_left (Ne.symm hw))
      have hne : (a.insert v x).contains w = a.contains w := by
        simp [Std.ExtTreeMap.contains_insert, Ne.symm hw]
      simp only [openCount] at hlt
      rw [hne]
      omega

/-- What a pass does: it keeps what is assigned, and a pass that changes something assigns a
variable. A pass that changes nothing has seen no false conjunct. -/
theorem pass_spec {vars : List Var} (hvars : ∀ c ∈ cs, ∀ v ∈ c.vars, v ∈ vars)
    (h : pass cs changed a = some (changed', a')) :
    a'.Extends a ∧ openCount vars a' ≤ openCount vars a ∧
      (changed' = true → changed = true ∨ openCount vars a' < openCount vars a) ∧
      (changed' = false → changed = false ∧ a' = a ∧ Stable cs a) := by
  induction cs generalizing changed a with
  | nil =>
    cases h
    exact ⟨.refl _, Nat.le_refl _, .inl, fun h => ⟨h, rfl, fun c hc => by cases hc⟩⟩
  | cons c cs ih =>
    have hvars' : ∀ d ∈ cs, ∀ v ∈ d.vars, v ∈ vars := fun d hd => hvars d (by simp [hd])
    -- a conjunct that is passed over adds nothing but that it is not false
    have skip (hne : c.eval a false ≠ some (.bool false))
        (h : pass cs changed a = some (changed', a')) :
        a'.Extends a ∧ openCount vars a' ≤ openCount vars a ∧
          (changed' = true → changed = true ∨ openCount vars a' < openCount vars a) ∧
          (changed' = false → changed = false ∧ a' = a ∧ Stable (c :: cs) a) := by
      obtain ⟨hgrow, hle, htrue, hfalse⟩ := ih hvars' h
      refine ⟨hgrow, hle, htrue, fun hf => ?_⟩
      obtain ⟨hch, heq, hst⟩ := hfalse hf
      exact ⟨hch, heq, List.forall_mem_cons.2 ⟨hne, hst⟩⟩
    unfold pass at h
    split at h
    · cases h
    · next x hne hx => exact skip (fun hf => hne (by rw [hx] at hf; cases hf; rfl)) h
    · next hnone =>
      split at h
      · next v x hf =>
        have hopen := (forced?_eq_some hf).1
        have hv : v ∈ vars := hvars c (by simp) v (mem_vars_of_forced? hf)
        have hlt := openCount_insert_lt hv x hopen
        obtain ⟨hgrow, hle, -, hfalse⟩ := ih hvars' h
        refine ⟨hgrow.trans (Assignment.extends_insert hopen x), by omega,
          fun _ => .inr (by omega), fun hf => ?_⟩
        cases (hfalse hf).1
      · exact skip (by rw [hnone]; simp) h

/-- A pass over formulas assigns values of their types. -/
theorem pass_typedOn (hcs : ∀ c ∈ cs, c.IsFormula P) (ha : a.TypedOn P)
    (h : pass cs changed a = some (changed', a')) : a'.TypedOn P := by
  induction cs generalizing changed a with
  | nil =>
    cases h
    exact ha
  | cons c cs ih =>
    obtain ⟨hc, hcs⟩ := List.forall_mem_cons.1 hcs
    unfold pass at h
    split at h
    · cases h
    · exact ih hcs ha h
    · split at h
      · next hf => exact ih hcs (ha.insert (ty_of_forced? hc ha hf)) h
      · exact ih hcs ha h

/-- With more passes than open variables propagation stops only when nothing changes, and then no
conjunct is false. -/
theorem propagateWithin_spec {vars : List Var} (hvars : ∀ c ∈ cs, ∀ v ∈ c.vars, v ∈ vars) {n : Nat}
    (hn : openCount vars a < n) (h : propagateWithin cs n a = some a') :
    a'.Extends a ∧ Stable cs a' := by
  induction n generalizing a with
  | zero => omega
  | succ n ih =>
    unfold propagateWithin at h
    split at h
    · cases h
    · next b hb =>
      obtain ⟨hgrow, -, hlt, -⟩ := pass_spec hvars hb
      have hlt := (hlt rfl).resolve_left (by simp)
      obtain ⟨hgrow', hst⟩ := ih (by omega) h
      exact ⟨hgrow'.trans hgrow, hst⟩
    · next b hb =>
      cases h
      obtain ⟨hgrow, -, -, hfalse⟩ := pass_spec hvars hb
      obtain ⟨-, rfl, hst⟩ := hfalse rfl
      exact ⟨hgrow, hst⟩

/-- Propagation in formulas assigns values of their types. -/
theorem propagateWithin_typedOn (hcs : ∀ c ∈ cs, c.IsFormula P) {n : Nat} (ha : a.TypedOn P)
    (h : propagateWithin cs n a = some a') : a'.TypedOn P := by
  induction n generalizing a with
  | zero =>
    cases h
    exact ha
  | succ n ih =>
    unfold propagateWithin at h
    split at h
    · cases h
    · next hb => exact ih (pass_typedOn hcs ha hb) h
    · next hb =>
      cases h
      exact pass_typedOn hcs ha hb

variable {q : Query} {range : Int128}

/-- A query whose variables are those of its conjuncts, and possibly more. -/
def Covers (q : Query) : Prop := ∀ c ∈ q.conjuncts, ∀ v ∈ c.vars, v ∈ q.vars

/-- Propagation assigns open variables only, and leaves no conjunct false. -/
theorem propagate_spec (hq : q.Covers) (h : q.propagate a = some a') :
    a'.Extends a ∧ Stable q.conjuncts a' :=
  propagateWithin_spec hq (Nat.lt_succ_of_le List.countP_le_length) h

/-! ## Backtracking -/

/-- A search that succeeded did so with one of the values. -/
theorem tryFrom_true {d : Domain} {attempt : Value → Effort → Except Abort Result} {n i : Nat}
    {e : Effort} {r : Result} (h : tryFrom d attempt a n i e = .ok r)
    (hr : r.verdict = some true) : ∃ j e', attempt (d.get j) e' = .ok r := by
  induction n generalizing i e with
  | zero =>
    cases h
    cases hr
  | succ n ih =>
    obtain ⟨r', hr', ⟨-, rfl⟩ | ⟨-, h⟩ | ⟨hv, rfl⟩⟩ := tryFrom_ok h
    · exact ⟨i, e, hr'⟩
    · exact ih h
    · rw [hv] at hr
      cases hr

/-- A step succeeds only after a propagation that does, in what comes next. -/
theorem step_true {q : Query} {next : Assignment → Effort → Except Abort Result} {e : Effort}
    {r : Result} (h : q.step next a e = .ok r) (hr : r.verdict = some true) :
    ∃ a' e', q.propagate a = some a' ∧ next a' e' = .ok r := by
  obtain ⟨-, rfl⟩ | ⟨-, rfl⟩ | ⟨a', r', ha', hr', hv, -, heq⟩ := step_ok h
  · cases hr
  · cases hr
  · exact ⟨a', _, ha', heq (hv ▸ hr) ▸ hr'⟩

/-- The values tried have the type of the variable. -/
theorem ty_domain {q : Query} {range : Int128} {x : Var} {d : Domain}
    (h : q.domain range x a = .ok d) (i : Nat) : (d.get i).ty = x.ty := by
  unfold domain at h
  split at h
  · next hx => cases h; exact hx.symm
  · next hx _ => cases h; exact hx.symm
  · next hx _ =>
    obtain ⟨values, -, h⟩ := except_bind_ok.1 h
    cases values <;> cases h <;> exact hx.symm

/-- A successful search went through propagation and values of domains only. -/
theorem settle_invariant {I : Assignment → Prop}
    (hpropagate : ∀ a a', I a → q.propagate a = some a' → I a')
    (hinsert : ∀ a x d i, I a → a.contains x = false → q.domain range x a = .ok d →
      I (a.insert x (d.get i)))
    {xs : List Var} {e : Effort} {r : Result} (ha : I a) (h : q.settle range xs a e = .ok r)
    (hr : r.verdict = some true) : I r.assignment := by
  induction xs generalizing a e with
  | nil =>
    cases h
    exact ha
  | cons x xs ih =>
    rcases settle_cons_ok h with ⟨-, h⟩ | ⟨hopen, d, hd, h⟩
    · exact ih ha h
    · obtain ⟨j, e', hstep⟩ := tryFrom_true h hr
      obtain ⟨a', e'', hprop, hnext⟩ := step_true hstep hr
      exact ih (hpropagate _ _ (hinsert a x d j ha hopen hd) hprop) hnext

/-- A search that succeeded assigned all variables, and no conjunct is false. -/
theorem settle_true (hq : q.Covers) {xs : List Var} {e : Effort} {r : Result}
    (hst : Stable q.conjuncts a) (hxs : ∀ v ∈ q.vars, a.contains v ∨ v ∈ xs)
    (h : q.settle range xs a e = .ok r) (hr : r.verdict = some true) :
    Stable q.conjuncts r.assignment ∧ ∀ v ∈ q.vars, r.assignment.contains v := by
  induction xs generalizing a e with
  | nil =>
    cases h
    exact ⟨hst, fun v hv => (hxs v hv).resolve_right (by simp)⟩
  | cons x xs ih =>
    rcases settle_cons_ok h with ⟨hx, h⟩ | ⟨hopen, d, -, h⟩
    · refine ih hst (fun v hv => ?_) h
      rcases hxs v hv with hv | hv
      · exact .inl hv
      · rcases List.mem_cons.1 hv with rfl | hv
        · exact .inl hx
        · exact .inr hv
    · obtain ⟨j, e', hstep⟩ := tryFrom_true h hr
      obtain ⟨a', e'', hprop, hnext⟩ := step_true hstep hr
      obtain ⟨hgrow, hst'⟩ := propagate_spec hq hprop
      have hgrow' := hgrow.trans (Assignment.extends_insert hopen (d.get j))
      -- what was assigned stays assigned, and `x` now is too
      refine ih hst' (fun v hv => ?_) hnext
      rcases hxs v hv with hv | hv
      · exact .inl (hgrow'.contains hv)
      · rcases List.mem_cons.1 hv with rfl | hv
        · exact .inl (hgrow.contains (by simp [Std.ExtTreeMap.contains_insert]))
        · exact .inr hv

/-- The variables of a query are those of its conjuncts. -/
theorem mem_vars_ofConjuncts {q : Query} (h : ofConjuncts cs = .ok q) {v : Var} :
    v ∈ q.vars ↔ ∃ c ∈ cs, v ∈ c.vars := by
  obtain ⟨bound, -, h⟩ := except_bind_ok.1 h
  cases h
  simp [List.mem_eraseDups, Std.ExtTreeSet.mem_toList]

theorem conjuncts_ofConjuncts {q : Query} (h : ofConjuncts cs = .ok q) : q.conjuncts = cs := by
  obtain ⟨bound, -, h⟩ := except_bind_ok.1 h
  cases h
  rfl

theorem covers_ofConjuncts (h : ofConjuncts cs = .ok q) : q.Covers := fun c hc _ hv =>
  (mem_vars_ofConjuncts h).2 ⟨c, conjuncts_ofConjuncts h ▸ hc, hv⟩

/-- How a search succeeds: the first propagation finds no false conjunct, and all variables can be
settled after it. -/
theorem search_true {e : Effort} {r : Result} (h : q.search range a e = .ok r)
    (hr : r.verdict = some true) :
    ∃ a' e', q.propagate a = some a' ∧ q.settle range q.vars a' e' = .ok r := by
  rw [search_eq] at h
  exact step_true h hr

/-- What propagation and assigning open variables keep, a successful search keeps. -/
theorem search_invariant {I : Assignment → Prop}
    (hpropagate : ∀ a a', I a → q.propagate a = some a' → I a')
    (hinsert : ∀ a x d i, I a → a.contains x = false → q.domain range x a = .ok d →
      I (a.insert x (d.get i)))
    {e : Effort} {r : Result} (ha : I a) (h : q.search range a e = .ok r)
    (hr : r.verdict = some true) : I r.assignment := by
  obtain ⟨a', e', hprop, hnext⟩ := search_true h hr
  exact settle_invariant hpropagate hinsert (hpropagate _ _ ha hprop) hnext hr

/-- A successful search assigns open variables only. -/
theorem search_extends (hq : q.Covers) {e : Effort} {r : Result} (h : q.search range a e = .ok r)
    (hr : r.verdict = some true) : r.assignment.Extends a := by
  refine search_invariant (I := fun b => b.Extends a) (fun b b' hb hprop => ?_)
    (fun b x d i hb hopen _ => ?_) (.refl a) h hr
  · exact (propagate_spec hq hprop).1.trans hb
  · exact (Assignment.extends_insert hopen _).trans hb

/-- For formulas, a successful search assigns values of their types. -/
theorem search_typedOn (hcs : ∀ c ∈ q.conjuncts, c.IsFormula P) (ha : a.TypedOn P) {e : Effort}
    {r : Result} (h : q.search range a e = .ok r) (hr : r.verdict = some true) :
    r.assignment.TypedOn P :=
  search_invariant (fun _ _ hb hprop => propagateWithin_typedOn hcs hb hprop)
    (fun _ _ _ i hb _ hd => hb.insert (ty_domain hd i)) ha h hr

/-- A successful search leaves no variable open and no conjunct false. -/
theorem search_stable (hq : q.Covers) {e : Effort} {r : Result} (h : q.search range a e = .ok r)
    (hr : r.verdict = some true) :
    Stable q.conjuncts r.assignment ∧ ∀ v ∈ q.vars, r.assignment.contains v := by
  obtain ⟨a', e', hprop, hnext⟩ := search_true h hr
  exact settle_true hq (propagate_spec hq hprop).2 (fun v hv => .inr hv) hnext hr

/-- With all variables assigned, a formula that is not false is true. -/
theorem search_eval_eq_true (hq : q.Covers) (hcs : ∀ c ∈ q.conjuncts, c.IsFormula P)
    (ha : a.TypedOn P) {e : Effort} {r : Result} (h : q.search range a e = .ok r)
    (hr : r.verdict = some true) :
    ∀ c ∈ q.conjuncts, c.eval r.assignment false = some (.bool true) := by
  obtain ⟨hst, hall⟩ := search_stable hq h hr
  exact hst.eval_eq_true (search_typedOn hcs ha h hr) hcs fun c hc v hv => hall v (hq c hc v hv)

/-- What a search leaves behind. Without a model it is the assignment that was given, wherever the
search failed or ran out of steps. A model extends that assignment and assigns all variables. No
conjunct is false in it, and a well-sorted one is true if its variables have values of their types.
If all conjuncts are well-sorted, it is enough that the values that were given have the types of
their variables: the search assigns no others. -/
theorem search_restores {e : Effort} {r : Result} (hq : ofConjuncts cs = .ok q)
    (h : q.search range a e = .ok r) :
    (r.verdict ≠ some true → r.assignment = a) ∧
    (r.verdict = some true → r.assignment.Extends a ∧
      (∀ v ∈ q.vars, r.assignment.contains v = true) ∧
      (∀ c ∈ cs, c.eval r.assignment false ≠ some (.bool false)) ∧
      (∀ c ∈ cs, c.WellSorted → c.ty = .bool →
        (∀ v ∈ c.vars, ∀ x, r.assignment[v]? = some x → x.ty = v.ty) →
        c.eval r.assignment false = some (.bool true)) ∧
      ((∀ c ∈ cs, c.WellSorted ∧ c.ty = .bool) →
        (∀ v ∈ q.vars, ∀ x, a[v]? = some x → x.ty = v.ty) →
        ∀ c ∈ cs, c.eval r.assignment false = some (.bool true))) := by
  have hcovers := covers_ofConjuncts hq
  cases conjuncts_ofConjuncts hq
  constructor
  · intro hr
    rw [search_eq] at h
    exact restores_step q _ a e r h hr
  · intro hr
    obtain ⟨hst, hall⟩ := search_stable hcovers h hr
    refine ⟨search_extends hcovers h hr, hall, hst, fun c hc hsorted hbool htyped => ?_,
      fun hsorted htyped => ?_⟩
    · exact eval_eq_true htyped ⟨hsorted, hbool, fun _ hv => hv⟩
        (fun v hv => hall v (hcovers c hc v hv)) (hst c hc)
    · exact search_eval_eq_true hcovers
        (fun c hc => ⟨(hsorted c hc).1, (hsorted c hc).2, hcovers c hc⟩) htyped h hr

/-- `p`, `y == x + 1` and `z > 0`: two variables are forced and one is tried. -/
def forcedAndTried : List Expr :=
  [varP,
    .cmp .eq varY (.arith .add varX (.num 1)),
    .cmp .lt (.num 0) varZ]

/-- The same with `z < 0`, so that they are forced and tried in vain. -/
def triedInVain : List Expr := forcedAndTried ++ [.cmp .lt varZ (.num 0)]

/-- Only `x` is given. -/
def onlyX : Assignment := (∅ : Assignment).insert varX (.int 1)

/-- What a search that is given an assignment after a number of steps comes to. -/
def searchFrom (a : Assignment) (steps : Nat) (cs : List Expr) : Except Abort Result := do
  let q ← ofConjuncts cs
  q.search 5 a ⟨steps, false⟩

theorem searchFrom_any {steps : Nat} {holds : Result → Bool}
    (h : (searchFrom a steps cs).toOption.any holds = true) :
    ∃ q r, ofConjuncts cs = .ok q ∧ q.search 5 a ⟨steps, false⟩ = .ok r ∧ holds r = true := by
  obtain ⟨r, hrun, hr⟩ := (Option.any_eq_true _ _).1 h
  obtain ⟨q, hq, hsearch⟩ := except_bind_ok.1 (except_toOption_eq_some.1 hrun)
  exact ⟨q, r, hq, hsearch, hr⟩

/-- The search fails, runs out of steps in a nested call, and succeeds. -/
theorem search_restores_onlyX :
    (∃ q r, ofConjuncts triedInVain = .ok q ∧ q.search 5 onlyX ⟨0, false⟩ = .ok r ∧
      r.verdict = some false ∧ r.assignment = onlyX) ∧
    (∃ q r, ofConjuncts triedInVain = .ok q ∧ q.search 5 onlyX ⟨stepLimit - 1, false⟩ = .ok r ∧
      r.verdict = none ∧ r.assignment = onlyX) ∧
    ∃ q r, ofConjuncts forcedAndTried = .ok q ∧ q.search 5 onlyX ⟨0, false⟩ = .ok r ∧
      r.verdict = some true ∧ r.assignment.Extends onlyX ∧
      ∀ c ∈ forcedAndTried, c.eval r.assignment false = some (.bool true) := by
  have hfails : (searchFrom onlyX 0 triedInVain).toOption.any
      (fun r => r.verdict = some false) = true := by decide +kernel
  have hstops : (searchFrom onlyX (stepLimit - 1) triedInVain).toOption.any
      (fun r => r.verdict = none) = true := by decide +kernel
  have hfinds : (searchFrom onlyX 0 forcedAndTried).toOption.any
      (fun r => r.verdict = some true) = true := by decide +kernel
  refine ⟨?_, ?_, ?_⟩
  · obtain ⟨q, r, hq, h, hr⟩ := searchFrom_any hfails
    have hr := of_decide_eq_true hr
    exact ⟨q, r, hq, h, hr, (search_restores hq h).1 (by rw [hr]; decide)⟩
  · obtain ⟨q, r, hq, h, hr⟩ := searchFrom_any hstops
    have hr := of_decide_eq_true hr
    exact ⟨q, r, hq, h, hr, (search_restores hq h).1 (by rw [hr]; decide)⟩
  · obtain ⟨q, r, hq, h, hr⟩ := searchFrom_any hfinds
    have hr := of_decide_eq_true hr
    obtain ⟨hextends, -, -, -, htrue⟩ := (search_restores hq h).2 hr
    refine ⟨q, r, hq, h, hr, hextends, htrue (by decide) fun v _ x hx => ?_⟩
    exact (Assignment.typed_empty.insert rfl) v x hx

/-- `x < 3`. -/
def belowThree : Expr := .cmp .lt varX (.num 3)

/-- A truth value is given for the integer `x`. -/
def truthForX : Assignment := (∅ : Assignment).insert varX (.bool true)

/-- The search succeeds and a well-sorted conjunct has no value, where `x` is given a truth value,
and also from the empty assignment, where another conjunct forces one on it. -/
theorem search_undefined_belowThree : belowThree.WellSorted ∧ belowThree.ty = .bool ∧
    (∃ q r, ofConjuncts [belowThree] = .ok q ∧ q.search 5 truthForX ⟨0, false⟩ = .ok r ∧
      r.verdict = some true ∧ belowThree.eval r.assignment false = none) ∧
    ∃ q r, ofConjuncts [varX, belowThree] = .ok q ∧ q.search 5 ∅ ⟨0, false⟩ = .ok r ∧
      r.verdict = some true ∧ belowThree.eval r.assignment false = none := by
  have hgiven : (searchFrom truthForX 0 [belowThree]).toOption.any (fun r =>
      r.verdict = some true && belowThree.eval r.assignment false = none) = true := by
    decide +kernel
  have hforced : (searchFrom ∅ 0 [varX, belowThree]).toOption.any (fun r =>
      r.verdict = some true && belowThree.eval r.assignment false = none) = true := by
    decide +kernel
  obtain ⟨q, r, hq, h, hr⟩ := searchFrom_any hgiven
  obtain ⟨q', r', hq', h', hr'⟩ := searchFrom_any hforced
  simp only [Bool.and_eq_true, decide_eq_true_eq] at hr hr'
  exact ⟨by decide, rfl, ⟨q, r, hq, h, hr⟩, q', r', hq', h', hr'⟩

end Query

/-! ## Answers -/

/-- The parts of a decision: elimination, the query that is left, and the search. -/
theorem decideAssertions_ok {range : Int128} {es : List Expr} {e e' : Query.Effort}
    {answer : Answer} {model : Option Assignment}
    (h : decideAssertions range es e = .ok (answer, model, e')) :
    ∃ q r, Query.ofConjuncts (Definition.eliminate (es.flatMap Expr.conjuncts)).1 = .ok q ∧
      q.search range ∅ e = .ok r ∧ e' = r.effort ∧
      (answer, model) = match r.verdict with
        | some true => (.sat, some (Definition.restore
            (Definition.eliminate (es.flatMap Expr.conjuncts)).2 r.assignment))
        | some false => (if r.effort.cut then .undefined else .unsat, none)
        | none => (.undefined, none) := by
  obtain ⟨q, hq, h⟩ := except_bind_ok.1 h
  obtain ⟨r, hr, h⟩ := except_bind_ok.1 h
  refine ⟨q, r, hq, hr, ?_⟩
  cases hv : r.verdict with
  | none =>
    simp only [hv] at h
    cases h
    exact ⟨rfl, rfl⟩
  | some b =>
    simp only [hv] at h
    cases b <;> cases h <;> exact ⟨rfl, rfl⟩

/-- A model is what the search found, with the definitions restored. -/
theorem decideAssertions_restore {P : Var → Prop} {range : Int128} {es : List Expr}
    (hes : ∀ e ∈ es, e.IsFormula P) {e e' : Query.Effort} {answer : Answer} {m : Assignment}
    (h : decideAssertions range es e = .ok (answer, some m, e')) :
    ∃ a : Assignment, a.Typed ∧
      a.Models (Definition.eliminate (es.flatMap Expr.conjuncts)).1 ∧
      m = Definition.restore (Definition.eliminate (es.flatMap Expr.conjuncts)).2 a := by
  obtain ⟨q, r, hq, hr, -, hans⟩ := decideAssertions_ok h
  have hleft := Definition.isFormula_eliminate (Expr.IsFormula.flatMap_conjuncts hes)
  have hcs := Query.conjuncts_ofConjuncts hq
  split at hans
  · next hv =>
    cases hans
    have hformulas : ∀ c ∈ q.conjuncts, c.IsFormula fun _ => True := fun c hc =>
      (hleft c (hcs ▸ hc)).mono fun _ _ _ => trivial
    have hempty : Assignment.TypedOn (fun _ => True) ∅ := fun v _ => Assignment.typed_empty v
    refine ⟨r.assignment, fun v => Query.search_typedOn hformulas hempty hr hv v trivial, ?_, rfl⟩
    rw [← hcs]
    exact fun c hc => Expr.eval_true_of_eval
      (Query.search_eval_eq_true (Query.covers_ofConjuncts hq) hformulas hempty hr hv c hc)
  · cases hans
  · cases hans

/-- The answer `sat` comes with a model, and no other answer does. -/
theorem decideAssertions_sat {P : Var → Prop} {range : Int128} {es : List Expr}
    (hes : ∀ e ∈ es, e.IsFormula P) {e e' : Query.Effort} {answer : Answer}
    {model : Option Assignment} (h : decideAssertions range es e = .ok (answer, model, e')) :
    (answer = .sat → ∃ m, model = some m) ∧ ∀ m, model = some m → m.Typed ∧ m.Models es := by
  constructor
  · rintro rfl
    obtain ⟨q, r, -, -, -, hans⟩ := decideAssertions_ok h
    split at hans
    · cases hans
      exact ⟨_, rfl⟩
    · split at hans <;> cases hans
    · cases hans
  · rintro m rfl
    have hconj := Expr.IsFormula.flatMap_conjuncts hes
    obtain ⟨a, ha, hm, rfl⟩ := decideAssertions_restore hes h
    obtain ⟨ht, hm⟩ := Definition.models_restore hconj ha hm
    refine ⟨ht, ?_⟩
    rw [Assignment.models_iff ht hes, ← Env.models_flatMap_conjuncts,
      ← Assignment.models_iff ht hconj]
    exact hm

end Cegar

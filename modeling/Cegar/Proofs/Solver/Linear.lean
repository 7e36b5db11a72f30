import Cegar.Proofs.Solver.Models
import Mathlib.Algebra.BigOperators.Ring.Finset
import Mathlib.Tactic.Ring

/-!
# The meaning of linear terms

A linear term has a value over all integers. The operations on linear terms saturate, so what they
compute is the sum or the multiple only if nothing was replaced by a bound. `AddMulExact` and the
predicates built on it say that of the operations that are performed, and can be decided.

* **`LinearTerm.value_addMul`**: an exact sum of multiples has the value it should have;
* **`Expr.valueIn_of_linear?`**: the linear term of an expression has the expression's value in
  every environment that extends the assignment;
* **`Expr.truth_of_difference?`**: a comparison is one of its linear term with zero, so its truth
  depends on the sign of the term only (`Expr.truth_eq_of_sign`);
* **`Expr.truth_eq_of_comparisons`**: the truth of a formula depends on its boolean variables and on
  the truth of its integer comparisons only;
* **`Expr.eval_of_difference?`**: the evaluation of a comparison agrees with its linear term, if
  neither saturates; it need not if the linear term does (`Expr.eval_disagrees_pastMax`).
-/

namespace Cegar

namespace LinearTerm

/-! ## Coefficients -/

/-- The coefficient of a variable, zero if it is left out. -/
def coeff (t : LinearTerm) (v : Var) : Int := (t.coeffs.getD v 0).val

theorem coeff_eq_of_getElem? {t : LinearTerm} {v : Var} {c : Int128} (h : t.coeffs[v]? = some c) :
    t.coeff v = c.val := by
  rw [coeff, Std.ExtTreeMap.getD_eq_getD_getElem?, h]
  rfl

theorem coeff_eq_zero {t : LinearTerm} {v : Var} (h : v ∉ t.coeffs.keys) : t.coeff v = 0 := by
  rw [Std.ExtTreeMap.mem_keys] at h
  rw [coeff, Std.ExtTreeMap.getD_eq_fallback h]
  rfl

theorem mem_keys_of_coeff {t : LinearTerm} {v : Var} (h : t.coeff v ≠ 0) : v ∈ t.coeffs.keys :=
  Decidable.byContradiction fun hnot => h (coeff_eq_zero hnot)

@[simp] theorem coeff_ofConst (n : Int128) (v : Var) : (ofConst n).coeff v = 0 := by
  refine coeff_eq_zero ?_
  rw [Std.ExtTreeMap.mem_keys]
  exact Std.ExtTreeMap.not_mem_empty

theorem coeff_ofVar (v w : Var) : (ofVar v).coeff w = if w = v then 1 else 0 := by
  have hget : (ofVar v).coeffs.getD w 0 = if w = v then 1 else 0 := by
    rw [ofVar, Std.ExtTreeMap.getD_insert]
    by_cases h : w = v
    · rw [h, if_pos Std.ReflCmp.compare_self, if_pos rfl]
    · have hne : ¬ compare v w = .eq := by
        rw [Std.LawfulEqOrd.compare_eq_iff_eq]
        exact Ne.symm h
      rw [if_neg hne, if_neg h]
      exact Std.ExtTreeMap.getD_empty
  rw [coeff, hget]
  split <;> rfl

/-! ## Sums of multiples -/

/-- Neither a product nor a sum of coefficients or constants in `t + k * u` is replaced by a
bound. -/
structure AddMulExact (t u : LinearTerm) (k : Int128) : Prop where
  mul : ∀ p ∈ u.coeffs.toList, (p.2 * k).val = p.2.val * k.val
  add : ∀ p ∈ u.coeffs.toList,
    (t.coeffs.getD p.1 0 + p.2 * k).val = (t.coeffs.getD p.1 0).val + (p.2 * k).val
  mul_const : (u.const * k).val = u.const.val * k.val
  add_const : (t.const + u.const * k).val = t.const.val + (u.const * k).val

instance (t u : LinearTerm) (k : Int128) : Decidable (t.AddMulExact u k) :=
  decidable_of_iff (_ ∧ _ ∧ _ ∧ _)
    ⟨fun h => ⟨h.1, h.2.1, h.2.2.1, h.2.2.2⟩, fun h => ⟨h.mul, h.add, h.mul_const, h.add_const⟩⟩

section Fold

variable {k : Int128} {l : List (Var × Int128)} {m : Std.ExtTreeMap Var Int128} {v : Var}

/-- Variables that do not occur in the second term keep their coefficients. -/
theorem getD_foldl_of_ne (hv : ∀ p ∈ l, p.1 ≠ v) :
    (l.foldl (fun m p => m.insert p.1 (m.getD p.1 0 + p.2 * k)) m).getD v 0 = m.getD v 0 := by
  induction l generalizing m with
  | nil => rfl
  | cons p l ih =>
    have hp : ¬ compare p.1 v = .eq := by
      rw [Std.LawfulEqOrd.compare_eq_iff_eq]
      exact hv p (by simp)
    rw [List.foldl_cons, ih fun q hq => hv q (by simp [hq]), Std.ExtTreeMap.getD_insert, if_neg hp]

/-- Every variable is visited once, so it gets one multiple added. -/
theorem getD_foldl_of_mem (hl : l.Pairwise fun p q => p.1 ≠ q.1) {c : Int128} (hv : (v, c) ∈ l) :
    (l.foldl (fun m p => m.insert p.1 (m.getD p.1 0 + p.2 * k)) m).getD v 0 =
      m.getD v 0 + c * k := by
  induction l generalizing m with
  | nil => cases hv
  | cons p l ih =>
    obtain ⟨hp, hl⟩ := List.pairwise_cons.1 hl
    rw [List.foldl_cons]
    rcases List.mem_cons.1 hv with rfl | hv
    · rw [getD_foldl_of_ne fun q hq => (hp q hq).symm, Std.ExtTreeMap.getD_insert,
        if_pos Std.ReflCmp.compare_self]
    · have hne : ¬ compare p.1 v = .eq := by
        rw [Std.LawfulEqOrd.compare_eq_iff_eq]
        exact hp _ hv
      rw [ih hl hv, Std.ExtTreeMap.getD_insert, if_neg hne]

/-- Leaving out zeros changes no coefficient. -/
theorem getD_filter_ne_zero : (m.filter fun _ c => c ≠ 0).getD v 0 = m.getD v 0 := by
  rw [Std.ExtTreeMap.getD_eq_getD_getElem?, Std.ExtTreeMap.getElem?_filter',
    Std.ExtTreeMap.getD_eq_getD_getElem?]
  cases m[v]? with
  | none => rfl
  | some c =>
    by_cases hc : c = 0 <;> simp [Option.filter_some, hc]

end Fold

theorem pairwise_toList (u : LinearTerm) : u.coeffs.toList.Pairwise fun p q => p.1 ≠ q.1 := by
  refine Std.ExtTreeMap.distinct_keys_toList.imp fun h heq => h ?_
  rw [heq]
  exact Std.ReflCmp.compare_self

/-- The coefficients of `t + k * u`, where nothing saturates. -/
theorem coeff_addMul {t u : LinearTerm} {k : Int128} (h : t.AddMulExact u k) (v : Var) :
    (t.addMul u k).coeff v = t.coeff v + u.coeff v * k.val := by
  rw [coeff, addMul, getD_filter_ne_zero, Std.ExtTreeMap.foldl_eq_foldl_toList]
  cases hv : u.coeffs[v]? with
  | none =>
    have hnot : v ∉ u.coeffs.keys := by
      rw [Std.ExtTreeMap.mem_keys, ← Std.ExtTreeMap.isSome_getElem?_iff_mem, hv]
      simp
    have hne : ∀ p ∈ u.coeffs.toList, p.1 ≠ v := by
      intro p hp heq
      refine hnot ?_
      rw [← Std.ExtTreeMap.map_fst_toList_eq_keys, ← heq]
      exact List.mem_map_of_mem hp
    rw [getD_foldl_of_ne hne, coeff_eq_zero hnot, zero_mul, add_zero, coeff]
  | some c =>
    have hmem : (v, c) ∈ u.coeffs.toList := Std.ExtTreeMap.mem_toList_iff_getElem?_eq_some.2 hv
    rw [getD_foldl_of_mem u.pairwise_toList hmem, coeff_eq_of_getElem? hv, coeff,
      h.add _ hmem, h.mul _ hmem]

/-! ## Values -/

/-- The value over all integers. -/
def value (t : LinearTerm) (ρ : Env Int) : Int :=
  t.const.val + ∑ v ∈ t.coeffs.keys.toFinset, t.coeff v * (ρ.val v).toInt

variable {ρ : Env Int}

/-- The sum may be taken over any variables among which are those with a coefficient. -/
theorem value_eq_sum {t : LinearTerm} (S : Finset Var) (hS : ∀ v, t.coeff v ≠ 0 → v ∈ S) :
    t.value ρ = t.const.val + ∑ v ∈ S, t.coeff v * (ρ.val v).toInt := by
  have hkeys : ∑ v ∈ t.coeffs.keys.toFinset, t.coeff v * (ρ.val v).toInt =
      ∑ v ∈ t.coeffs.keys.toFinset ∪ S, t.coeff v * (ρ.val v).toInt := by
    refine Finset.sum_subset Finset.subset_union_left fun v _ hv => ?_
    rw [coeff_eq_zero (by simpa using hv), zero_mul]
  have hsum : ∑ v ∈ S, t.coeff v * (ρ.val v).toInt =
      ∑ v ∈ t.coeffs.keys.toFinset ∪ S, t.coeff v * (ρ.val v).toInt := by
    refine Finset.sum_subset Finset.subset_union_right fun v _ hv => ?_
    have hzero : t.coeff v = 0 := Decidable.byContradiction fun hne => hv (hS v hne)
    rw [hzero, zero_mul]
  rw [value, hkeys, hsum]

/-- The sum taken entry by entry. -/
theorem value_eq_sum_toList (t : LinearTerm) (ρ : Env Int) :
    t.value ρ =
      t.const.val + (t.coeffs.toList.map fun p => p.2.val * (ρ.val p.1).toInt).sum := by
  have hentries : t.coeffs.toList.map (fun p => t.coeff p.1 * (ρ.val p.1).toInt) =
      t.coeffs.toList.map fun p => p.2.val * (ρ.val p.1).toInt := by
    refine List.map_congr_left fun p hp => ?_
    rw [coeff_eq_of_getElem? (Std.ExtTreeMap.mem_toList_iff_getElem?_eq_some.1 hp)]
  rw [value, List.sum_toFinset _ Std.ExtTreeMap.nodup_keys,
    ← Std.ExtTreeMap.map_fst_toList_eq_keys, List.map_map, ← hentries]
  rfl

@[simp] theorem value_ofConst (n : Int128) : (ofConst n).value ρ = n.val := by
  rw [value_eq_sum ∅ fun v hv => absurd (coeff_ofConst n v) hv, Finset.sum_empty, add_zero]
  rfl

@[simp] theorem value_ofVar (v : Var) : (ofVar v).value ρ = (ρ.val v).toInt := by
  have hS : ∀ w, (ofVar v).coeff w ≠ 0 → w ∈ ({v} : Finset Var) := by
    intro w hw
    rw [coeff_ofVar] at hw
    rw [Finset.mem_singleton]
    exact Decidable.byContradiction fun hne => hw (if_neg hne)
  have hconst : (ofVar v).const.val = 0 := rfl
  rw [value_eq_sum {v} hS, Finset.sum_singleton, coeff_ofVar, if_pos rfl, one_mul, hconst, zero_add]

/-- A term without variables is its constant. -/
theorem value_of_isEmpty {t : LinearTerm} (h : t.coeffs.isEmpty = true) :
    t.value ρ = t.const.val := by
  obtain ⟨coeffs, const⟩ := t
  cases Std.ExtTreeMap.isEmpty_iff.1 h
  exact value_ofConst const

/-- The value of `t + k * u`, where nothing saturates. -/
theorem value_addMul {t u : LinearTerm} {k : Int128} (h : t.AddMulExact u k) :
    (t.addMul u k).value ρ = t.value ρ + u.value ρ * k.val := by
  -- all three sums are taken over the variables of both terms
  let S := t.coeffs.keys.toFinset ∪ u.coeffs.keys.toFinset
  have ht : ∀ v, t.coeff v ≠ 0 → v ∈ S := fun v hv =>
    Finset.mem_union_left _ (List.mem_toFinset.2 (mem_keys_of_coeff hv))
  have hu : ∀ v, u.coeff v ≠ 0 → v ∈ S := fun v hv =>
    Finset.mem_union_right _ (List.mem_toFinset.2 (mem_keys_of_coeff hv))
  have hadd : ∀ v, (t.addMul u k).coeff v ≠ 0 → v ∈ S := by
    intro v hv
    rw [coeff_addMul h] at hv
    by_cases hzero : t.coeff v = 0
    · refine hu v fun hz => hv ?_
      rw [hzero, hz, zero_mul, add_zero]
    · exact ht v hzero
  have hconst : (t.addMul u k).const.val = t.const.val + u.const.val * k.val := by
    rw [addMul, h.add_const, h.mul_const]
  rw [value_eq_sum S hadd, value_eq_sum S ht, value_eq_sum S hu, hconst, add_mul, Finset.sum_mul]
  have hsum : ∑ v ∈ S, (t.addMul u k).coeff v * (ρ.val v).toInt =
      ∑ v ∈ S, t.coeff v * (ρ.val v).toInt + ∑ v ∈ S, u.coeff v * (ρ.val v).toInt * k.val := by
    rw [← Finset.sum_add_distrib]
    refine Finset.sum_congr rfl fun v _ => ?_
    rw [coeff_addMul h]
    ring
  rw [hsum]
  ring

/-- The value of a multiple, where nothing saturates. -/
theorem value_scale {t : LinearTerm} {k : Int128} (h : (ofConst 0).AddMulExact t k) :
    (t.scale k).value ρ = t.value ρ * k.val := by
  have hzero : (0 : Int128).val = 0 := rfl
  rw [scale, value_addMul h, value_ofConst, hzero, zero_add]

/-- A product is linear if one factor has no variables. -/
theorem value_mul {t u w : LinearTerm}
    (h : (if t.coeffs.isEmpty then some (u.scale t.const)
      else if u.coeffs.isEmpty then some (t.scale u.const) else none) = some w)
    (hx : if t.coeffs.isEmpty then (ofConst 0).AddMulExact u t.const
      else if u.coeffs.isEmpty then (ofConst 0).AddMulExact t u.const else True) :
    w.value ρ = t.value ρ * u.value ρ := by
  by_cases ht : t.coeffs.isEmpty = true
  · rw [if_pos ht] at h hx
    cases h
    rw [value_scale hx, value_of_isEmpty ht, mul_comm]
  · rw [if_neg ht] at h hx
    by_cases hu : u.coeffs.isEmpty = true
    · rw [if_pos hu] at h hx
      cases h
      rw [value_scale hx, value_of_isEmpty hu]
    · rw [if_neg hu] at h
      cases h

end LinearTerm

/-! ## Linear terms of expressions -/

namespace Expr

/-- No operation that `linear?` performs replaces its result by a bound. The second operand is
looked at only if the first one is linear. -/
def LinearExact (a : Assignment) : Expr → Prop
  | .arith op l r => l.LinearExact a ∧ ∀ t ∈ l.linear? a, r.LinearExact a ∧ ∀ u ∈ r.linear? a,
      match op with
      | .add => t.AddMulExact u 1
      | .sub => t.AddMulExact u (-1)
      | .mul =>
        if t.coeffs.isEmpty then (LinearTerm.ofConst 0).AddMulExact u t.const
        else if u.coeffs.isEmpty then (LinearTerm.ofConst 0).AddMulExact t u.const
        else True
  | .neg e => e.LinearExact a ∧ ∀ t ∈ e.linear? a, (LinearTerm.ofConst 0).AddMulExact t (-1)
  | _ => True

instance decidableLinearExact (a : Assignment) : (e : Expr) → Decidable (e.LinearExact a)
  | .arith .add l r | .arith .sub l r | .arith .mul l r =>
    have := decidableLinearExact a l
    have := decidableLinearExact a r
    inferInstanceAs (Decidable (_ ∧ _))
  | .neg e =>
    have := decidableLinearExact a e
    inferInstanceAs (Decidable (_ ∧ _))
  | .bool _ | .num _ | .var _ | .cmp _ _ _ | .logic _ _ _ | .not _ => isTrue trivial

/-- The same for the difference of the sides of a comparison. -/
def DifferenceExact (a : Assignment) : Expr → Prop
  | .cmp _ l r => l.LinearExact a ∧ ∀ t ∈ l.linear? a, r.LinearExact a ∧
      ∀ u ∈ r.linear? a, t.AddMulExact u (-1)
  | _ => True

instance (a : Assignment) : (e : Expr) → Decidable (e.DifferenceExact a)
  | .cmp _ _ _ => inferInstanceAs (Decidable (_ ∧ _))
  | .bool _ | .num _ | .var _ | .arith _ _ _ | .neg _ | .logic _ _ _ | .not _ => isTrue trivial

variable {a : Assignment} {ρ ρ' : Env Int}

/-- Both operands of a linear expression are linear. -/
theorem exists_linear?_of_arith {op : ArithOp} {l r : Expr} {t : LinearTerm}
    (h : (Expr.arith op l r).linear? a = some t) :
    ∃ tl tr, l.linear? a = some tl ∧ r.linear? a = some tr := by
  cases op <;>
  · obtain ⟨tl, hl, h⟩ := Option.bind_eq_some_iff.1 h
    obtain ⟨tr, hr, -⟩ := Option.bind_eq_some_iff.1 h
    exact ⟨tl, tr, hl, hr⟩

theorem exists_linear?_of_neg {e : Expr} {t : LinearTerm} (h : (Expr.neg e).linear? a = some t) :
    ∃ u, e.linear? a = some u ∧ t = u.scale (-1) := by
  obtain ⟨u, hu, h⟩ := Option.bind_eq_some_iff.1 h
  exact ⟨u, hu, (Option.some.inj h).symm⟩

/-- The value of an expression is that of its linear term. -/
theorem valueIn_of_linear? (hρ : ρ.Extends a) {e : Expr} (hx : e.LinearExact a) {t : LinearTerm}
    (h : e.linear? a = some t) : e.valueIn ρ = .int (t.value ρ) := by
  have hone : (1 : Int128).val = 1 := rfl
  have hminus : (-1 : Int128).val = -1 := rfl
  induction e generalizing t with
  | num n =>
    cases h
    rw [LinearTerm.value_ofConst]
    rfl
  | var v =>
    simp only [linear?] at h
    split at h
    · next n _ hv =>
      cases h
      rw [LinearTerm.value_ofConst]
      exact hρ v _ hv
    · next hty _ =>
      cases h
      rw [LinearTerm.value_ofVar]
      exact Datum.eq_int_of_ty (by rw [ty_valueIn]; exact hty)
    · cases h
  | arith op l r ihl ihr =>
    obtain ⟨tl, tr, hl, hr⟩ := exists_linear?_of_arith h
    obtain ⟨hxr, hop⟩ := hx.2 tl hl
    have hvl := ihl hx.1 hl
    have hvr := ihr hxr hr
    have hexact := hop tr hr
    rw [valueIn, hvl, hvr]
    congr 1
    show op.exact (tl.value ρ) (tr.value ρ) = _
    cases op with
    | add =>
      cases (show some (tl.addMul tr 1) = some t by simpa [linear?, hl, hr] using h)
      rw [LinearTerm.value_addMul hexact, hone, mul_one]
      rfl
    | sub =>
      cases (show some (tl.addMul tr (-1)) = some t by simpa [linear?, hl, hr] using h)
      rw [LinearTerm.value_addMul hexact, hminus]
      show tl.value ρ - tr.value ρ = _
      ring
    | mul =>
      simp only [linear?, hl, hr, Option.bind_eq_bind, Option.bind_some] at h
      exact (LinearTerm.value_mul h hexact).symm
  | neg e ih =>
    obtain ⟨u, he, rfl⟩ := exists_linear?_of_neg h
    have hv := ih hx.1 he
    rw [valueIn, hv, LinearTerm.value_scale (hx.2 u he), hminus]
    show Datum.int (-u.value ρ) = _
    congr 1
    ring
  | bool | cmp | logic | not => cases h

/-! ## Comparisons -/

/-- A comparison depends on the sign of the difference only. -/
theorem holdsExactly_congr {op : CmpOp} {m n m' n' : Int} (h : (m - n).sign = (m' - n').sign) :
    op.holdsExactly m n = op.holdsExactly m' n' := by
  have hlt : m < n ↔ m' < n' := by
    have hneg : m - n < 0 ↔ m' - n' < 0 := by
      rw [← Int.sign_eq_neg_one_iff_neg, h, Int.sign_eq_neg_one_iff_neg]
    omega
  have heq : m = n ↔ m' = n' := by
    have hzero : m - n = 0 ↔ m' - n' = 0 := by
      rw [← Int.sign_eq_zero_iff_zero, h, Int.sign_eq_zero_iff_zero]
    omega
  have hle : m ≤ n ↔ m' ≤ n' := by omega
  have hgt : n < m ↔ n' < m' := by omega
  have hge : n ≤ m ↔ n' ≤ m' := by omega
  cases op <;> simp [CmpOp.holdsExactly, hlt, heq, hle, hgt, hge]

/-- A comparison is a comparison of its linear term with zero. -/
theorem truth_of_difference? (hρ : ρ.Extends a) {op : CmpOp} {l r : Expr}
    (hx : (Expr.cmp op l r).DifferenceExact a) {t : LinearTerm}
    (h : (Expr.cmp op l r).difference? a = some t) :
    (Expr.cmp op l r).truth ρ = op.holdsExactly (t.value ρ) 0 := by
  have hminus : (-1 : Int128).val = -1 := rfl
  obtain ⟨tl, hl, h⟩ := Option.bind_eq_some_iff.1 h
  obtain ⟨tr, hr, h⟩ := Option.bind_eq_some_iff.1 h
  obtain ⟨hxr, hop⟩ := hx.2 tl hl
  cases h
  have hsides : (Expr.cmp op l r).truth ρ = op.holdsExactly (tl.value ρ) (tr.value ρ) := by
    rw [truth, valueIn, valueIn_of_linear? hρ hx.1 hl, valueIn_of_linear? hρ hxr hr]
    cases op <;> rfl
  rw [hsides, LinearTerm.value_addMul (hop tr hr), hminus]
  refine holdsExactly_congr (congrArg Int.sign ?_)
  ring

/-- The truth of a comparison depends on the sign of the difference of its sides. -/
theorem truth_eq_of_sign (hρ : ρ.Extends a) (hρ' : ρ'.Extends a) {c : Expr}
    (hx : c.DifferenceExact a) {t : LinearTerm} (h : c.difference? a = some t)
    (hsign : (t.value ρ).sign = (t.value ρ').sign) : c.truth ρ = c.truth ρ' := by
  cases c with
  | cmp op l r =>
    rw [truth_of_difference? hρ hx h, truth_of_difference? hρ' hx h]
    refine holdsExactly_congr ?_
    rwa [sub_zero, sub_zero]
  | _ => cases h

/-- The truth of a formula depends on its boolean variables and its integer comparisons. -/
theorem truth_eq_of_comparisons {e : Expr} (hs : e.WellSorted) (hb : e.ty = .bool)
    (hvars : ∀ v ∈ e.vars, v.ty = .bool → ρ.val v = ρ'.val v)
    (hcmp : ∀ c ∈ e.comparisons, c.truth ρ = c.truth ρ') : e.truth ρ = e.truth ρ' := by
  induction e with
  | bool b => rfl
  | num | arith | neg => cases hb
  | var v =>
    have hv := hvars v (by simp) hb
    rw [truth, truth, valueIn, valueIn, hv]
  | not e ih => rw [truth_not, truth_not, ih hs.2 hs.1 (by simpa using hvars) hcmp]
  | logic op l r ihl ihr =>
    have hl := ihl hs.2.2.1 hs.1 (fun v hv => hvars v (by simp [hv])) fun c hc =>
      hcmp c (List.mem_append_left _ hc)
    have hr := ihr hs.2.2.2 hs.2.1 (fun v hv => hvars v (by simp [hv])) fun c hc =>
      hcmp c (List.mem_append_right _ hc)
    rw [truth_logic, truth_logic, hl, hr]
  | cmp op l r ihl ihr =>
    by_cases hty : l.ty = .bool
    · have hlist : (Expr.cmp op l r).comparisons = l.comparisons ++ r.comparisons := by
        rcases hs.2.1 hty with rfl | rfl <;> simp [comparisons, hty]
      rw [hlist] at hcmp
      have hl := ihl hs.2.2.1 hty (fun v hv => hvars v (by simp [hv])) fun c hc =>
        hcmp c (List.mem_append_left _ hc)
      have hr := ihr hs.2.2.2 (hs.1 ▸ hty) (fun v hv => hvars v (by simp [hv])) fun c hc =>
        hcmp c (List.mem_append_right _ hc)
      rw [truth, truth, valueIn, valueIn, valueIn_eq_bool hty, valueIn_eq_bool hty,
        valueIn_eq_bool (hs.1 ▸ hty), valueIn_eq_bool (hs.1 ▸ hty), hl, hr]
    · refine hcmp _ ?_
      cases op <;> simp [comparisons, hty]

end Expr

/-! ## Evaluation -/

namespace Assignment

/-- The environment over all integers in which variables have the values that they are assigned. A
variable that is assigned no value of its type is zero or false. -/
def exactEnv (a : Assignment) : Env Int where
  val v := .ofValue ((a[v]?.filter (·.ty = v.ty)).getD v.ty.default)
  typed v := by
    rw [Datum.ty_ofValue]
    cases h : a[v]?.filter (·.ty = v.ty) with
    | none => cases hty : v.ty <;> rfl
    | some x => simpa using (Option.filter_eq_some_iff.1 h).2

/-- An integer variable has the value that it is assigned. -/
theorem val_exactEnv {a : Assignment} {v : Var} {n : Int128} (hv : a[v]? = some (.int n))
    (hty : v.ty = .int) : a.exactEnv.val v = .int n.val := by
  have hkept : (some (Datum.int n : Value)).filter (·.ty = v.ty) = some (.int n) :=
    Option.filter_some_pos (decide_eq_true hty.symm)
  show Datum.ofValue ((a[v]?.filter _).getD _) = _
  rw [hv, hkept]
  rfl

end Assignment

namespace Expr

variable {a : Assignment}

/-- A linear expression whose variables are assigned integers has a value, and if no operation of
its evaluation saturates that is the value over all integers. -/
theorem eval_of_linear? {e : Expr} {t : LinearTerm} (h : e.linear? ∅ = some t)
    (ha : ∀ v ∈ e.vars, ∃ n, a[v]? = some (.int n)) (hf : e.Faithful Int a) :
    ∃ n, e.eval a false = some (.int n) ∧ e.valueIn a.exactEnv = .int n.val := by
  induction e generalizing t with
  | num n => exact ⟨n, rfl, rfl⟩
  | var v =>
    obtain ⟨n, hn⟩ := ha v (by simp)
    have hty : v.ty = .int := by
      simp only [linear?] at h
      split at h
      · assumption
      · assumption
      · cases h
    exact ⟨n, by simp [eval, hn], Assignment.val_exactEnv hn hty⟩
  | arith op l r ihl ihr =>
    obtain ⟨tl, tr, hl, hr⟩ := exists_linear?_of_arith h
    obtain ⟨m, hm, hvl⟩ := ihl hl (fun v hv => ha v (by simp [hv])) hf.1
    obtain ⟨hfr, hop⟩ := hf.2 m hm
    obtain ⟨n, hn, hvr⟩ := ihr hr (fun v hv => ha v (by simp [hv])) hfr
    have hexact : (op.apply m n).val = op.exact m.val n.val := hop n hn
    refine ⟨op.apply m n, eval_arith_eq_some.2 ⟨m, n, hm, hn, rfl⟩, ?_⟩
    rw [valueIn, hvl, hvr, hexact]
    rfl
  | neg e ih =>
    obtain ⟨u, he, -⟩ := exists_linear?_of_neg h
    obtain ⟨n, hn, hv⟩ := ih he (fun v hv => ha v (by simpa using hv)) hf.1
    have hexact : (-n).val = -n.val := hf.2 n hn
    refine ⟨-n, eval_neg_eq_some.2 ⟨n, hn, rfl⟩, ?_⟩
    rw [valueIn, hv, hexact]
    rfl
  | bool | cmp | logic | not => cases h

/-- If no operation on the way saturates, neither of the evaluation nor of the linear term, then a
comparison evaluates to what the comparison of its linear term with zero comes to. -/
theorem eval_of_difference? {op : CmpOp} {l r : Expr} {t : LinearTerm}
    (h : (Expr.cmp op l r).difference? ∅ = some t) (hx : (Expr.cmp op l r).DifferenceExact ∅)
    (ha : ∀ v ∈ (Expr.cmp op l r).vars, ∃ n, a[v]? = some (.int n))
    (hf : (Expr.cmp op l r).Faithful Int a) :
    (Expr.cmp op l r).eval a false = some (.bool (op.holdsExactly (t.value a.exactEnv) 0)) := by
  rw [← truth_of_difference? a.exactEnv.extends_empty hx h]
  obtain ⟨tl, hl, h⟩ := Option.bind_eq_some_iff.1 h
  obtain ⟨tr, hr, -⟩ := Option.bind_eq_some_iff.1 h
  obtain ⟨m, hm, hvl⟩ := eval_of_linear? hl (fun v hv => ha v (by simp [hv])) hf.1
  obtain ⟨n, hn, hvr⟩ :=
    eval_of_linear? hr (fun v hv => ha v (by simp [hv])) (hf.2 (by simp [hm]))
  have htruth : (Expr.cmp op l r).truth a.exactEnv = op.holds m n := by
    rw [truth, valueIn, hvl, hvr]
    exact Arithmetic.holds_num (ι := Int) op m n
  rw [htruth]
  cases op <;> simp [eval, hm, hn, CmpOp.apply, CmpOp.holds]

/-- `2 * (x - 3)` compared with `-y`. -/
def skewed (op : CmpOp) : Expr :=
  .cmp op (.arith .mul (.num 2) (.arith .sub varX (.num 3)))
    (.neg varY)

/-- Assigns `5` to `x` and `-7` to `y`. -/
def skewedPoint : Assignment :=
  ((∅ : Assignment).insert varX (.int 5)).insert varY (.int (-7))

theorem eval_of_difference?_skewed :
    ∃ t, (skewed .le).difference? ∅ = some t ∧ (skewed .le).DifferenceExact ∅ ∧
      (skewed .le).Faithful Int skewedPoint ∧ t.value skewedPoint.exactEnv = -3 ∧
      (skewed .le).eval skewedPoint false =
        some (.bool (CmpOp.le.holdsExactly (t.value skewedPoint.exactEnv) 0)) := by
  have hterm : ((skewed .le).difference? ∅).any
      (fun t => t.value skewedPoint.exactEnv = -3) = true := by decide +kernel
  obtain ⟨t, ht, hvalue⟩ := (Option.any_eq_true _ _).1 hterm
  have hx : (skewed .le).DifferenceExact ∅ := by decide +kernel
  have hf : (skewed .le).Faithful Int skewedPoint := by decide +kernel
  refine ⟨t, ht, hx, hf, of_decide_eq_true hvalue, eval_of_difference? ht hx (fun v hv => ?_) hf⟩
  have hvars : v = varX ∨ v = varY := by simpa [skewed] using hv
  rcases hvars with rfl | rfl
  · exact ⟨5, by decide +kernel⟩
  · exact ⟨-7, by decide +kernel⟩

/-- `x + max + 10 = max - 1`, where `max` is the greatest integer. -/
def pastMax : Expr :=
  .eq (.arith .add (.arith .add varX (.num (.clamp Int128.maxVal))) (.num 10))
    (.num (.clamp (Int128.maxVal - 1)))

/-- Assigns `-11` to `x`. -/
def pastMaxPoint : Assignment := (∅ : Assignment).insert varX (.int (-11))

/-- The linear term may saturate although the evaluation does not. Then the two disagree, and a
comparison that is true is refuted. -/
theorem eval_disagrees_pastMax :
    pastMax.WellSorted ∧ pastMax.Faithful Int pastMaxPoint ∧
      pastMax.eval pastMaxPoint false = some (.bool true) ∧
      (∃ t, pastMax.difference? ∅ = some t ∧
        CmpOp.eq.holdsExactly (t.value pastMaxPoint.exactEnv) 0 = false) ∧
      (decideAssertions 16 [pastMax] .zero).toOption.map Prod.fst = some .unsat := by
  have hterm : (pastMax.difference? ∅).any (fun t =>
      CmpOp.eq.holdsExactly (t.value pastMaxPoint.exactEnv) 0 = false) = true := by decide +kernel
  obtain ⟨t, ht, hvalue⟩ := (Option.any_eq_true _ _).1 hterm
  refine ⟨by decide +kernel, by decide +kernel, by decide +kernel, ?_, by decide +kernel⟩
  exact ⟨t, ht, of_decide_eq_true hvalue⟩

end Expr

end Cegar

import Cegar.Proofs.Solver.Linear
import Mathlib.Data.Finset.Max

/-!
# Values next to which comparisons change

If the comparisons with a variable `x` are linear in it and mention no other open variable, then
each of them is `a * x + k` against zero and changes around `-k / a` only. A solution keeps all its
comparisons when `x` is moved to a listed value without crossing another one: up to the next listed
value, or down to the greatest one if there is none above.

* **`exists_representative`**: the listed value to move to;
* **`Query.sign_turning`**: a comparison comes out the same there;
* **`Query.exists_criticalValue`**: the critical value that stands for an integer;
* **`Env.Models.exists_critical`**: a solution with one of the critical values;
* **`Query.criticalValues_represent`**: critical values stand for all integers.
-/

namespace Cegar

/-! ## Representatives -/

/-- `r` is on the same side as `n` of every integer of the list, or on it. -/
def Represents (values : List Int128) (n r : Int) : Prop :=
  ∀ l ∈ values, (n ≤ l.val → r ≤ l.val) ∧ (l.val ≤ n → l.val ≤ r)

/-- Every integer is represented by the value next to it, or by one beyond all others. -/
theorem exists_representative {values : List Int128} (hne : values ≠ []) (n : Int) :
    ∃ r ∈ values, Represents values n r.val := by
  by_cases habove : ∃ l ∈ values, n ≤ l.val
  · -- the least value that is not below `n`
    have hfin : ((values.filter fun l => n ≤ l.val).toFinset).Nonempty := by
      obtain ⟨l, hl, hn⟩ := habove
      exact ⟨l, by simp [hl, hn]⟩
    obtain ⟨r, hr, hmin⟩ := Finset.exists_min_image _ Int128.val hfin
    have hr : r ∈ values ∧ n ≤ r.val := by simpa using hr
    refine ⟨r, hr.1, fun l hl => ⟨fun hn => hmin l (by simp [hl, hn]), fun hn => ?_⟩⟩
    have := hr.2
    omega
  · -- the greatest value
    have hfin : (values.toFinset).Nonempty := by
      obtain ⟨l, hl⟩ := List.exists_mem_of_ne_nil values hne
      exact ⟨l, by simp [hl]⟩
    obtain ⟨r, hr, hmax⟩ := Finset.exists_max_image _ Int128.val hfin
    refine ⟨r, by simpa using hr, fun l hl => ⟨fun hn => ?_, fun _ => hmax l (by simpa using hl)⟩⟩
    exact absurd ⟨l, hl, hn⟩ habove

/-! ## Turning points -/

/-- Dividing by a positive integer never saturates. -/
theorem Int128.val_ediv {a b : Int128} (hb : 0 < b.val) : (a.ediv b).val = a.val / b.val := by
  have hmin := a.min_le
  have hmax := a.le_max
  have hneg : minVal ≤ 0 := by decide
  have hpos : 0 ≤ maxVal := by decide
  refine Int128.val_clamp_of_fits ?_ ?_
  · rw [Int.le_ediv_iff_mul_le hb]
    have hmul : minVal * b.val ≤ minVal * 1 := Int.mul_le_mul_of_nonpos_left hneg (by omega)
    omega
  · refine Int.ediv_le_of_le_mul hb ?_
    have hmul : maxVal * 1 ≤ maxVal * b.val := Int.mul_le_mul_of_nonneg_left (by omega) hpos
    omega

/-- Around the quotient `n / b` the sign of `b * x - n` is constant, up to it and from it on. -/
theorem sign_mul_sub_of_ediv {b n x r : Int} (hb : 0 < b) (hbelow : x ≤ n / b - 1 → r ≤ n / b - 1)
    (hat : x = n / b → r = n / b) (habove : n / b + 1 ≤ x → n / b + 1 ≤ r) :
    (b * x - n).sign = (b * r - n).sign := by
  have hlow : n / b * b ≤ n := Int.ediv_mul_le n (by omega)
  have hhigh : n < (n / b + 1) * b := Int.lt_ediv_add_one_mul_self n hb
  have hneg {y : Int} (hy : y ≤ n / b - 1) : (b * y - n).sign = -1 := by
    have hmul : b * y ≤ b * (n / b - 1) := Int.mul_le_mul_of_nonneg_left hy (by omega)
    refine Int.sign_eq_neg_one_of_neg ?_
    have hexpand : b * (n / b - 1) = n / b * b - b := by ring
    omega
  have hpos {y : Int} (hy : n / b + 1 ≤ y) : (b * y - n).sign = 1 := by
    have hmul : b * (n / b + 1) ≤ b * y := Int.mul_le_mul_of_nonneg_left hy (by omega)
    refine Int.sign_eq_one_of_pos ?_
    have hexpand : b * (n / b + 1) = (n / b + 1) * b := by ring
    omega
  rcases lt_trichotomy x (n / b) with h | h | h
  · rw [hneg (by omega), hneg (hbelow (by omega))]
  · rw [h, hat h]
  · rw [hpos (by omega), hpos (habove (by omega))]

namespace Query

/-- Nothing that `turningValues` computes is replaced by a bound. -/
def TurningExact (a k : Int128) : Prop :=
  (¬ a < 0 → (-k).val = -k.val) ∧ ∀ f ∈ (turningFloor a k).toOption,
    (f - 1).val = f.val - 1 ∧ (f + 1).val = f.val + 1 ∧ (f + 2).val = f.val + 2

instance (a k : Int128) : Decidable (TurningExact a k) := inferInstanceAs (Decidable (_ ∧ _))

/-- The last integer on the near side of the turning point is a floor division. -/
theorem turningFloor_ok {a k f : Int128} (h : turningFloor a k = .ok f) (hx : TurningExact a k)
    (ha : a.val ≠ 0) :
    (a.val < 0 ∧ f.val = k.val / -a.val) ∨ (0 < a.val ∧ f.val = -k.val / a.val) := by
  have hzero : (0 : Int128).val = 0 := rfl
  unfold turningFloor at h
  split at h
  · next hneg =>
    rw [Int128.lt_def, hzero] at hneg
    obtain ⟨b, hb, h⟩ := except_bind_ok.1 h
    cases h
    have hval := Int128.val_of_exact hb
    rw [Int128.val_ediv (by omega), hval]
    exact .inl ⟨hneg, rfl⟩
  · next hnot =>
    cases h
    have hneg := hx.1 hnot
    rw [Int128.lt_def, hzero] at hnot
    rw [Int128.val_ediv (by omega), hneg]
    exact .inr ⟨by omega, rfl⟩

/-- `a * x + k` has the same sign at a representative of `x` among the turning values. -/
theorem sign_turning {a k : Int128} {values : List Int128} (h : turningValues a k = .ok values)
    (hx : TurningExact a k) {n r : Int} (hr : Represents values n r) :
    (k.val + a.val * n).sign = (k.val + a.val * r).sign := by
  obtain ⟨f, hf, h⟩ := except_bind_ok.1 h
  cases h
  obtain ⟨hbelow, habove, -⟩ := hx.2 f (by rw [hf]; rfl)
  have hr₁ := hr (f - 1) (by simp)
  have hr₂ := hr f (by simp)
  have hr₃ := hr (f + 1) (by simp)
  rw [hbelow] at hr₁
  rw [habove] at hr₃
  by_cases ha : a.val = 0
  · rw [ha, zero_mul, zero_mul]
  · rcases turningFloor_ok hf hx ha with ⟨hneg, hfloor⟩ | ⟨hpos, hfloor⟩
    · have hsign := sign_mul_sub_of_ediv (b := -a.val) (n := k.val) (x := n) (r := r) (by omega)
        (by omega) (by omega) (by omega)
      have hflip (m : Int) : k.val + a.val * m = -(-a.val * m - k.val) := by ring
      rw [hflip, hflip, Int.sign_neg, Int.sign_neg, hsign]
    · have hsign := sign_mul_sub_of_ediv (b := a.val) (n := -k.val) (x := n) (r := r) hpos
        (by omega) (by omega) (by omega)
      have hsame (m : Int) : k.val + a.val * m = a.val * m - -k.val := by ring
      rw [hsame, hsame, hsign]

/-! ## Critical values -/

/-- Nothing that `turningValuesOf` computes is replaced by a bound. Comparisons without `x` are not
looked at, and none is once one of them has another open variable. -/
def TurningValuesExact (x : Var) (a : Assignment) : List (Expr × VarSet) → Prop
  | [] => True
  | (atom, vars) :: atoms =>
    if !vars.contains x then TurningValuesExact x a atoms
    else atom.DifferenceExact a ∧ ∀ t ∈ atom.difference? a, ¬ t.coeffs.keys.any (· ≠ x) →
      (∀ c ∈ t.coeffs[x]?, TurningExact c t.const) ∧ TurningValuesExact x a atoms

instance decidableTurningValuesExact (x : Var) (a : Assignment) :
    (atoms : List (Expr × VarSet)) → Decidable (TurningValuesExact x a atoms)
  | [] => isTrue trivial
  | (_, vars) :: atoms =>
    have := decidableTurningValuesExact x a atoms
    inferInstanceAs (Decidable (if !vars.contains x then TurningValuesExact x a atoms else _ ∧ _))

/-- A term without another variable is linear in `x`. -/
theorem value_of_keys {t : LinearTerm} {x : Var} (h : ¬ t.coeffs.keys.any (· ≠ x)) (ρ : Env Int) :
    t.value ρ = t.const.val + t.coeff x * (ρ.val x).toInt := by
  have hS : ∀ v, t.coeff v ≠ 0 → v ∈ ({x} : Finset Var) := by
    intro v hv
    have hmem := LinearTerm.mem_keys_of_coeff hv
    rw [Finset.mem_singleton]
    exact Decidable.byContradiction fun hne => h (List.any_eq_true.2 ⟨v, hmem, by simpa using hne⟩)
  rw [LinearTerm.value_eq_sum {x} hS, Finset.sum_singleton]

/-- Comparisons with `x` come out the same when `x` is replaced by a representative. -/
theorem sign_of_turningValuesOf {x : Var} {a : Assignment} {atoms : List (Expr × VarSet)}
    {values : List Int128} (h : turningValuesOf x a atoms = .ok (some values))
    (hx : TurningValuesExact x a atoms) {ρ ρ' : Env Int}
    (hr : Represents values (ρ.val x).toInt (ρ'.val x).toInt) :
    ∀ p ∈ atoms, p.2.contains x → p.1.DifferenceExact a ∧
      ∃ t, p.1.difference? a = some t ∧ (t.value ρ).sign = (t.value ρ').sign := by
  induction atoms generalizing values with
  | nil => simp
  | cons p atoms ih =>
    obtain ⟨atom, vars⟩ := p
    rw [turningValuesOf] at h
    rw [TurningValuesExact] at hx
    split at h
    · next hnot =>
      rw [if_pos hnot] at hx
      have hrest := ih h hx hr
      intro p hp hcontains
      rcases List.mem_cons.1 hp with rfl | hp
      · simp [hcontains] at hnot
      · exact hrest p hp hcontains
    · next hcontains =>
      rw [if_neg hcontains] at hx
      obtain ⟨hexact, hx⟩ := hx
      split at h
      · cases h
      · next t ht =>
        split at h
        · cases h
        · next hkeys =>
          obtain ⟨hturn, hx⟩ := hx t ht hkeys
          -- what is left to show, given the sign of this comparison and the values of the others
          suffices hhead : ∃ rest, turningValuesOf x a atoms = .ok (some rest) ∧
              Represents rest (ρ.val x).toInt (ρ'.val x).toInt ∧
              (t.value ρ).sign = (t.value ρ').sign by
            obtain ⟨rest, hrest, hr', hsign⟩ := hhead
            intro p hp hcontains
            rcases List.mem_cons.1 hp with rfl | hp
            · exact ⟨hexact, t, ht, hsign⟩
            · exact ih hrest hx hr' p hp hcontains
          rw [value_of_keys hkeys, value_of_keys hkeys]
          split at h
          · next hnone =>
            have hzero : t.coeff x = 0 := by
              rw [LinearTerm.coeff, Std.ExtTreeMap.getD_eq_getD_getElem?, hnone]
              rfl
            exact ⟨values, h, hr, by rw [hzero, zero_mul, zero_mul]⟩
          · next c hc =>
            obtain ⟨around, haround, h⟩ := except_bind_ok.1 h
            obtain ⟨found, hfound, h⟩ := except_bind_ok.1 h
            obtain ⟨rest, rfl, rfl⟩ := Option.map_eq_some_iff.1 (Except.ok.inj h)
            refine ⟨rest, hfound, fun l hl => hr l (List.mem_append_right _ hl), ?_⟩
            rw [LinearTerm.coeff_eq_of_getElem? hc]
            exact sign_turning haround (hturn c hc) fun l hl => hr l (List.mem_append_left _ hl)

/-- The atoms of a query are the comparisons in its conjuncts, with their variables. -/
theorem mem_atoms_ofConjuncts {cs : List Expr} {q : Query} (h : ofConjuncts cs = .ok q)
    {atom : Expr} {vars : VarSet} :
    (atom, vars) ∈ q.atoms ↔ atom ∈ cs.flatMap Expr.comparisons ∧ vars = atom.vars := by
  obtain ⟨bound, -, h⟩ := except_bind_ok.1 h
  cases h
  simp only [List.mem_map, List.mem_eraseDups, Prod.mk.injEq]
  constructor
  · rintro ⟨atom, hatom, rfl, rfl⟩
    exact ⟨hatom, rfl⟩
  · rintro ⟨hatom, rfl⟩
    exact ⟨atom, hatom, rfl, rfl⟩

/-- Every integer has a critical value that no comparison with `x` can tell from it. -/
theorem exists_criticalValue {q : Query} {x : Var} {a : Assignment} {values : List Int128}
    (h : q.criticalValues x a = .ok (some values)) (hx : TurningValuesExact x a q.atoms) (n : Int) :
    ∃ v ∈ values, ∀ p ∈ q.atoms, p.2.contains x → ∀ ρ ρ' : Env Int, ρ.Extends a →
      ρ'.Extends a → (ρ.val x).toInt = n → (ρ'.val x).toInt = v.val →
        p.1.truth ρ = p.1.truth ρ' := by
  obtain ⟨found, hfound, h⟩ := except_bind_ok.1 h
  obtain ⟨turning, rfl, rfl⟩ := Option.map_eq_some_iff.1 (Except.ok.inj h)
  obtain ⟨v, hv, hrep⟩ := exists_representative (List.cons_ne_nil 0 turning) n
  refine ⟨v, hv, fun p hp hcontains ρ ρ' hρ hρ' hn hval => ?_⟩
  have hturning : Represents turning (ρ.val x).toInt (ρ'.val x).toInt := by
    rw [hn, hval]
    exact fun l hl => hrep l (List.mem_cons_of_mem _ hl)
  obtain ⟨hexact, t, ht, hsign⟩ := sign_of_turningValuesOf hfound hx hturning p hp hcontains
  exact Expr.truth_eq_of_sign hρ hρ' hexact ht hsign

end Query

/-- If the comparisons with an open variable change next to critical values only, there is a
solution with one of them. -/
theorem Env.Models.exists_critical {P : Var → Prop} {cs : List Expr} {q : Query}
    (hq : Query.ofConjuncts cs = .ok q) (hcs : ∀ c ∈ cs, c.IsFormula P) {x : Var}
    (hty : x.ty = .int) {a : Assignment} (hopen : a.contains x = false) {values : List Int128}
    (hvalues : q.criticalValues x a = .ok (some values))
    (hx : Query.TurningValuesExact x a q.atoms) {ρ : Env Int} (hρ : ρ.Extends a)
    (h : ρ.Models cs) :
    ∃ n ∈ values, ∃ ρ' : Env Int, ρ'.Models cs ∧ ρ'.Extends a ∧ ρ'.val x = .int n.val := by
  obtain ⟨n, hn, htruth⟩ := Query.exists_criticalValue hvalues hx (ρ.val x).toInt
  have hself : (ρ.set x (.int n.val)).val x = .int n.val := Env.val_set_self hty.symm
  have hext : (ρ.set x (.int n.val)).Extends a := hρ.set hopen _
  refine ⟨n, hn, ρ.set x (.int n.val), fun c hc => ?_, hext, hself⟩
  rw [← h c hc]
  refine Expr.truth_eq_of_comparisons (hcs c hc).sorted (hcs c hc).bool (fun v _ hv => ?_)
    fun atom hatom => ?_
  · refine Env.val_set_ne _ ?_
    rintro rfl
    rw [hty] at hv
    cases hv
  · by_cases hmem : x ∈ atom.vars
    · have hatoms := (Query.mem_atoms_ofConjuncts hq).2 ⟨List.mem_flatMap.2 ⟨c, hc, hatom⟩, rfl⟩
      have hcontains := Std.ExtTreeSet.contains_iff_mem.2 hmem
      exact (htruth _ hatoms hcontains ρ _ hρ hext rfl (by rw [hself]; rfl)).symm
    · refine Expr.truth_congr fun v hv => Env.val_set_ne _ ?_
      rintro rfl
      exact hmem hv

/-- The variables other than `x` have the values that they are assigned, and `x` is assigned none. -/
def Env.ExtendsBeside (ρ : Env Int) (x : Var) (a : Assignment) : Prop :=
  ∀ v y, a[v]? = some y → v ≠ x ∧ ρ.val v = .ofValue y

/-- The value of `x` is free. -/
theorem Env.ExtendsBeside.set {ρ : Env Int} {x : Var} {a : Assignment} (h : ρ.ExtendsBeside x a)
    (n : Datum Int) : (ρ.set x n).Extends a := by
  intro v y hv
  obtain ⟨hne, hval⟩ := h v y hv
  rw [Env.val_set_ne n hne, hval]

namespace Query

/-- For every integer there is a critical value such that all comparisons of the query with `x` come
out the same for both, whatever the open variables are. -/
theorem criticalValues_represent {cs : List Expr} {q : Query} (hq : ofConjuncts cs = .ok q)
    {x : Var} (hty : x.ty = .int) {a : Assignment} {values : List Int128}
    (h : q.criticalValues x a = .ok (some values)) (hx : TurningValuesExact x a q.atoms) (n : Int) :
    ∃ v ∈ values, ∀ p ∈ q.atoms, x ∈ p.1.vars → ∀ ρ : Env Int, ρ.ExtendsBeside x a →
      p.1.truth (ρ.set x (.int n)) = p.1.truth (ρ.set x (.int v.val)) := by
  obtain ⟨v, hv, htruth⟩ := exists_criticalValue h hx n
  refine ⟨v, hv, fun p hp hmem ρ hρ => ?_⟩
  have hvars : p.2 = p.1.vars := ((mem_atoms_ofConjuncts hq).1 hp).2
  have hcontains : p.2.contains x := by
    rw [hvars]
    exact Std.ExtTreeSet.contains_iff_mem.2 hmem
  have hself (m : Int) : ((ρ.set x (.int m)).val x).toInt = m := by
    rw [Env.val_set_self (x := Datum.int m) hty.symm, Datum.toInt_int]
  exact htruth p hp hcontains _ _ (hρ.set _) (hρ.set _) (hself n) (hself v.val)

/-- Comparisons that bound `x` from both sides and away from a point. One is linear only once `y` is
known, and `x` cancels out in another. -/
def bent : List Expr :=
  [.logic .or (.cmp .lt (.arith .mul (.num 2) varX) (.num 7))
      (.cmp .le (.arith .mul (.num (-3)) varX) (.num 5)),
    .cmp .ge (.arith .mul varX varY) (.num 4),
    .cmp .ne (.arith .sub (.arith .add varX varY) varX) (.num 3),
    .not (.eq varX (.num (-6)))]

/-- Assigns `2` to `y`. -/
def bentPoint : Assignment := (∅ : Assignment).insert varY (.int 2)

theorem criticalValues_represent_bent :
    ∃ q, ofConjuncts bent = .ok q ∧
      q.criticalValues varX bentPoint =
        .ok (some [0, 2, 3, 4, 5, -3, -2, -1, 0, 1, 2, 3, 4, -7, -6, -5, -4]) ∧
      TurningValuesExact varX bentPoint q.atoms ∧
      ∃ v ∈ [0, 2, 3, 4, 5, -3, -2, -1, 0, 1, 2, 3, 4, -7, -6, -5, -4],
        ∀ p ∈ q.atoms, varX ∈ p.1.vars →
          ∀ ρ : Env Int, ρ.ExtendsBeside varX bentPoint →
            p.1.truth (ρ.set varX (.int 1000000)) =
              p.1.truth (ρ.set varX (.int (v : Int128).val)) := by
  have hrun : (ofConjuncts bent).toOption.any (fun q =>
      decide ((q.criticalValues varX bentPoint).toOption =
        some (some [0, 2, 3, 4, 5, -3, -2, -1, 0, 1, 2, 3, 4, -7, -6, -5, -4])) &&
      decide (TurningValuesExact varX bentPoint q.atoms)) = true := by
    decide +kernel
  obtain ⟨q, hq, hrun⟩ := (Option.any_eq_true _ _).1 hrun
  obtain ⟨hvalues, hx⟩ := Bool.and_eq_true_iff.1 hrun
  have hq := except_toOption_eq_some.1 hq
  have hvalues := except_toOption_eq_some.1 (of_decide_eq_true hvalues)
  have hx := of_decide_eq_true hx
  exact ⟨q, hq, hvalues, hx, criticalValues_represent hq rfl hvalues hx 1000000⟩

end Query

end Cegar

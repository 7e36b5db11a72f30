import Cegar.Proofs.Solver.Answers

/-!
# When the solver overflows

Most of the arithmetic on coefficients saturates, but a few operations need an exact result: the
magnitude of a coefficient and the sum of two when comparisons are tested for differences, and the
negation of a coefficient when the values are listed next to which a comparison changes. Nothing
else can go wrong while the solver looks for an answer, and each of the three does.

* **`OverflowsIff`**: a computation overflows under a condition, and gives a result otherwise;
* **`isDifference_overflows`**, **`Query.turningValues_overflows`**: the coefficients at fault;
* **`differenceBoundFrom_overflows`**, **`Query.turningValuesOf_overflows`**: the comparison that
  they are found in, after others that are as they should be;
* **`Query.settle_overflows`**: the branches of the search that get to such a comparison;
* **`Solver.solve_completes_iff`**: the solver gives an answer unless one of them is reached.
-/

namespace Cegar

/-! ## Computations that overflow -/

section OverflowsIff

variable {α β : Type} {x y : Except Abort α} {f : α → Except Abort β} {P P' : Prop}

/-- The computation overflows exactly if `P`, and has a result otherwise. -/
def OverflowsIff (x : Except Abort α) (P : Prop) : Prop :=
  ∀ failure, x = .error failure ↔ failure = .overflow ∧ P

theorem overflowsIff_ok (a : α) : OverflowsIff (.ok a) False := by
  simp [OverflowsIff]

namespace OverflowsIff

theorem congr (h : OverflowsIff x P) (hP : P ↔ P') : OverflowsIff x P' :=
  fun failure => (h failure).trans (and_congr_right fun _ => hP)

theorem eq_overflow (h : OverflowsIff x P) (hP : P) : x = .error .overflow := (h _).2 ⟨rfl, hP⟩

/-- A result rules the condition out. -/
theorem of_ok (h : OverflowsIff x P) {a : α} (hx : x = .ok a) : ¬ P := fun hP => by
  cases hx.symm.trans (h.eq_overflow hP)

/-- There is a result exactly if there is no overflow. -/
theorem exists_ok_iff (h : OverflowsIff x P) : (∃ a, x = .ok a) ↔ ¬ P := by
  constructor
  · rintro ⟨a, hx⟩
    exact h.of_ok hx
  · intro hP
    cases hx : x with
    | error failure => exact absurd ((h failure).1 hx).2 hP
    | ok a => exact ⟨a, rfl⟩

theorem ite {c : Prop} [Decidable c] (h : OverflowsIff x P) (h' : OverflowsIff y P') :
    OverflowsIff (if c then x else y) (if c then P else P') := by
  split <;> assumption

/-- One step after the other: the first one overflows, or it has a result with which the second one
does. -/
theorem bind {Q : α → Prop} (h : OverflowsIff x P) (hf : ∀ a, OverflowsIff (f a) (Q a)) :
    OverflowsIff (x >>= f) (P ∨ ∃ a, x = .ok a ∧ Q a) := by
  intro failure
  rw [except_bind_error, h]
  simp only [hf _ failure, and_or_left, and_left_comm, exists_and_left]

/-- It may not depend on the result whether the second step overflows. -/
theorem or (h : OverflowsIff x P) (hf : ∀ a, OverflowsIff (f a) P') :
    OverflowsIff (x >>= f) (P ∨ P') := by
  refine (h.bind hf).congr ?_
  rw [exists_and_right, h.exists_ok_iff]
  grind

theorem map (h : OverflowsIff x P) (hf : ∀ a, OverflowsIff (f a) False) :
    OverflowsIff (x >>= f) P :=
  (h.or hf).congr (by rw [or_false])

end OverflowsIff

end OverflowsIff

/-! ## Coefficients -/

namespace Int128

/-- An exact result overflows if it does not fit. -/
theorem exact_overflows (z : Int) : OverflowsIff (exact z) (¬ (minVal ≤ z ∧ z ≤ maxVal)) := by
  intro failure
  unfold exact ofInt?
  by_cases h : minVal ≤ z ∧ z ≤ maxVal
  · simp [h]
  · simp [h, eq_comm]

/-- Only the least integer has a magnitude that does not fit. -/
theorem exact_natAbs_overflows (a : Int128) :
    OverflowsIff (exact a.val.natAbs) (a.val = minVal) := by
  refine (exact_overflows _).congr ?_
  have hmin := a.min_le
  have hmax := a.le_max
  simp only [minVal, maxVal] at *
  omega

/-- Only the least integer has a negation that does not fit. -/
theorem exact_neg_overflows (a : Int128) : OverflowsIff (exact (-a.val)) (a.val = minVal) := by
  refine (exact_overflows _).congr ?_
  have hmin := a.min_le
  have hmax := a.le_max
  simp only [minVal, maxVal] at *
  omega

/-- The magnitude is one for a unit. -/
theorem exact_natAbs_eq_one {a : Int128} :
    exact a.val.natAbs = .ok 1 ↔ a.val = 1 ∨ a.val = -1 := by
  have hone : (1 : Int128).val = 1 := rfl
  constructor
  · intro h
    have hval := val_of_exact h
    omega
  · rintro (h | h) <;> rw [h] <;> rfl

/-- The sum of a unit and another integer fits unless that one is the bound on its side. -/
theorem not_fits_add_iff {a b : Int128} (ha : a.val = 1 ∨ a.val = -1) :
    ¬ (minVal ≤ a.val + b.val ∧ a.val + b.val ≤ maxVal) ↔
      a.val = 1 ∧ b.val = maxVal ∨ a.val = -1 ∧ b.val = minVal := by
  have hmin := b.min_le
  have hmax := b.le_max
  simp only [minVal, maxVal] at *
  omega

end Int128

/-- Coefficients whose test for a difference needs a result that does not fit: the magnitude of the
first one, or the sum of two of which the first one is a unit. -/
def Unfit : List Int128 → Prop
  | [a] => a.val = Int128.minVal
  | [a, b] => a.val = Int128.minVal ∨ a.val = 1 ∧ b.val = Int128.maxVal ∨
      a.val = -1 ∧ b.val = Int128.minVal
  | _ => False

/-- A bound is among them. -/
theorem Unfit.exists_bound {cs : List Int128} (h : Unfit cs) :
    ∃ c ∈ cs, c.val = Int128.minVal ∨ c.val = Int128.maxVal := by
  rcases cs with _ | ⟨a, _ | ⟨b, _ | ⟨c, cs⟩⟩⟩
  · exact h.elim
  · exact ⟨a, by simp, .inl h⟩
  · rcases h with h | ⟨-, h⟩ | ⟨-, h⟩
    · exact ⟨a, by simp, .inl h⟩
    · exact ⟨b, by simp, .inr h⟩
    · exact ⟨b, by simp, .inl h⟩
  · exact h.elim

/-- The test for a difference overflows at the first coefficients that are unfit. -/
theorem isDifference_overflows (cs : List Int128) : OverflowsIff (isDifference cs) (Unfit cs) := by
  rcases cs with _ | ⟨a, _ | ⟨b, _ | ⟨c, cs⟩⟩⟩
  · exact overflowsIff_ok true
  · exact a.exact_natAbs_overflows.map fun _ => overflowsIff_ok _
  · refine (a.exact_natAbs_overflows.bind
      (Q := fun m => m = 1 ∧ ¬ (Int128.minVal ≤ a.val + b.val ∧ a.val + b.val ≤ Int128.maxVal))
      fun m => ?_).congr (or_congr_right ?_)
    · by_cases hone : m = 1
      · rw [if_pos hone, and_iff_right hone]
        exact (Int128.exact_overflows _).map fun _ => overflowsIff_ok _
      · rw [if_neg hone]
        exact (overflowsIff_ok _).congr (by simp [hone])
    · constructor
      · rintro ⟨_, hm, rfl, hsum⟩
        exact (Int128.not_fits_add_iff (Int128.exact_natAbs_eq_one.1 hm)).1 hsum
      · intro h
        have hone : a.val = 1 ∨ a.val = -1 := h.imp And.left And.left
        exact ⟨1, Int128.exact_natAbs_eq_one.2 hone, rfl, (Int128.not_fits_add_iff hone).2 h⟩
  · exact overflowsIff_ok false

/-! ## Comparisons -/

section FirstAfter

variable {α : Type} {P Q : α → Prop}

/-- Some element satisfies `Q`, and the elements before it satisfy `P`. -/
def FirstAfter (P Q : α → Prop) (l : List α) : Prop :=
  ∃ before x after, l = before ++ x :: after ∧ (∀ y ∈ before, P y) ∧ Q x

theorem not_firstAfter_nil : ¬ FirstAfter P Q [] := by
  rintro ⟨before, x, after, h, -⟩
  simp at h

/-- The element is the first of the list, or it is passed over. -/
theorem firstAfter_cons {x : α} {l : List α} :
    FirstAfter P Q (x :: l) ↔ Q x ∨ P x ∧ FirstAfter P Q l := by
  constructor
  · rintro ⟨before, y, after, h, hP, hQ⟩
    cases before with
    | nil =>
      cases h
      exact .inl hQ
    | cons z before =>
      cases h
      obtain ⟨hx, hP⟩ := List.forall_mem_cons.1 hP
      exact .inr ⟨hx, before, y, after, rfl, hP, hQ⟩
  · rintro (hQ | ⟨hx, before, y, after, rfl, hP, hQ⟩)
    · exact ⟨[], x, l, rfl, by simp, hQ⟩
    · exact ⟨x :: before, y, after, rfl, List.forall_mem_cons.2 ⟨hx, hP⟩, hQ⟩

theorem FirstAfter.exists_mem {l : List α} (h : FirstAfter P Q l) : ∃ x ∈ l, Q x := by
  obtain ⟨before, x, after, rfl, -, hQ⟩ := h
  exact ⟨x, by simp, hQ⟩

end FirstAfter

/-- With some values assigned, a coefficient of the comparison is a bound. -/
def Expr.BoundCoeff (e : Expr) : Prop :=
  ∃ (a : Assignment) (t : LinearTerm) (x : Var) (c : Int128), e.difference? a = some t ∧
    t.coeffs[x]? = some c ∧ (c.val = Int128.minVal ∨ c.val = Int128.maxVal)

/-- The condition holds of the coefficients of a comparison, with all variables open. -/
def Expr.HasCoeffs (P : List Int128 → Prop) (e : Expr) : Prop :=
  ∃ t, e.difference? ∅ = some t ∧ P (t.coeffs.toList.map Prod.snd)

/-- Some comparison has unfit coefficients, and those before it are differences. -/
def UnfitAmong (atoms : List Expr) : Prop :=
  FirstAfter (Expr.HasCoeffs (isDifference · = .ok true)) (Expr.HasCoeffs Unfit) atoms

/-- The first comparison with unfit coefficients overflows, if those before it are differences. -/
theorem differenceBoundFrom_overflows (bound : Int128) (atoms : List Expr) :
    OverflowsIff (differenceBoundFrom bound atoms) (UnfitAmong atoms) := by
  -- induction on the comparisons, as `FirstAfter` looks at them
  induction atoms generalizing bound with
  | nil => exact (overflowsIff_ok _).congr (by simp [UnfitAmong, not_firstAfter_nil])
  | cons atom atoms ih =>
    rw [UnfitAmong, firstAfter_cons, ← UnfitAmong, differenceBoundFrom]
    cases ht : atom.difference? ∅ with
    | none => exact (overflowsIff_ok _).congr (by simp [Expr.HasCoeffs, ht])
    | some t =>
      simp only [Expr.HasCoeffs, ht, Option.some.injEq, exists_eq_left']
      refine ((isDifference_overflows _).bind fun b => (ih _).ite (overflowsIff_ok none)).congr
        (or_congr_right ?_)
      simp

/-- Coefficients that are zero are left out, so nothing is divided by zero. -/
theorem Expr.coeff_ne_zero {a : Assignment} {e : Expr} {t : LinearTerm}
    (h : e.difference? a = some t) {x : Var} {c : Int128} (hc : t.coeffs[x]? = some c) :
    c.val ≠ 0 := by
  cases e with
  | cmp op l r =>
    obtain ⟨tl, -, h⟩ := Option.bind_eq_some_iff.1 h
    obtain ⟨tr, -, h⟩ := Option.bind_eq_some_iff.1 h
    cases h
    rw [LinearTerm.addMul, Std.ExtTreeMap.getElem?_filter'] at hc
    have hne := (Option.filter_eq_some_iff.1 hc).2
    rintro hzero
    have : c = 0 := Int128.ext hzero
    simp [this] at hne
  | bool | num | var | arith | neg | logic | not => cases h

/-- A comparison that is linear in `x` and mentions no other open variable. -/
def Expr.LinearIn (x : Var) (a : Assignment) (e : Expr) : Prop :=
  ∃ t, e.difference? a = some t ∧ ∀ v ∈ t.coeffs.keys, v = x

/-- Such a comparison in which the coefficient of `x` is the least integer. -/
def Expr.LeastIn (x : Var) (a : Assignment) (e : Expr) : Prop :=
  ∃ t, e.difference? a = some t ∧ (∀ v ∈ t.coeffs.keys, v = x) ∧
    ∃ c, t.coeffs[x]? = some c ∧ c.val = Int128.minVal

namespace Query

variable {x : Var} {a : Assignment} {range : Int128} {q : Query}

/-- The least integer has no negation. -/
theorem turningFloor_overflows (c k : Int128) :
    OverflowsIff (turningFloor c k) (c.val = Int128.minVal) := by
  have hzero : (0 : Int128).val = 0 := rfl
  unfold turningFloor
  split
  · exact c.exact_neg_overflows.map fun _ => overflowsIff_ok _
  · next hpos =>
    refine (overflowsIff_ok _).congr ⟨False.elim, fun hleast => ?_⟩
    rw [Int128.lt_def, hzero, hleast] at hpos
    exact hpos (by decide)

/-- With any other coefficient the quotient is exact. -/
theorem turningFloor_exact {c k : Int128} (hzero : c.val ≠ 0) (hleast : c.val ≠ Int128.minVal) :
    ∃ floor, turningFloor c k = .ok floor ∧
      floor.val = if c.val < 0 then k.val / -c.val else (-k).val / c.val := by
  obtain ⟨floor, hfloor⟩ := (turningFloor_overflows c k).exists_ok_iff.2 hleast
  refine ⟨floor, hfloor, ?_⟩
  unfold turningFloor at hfloor
  split at hfloor
  · next hneg =>
    obtain ⟨b, hb, h⟩ := except_bind_ok.1 hfloor
    cases h
    have hval := Int128.val_of_exact hb
    have hneg : c.val < 0 := hneg
    rw [if_pos hneg, Int128.val_ediv (by omega), hval]
  · next hpos =>
    cases hfloor
    have hpos : ¬ c.val < 0 := hpos
    rw [if_neg hpos, Int128.val_ediv (by omega)]

theorem turningValues_overflows (c k : Int128) :
    OverflowsIff (turningValues c k) (c.val = Int128.minVal) :=
  (turningFloor_overflows c k).map fun _ => overflowsIff_ok _

/-- Among the comparisons with `x` there is one with the least integer as the coefficient of `x`,
and those before it are linear in `x` alone. -/
def LeastAmong (x : Var) (a : Assignment) (atoms : List (Expr × VarSet)) : Prop :=
  FirstAfter (fun p => p.2.contains x → p.1.LinearIn x a)
    (fun p => p.2.contains x ∧ p.1.LeastIn x a) atoms

/-- The first comparison in which the coefficient is the least integer overflows, if those before it
are linear. -/
theorem turningValuesOf_overflows (x : Var) (a : Assignment) (atoms : List (Expr × VarSet)) :
    OverflowsIff (turningValuesOf x a atoms) (LeastAmong x a atoms) := by
  induction atoms with
  | nil => exact (overflowsIff_ok _).congr (by simp [LeastAmong, not_firstAfter_nil])
  | cons p atoms ih =>
    obtain ⟨atom, vars⟩ := p
    rw [LeastAmong, firstAfter_cons, ← LeastAmong, turningValuesOf]
    cases hx : vars.contains x with
    | false =>
      -- a comparison without `x` is passed over
      exact ih.congr (by simp)
    | true =>
      simp only [Bool.not_true, Bool.false_eq_true, if_false, true_and, forall_const]
      cases ht : atom.difference? a with
      | none => exact (overflowsIff_ok _).congr (by simp [Expr.LinearIn, Expr.LeastIn, ht])
      | some t =>
        simp only [Expr.LinearIn, Expr.LeastIn, ht, Option.some.injEq, exists_eq_left']
        by_cases halone : ∀ v ∈ t.coeffs.keys, v = x
        · rw [if_neg (by simpa using halone), and_iff_right halone, and_iff_right halone]
          cases t.coeffs[x]? with
          | none =>
            -- so is one in which `x` cancels out
            exact ih.congr (by simp)
          | some c =>
            simp only [Option.some.injEq, exists_eq_left']
            exact (turningValues_overflows c t.const).or fun _ => ih.map fun _ => overflowsIff_ok _
        · -- with another open variable there are no critical values, whatever comes after it
          rw [if_pos (by simpa using halone)]
          exact (overflowsIff_ok _).congr (by simp only [halone, false_and, or_self])

/-- No domain is found for `x`: the differences have no bound, and looking for critical values
overflows. -/
structure OverflowsAt (q : Query) (x : Var) (a : Assignment) : Prop where
  ty : x.ty = .int
  noBound : q.differenceBound = none
  least : LeastAmong x a q.atoms

/-- A domain overflows where the critical values do, and those are looked for only without a bound
on differences. -/
theorem domain_overflows (q : Query) (range : Int128) (x : Var) (a : Assignment) :
    OverflowsIff (q.domain range x a) (q.OverflowsAt x a) := by
  unfold domain
  split
  · next hty =>
    refine (overflowsIff_ok _).congr ⟨False.elim, fun h => ?_⟩
    cases hty.symm.trans h.ty
  · next hbound =>
    refine (overflowsIff_ok _).congr ⟨False.elim, fun h => ?_⟩
    cases hbound.symm.trans h.noBound
  · next hty hbound =>
    have hcritical : OverflowsIff (q.criticalValues x a) (LeastAmong x a q.atoms) :=
      (turningValuesOf_overflows x a q.atoms).map fun _ => overflowsIff_ok _
    refine (hcritical.map fun found => ?_).congr ⟨fun h => ⟨hty, hbound, h⟩, fun h => h.least⟩
    cases found <;> exact overflowsIff_ok _

/-! ## Branches of the search -/

section Branches

variable {d : Domain} {attempt : Value → Effort → Except Abort Result}
  {next : Assignment → Effort → Except Abort Result} {e : Effort} {n i : Nat}

/-- Values are tried in vain up to one that leads to an error. -/
theorem tryFrom_eq_error {failure : Abort} :
    tryFrom d attempt a n i e = .error failure ↔ ∃ k < n, ∃ r,
      tryFrom d attempt a k i e = .ok r ∧ r.verdict = some false ∧
        attempt (d.get (i + k)) r.effort = .error failure := by
  induction n generalizing i e with
  | zero => simp [tryFrom]
  | succ n ih =>
    have hshift (k : Nat) : i + (k + 1) = i + 1 + k := by omega
    constructor
    · intro h
      rw [tryFrom] at h
      split at h
      · next hfirst =>
        -- the first value leads to the error: none was tried before it
        cases h
        exact ⟨0, by omega, ⟨some false, a, e⟩, rfl, rfl, hfirst⟩
      · next r hr =>
        split at h
        · cases h
        · next hv =>
          obtain ⟨k, hk, r', hr', hv', herror⟩ := ih.1 h
          refine ⟨k + 1, by omega, r', ?_, hv', by rwa [hshift]⟩
          rw [tryFrom, hr]
          simp only [hv]
          exact hr'
        · cases h
    · rintro ⟨k, hk, r, hr, hv, herror⟩
      cases k with
      | zero =>
        cases hr
        rw [Nat.add_zero] at herror
        rw [tryFrom, herror]
      | succ k =>
        obtain ⟨r', hr', ⟨hv', rfl⟩ | ⟨hv', hrest⟩ | ⟨hv', rfl⟩⟩ := tryFrom_ok hr
        · cases hv'.symm.trans hv
        · rw [tryFrom, hr']
          simp only [hv']
          exact ih.2 ⟨k, by omega, r, hrest, hv, by rwa [← hshift]⟩
        · cases hv'.symm.trans hv

/-- A value whose attempt overflows is reached if those before it fail. -/
theorem tryFrom_overflows {P : Value → Effort → Prop}
    (h : ∀ v e, OverflowsIff (attempt v e) (P v e)) :
    OverflowsIff (tryFrom d attempt a n 0 e) (∃ k < n, ∃ r, tryFrom d attempt a k 0 e = .ok r ∧
      r.verdict = some false ∧ P (d.get k) r.effort) := by
  intro failure
  rw [tryFrom_eq_error]
  simp only [Nat.zero_add, h _ _ failure]
  constructor
  · rintro ⟨k, hk, r, hr, hv, rfl, hP⟩
    exact ⟨rfl, k, hk, r, hr, hv, hP⟩
  · rintro ⟨rfl, k, hk, r, hr, hv, hP⟩
    exact ⟨k, hk, r, hr, hv, rfl, hP⟩

/-- A step overflows where what comes next does, if there are steps left and propagation succeeds.
-/
theorem step_overflows {P : Assignment → Effort → Prop}
    (h : ∀ a e, OverflowsIff (next a e) (P a e)) (a : Assignment) (e : Effort) :
    OverflowsIff (q.step next a e) (e.steps < stepLimit ∧
      ∃ a', q.propagate a = some a' ∧ P a' ⟨e.steps + 1, e.cut⟩) := by
  simp only [step]
  split
  · next hlimit =>
    -- past the limit nothing is looked at any more
    refine (overflowsIff_ok _).congr ⟨False.elim, fun h => ?_⟩
    exact absurd h.1 (by omega)
  · next hlimit =>
    rw [and_iff_right (by omega)]
    cases q.propagate a with
    | none => exact (overflowsIff_ok _).congr (by simp)
    | some a' =>
      simp only [Option.some.injEq, exists_eq_left']
      intro failure
      rw [← h a' ⟨e.steps + 1, e.cut⟩ failure]
      cases next a' ⟨e.steps + 1, e.cut⟩ <;> simp

end Branches

/-- While the variables are settled, some variable has no domain because of an overflow: the next
one that is open, or a later one, after some value of the next one. The values before that one were
tried in vain, and the steps have not run out. -/
def OverflowsIn (q : Query) (range : Int128) : List Var → Assignment → Effort → Prop
  | [], _, _ => False
  | x :: xs, a, e =>
    if a.contains x then OverflowsIn q range xs a e
    else q.OverflowsAt x a ∨ ∃ d, q.domain range x a = .ok d ∧ ∃ i < d.size, ∃ r,
      tryFrom d (fun v e => q.step (q.settle range xs) (a.insert x v) e) a i 0
        { e with cut := e.cut || d.isCut } = .ok r ∧ r.verdict = some false ∧
      r.effort.steps < stepLimit ∧ ∃ a', q.propagate (a.insert x (d.get i)) = some a' ∧
        OverflowsIn q range xs a' ⟨r.effort.steps + 1, r.effort.cut⟩

/-- An overflow while variables are settled is one at some variable. -/
theorem OverflowsIn.exists_at {xs : List Var} {e : Effort} (h : q.OverflowsIn range xs a e) :
    ∃ x b, q.OverflowsAt x b := by
  induction xs generalizing a e with
  | nil => exact h.elim
  | cons x xs ih =>
    rw [OverflowsIn] at h
    split at h
    · exact ih h
    · rcases h with h | ⟨_, -, _, -, _, -, -, -, _, -, h⟩
      · exact ⟨x, a, h⟩
      · exact ih h

/-- Settling variables overflows in some branch of the search. -/
theorem settle_overflows (q : Query) (range : Int128) (xs : List Var) (a : Assignment)
    (e : Effort) : OverflowsIff (q.settle range xs a e) (q.OverflowsIn range xs a e) := by
  induction xs generalizing a e with
  | nil => exact overflowsIff_ok _
  | cons x xs ih =>
    have hsettle : q.settle range (x :: xs) a e = if a.contains x then q.settle range xs a e else
        q.domain range x a >>= fun d =>
          tryFrom d (fun v e => q.step (q.settle range xs) (a.insert x v) e) a d.size 0
            { e with cut := e.cut || d.isCut } := by
      rw [settle]
      cases q.domain range x a <;> rfl
    -- the condition is put together the way the search is
    rw [hsettle]
    exact (ih a e).ite ((q.domain_overflows range x a).bind fun d =>
      tryFrom_overflows fun v e => step_overflows ih (a.insert x v) e)

/-- A search overflows after its first propagation. -/
theorem search_overflows (q : Query) (range : Int128) :
    OverflowsIff (q.search range ∅ .zero)
      (∃ a, q.propagate ∅ = some a ∧ q.OverflowsIn range q.vars a ⟨1, false⟩) := by
  rw [search_eq]
  exact (step_overflows (q.settle_overflows range q.vars) ∅ .zero).congr
    (and_iff_right (by decide))

/-- A query overflows in the test for differences. -/
theorem ofConjuncts_overflows (cs : List Expr) :
    OverflowsIff (ofConjuncts cs) (UnfitAmong (cs.flatMap Expr.comparisons)) :=
  (differenceBoundFrom_overflows 1 _).map fun _ => overflowsIff_ok _

end Query

/-! ## The solver -/

namespace Solver

/-- The solver gets to coefficients that are at fault: in the test for differences, or in some
branch of the search. -/
def Overflows (s : Solver) : Prop :=
  UnfitAmong (s.conjuncts.flatMap Expr.comparisons) ∨
    ∃ q, Query.ofConjuncts s.conjuncts = .ok q ∧ ∃ a, q.propagate ∅ = some a ∧
      q.OverflowsIn s.range q.vars a ⟨1, false⟩

/-- A decision overflows in the test for differences or in the search. -/
theorem solve_overflows (s : Solver) : OverflowsIff s.solve s.Overflows := by
  have hdecide : OverflowsIff (decideAssertions s.range s.assertions .zero) s.Overflows := by
    refine (Query.ofConjuncts_overflows _).bind fun q =>
      (q.search_overflows s.range).map fun r => ?_
    cases r.verdict with
    | none => exact overflowsIff_ok _
    | some b => cases b <;> exact overflowsIff_ok _
  exact hdecide.map fun _ => overflowsIff_ok _

/-- Coefficients within the bounds do no harm. -/
theorem Overflows.exists_boundCoeff {s : Solver} (h : s.Overflows) :
    ∃ e ∈ s.conjuncts.flatMap Expr.comparisons, e.BoundCoeff := by
  rcases h with h | ⟨q, hq, a, -, h⟩
  · obtain ⟨e, he, t, ht, hunfit⟩ := h.exists_mem
    obtain ⟨c, hc, hbound⟩ := hunfit.exists_bound
    obtain ⟨⟨x, c⟩, hmem, rfl⟩ := List.mem_map.1 hc
    exact ⟨e, he, ∅, t, x, c, ht, Std.ExtTreeMap.mem_toList_iff_getElem?_eq_some.1 hmem, hbound⟩
  · obtain ⟨x, b, hat⟩ := h.exists_at
    obtain ⟨⟨e, vars⟩, hmem, -, t, ht, -, c, hc, hleast⟩ := hat.least.exists_mem
    exact ⟨e, ((Query.mem_atoms_ofConjuncts hq).1 hmem).1, b, t, x, c, ht, hc, .inl hleast⟩

/-- Whether there is an answer can be computed. -/
theorem eq_overflow_of_isNone {s : Solver} (h : s.solve.toOption.isNone = true) :
    s.solve = .error .overflow := by
  cases hsolve : s.solve with
  | error failure => rw [((s.solve_overflows failure).1 hsolve).1]
  | ok r =>
    rw [hsolve] at h
    cases h

/-- A solver can be made with every range but the least integer. Whatever is asserted, it gives an
answer unless it gets to coefficients that are at fault. In that case it overflows, and one of the
bounds is a coefficient of some comparison. Nothing is divided by zero, and the quotients fit. -/
theorem solve_completes_iff {range : Int128} (hrange : range.val ≠ Int128.minVal) :
    ∃ fresh, new range = .ok fresh ∧
    (∀ s : Solver, s.range = fresh.range →
      ((∃ answer s', s.solve = .ok (answer, s')) ↔ ¬ s.Overflows) ∧
      (∀ failure, s.solve = .error failure → failure = .overflow) ∧
      (s.Overflows → ∃ e ∈ s.conjuncts.flatMap Expr.comparisons, e.BoundCoeff)) ∧
    ∀ (e : Expr) (a : Assignment) (t : LinearTerm) (x : Var) (c : Int128),
      e.difference? a = some t → t.coeffs[x]? = some c → c.val ≠ 0 ∧
        (c.val ≠ Int128.minVal → ∃ floor, Query.turningFloor c t.const = .ok floor ∧
          floor.val = if c.val < 0 then t.const.val / -c.val else (-t.const).val / c.val) := by
  obtain ⟨magnitude, hmagnitude⟩ := range.exact_natAbs_overflows.exists_ok_iff.2 hrange
  refine ⟨_, except_bind_ok.2 ⟨magnitude, hmagnitude, rfl⟩, fun s _ => ⟨?_, fun failure h => ?_,
    Overflows.exists_boundCoeff⟩, fun e a t x c ht hc => ?_⟩
  · rw [← s.solve_overflows.exists_ok_iff, Prod.exists]
  · exact ((s.solve_overflows failure).1 h).1
  · have hzero := Expr.coeff_ne_zero ht hc
    exact ⟨hzero, Query.turningFloor_exact hzero⟩

/-- The assertion `n * v < 5`. -/
def scaled (n : Int) (v : String) : Expr :=
  .cmp .lt (.arith .mul (.num (.clamp n)) (.var ⟨v, .int, none⟩)) (.num 5)

/-- A solver with one assertion. -/
def asserting (e : Expr) : Solver := .unasked 16 [[e]]

/-- The greatest integer does no harm as a coefficient, the least one does. -/
theorem solve_completes_iff_scaled :
    (16 : Int128).val ≠ Int128.minVal ∧ ¬ (asserting (scaled Int128.maxVal "x")).Overflows ∧
      (asserting (scaled Int128.minVal "x")).Overflows := by
  have hrange : (16 : Int128).val ≠ Int128.minVal := by decide
  obtain ⟨fresh, hfresh, hsolve, -⟩ := solve_completes_iff hrange
  cases hfresh
  obtain ⟨hgreatest, -⟩ := hsolve (asserting (scaled Int128.maxVal "x")) rfl
  obtain ⟨hleast, -⟩ := hsolve (asserting (scaled Int128.minVal "x")) rfl
  obtain ⟨s', hs'⟩ : ∃ s', (asserting (scaled Int128.maxVal "x")).solve = .ok (.sat, s') :=
    exists_solve (by decide +kernel)
  have hfails : (asserting (scaled Int128.minVal "x")).solve = .error .overflow :=
    eq_overflow_of_isNone (by decide +kernel)
  refine ⟨hrange, hgreatest.1 ⟨.sat, s', hs'⟩, Classical.byContradiction fun hfine => ?_⟩
  obtain ⟨answer, s'', hs''⟩ := hleast.2 hfine
  cases hfails.symm.trans hs''

/-- Assertions that need the magnitude of the least integer, a sum past the greatest one, and the
negation of the least integer: in the last one `2 * x < 5` is no difference, so that the other
comparison is not tested for one. -/
def steep : List Expr :=
  [scaled Int128.minVal "x",
    .cmp .lt (.arith .add varX
      (.arith .mul (.num (.clamp Int128.maxVal)) varY)) (.num 0),
    .logic .and (scaled 2 "x") (scaled Int128.minVal "y")]

/-- Well-sorted assertions can make the solver overflow. -/
theorem solve_fails_steep :
    (∀ e ∈ steep, e.WellSorted ∧ e.ty = .bool) ∧
      ∀ e ∈ steep, (asserting e).solve = .error .overflow := by
  have hruns : ∀ e ∈ steep, (asserting e).solve.toOption.isNone = true := by decide +kernel
  exact ⟨by decide +kernel, fun e he => eq_overflow_of_isNone (hruns e he)⟩

end Solver

end Cegar

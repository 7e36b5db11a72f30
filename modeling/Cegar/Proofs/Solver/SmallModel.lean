import Cegar.Proofs.Solver.Linear
import Mathlib.Data.Int.Interval
import Mathlib.Algebra.Order.BigOperators.Group.Finset

/-!
# Small solutions of difference constraints

If all integer comparisons of a formula bound a variable or the difference of two, then they come
out the same for some integers in a box that the constants determine. So a formula that has a
solution has one in the box.

From integers outside the box we get to smaller ones. Pick a side of zero on which some variable
lies outside the box, and a distance `c` from zero, and move everything on that side that is at
least `c` away one step towards zero. A difference changes by one if `c` falls between its two ends,
and not at all otherwise. Its comparison with a constant `-k` can only be affected if the ends are
no further apart than `|k| + 1`. So every comparison rules out at most `|k| + 1` distances, and
there are more distances to choose from.

* **`exists_ruledOut`**: how many distances a comparison rules out;
* **`exists_distance`**: a distance that no comparison rules out;
* **`Env.exists_smaller`**, **`Env.exists_bounded`**: one step into the box, and all steps;
* **`Env.Models.exists_bounded`**: the solution in the box;
* **`differenceBound_represents`**: the box has integers like any others.
-/

namespace Cegar

/-! ## One step towards zero -/

/-- Moves `n` one step towards zero if it is at least `c` away on the side of `s`. -/
def pull (s c n : Int) : Int := if c ≤ s * n then n - s else n

theorem pull_zero {s c : Int} (hc : 1 ≤ c) : pull s c 0 = 0 := by
  rw [pull, if_neg (by omega)]

/-- No step leads away from zero. -/
theorem natAbs_pull_le {s c n : Int} (hs : s = 1 ∨ s = -1) (hc : 1 ≤ c) :
    (pull s c n).natAbs ≤ n.natAbs := by
  unfold pull
  rcases hs with rfl | rfl <;> split <;> omega

/-- A step that is made leads closer to zero. -/
theorem natAbs_pull_lt {s c n : Int} (hs : s = 1 ∨ s = -1) (hc : 1 ≤ c) (hn : c ≤ s * n) :
    (pull s c n).natAbs < n.natAbs := by
  rw [pull, if_pos hn]
  rcases hs with rfl | rfl <;> omega

theorem sign_eq_sign {m n : Int} (hneg : m < 0 ↔ n < 0) (hpos : 0 < m ↔ 0 < n) :
    m.sign = n.sign := by
  rcases lt_trichotomy m 0 with h | h | h
  · rw [Int.sign_eq_neg_one_of_neg h, Int.sign_eq_neg_one_of_neg (hneg.1 h)]
  · have hn : n = 0 := by omega
    rw [h, hn]
  · rw [Int.sign_eq_one_of_pos h, Int.sign_eq_one_of_pos (hpos.1 h)]

/-- A difference is compared with a constant as before, unless `c` falls between its ends and they
are close to each other. -/
theorem sign_pull {s e c m n k : Int} (hs : s = 1 ∨ s = -1) (he : e = 1 ∨ e = -1)
    (h : ¬ ((s * m < c ∧ c ≤ s * n ∨ s * n < c ∧ c ≤ s * m) ∧
      (m - n).natAbs ≤ k.natAbs + 1)) :
    (e * (pull s c m - pull s c n) + k).sign = (e * (m - n) + k).sign := by
  unfold pull
  refine sign_eq_sign ?_ ?_ <;> rcases hs with rfl | rfl <;> rcases he with rfl | rfl <;>
    split <;> split <;> omega

/-- A comparison of a difference with `-k` rules out at most `|k| + 1` distances. -/
theorem exists_ruledOut {s e : Int} (hs : s = 1 ∨ s = -1) (he : e = 1 ∨ e = -1) (m n k : Int) :
    ∃ F : Finset Int, F.card ≤ k.natAbs + 1 ∧ ∀ c, c ∉ F →
      (e * (pull s c m - pull s c n) + k).sign = (e * (m - n) + k).sign := by
  by_cases hclose : (m - n).natAbs ≤ k.natAbs + 1
  · refine ⟨Finset.Ioc (s * m) (s * n) ∪ Finset.Ioc (s * n) (s * m), ?_, fun c hc => ?_⟩
    · -- one of the two intervals is empty
      have hunion := Finset.card_union_le (Finset.Ioc (s * m) (s * n)) (Finset.Ioc (s * n) (s * m))
      rw [Int.card_Ioc, Int.card_Ioc] at hunion
      rcases hs with rfl | rfl <;> omega
    · rw [Finset.mem_union, Finset.mem_Ioc, Finset.mem_Ioc] at hc
      exact sign_pull hs he fun h => hc h.1
  · exact ⟨∅, by simp, fun c _ => sign_pull hs he fun h => hclose h.2⟩

/-- Conditions that fail for few distances each hold together for one of many. -/
theorem exists_distance {α : Type} {P : α → Int → Prop} {w : α → Nat} (l : List α)
    (hw : ∀ x ∈ l, ∃ F : Finset Int, F.card ≤ w x ∧ ∀ c, c ∉ F → P x c) {S : Finset Int}
    (hS : (l.map w).sum < S.card) : ∃ c ∈ S, ∀ x ∈ l, P x c := by
  induction l generalizing S with
  | nil =>
    obtain ⟨c, hc⟩ := Finset.card_pos.1 (Nat.lt_of_le_of_lt (Nat.zero_le _) hS)
    exact ⟨c, hc, fun x hx => absurd hx (by simp)⟩
  | cons x l ih =>
    obtain ⟨F, hF, hP⟩ := hw x (by simp)
    have hcard := Finset.le_card_sdiff F S
    rw [List.map_cons, List.sum_cons] at hS
    obtain ⟨c, hc, hl⟩ := ih (fun y hy => hw y (by simp [hy])) (S := S \ F) (by omega)
    rw [Finset.mem_sdiff] at hc
    refine ⟨c, hc.1, fun y hy => ?_⟩
    rcases List.mem_cons.1 hy with rfl | hy
    · exact hP c hc.2
    · exact hl y hy

/-! ## Environments -/

namespace Env

/-- The integer that a variable stands for, and zero for no variable. -/
def at? (ρ : Env Int) : Option Var → Int
  | none => 0
  | some v => (ρ.val v).toInt

/-- Moves all integers one step towards zero that are at least `c` away on the side of `s`. -/
def pull (ρ : Env Int) (s c : Int) : Env Int where
  val v := match ρ.val v with
    | .bool b => .bool b
    | .int n => .int (Cegar.pull s c n)
  typed v := by
    rw [← ρ.typed v]
    cases ρ.val v <;> rfl

variable {ρ : Env Int} {s c : Int}

theorem toInt_pull (hc : 1 ≤ c) (v : Var) :
    ((ρ.pull s c).val v).toInt = Cegar.pull s c (ρ.val v).toInt := by
  unfold pull
  cases hv : ρ.val v with
  | bool b =>
    have hzero : (Datum.bool b : Datum Int).toInt = 0 := rfl
    simp only [hv, hzero, pull_zero hc]
  | int n => simp only [hv, Datum.toInt_int]

theorem at?_pull (hc : 1 ≤ c) (x : Option Var) : (ρ.pull s c).at? x = Cegar.pull s c (ρ.at? x) := by
  cases x with
  | none => exact (pull_zero hc).symm
  | some v => exact toInt_pull hc v

theorem val_pull_of_bool {v : Var} (hv : v.ty = .bool) : (ρ.pull s c).val v = ρ.val v := by
  have hval := Datum.eq_bool_of_ty ((ρ.typed v).trans hv)
  unfold pull
  dsimp only
  rw [hval]

end Env

/-! ## Difference constraints -/

/-- The coefficients of a difference are none, a unit, or a unit and its opposite. -/
theorem isDifference_eq_true {as : List Int128} (h : isDifference as = .ok true) :
    as = [] ∨ (∃ a, as = [a] ∧ a.val.natAbs = 1) ∨
      ∃ a b, as = [a, b] ∧ a.val.natAbs = 1 ∧ b.val = -a.val := by
  have hone : (1 : Int128).val = 1 := rfl
  have hzero : (0 : Int128).val = 0 := rfl
  unfold isDifference at h
  split at h
  · exact .inl rfl
  · next a =>
    obtain ⟨n, hn, h⟩ := except_bind_ok.1 h
    have heq : n = 1 := of_decide_eq_true (Except.ok.inj h)
    have hval := Int128.val_of_exact hn
    rw [heq, hone] at hval
    exact .inr (.inl ⟨a, rfl, by omega⟩)
  · next a b =>
    obtain ⟨n, hn, h⟩ := except_bind_ok.1 h
    split at h
    · next heq =>
      obtain ⟨m, hm, h⟩ := except_bind_ok.1 h
      have hmzero : m = 0 := of_decide_eq_true (Except.ok.inj h)
      have hval := Int128.val_of_exact hn
      have hsum := Int128.val_of_exact hm
      rw [heq, hone] at hval
      rw [hmzero, hzero] at hsum
      exact .inr (.inr ⟨a, b, rfl, by omega, by omega⟩)
    · cases h
  · cases h

/-- A difference constraint compares the difference of two variables with a constant; one of them,
or both, may be missing. -/
theorem LinearTerm.value_of_isDifference {t : LinearTerm}
    (h : isDifference (t.coeffs.toList.map Prod.snd) = .ok true) :
    ∃ (e : Int) (x y : Option Var), (e = 1 ∨ e = -1) ∧
      ∀ ρ : Env Int, t.value ρ = e * (ρ.at? x - ρ.at? y) + t.const.val := by
  have hvalue := t.value_eq_sum_toList
  rcases isDifference_eq_true h with hl | ⟨a, hl, ha⟩ | ⟨a, b, hl, ha, hb⟩
  · rw [List.map_eq_nil_iff] at hl
    refine ⟨1, none, none, .inl rfl, fun ρ => ?_⟩
    rw [hvalue, hl]
    simp
  · obtain ⟨p, hp, rfl⟩ := List.map_eq_singleton_iff.1 hl
    refine ⟨p.2.val, some p.1, none, by omega, fun ρ => ?_⟩
    rw [hvalue, hp]
    simp only [List.map_cons, List.map_nil, List.sum_singleton, Env.at?]
    ring
  · obtain ⟨p, l, hp, rfl, hrest⟩ := List.map_eq_cons_iff.1 hl
    obtain ⟨q, rfl, rfl⟩ := List.map_eq_singleton_iff.1 hrest
    refine ⟨p.2.val, some p.1, some q.1, by omega, fun ρ => ?_⟩
    rw [hvalue, hp]
    simp only [List.map_cons, List.map_nil, List.sum_cons, List.sum_nil, Env.at?, hb]
    ring

/-- How many distances comparisons with these terms rule out together. -/
def ruledOut (ts : List LinearTerm) : Nat := (ts.map fun t => t.const.val.natAbs + 1).sum

theorem ruledOut_cons (t : LinearTerm) (ts : List LinearTerm) :
    ruledOut (t :: ts) = t.const.val.natAbs + 1 + ruledOut ts := by
  simp [ruledOut]

/-- Nothing that `differenceBoundFrom` computes is replaced by a bound. -/
def DifferenceBoundExact (bound : Int128) : List Expr → Prop
  | [] => True
  | atom :: atoms => atom.DifferenceExact ∅ ∧ ∀ t ∈ atom.difference? ∅,
      (isDifference (t.coeffs.toList.map Prod.snd)).toOption = some true →
        t.const.abs.val = t.const.val.natAbs ∧
        (t.const.abs + 1).val = t.const.abs.val + 1 ∧
        ((t.const.abs + 1) * 2).val = (t.const.abs + 1).val * 2 ∧
        (bound + (t.const.abs + 1) * 2).val = bound.val + ((t.const.abs + 1) * 2).val ∧
        DifferenceBoundExact (bound + (t.const.abs + 1) * 2) atoms

instance decidableDifferenceBoundExact (bound : Int128) :
    (atoms : List Expr) → Decidable (DifferenceBoundExact bound atoms)
  | [] => isTrue trivial
  | _ :: atoms =>
    have := fun bound => decidableDifferenceBoundExact bound atoms
    inferInstanceAs (Decidable (_ ∧ _))

/-- The bound is at least the sum of what the comparisons rule out. -/
theorem differenceBoundFrom_eq_some {bound B : Int128} {atoms : List Expr}
    (h : differenceBoundFrom bound atoms = .ok (some B)) (hx : DifferenceBoundExact bound atoms) :
    ∃ ts : List LinearTerm,
      (∀ t ∈ ts, isDifference (t.coeffs.toList.map Prod.snd) = .ok true) ∧
      (∀ atom ∈ atoms, atom.DifferenceExact ∅ ∧ ∃ t ∈ ts, atom.difference? ∅ = some t) ∧
      bound.val + (ruledOut ts : Int) ≤ B.val := by
  induction atoms generalizing bound with
  | nil =>
    cases h
    exact ⟨[], by simp, by simp, by simp [ruledOut]⟩
  | cons atom atoms ih =>
    rw [differenceBoundFrom] at h
    split at h
    · cases h
    · next t ht =>
      obtain ⟨b, hb, h⟩ := except_bind_ok.1 h
      cases b with
      | false => cases h
      | true =>
        obtain ⟨habs, hadd, hmul, hbound, hrest⟩ := hx.2 t ht (by rw [hb]; rfl)
        obtain ⟨ts, hdiff, hatoms, hsum⟩ := ih h hrest
        refine ⟨t :: ts, ?_, ?_, ?_⟩
        · intro u hu
          rcases List.mem_cons.1 hu with rfl | hu
          · exact hb
          · exact hdiff u hu
        · intro c hc
          rcases List.mem_cons.1 hc with rfl | hc
          · exact ⟨hx.1, t, by simp, ht⟩
          · obtain ⟨hexact, u, hu, hcu⟩ := hatoms c hc
            exact ⟨hexact, u, by simp [hu], hcu⟩
        · rw [ruledOut_cons]
          omega

/-! ## Smaller environments -/

section

variable {P : Var → Prop} {cs atoms : List Expr} {ts : List LinearTerm} {ρ ρ' ρ'' : Env Int}

/-- The same truth values, and the same signs of the terms. -/
structure Env.SameSigns (ts : List LinearTerm) (ρ ρ' : Env Int) : Prop where
  bool : ∀ v : Var, v.ty = .bool → ρ'.val v = ρ.val v
  sign : ∀ t ∈ ts, (t.value ρ').sign = (t.value ρ).sign

theorem Env.SameSigns.trans (h : ρ.SameSigns ts ρ') (h' : ρ'.SameSigns ts ρ'') :
    ρ.SameSigns ts ρ'' :=
  ⟨fun v hv => (h'.bool v hv).trans (h.bool v hv), fun t ht => (h'.sign t ht).trans (h.sign t ht)⟩

/-- Comparisons come out the same if the signs of their terms are the same. -/
theorem Env.SameSigns.truth_eq (h : ρ.SameSigns ts ρ') {c : Expr} (hexact : c.DifferenceExact ∅)
    (hc : ∃ t ∈ ts, c.difference? ∅ = some t) : c.truth ρ' = c.truth ρ := by
  obtain ⟨t, ht, hdiff⟩ := hc
  exact Expr.truth_eq_of_sign ρ'.extends_empty ρ.extends_empty hexact hdiff (h.sign t ht)

/-- An environment in which some integer is too far from zero can be made smaller. -/
theorem Env.exists_smaller
    (hdiff : ∀ t ∈ ts, isDifference (t.coeffs.toList.map Prod.snd) = .ok true) {v : Var}
    (hv : ruledOut ts < (ρ.val v).toInt.natAbs) :
    ∃ ρ' : Env Int, ρ.SameSigns ts ρ' ∧
      (∀ w, (ρ'.val w).toInt.natAbs ≤ (ρ.val w).toInt.natAbs) ∧
      (ρ'.val v).toInt.natAbs < (ρ.val v).toInt.natAbs := by
  -- the side of zero that `v` is on
  obtain ⟨s, hs, hside⟩ : ∃ s : Int, (s = 1 ∨ s = -1) ∧
      s * (ρ.val v).toInt = (ρ.val v).toInt.natAbs := by
    rcases le_total 0 (ρ.val v).toInt with hpos | hneg
    · exact ⟨1, .inl rfl, by omega⟩
    · exact ⟨-1, .inr rfl, by omega⟩
  have hrule : ∀ t ∈ ts, ∃ F : Finset Int, F.card ≤ t.const.val.natAbs + 1 ∧
      ∀ c, c ∉ F → 1 ≤ c → (t.value (ρ.pull s c)).sign = (t.value ρ).sign := by
    intro t ht
    obtain ⟨e, x, y, he, hvalue⟩ := t.value_of_isDifference (hdiff t ht)
    obtain ⟨F, hF, hsign⟩ := exists_ruledOut hs he (ρ.at? x) (ρ.at? y) t.const.val
    refine ⟨F, hF, fun c hc hpos => ?_⟩
    rw [hvalue, hvalue, Env.at?_pull hpos, Env.at?_pull hpos]
    exact hsign c hc
  have hcard : (Finset.Icc 1 (s * (ρ.val v).toInt)).card = (ρ.val v).toInt.natAbs := by
    rw [Int.card_Icc, hside]
    omega
  -- `v` is further from zero than all comparisons together can rule out
  obtain ⟨c, hc, hsign⟩ := exists_distance ts hrule (by rw [hcard]; exact hv)
  rw [Finset.mem_Icc] at hc
  refine ⟨ρ.pull s c, ?_, fun w => ?_, ?_⟩
  · exact ⟨fun w hw => Env.val_pull_of_bool hw, fun t ht => hsign t ht hc.1⟩
  · rw [Env.toInt_pull hc.1]
    exact natAbs_pull_le hs hc.1
  · rw [Env.toInt_pull hc.1]
    exact natAbs_pull_lt hs hc.1 hc.2

/-- Every environment has one like it in the box. -/
theorem Env.exists_bounded
    (hdiff : ∀ t ∈ ts, isDifference (t.coeffs.toList.map Prod.snd) = .ok true) (V : Finset Var)
    (ρ : Env Int) :
    ∃ ρ' : Env Int, ρ.SameSigns ts ρ' ∧
      ∀ v ∈ V, (ρ'.val v).toInt.natAbs ≤ ruledOut ts := by
  -- the sum of all magnitudes gets smaller as long as one of them is too large
  induction hn : ∑ v ∈ V, (ρ.val v).toInt.natAbs using Nat.strong_induction_on generalizing ρ with
  | _ n ih =>
    by_cases hall : ∀ v ∈ V, (ρ.val v).toInt.natAbs ≤ ruledOut ts
    · exact ⟨ρ, ⟨fun _ _ => rfl, fun _ _ => rfl⟩, hall⟩
    · obtain ⟨v, hv, hlarge⟩ : ∃ v ∈ V, ¬ (ρ.val v).toInt.natAbs ≤ ruledOut ts := by
        simpa using hall
      obtain ⟨ρ', hsigns, hle, hlt⟩ := Env.exists_smaller hdiff (Nat.not_le.1 hlarge)
      have hsum : ∑ w ∈ V, (ρ'.val w).toInt.natAbs < n := by
        rw [← hn]
        exact Finset.sum_lt_sum (fun w _ => hle w) ⟨v, hv, hlt⟩
      obtain ⟨ρ'', hsigns', hbound⟩ := ih _ hsum ρ' rfl
      exact ⟨ρ'', hsigns.trans hsigns', hbound⟩

/-- Comparisons that are difference constraints come out the same in some environment in the box,
which leaves truth values as they are. -/
theorem exists_bounded_of_differenceBound {B : Int128} (hB : differenceBound atoms = .ok (some B))
    (hx : DifferenceBoundExact 1 atoms) (V : Finset Var) (ρ : Env Int) :
    ∃ ρ' : Env Int, (∀ v : Var, v.ty = .bool → ρ'.val v = ρ.val v) ∧
      (∀ c ∈ atoms, c.truth ρ' = c.truth ρ) ∧
      ∀ v ∈ V, ((ρ'.val v).toInt.natAbs : Int) ≤ B.val := by
  obtain ⟨ts, hdiff, hatoms, hsum⟩ := differenceBoundFrom_eq_some hB hx
  obtain ⟨ρ', hsigns, hbound⟩ := ρ.exists_bounded hdiff V
  have hone : (1 : Int128).val = 1 := rfl
  refine ⟨ρ', hsigns.bool, fun c hc => hsigns.truth_eq (hatoms c hc).1 (hatoms c hc).2,
    fun v hv => ?_⟩
  have hv := hbound v hv
  omega

/-- Formulas whose comparisons are difference constraints have a solution in the box, if they have
one. -/
theorem Env.Models.exists_bounded (hcs : ∀ c ∈ cs, c.IsFormula P) {B : Int128}
    (hB : differenceBound (cs.flatMap Expr.comparisons) = .ok (some B))
    (hx : DifferenceBoundExact 1 (cs.flatMap Expr.comparisons)) (V : Finset Var)
    (h : ρ.Models cs) :
    ∃ ρ' : Env Int, ρ'.Models cs ∧ ∀ v ∈ V, ((ρ'.val v).toInt.natAbs : Int) ≤ B.val := by
  obtain ⟨ρ', hbool, htruth, hbound⟩ := exists_bounded_of_differenceBound hB hx V ρ
  refine ⟨ρ', fun c hc => ?_, hbound⟩
  rw [← h c hc]
  exact Expr.truth_eq_of_comparisons (hcs c hc).sorted (hcs c hc).bool (fun v _ => hbool v)
    fun atom hatom => htruth atom (List.mem_flatMap.2 ⟨c, hc, hatom⟩)

/-- Comparisons that are difference constraints cannot tell an assignment of integers from some
assignment of integers in the box. -/
theorem differenceBound_represents {B : Int128} (hB : differenceBound atoms = .ok (some B))
    (hx : DifferenceBoundExact 1 atoms) (ρ : Env Int) :
    ∃ ρ' : Env Int,
      (∀ c ∈ atoms, ∀ v ∈ c.vars, -B.val ≤ (ρ'.val v).toInt ∧ (ρ'.val v).toInt ≤ B.val) ∧
      ∀ c ∈ atoms, c.truth ρ' = c.truth ρ := by
  obtain ⟨ρ', -, htruth, hbound⟩ :=
    exists_bounded_of_differenceBound hB hx (atoms.flatMap fun c => c.vars.toList).toFinset ρ
  refine ⟨ρ', fun c hc v hv => ?_, htruth⟩
  have hmem : v ∈ (atoms.flatMap fun c => c.vars.toList).toFinset := by
    rw [List.mem_toFinset]
    exact List.mem_flatMap.2 ⟨c, hc, Std.ExtTreeSet.mem_toList.2 hv⟩
  have hv := hbound v hmem
  omega

end

/-- Constraints on `x` and `y`, one of them given twice and one without variables. -/
def spread : List Expr :=
  [.cmp .lt varX varY, .cmp .le (.arith .sub varY varX) (.num 5), .cmp .ge varX (.num 7),
    .cmp .ne varX (.num 9), .cmp .gt (.num 2) (.num 1), .cmp .lt varX varY,
    .eq varX (.neg (.num 8))]

/-- Assigns a million to `x` and three more to `y`. -/
def farOut : Assignment :=
  ((∅ : Assignment).insert varX (.int 1000000)).insert varY (.int 1000003)

theorem differenceBound_represents_spread :
    differenceBound spread = .ok (some 75) ∧ DifferenceBoundExact 1 spread ∧
      spread.map (·.truth farOut.exactEnv) = [true, true, true, true, true, true, false] ∧
      ∃ ρ' : Env Int,
        (∀ c ∈ spread, ∀ v ∈ c.vars, -75 ≤ (ρ'.val v).toInt ∧ (ρ'.val v).toInt ≤ 75) ∧
        ∀ c ∈ spread, c.truth ρ' = c.truth farOut.exactEnv := by
  have hB : differenceBound spread = .ok (some 75) :=
    except_toOption_eq_some.1 (by decide +kernel)
  have hx : DifferenceBoundExact 1 spread := by decide +kernel
  exact ⟨hB, hx, by decide +kernel, differenceBound_represents hB hx farOut.exactEnv⟩

end Cegar

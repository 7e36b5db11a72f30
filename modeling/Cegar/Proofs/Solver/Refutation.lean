import Cegar.Proofs.Solver.CriticalValues
import Cegar.Proofs.Solver.SmallModel

/-!
# Searches that fail

A search that fails without cutting off a domain has seen all there is. A solution over all integers
can be followed through it: propagation keeps to the solution, and every domain has a value for it
or for another solution that agrees with it so far. So there is no solution. This needs that no
saturating operation on the way replaced its result by a bound. The predicates named `Exact` say so
of the operations that are performed when all values are tried, as they are in a search that fails,
and can be decided.

* **`Query.propagate_extends`**: propagation keeps to every solution;
* **`Query.exists_in_domain`**: a domain that is not cut has a value for a solution;
* **`Query.not_models_of_settle`**: what is left to search has no solution;
* **`Query.not_models_of_search`**: the conjuncts have no solution.
-/

namespace Cegar

namespace Query

/-! ## Exact propagation -/

/-- The side that `forced?` evaluates is evaluated exactly. -/
def ForcedExact (a : Assignment) : Expr → Prop
  | .cmp .eq l r =>
    (∀ _v ∈ open? a l, r.Faithful Int a) ∧
      (open? a l = none → ∀ _v ∈ open? a r, l.Faithful Int a)
  | _ => True

/-- A pass evaluates exactly. It ends at the first conjunct that is false. -/
def PassExact : List Expr → Assignment → Prop
  | [], _ => True
  | c :: cs, a =>
    c.Faithful Int a ∧ (c.eval a false = none → ForcedExact a c) ∧
      ∀ b ∈ pass [c] false a, PassExact cs b.2

def PropagateExact (cs : List Expr) : Nat → Assignment → Prop
  | 0, _ => True
  | n + 1, a =>
    PassExact cs a ∧ ∀ b ∈ pass cs false a, b.1 = true → PropagateExact cs n b.2

instance (a : Assignment) : (e : Expr) → Decidable (ForcedExact a e)
  | .cmp .eq _ _ => inferInstanceAs (Decidable (_ ∧ _))
  | .cmp .ne _ _ | .cmp .lt _ _ | .cmp .le _ _ | .cmp .gt _ _ | .cmp .ge _ _ => isTrue trivial
  | .bool _ | .num _ | .var _ | .arith _ _ _ | .neg _ | .logic _ _ _ | .not _ => isTrue trivial

instance decidablePassExact : (cs : List Expr) → (a : Assignment) → Decidable (PassExact cs a)
  | [], _ => isTrue trivial
  | _ :: cs, _ =>
    have := decidablePassExact cs
    inferInstanceAs (Decidable (_ ∧ _ ∧ _))

instance decidablePropagateExact (cs : List Expr) :
    (n : Nat) → (a : Assignment) → Decidable (PropagateExact cs n a)
  | 0, _ => isTrue trivial
  | n + 1, _ =>
    have := decidablePropagateExact cs n
    inferInstanceAs (Decidable (_ ∧ _))

variable {P : Var → Prop} {cs : List Expr} {a a' : Assignment} {ρ : Env Int}

/-- A pass goes from conjunct to conjunct. -/
theorem pass_cons {c : Expr} {changed : Bool} :
    pass (c :: cs) changed a = (pass [c] changed a).bind fun b => pass cs b.1 b.2 := by
  simp only [pass]
  split
  · rfl
  · rfl
  · split <;> rfl

/-- Whether something changed before does not matter to the assignment. -/
theorem pass_singleton_snd {c : Expr} {changed : Bool} {b : Bool × Assignment}
    (h : pass [c] changed a = some b) : ∃ changed', pass [c] false a = some (changed', b.2) := by
  simp only [pass] at h ⊢
  split at h
  · cases h
  · cases h
    exact ⟨_, rfl⟩
  · split at h <;> cases h <;> exact ⟨_, rfl⟩

/-- What a true conjunct forces on a variable is the variable's value. -/
theorem val_of_forced? {c : Expr} (hc : c.IsFormula P) (hρ : ρ.Extends a) (ht : c.truth ρ = true)
    (hx : ForcedExact a c) {v : Var} {x : Value} (h : forced? a c = some (v, x)) :
    ρ.val v = .ofValue x := by
  obtain ⟨hopen, ⟨rfl, rfl⟩ | ⟨rfl, rfl⟩ | ⟨t, hc', heval⟩⟩ := forced?_eq_some h
  · have hval : (Expr.var v).valueIn ρ = .bool true := by
      rw [Expr.valueIn_eq_bool hc.bool, ht]
    exact hval
  · have hfalse : (Expr.var v).truth ρ = false := by simpa using ht
    have hval : (Expr.var v).valueIn ρ = .bool false := by
      rw [Expr.valueIn_eq_bool hc.sorted.1, hfalse]
    exact hval
  · have hvopen : open? a (.var v) = some v := open?_eq_some.2 ⟨rfl, hopen⟩
    rcases hc' with rfl | rfl
    · have heq := (Expr.truth_eq hc.sorted.1).1 ht
      have hval := Expr.valueIn_of_eval hρ hc.sorted.2.2.2 (hx.1 v hvopen) heval
      rw [hval] at heq
      exact heq
    · have heq := (Expr.truth_eq hc.sorted.1).1 ht
      -- a side that has a value is no open variable
      have hnone : open? a t = none := by
        cases hopen' : open? a t with
        | none => rfl
        | some w =>
          obtain ⟨rfl, hw⟩ := open?_eq_some.1 hopen'
          rw [Std.ExtTreeMap.contains_eq_isSome_getElem?] at hw
          cases hget : a[w]? <;> simp_all [Expr.eval]
      have hval := Expr.valueIn_of_eval hρ hc.sorted.2.2.1 (hx.2 hnone v hvopen) heval
      rw [hval] at heq
      exact heq.symm

/-- A true conjunct is not found false, and what it forces agrees with the environment. -/
theorem pass_singleton_extends {c : Expr} (hc : c.IsFormula P) (hρ : ρ.Extends a)
    (ht : c.truth ρ = true) (hf : c.Faithful Int a) (hx : c.eval a false = none → ForcedExact a c)
    (changed : Bool) : ∃ b, pass [c] changed a = some b ∧ ρ.Extends b.2 := by
  simp only [pass]
  split
  · next hfalse =>
    have hval := Expr.valueIn_of_eval hρ hc.sorted hf hfalse
    rw [Expr.truth, hval] at ht
    cases ht
  · exact ⟨_, rfl, hρ⟩
  · next hnone =>
    split
    · next v x hforced =>
      exact ⟨_, rfl, hρ.insert (val_of_forced? hc hρ ht (hx hnone) hforced)⟩
    · exact ⟨_, rfl, hρ⟩

/-- An environment that models the conjuncts has all values that a pass forces. -/
theorem pass_extends (hcs : ∀ c ∈ cs, c.IsFormula P) (hρ : ρ.Extends a) (h : ρ.Models cs)
    (hx : PassExact cs a) (changed : Bool) :
    ∃ b, pass cs changed a = some b ∧ ρ.Extends b.2 := by
  induction cs generalizing a changed with
  | nil => exact ⟨_, rfl, hρ⟩
  | cons c cs ih =>
    obtain ⟨hf, hforced, hrest⟩ := hx
    obtain ⟨b, hb, hext⟩ :=
      pass_singleton_extends (hcs c (by simp)) hρ (h c (by simp)) hf hforced changed
    obtain ⟨changed', hb'⟩ := pass_singleton_snd hb
    rw [pass_cons, hb]
    exact ih (fun d hd => hcs d (by simp [hd])) hext (fun d hd => h d (by simp [hd]))
      (hrest (changed', b.2) hb') b.1

/-- An environment that models the conjuncts has all values that propagation forces. -/
theorem propagateWithin_extends (hcs : ∀ c ∈ cs, c.IsFormula P) (hρ : ρ.Extends a)
    (h : ρ.Models cs) {n : Nat} (hx : PropagateExact cs n a) :
    ∃ a', propagateWithin cs n a = some a' ∧ ρ.Extends a' := by
  induction n generalizing a with
  | zero => exact ⟨a, rfl, hρ⟩
  | succ n ih =>
    obtain ⟨⟨changed, a'⟩, hpass, hext⟩ := pass_extends hcs hρ h hx.1 false
    rw [propagateWithin, hpass]
    cases changed with
    | false => exact ⟨a', rfl, hext⟩
    | true => exact ih hext (hx.2 _ hpass rfl)

/-- Propagation keeps to every solution. -/
theorem propagate_extends {q : Query} (hcs : ∀ c ∈ q.conjuncts, c.IsFormula P)
    (hρ : ρ.Extends a) (h : ρ.Models q.conjuncts)
    (hx : PropagateExact q.conjuncts (q.vars.length + 1) a) :
    ∃ a', q.propagate a = some a' ∧ ρ.Extends a' :=
  propagateWithin_extends hcs hρ h hx

/-! ## Domains -/

/-- What is computed to find the values of a variable is exact. -/
def DomainExact (q : Query) (x : Var) (a : Assignment) : Prop :=
  x.ty = .int → q.differenceBound = none → TurningValuesExact x a q.atoms

instance (q : Query) (x : Var) (a : Assignment) : Decidable (q.DomainExact x a) :=
  inferInstanceAs (Decidable (_ → _))

/-- Where the comparisons are difference constraints, the environment stays in the box. -/
def InBox (q : Query) (ρ : Env Int) : Prop :=
  ∀ B, q.differenceBound = some B → ∀ v ∈ q.vars, ((ρ.val v).toInt.natAbs : Int) ≤ B.val

/-- All integers up to a magnitude come up among the alternating ones. -/
theorem exists_alternating {n : Int} {B : Int128} (h : (n.natAbs : Int) ≤ B.val) :
    ∃ i < 2 * B.val.toNat + 1, (Domain.alternating i).val = n := by
  have hmax := B.le_max
  have hbounds : Int128.minVal = -Int128.maxVal - 1 := by decide
  rcases Int.lt_or_le 0 n with hpos | hneg
  · refine ⟨2 * n.toNat - 1, by omega, ?_⟩
    have hodd : ¬ (2 * n.toNat - 1) % 2 = 0 := by omega
    have hvalue : (((2 * n.toNat - 1) / 2 + 1 : Nat) : Int) = n := by omega
    rw [Domain.alternating, if_neg hodd, hvalue]
    exact Int128.val_clamp_of_fits (by omega) (by omega)
  · refine ⟨2 * (-n).toNat, by omega, ?_⟩
    have heven : 2 * (-n).toNat % 2 = 0 := by omega
    have hvalue : -((2 * (-n).toNat / 2 : Nat) : Int) = n := by omega
    rw [Domain.alternating, if_pos heven, hvalue]
    exact Int128.val_clamp_of_fits (by omega) (by omega)

/-- Unless it is cut, a domain has a value for the given solution or for one that agrees with it on
what is assigned. -/
theorem exists_in_domain {q : Query} (hq : ofConjuncts cs = .ok q)
    (hcs : ∀ c ∈ cs, c.IsFormula P) {range : Int128} {x : Var} {d : Domain} (hmem : x ∈ q.vars)
    (hopen : a.contains x = false) (hd : q.domain range x a = .ok d) (hcut : d.isCut = false)
    (hx : q.DomainExact x a) (hρ : ρ.Extends a) (h : ρ.Models cs) (hbox : q.InBox ρ) :
    ∃ i < d.size, ∃ ρ' : Env Int, ρ'.Models cs ∧ ρ'.Extends a ∧ q.InBox ρ' ∧
      ρ'.val x = .ofValue (d.get i) := by
  unfold domain at hd
  split at hd
  · next hty =>
    -- both truth values are tried
    cases hd
    have hval := Datum.eq_bool_of_ty ((ρ.typed x).trans hty)
    cases hb : (ρ.val x).isTrue with
    | false => exact ⟨0, by decide, ρ, h, hρ, hbox, by rw [hval, hb]; rfl⟩
    | true => exact ⟨1, by decide, ρ, h, hρ, hbox, by rw [hval, hb]; rfl⟩
  · next B hty hB =>
    -- the solution lies in the box already
    cases hd
    obtain ⟨i, hi, hget⟩ := exists_alternating (hbox B hB x hmem)
    have hval := Datum.eq_int_of_ty ((ρ.typed x).trans hty)
    refine ⟨i, hi, ρ, h, hρ, hbox, ?_⟩
    rw [hval, ← hget]
    rfl
  · next hty hB =>
    obtain ⟨found, hfound, hd⟩ := except_bind_ok.1 hd
    cases found with
    | none =>
      cases hd
      cases hcut
    | some values =>
      -- another solution, which has a critical value
      cases hd
      obtain ⟨n, hn, ρ', hmodels, hext, hval⟩ :=
        h.exists_critical hq hcs hty hopen hfound (hx hty hB) hρ
      have hsorted : n ∈ sortBy Domain.triedBefore values.eraseDups := by
        rw [mem_sortBy, List.mem_eraseDups]
        exact hn
      obtain ⟨i, hi, hget⟩ := List.getElem_of_mem hsorted
      refine ⟨i, hi, ρ', hmodels, hext, fun B hB' => ?_, ?_⟩
      · rw [hB] at hB'
        cases hB'
      · rw [hval]
        show Datum.int n.val = Datum.ofValue (.int (List.getD _ i 0))
        rw [List.getD_eq_getElem?_getD, List.getElem?_eq_getElem hi, hget]
        rfl

/-! ## Exact search -/

/-- A step propagates exactly and goes on exactly. -/
def StepExact (q : Query) (next : Assignment → Prop) (a : Assignment) : Prop :=
  PropagateExact q.conjuncts (q.vars.length + 1) a ∧ ∀ a' ∈ q.propagate a, next a'

instance (q : Query) (next : Assignment → Prop) [DecidablePred next] (a : Assignment) :
    Decidable (q.StepExact next a) :=
  inferInstanceAs (Decidable (_ ∧ _))

/-- Settling variables is exact, whatever values they are tried with. -/
def SettleExact (q : Query) (range : Int128) : List Var → Assignment → Prop
  | [], _ => True
  | x :: xs, a =>
    if a.contains x then SettleExact q range xs a
    else q.DomainExact x a ∧ ∀ d ∈ (q.domain range x a).toOption, ∀ i < d.size,
      q.StepExact (SettleExact q range xs) (a.insert x (d.get i))

instance decidableSettleExact (q : Query) (range : Int128) :
    (xs : List Var) → (a : Assignment) → Decidable (q.SettleExact range xs a)
  | [], _ => isTrue trivial
  | x :: xs, a =>
    have := decidableSettleExact q range xs
    inferInstanceAs (Decidable (if a.contains x then SettleExact q range xs a else _ ∧ _))

/-- No evaluation and no domain of a search that visits all values is cut short by saturation. -/
def SearchExact (q : Query) (range : Int128) : Prop := q.StepExact (q.SettleExact range q.vars) ∅

instance (q : Query) (range : Int128) : Decidable (q.SearchExact range) :=
  inferInstanceAs (Decidable (q.StepExact _ _))

/-! ## Domains that are cut -/

/-- A domain that was cut once stays noted. -/
theorem tryFrom_keeps_cut {d : Domain} {attempt : Value → Effort → Except Abort Result}
    (hkeeps : ∀ v e r, attempt v e = .ok r → e.cut = true → r.effort.cut = true) {n i : Nat}
    {e : Effort} {r : Result} (h : tryFrom d attempt a n i e = .ok r) (he : e.cut = true) :
    r.effort.cut = true := by
  induction n generalizing i e with
  | zero =>
    cases h
    exact he
  | succ n ih =>
    obtain ⟨r', hr', ⟨-, rfl⟩ | ⟨-, h⟩ | ⟨-, rfl⟩⟩ := tryFrom_ok h
    · exact hkeeps _ _ _ hr' he
    · exact ih h (hkeeps _ _ _ hr' he)
    · exact hkeeps _ _ r' hr' he

/-- A step takes back nothing that was cut. -/
theorem step_keeps_cut {q : Query} {next : Assignment → Effort → Except Abort Result}
    (hkeeps : ∀ a e r, next a e = .ok r → e.cut = true → r.effort.cut = true) {e : Effort}
    {r : Result} (h : q.step next a e = .ok r) (he : e.cut = true) : r.effort.cut = true := by
  obtain ⟨-, rfl⟩ | ⟨-, rfl⟩ | ⟨a', r', -, hr', -, heffort, -⟩ := step_ok h
  · exact he
  · exact he
  · rw [heffort]
    exact hkeeps _ _ _ hr' he

/-- Settling variables takes back nothing that was cut. -/
theorem settle_keeps_cut {q : Query} {range : Int128} {xs : List Var} {e : Effort} {r : Result}
    (h : q.settle range xs a e = .ok r) (he : e.cut = true) : r.effort.cut = true := by
  induction xs generalizing a e r with
  | nil =>
    cases h
    exact he
  | cons x xs ih =>
    rcases settle_cons_ok h with ⟨-, h⟩ | ⟨-, d, -, h⟩
    · exact ih h he
    · refine tryFrom_keeps_cut (fun v e r hstep => ?_) h (by simp [he])
      exact step_keeps_cut (fun a e r => ih) hstep

/-! ## Failed searches -/

/-- If no value leads to a model, every value was tried, and failed. -/
theorem tryFrom_false {d : Domain} {attempt : Value → Effort → Except Abort Result}
    (hkeeps : ∀ v e r, attempt v e = .ok r → e.cut = true → r.effort.cut = true) {n i : Nat}
    {e : Effort} {r : Result} (h : tryFrom d attempt a n i e = .ok r)
    (hr : r.verdict = some false) (hcut : r.effort.cut = false) {j : Nat} (hij : i ≤ j)
    (hj : j < i + n) :
    ∃ e' r', attempt (d.get j) e' = .ok r' ∧ r'.verdict = some false ∧ r'.effort.cut = false := by
  induction n generalizing i e with
  | zero => omega
  | succ n ih =>
    obtain ⟨r', hr', ⟨hv, rfl⟩ | ⟨hv, h⟩ | ⟨hv, rfl⟩⟩ := tryFrom_ok h
    · rw [hv] at hr
      cases hr
    · by_cases heq : i = j
      · refine ⟨e, r', heq ▸ hr', hv, Bool.eq_false_iff.2 fun hcut' => ?_⟩
        rw [tryFrom_keeps_cut hkeeps h hcut'] at hcut
        cases hcut
      · exact ih h (by omega) (by omega)
    · rw [hv] at hr
      cases hr

/-- A search that fails without having cut off a domain leaves no solution. -/
theorem not_models_of_settle {q : Query} {range : Int128} (hq : ofConjuncts cs = .ok q)
    (hcs : ∀ c ∈ cs, c.IsFormula P) {xs : List Var} (hxs : ∀ x ∈ xs, x ∈ q.vars) {e : Effort}
    {r : Result} (h : q.settle range xs a e = .ok r) (hr : r.verdict = some false)
    (hcut : r.effort.cut = false) (hx : q.SettleExact range xs a) (hρ : ρ.Extends a)
    (hbox : q.InBox ρ) : ¬ ρ.Models cs := by
  intro hmodels
  have hconjuncts := conjuncts_ofConjuncts hq
  induction xs generalizing a e r ρ with
  | nil =>
    cases h
    cases hr
  | cons x xs ih =>
    have hxs' : ∀ y ∈ xs, y ∈ q.vars := fun y hy => hxs y (by simp [hy])
    rw [SettleExact] at hx
    rcases settle_cons_ok h with ⟨hassigned, h⟩ | ⟨hopen, d, hd, h⟩
    · rw [if_pos hassigned] at hx
      exact ih hxs' h hr hcut hx hρ hbox hmodels
    · rw [if_neg (by rw [hopen]; simp)] at hx
      have hkeeps : ∀ v e r, q.step (q.settle range xs) (a.insert x v) e = .ok r →
          e.cut = true → r.effort.cut = true :=
        fun v e r => step_keeps_cut fun a e r => settle_keeps_cut
      have hdcut : d.isCut = false := by
        refine Bool.eq_false_iff.2 fun hd => ?_
        rw [tryFrom_keeps_cut hkeeps h (by simp [hd])] at hcut
        cases hcut
      -- follow a solution into the branch of its value
      obtain ⟨i, hi, ρ', hmodels', hρ', hbox', hval⟩ :=
        exists_in_domain hq hcs (hxs x (by simp)) hopen hd hdcut hx.1 hρ hmodels hbox
      obtain ⟨e', r', hstep, hr', hcut'⟩ :=
        tryFrom_false hkeeps h hr hcut (Nat.zero_le i) (by omega)
      obtain ⟨hprop, hnext⟩ := hx.2 d (by rw [hd]; rfl) i hi
      obtain ⟨a', ha', hext⟩ := propagate_extends (by rwa [hconjuncts]) (hρ'.insert hval)
        (by rwa [hconjuncts]) hprop
      obtain ⟨-, rfl⟩ | ⟨hnone, -⟩ | ⟨b, r'', hb, hr'', hverdict, heffort, -⟩ := step_ok hstep
      · cases hr'
      · rw [ha'] at hnone
        cases hnone
      · rw [ha'] at hb
        cases hb
        exact ih hxs' hr'' (hverdict ▸ hr') (heffort ▸ hcut') (hnext a' ha') hext hbox' hmodels'

/-- The bound of a query is the one of its comparisons. -/
theorem differenceBound_ofConjuncts {q : Query} (h : ofConjuncts cs = .ok q) :
    Cegar.differenceBound (cs.flatMap Expr.comparisons) = .ok q.differenceBound := by
  obtain ⟨bound, hbound, h⟩ := except_bind_ok.1 h
  cases h
  exact hbound

/-- If there is a solution, there is one in the box. -/
theorem exists_inBox {q : Query} (hq : ofConjuncts cs = .ok q) (hcs : ∀ c ∈ cs, c.IsFormula P)
    (hx : DifferenceBoundExact 1 (cs.flatMap Expr.comparisons)) (h : ρ.Models cs) :
    ∃ ρ' : Env Int, ρ'.Models cs ∧ q.InBox ρ' := by
  cases hB : q.differenceBound with
  | none =>
    refine ⟨ρ, h, fun B hB' => ?_⟩
    rw [hB] at hB'
    cases hB'
  | some B =>
    have hbound := differenceBound_ofConjuncts hq
    rw [hB] at hbound
    obtain ⟨ρ', hρ', hsmall⟩ := h.exists_bounded hcs hbound hx q.vars.toFinset
    refine ⟨ρ', hρ', fun B' hB' v hv => ?_⟩
    rw [hB] at hB'
    cases hB'
    exact hsmall v (List.mem_toFinset.2 hv)

/-- A search that fails with no domain cut, and with nothing saturated, leaves no model over all
integers. -/
theorem not_models_of_search {q : Query} {range : Int128} (hq : ofConjuncts cs = .ok q)
    (hcs : ∀ c ∈ cs, c.IsFormula P) {e : Effort} {r : Result}
    (h : q.search range ∅ e = .ok r) (hr : r.verdict = some false) (hcut : r.effort.cut = false)
    (hx : DifferenceBoundExact 1 (cs.flatMap Expr.comparisons)) (hsearch : q.SearchExact range)
    (ρ : Env Int) : ¬ ρ.Models cs := by
  intro hmodels
  have hconjuncts := conjuncts_ofConjuncts hq
  obtain ⟨ρ', hmodels', hbox⟩ := exists_inBox hq hcs hx hmodels
  obtain ⟨a', ha', hext⟩ := propagate_extends (by rwa [hconjuncts]) ρ'.extends_empty
    (by rwa [hconjuncts]) hsearch.1
  rw [search_eq] at h
  obtain ⟨-, rfl⟩ | ⟨hnone, -⟩ | ⟨b, r', hb, hr', hverdict, heffort, -⟩ := step_ok h
  · cases hr
  · rw [ha'] at hnone
    cases hnone
  · rw [ha'] at hb
    cases hb
    exact not_models_of_settle hq hcs (fun x hx => hx) hr' (hverdict ▸ hr) (heffort ▸ hcut)
      (hsearch.2 a' ha') hext hbox hmodels'

end Query

end Cegar

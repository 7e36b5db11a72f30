import Cegar.Proofs.Solver.Refutation
import Cegar.Proofs.Solver.Session

/-!
# What the answers of the solver mean

The answer `sat` comes with a model in which every assertion is true. The answer `unsat` means that
the assertions have no solution over all integers, if no saturating operation replaced its result by
a bound. The answer `undefined` has one of two causes: the search took more steps than it may, or it
tried a variable in a fixed range.

* **`Query.settle_cut`**, **`Query.settle_none`**: the two causes;
* **`Solver.solve_satisfies`**: the answer `sat`, with the values of the defined variables;
* **`Solver.solve_refutes`**: the other two answers.
-/

namespace Cegar

namespace Query

variable {a : Assignment}

/-! ## Searches without a verdict -/

/-- The variable `x` is tried with all integers up to the magnitude `range`, because neither a bound
on differences nor critical values give it a domain. -/
structure Cut (q : Query) (range : Int128) (x : Var) (a : Assignment) : Prop where
  ty : x.ty = .int
  noBound : q.differenceBound = none
  noValues : q.criticalValues x a = .ok none
  domain : q.domain range x a = .ok (.cut range)

/-- While the variables are settled, some domain is cut. -/
def CutsOff (q : Query) (range : Int128) : List Var → Assignment → Prop
  | [], _ => False
  | x :: xs, a =>
    if a.contains x then CutsOff q range xs a
    else q.Cut range x a ∨ ∃ d, q.domain range x a = .ok d ∧ ∃ i < d.size, ∃ a',
      q.propagate (a.insert x (d.get i)) = some a' ∧ CutsOff q range xs a'

/-- A domain is marked as cut only if the range of the solver is all that bounds it. -/
theorem cut_of_isCut {q : Query} {range : Int128} {x : Var} {d : Domain}
    (h : q.domain range x a = .ok d) (hcut : d.isCut = true) : q.Cut range x a := by
  have hdomain := h
  unfold Query.domain at h
  split at h
  · cases h
    cases hcut
  · cases h
    cases hcut
  · next hty hB =>
    obtain ⟨found, hfound, h⟩ := except_bind_ok.1 h
    cases found with
    | none =>
      cases h
      exact ⟨hty, hB, hfound, hdomain⟩
    | some values =>
      cases h
      cases hcut

/-- Whatever cut was noted while trying values, trying one of them noted it. -/
theorem tryFrom_cut {d : Domain} {attempt : Value → Effort → Except Abort Result} {n i : Nat}
    {e : Effort} {r : Result} (h : tryFrom d attempt a n i e = .ok r) (he : e.cut = false)
    (hr : r.effort.cut = true) : ∃ j < i + n, ∃ e' r', attempt (d.get j) e' = .ok r' ∧
      e'.cut = false ∧ r'.effort.cut = true := by
  induction n generalizing i e with
  | zero =>
    cases h
    rw [he] at hr
    cases hr
  | succ n ih =>
    obtain ⟨r', hr', hcases⟩ := tryFrom_ok h
    cases hcut : r'.effort.cut with
    | true => exact ⟨i, by omega, e, r', hr', he, hcut⟩
    | false =>
      obtain ⟨-, rfl⟩ | ⟨-, h⟩ | ⟨-, rfl⟩ := hcases
      · rw [hcut] at hr
        cases hr
      · obtain ⟨j, hj, hrest⟩ := ih h hcut
        exact ⟨j, by omega, hrest⟩
      · rw [hcut] at hr
        cases hr

/-- If a domain was cut while variables were settled, there are a variable and an assignment at
which it was. -/
theorem settle_cut {q : Query} {range : Int128} {xs : List Var} {e : Effort} {r : Result}
    (h : q.settle range xs a e = .ok r) (he : e.cut = false) (hr : r.effort.cut = true) :
    q.CutsOff range xs a := by
  -- induction on the variables: the domain of the first one is cut, or some value of it leads to
  -- the cut
  induction xs generalizing a e r with
  | nil =>
    cases h
    rw [he] at hr
    cases hr
  | cons x xs ih =>
    rw [CutsOff]
    rcases settle_cons_ok h with ⟨hassigned, h⟩ | ⟨hopen, d, hd, h⟩
    · rw [if_pos hassigned]
      exact ih h he hr
    · rw [if_neg (by rw [hopen]; simp)]
      cases hdcut : d.isCut with
      | true => exact .inl (cut_of_isCut hd hdcut)
      | false =>
        obtain ⟨i, hi, e', r', hstep, he', hr'⟩ := tryFrom_cut h (by rw [he, hdcut]; rfl) hr
        refine .inr ⟨d, hd, i, by omega, ?_⟩
        obtain ⟨-, rfl⟩ | ⟨-, rfl⟩ | ⟨a', r'', ha', hnext, -, heffort, -⟩ := step_ok hstep
        · rw [he'] at hr'
          cases hr'
        · rw [he'] at hr'
          cases hr'
        · exact ⟨a', ha', ih hnext he' (heffort ▸ hr')⟩

/-- If trying values has no verdict, trying one of them had none. -/
theorem tryFrom_none {d : Domain} {attempt : Value → Effort → Except Abort Result}
    (hlimit : ∀ v e r, attempt v e = .ok r → r.verdict = none → stepLimit < r.effort.steps)
    {n i : Nat} {e : Effort} {r : Result} (h : tryFrom d attempt a n i e = .ok r)
    (hr : r.verdict = none) : stepLimit < r.effort.steps := by
  induction n generalizing i e with
  | zero =>
    cases h
    cases hr
  | succ n ih =>
    obtain ⟨r', hr', ⟨hv, rfl⟩ | ⟨-, h⟩ | ⟨hv, rfl⟩⟩ := tryFrom_ok h
    · rw [hv] at hr
      cases hr
    · exact ih h
    · exact hlimit _ _ r' hr' hv

/-- A step has no verdict only when the steps have run out. -/
theorem step_none {q : Query} {next : Assignment → Effort → Except Abort Result}
    (hlimit : ∀ a e r, next a e = .ok r → r.verdict = none → stepLimit < r.effort.steps)
    {e : Effort} {r : Result} (h : q.step next a e = .ok r) (hr : r.verdict = none) :
    stepLimit < r.effort.steps := by
  obtain ⟨hsteps, rfl⟩ | ⟨-, rfl⟩ | ⟨a', r', -, hr', hverdict, heffort, -⟩ := step_ok h
  · exact hsteps
  · cases hr
  · rw [heffort]
    exact hlimit _ _ _ hr' (hverdict ▸ hr)

/-- A search has no verdict only if the steps ran out. -/
theorem settle_none {q : Query} {range : Int128} {xs : List Var} {e : Effort} {r : Result}
    (h : q.settle range xs a e = .ok r) (hr : r.verdict = none) :
    stepLimit < r.effort.steps := by
  induction xs generalizing a e r with
  | nil =>
    cases h
    cases hr
  | cons x xs ih =>
    rcases settle_cons_ok h with ⟨-, h⟩ | ⟨-, d, -, h⟩
    · exact ih h hr
    · exact tryFrom_none (fun v e r => step_none fun a e r => ih) h hr

end Query

/-! ## The solver -/

namespace Solver

/-- What is left of the assertions once definitions are eliminated. -/
def conjuncts (s : Solver) : List Expr :=
  (Definition.eliminate (s.assertions.flatMap Expr.conjuncts)).1

/-- The definitions that are eliminated from the assertions, in order. -/
def definitions (s : Solver) : List Definition :=
  (Definition.eliminate (s.assertions.flatMap Expr.conjuncts)).2

/-- What is asserted is what the open scopes hold. -/
theorem mem_assertions {s : Solver} {e : Expr} :
    e ∈ s.assertions ↔ ∃ scope ∈ s.scopes, e ∈ scope := by
  simp [assertions]

/-- The answer alone, which can be computed. -/
theorem exists_solve {s : Solver} {answer : Answer}
    (h : s.solve.toOption.map Prod.fst = some answer) : ∃ s', s.solve = .ok (answer, s') := by
  cases hs : s.solve with
  | error f =>
    rw [hs] at h
    cases h
  | ok p =>
    rw [hs] at h
    cases h
    exact ⟨p.2, rfl⟩

/-- The answer `sat` leaves a model of all open scopes. Complete evaluation in that model makes
every assertion true and gives every defined variable the value of its term. -/
theorem solve_satisfies {s s' : Solver}
    (hes : ∀ scope ∈ s.scopes, ∀ e ∈ scope, e.WellSorted ∧ e.ty = .bool)
    (h : s.solve = .ok (.sat, s')) :
    s'.scopes = s.scopes ∧ (∀ scope ∈ s.scopes, ∀ e ∈ scope, s'.truth? e = some true) ∧
      ∃ m, s'.model = some m ∧ ∀ d ∈ s.definitions, ∃ x,
        m[d.var]? = some x ∧ d.term.eval m true = some x := by
  have hformula : ∀ e ∈ s.assertions, e.IsFormula fun _ => True := by
    intro e he
    obtain ⟨scope, hscope, he⟩ := mem_assertions.1 he
    exact ⟨(hes scope hscope e he).1, (hes scope hscope e he).2, fun _ _ => trivial⟩
  obtain ⟨hscopes, -, -, hd⟩ := solve_ok h
  obtain ⟨m, ht, hm, hmodels⟩ := models_of_sat hformula h
  rw [← Assignment.models_iff ht hformula] at hmodels
  refine ⟨hscopes, fun scope hscope e he => ?_, m, hm, fun d hdef => ?_⟩
  · have htrue := hmodels e (mem_assertions.2 ⟨scope, hscope, he⟩)
    simp [truth?, hm, htrue, Datum.bool?]
  · rw [hm] at hd
    obtain ⟨a, ha, -, rfl⟩ := decideAssertions_restore hformula hd
    have hconj := Expr.IsFormula.flatMap_conjuncts hformula
    have hvalid := Definition.valid_of_mem_eliminate hconj
    obtain ⟨ht', hvals⟩ :=
      Definition.eval_restore hvalid (Definition.triangular_eliminate hconj) ha
    exact ⟨_, hvals d hdef, Expr.eval_complete ht' (hvalid d hdef).sorted⟩

/-- Asserts `y = x + 1` and `z = y + y`, and in a scope of its own `5 < z`. -/
def chained : Solver :=
  .unasked 3
    [[.cmp .lt (.num 5) varZ],
      [.eq varY (.arith .add varX (.num 1)), .eq varZ (.arith .add varY varY)]]

theorem solve_satisfies_chained :
    ∃ s', chained.solve = .ok (.sat, s') ∧
      (∀ scope ∈ chained.scopes, ∀ e ∈ scope, s'.truth? e = some true) ∧
      chained.definitions.map Definition.var = [varY, varZ] ∧
      ∃ m, s'.model = some m ∧ ∀ d ∈ chained.definitions, ∃ x,
        m[d.var]? = some x ∧ d.term.eval m true = some x := by
  obtain ⟨s, hs⟩ : ∃ s, chained.solve = .ok (.sat, s) := exists_solve (by decide +kernel)
  obtain ⟨-, htrue, hvalues⟩ := solve_satisfies (by decide +kernel) hs
  exact ⟨s, hs, htrue, by decide +kernel, hvalues⟩

/-- No saturating operation of a search through all values replaces its result by a bound. -/
def Exact (s : Solver) : Prop :=
  DifferenceBoundExact 1 (s.conjuncts.flatMap Expr.comparisons) ∧
    ∀ q ∈ (Query.ofConjuncts s.conjuncts).toOption, q.SearchExact s.range

instance (s : Solver) : Decidable s.Exact := inferInstanceAs (Decidable (_ ∧ _))

/-- The search takes more steps than it may. -/
def RunsOut (s : Solver) : Prop :=
  ∃ q r, Query.ofConjuncts s.conjuncts = .ok q ∧ q.search s.range ∅ .zero = .ok r ∧
    Query.stepLimit < r.effort.steps

/-- The search tries some variable in the range of the solver. -/
def CutsOff (s : Solver) : Prop :=
  ∃ q a, Query.ofConjuncts s.conjuncts = .ok q ∧ q.propagate ∅ = some a ∧
    q.CutsOff s.range q.vars a

/-- The answer `unsat` is right if nothing was cut short by saturation, and the answer `undefined`
comes from the limits of the search. -/
theorem solve_refutes {P : Var → Prop} {s s' : Solver} {answer : Answer}
    (hes : ∀ e ∈ s.assertions, e.IsFormula P) (h : s.solve = .ok (answer, s')) :
    (answer = .unsat → s.Exact → ∀ ρ : Env Int, ¬ ρ.Models s.assertions) ∧
      (answer = .undefined → s.RunsOut ∨ s.CutsOff) := by
  obtain ⟨-, -, -, hd⟩ := solve_ok h
  obtain ⟨q, r, hq, hr, -, hans⟩ := decideAssertions_ok hd
  have hconj := Expr.IsFormula.flatMap_conjuncts hes
  constructor
  · rintro rfl hexact ρ hρ
    have hverdict : r.verdict = some false ∧ r.effort.cut = false := by
      split at hans
      · cases hans
      · next hv =>
        refine ⟨hv, Bool.eq_false_iff.2 fun hcut => ?_⟩
        rw [if_pos hcut] at hans
        cases hans
      · cases hans
    -- elimination keeps solutions, and the search refutes what is left
    have hleft : ρ.Models s.conjuncts :=
      Definition.models_eliminate hconj (Env.models_flatMap_conjuncts.2 hρ)
    exact Query.not_models_of_search hq (Definition.isFormula_eliminate hconj) hr hverdict.1
      hverdict.2 hexact.1 (hexact.2 q (by rw [conjuncts, hq]; rfl)) ρ hleft
  · rintro rfl
    have hcause : r.verdict = none ∨ r.effort.cut = true := by
      split at hans
      · cases hans
      · refine .inr (Decidable.byContradiction fun hcut => ?_)
        rw [if_neg hcut] at hans
        cases hans
      · next hv => exact .inl hv
    have hstep := hr
    rw [Query.search_eq] at hstep
    rcases hcause with hv | hcut
    · exact .inl ⟨q, r, hq, hr, Query.step_none (fun a e r => Query.settle_none) hstep hv⟩
    · obtain ⟨-, rfl⟩ | ⟨-, rfl⟩ | ⟨a, r', ha, hr', -, heffort, -⟩ := Query.step_ok hstep
      · cases hcut
      · cases hcut
      -- only settling variables can cut a domain
      · exact .inr ⟨q, a, hq, ha, Query.settle_cut hr' rfl (heffort ▸ hcut)⟩

/-- Asserts `2 * x < 4` and, in a scope of its own, `2 < 2 * x`. -/
def betweenEvens : Solver :=
  let twice : Expr := .arith .mul (.num 2) varX
  .unasked 3 [[.cmp .lt (.num 2) twice], [.cmp .lt twice (.num 4)]]

/-- Asserts `x * x = 2`. -/
def squareOfTwo : Solver :=
  .unasked 3 [[.eq (.arith .mul varX varX) (.num 2)]]

theorem solve_refutes_betweenEvens :
    (betweenEvens.Exact ∧ ∀ ρ : Env Int, ¬ ρ.Models betweenEvens.assertions) ∧
      (squareOfTwo.RunsOut ∨ squareOfTwo.CutsOff) := by
  have hexact : betweenEvens.Exact := by decide +kernel
  have hformula {s : Solver} (hs : ∀ e ∈ s.assertions, e.WellSorted ∧ e.ty = .bool) :
      ∀ e ∈ s.assertions, e.IsFormula fun _ => True :=
    fun e he => ⟨(hs e he).1, (hs e he).2, fun _ _ => trivial⟩
  obtain ⟨s, hs⟩ : ∃ s, betweenEvens.solve = .ok (.unsat, s) := exists_solve (by decide +kernel)
  obtain ⟨t, ht⟩ : ∃ t, squareOfTwo.solve = .ok (.undefined, t) := exists_solve (by decide +kernel)
  exact ⟨⟨hexact, (solve_refutes (hformula (by decide +kernel)) hs).1 rfl hexact⟩,
    (solve_refutes (hformula (by decide +kernel)) ht).2 rfl⟩

end Solver

end Cegar

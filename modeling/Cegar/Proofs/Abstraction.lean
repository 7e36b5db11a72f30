import Cegar.Abstraction
import Cegar.Proofs.Encoding
import Cegar.Proofs.Solver.Session

/-!
# Abstractions are implied

What the abstraction of a block says is true of every store that the block leads to, if the answers
of the solver are correct. Where the solver cannot tell, the abstraction is weaker, never wrong.

Nothing is asked of the block and of the abstraction that it starts from: what the solver says about
them is said about their evaluation. Only predicates have to be formulas.

* **`enumerateCubes_ok`**: as long as cubes are enumerated, a model of the block satisfies one of
  them or all that is asserted, so it satisfies one when nothing more can be;
* **`abstractBlock_asks`**: the abstraction of a block holds at its end;
* **`abstractBlock_overapproximates`**: so does its indexed form, in every model of the block;
* **`blockInfeasible_asks`**: a block known to be infeasible has no model;
* **`implied_asks`**: an implication that is known holds in every store.
-/

namespace Cegar

open SolverM

variable {P : Var → Prop} {V σ : Store}

namespace Tracked

/-- The predicate holds in a store exactly if its indexed form, a formula, holds in the model. -/
structure Matches (V σ : Store) (t : Tracked) : Prop where
  formula : t.indexed.IsFormula fun _ => True
  truth : t.indexed.truth V = t.predicate.truth σ

/-- The complement of a predicate matches where the predicate does. -/
theorem Matches.complement {t : Tracked} (h : t.Matches V σ) : t.complement.Matches V σ := by
  refine ⟨h.formula.complement, ?_⟩
  show t.indexed.complement.truth V = t.predicate.complement.truth σ
  rw [Expr.truth_complement, Expr.truth_complement, h.truth]

/-- Signs are given to tracked predicates, whatever the model is. -/
theorem signed?_eq_some {s : Solver} {t u : Tracked} (h : signed? s t = some u) :
    u = t ∨ u = t.complement := by
  unfold signed? at h
  split at h
  · cases h; exact .inl rfl
  · cases h; exact .inr rfl
  · cases h

/-- The literals of a model are made of the predicates. -/
theorem signed_closed {F : Expr → Prop} (hF : Expr.Closed F) {s : Solver} {ts : List Tracked}
    (hts : ∀ t ∈ ts, F t.predicate) : ∀ u ∈ ts.filterMap (signed? s), F u.predicate := by
  intro u hu
  obtain ⟨t, ht, hu⟩ := List.mem_filterMap.1 hu
  rcases signed?_eq_some hu with rfl | rfl
  · exact hts u ht
  · exact hF.complement _ (hts t ht)

/-- The literals of a model match where the predicates do. -/
theorem signed_matches {s : Solver} {ts : List Tracked} (hts : ∀ t ∈ ts, t.Matches V σ) :
    ∀ u ∈ ts.filterMap (signed? s), u.Matches V σ := by
  intro u hu
  obtain ⟨t, ht, hu⟩ := List.mem_filterMap.1 hu
  rcases signed?_eq_some hu with rfl | rfl
  · exact hts u ht
  · exact (hts t ht).complement

/-- A cube over predicates is as true as the cube over their indexed forms. -/
theorem truth_conj_eq {us : List Tracked} (hus : ∀ u ∈ us, u.Matches V σ) :
    (Expr.conj (us.map (·.predicate))).truth σ = (Expr.conj (us.map (·.indexed))).truth V := by
  rw [Expr.truth_conj, Expr.truth_conj]
  induction us with
  | nil => rfl
  | cons u us ih =>
    have hu := (hus u (by simp)).truth
    have ih := ih fun w hw => hus w (by simp [hw])
    simp only [List.map_cons, List.all_cons, ih, hu.symm]

theorem isFormula_conj {us : List Tracked} (hus : ∀ u ∈ us, u.Matches V σ) :
    (Expr.conj (us.map (·.indexed))).IsFormula fun _ => True := by
  refine .conj fun e he => ?_
  obtain ⟨u, hu, rfl⟩ := List.mem_map.1 he
  exact (hus u hu).formula

end Tracked

/-! ## Boolean abstraction -/

/-- One round of the enumeration: nothing is left, it is given up, or one more cube is found and
excluded. -/
theorem enumerateCubes_cases {ts : List Tracked} {n : Nat} {cubes : List Expr} {s s' : Solver}
    {r : Expr} (h : enumerateCubes ts n cubes s = .ok (r, s')) :
    ∃ answer t, s.solve = .ok (answer, t) ∧
      ((answer = .unsat ∧ s' = t ∧ r = Expr.disj cubes.reverse) ∨
        ((answer = .undefined ∨ answer = .sat ∧ n = 0) ∧ s' = t ∧ r = .bool true) ∨
        ∃ k us, answer = .sat ∧ n = k + 1 ∧ us = ts.filterMap (Tracked.signed? t) ∧
          enumerateCubes ts k (Expr.conj (us.map (·.predicate)) :: cubes)
            (t.assert (Expr.conj (us.map (·.indexed))).complement) = .ok (r, s')) := by
  unfold enumerateCubes at h
  obtain ⟨answer, t, hsolve, h⟩ := state_bind_ok.1 h
  refine ⟨answer, t, hsolve, ?_⟩
  cases answer with
  | unsat =>
    cases state_pure_ok.1 h
    exact .inl ⟨rfl, rfl, rfl⟩
  | undefined =>
    cases state_pure_ok.1 h
    exact .inr (.inl ⟨.inl rfl, rfl, rfl⟩)
  | sat =>
    cases n with
    | zero =>
      cases state_pure_ok.1 h
      exact .inr (.inl ⟨.inr ⟨rfl, rfl⟩, rfl, rfl⟩)
    | succ k =>
      obtain ⟨_, _, hget, h⟩ := state_bind_ok.1 h
      cases state_get_ok.1 hget
      obtain ⟨_, _, hmod, h⟩ := state_bind_ok.1 h
      cases state_modify_ok.1 hmod
      exact .inr (.inr ⟨k, _, rfl, rfl, rfl, h⟩)

/-- What the enumeration of cubes comes to, in a scope with assertions `es`. -/
structure Enumerated (ts : List Tracked) (cubes es : List Expr) (s s' : Solver) (r : Expr) :
    Prop where
  scopes : ∃ es', s'.scopes = [es', []]
  closed : ∀ F, Expr.Closed F → (∀ t ∈ ts, F t.predicate) → (∀ c ∈ cubes, F c) → F r
  sound : ∃ new, s'.transcript = new ++ s.transcript ∧
    (Truthful new → ∀ V σ, (∀ t ∈ ts, t.Matches V σ) →
      ((∀ e ∈ es, e.Holds V) ∨ ∃ c ∈ cubes, c.truth σ = true) → r.truth σ = true)

/-- What the enumeration of cubes comes to: a store satisfies the result if it satisfies the
assertions or a cube found before. -/
theorem enumerateCubes_ok {ts : List Tracked} {n : Nat} {cubes : List Expr} {s s' : Solver}
    {es : List Expr} (hs : s.scopes = [es, []]) {r : Expr}
    (h : enumerateCubes ts n cubes s = .ok (r, s')) : Enumerated ts cubes es s s' r := by
  -- induction on the rounds left: a store satisfies the cube of this round, or the assertions
  -- with its complement
  induction n using Nat.strongRecOn generalizing cubes s es with
  | ind n ih =>
    obtain ⟨answer, t, hsolve, hcases⟩ := enumerateCubes_cases h
    obtain ⟨hscopes, -, htranscript, -⟩ := Solver.solve_ok hsolve
    have hassertions : s.assertions = es := by simp [Solver.assertions, hs]
    rw [hs] at hscopes
    rw [hassertions] at htranscript
    rcases hcases with ⟨rfl, rfl, rfl⟩ | ⟨-, rfl, rfl⟩ | ⟨k, us, -, rfl, hus, h⟩
    · refine ⟨⟨es, hscopes⟩, fun F hF _ hcubes => hF.disj (by simpa using hcubes),
        [⟨es, .unsat⟩], htranscript, fun ht V σ _ hor => ?_⟩
      -- nothing satisfies the assertions any more, so a cube was found before
      have hnot := (ht ⟨es, .unsat⟩ (by simp)).not_holds rfl V
      simpa using hor.resolve_left hnot
    · exact ⟨⟨es, hscopes⟩, fun F hF _ _ => hF.const true, [⟨es, answer⟩], htranscript,
        fun _ _ _ _ _ => rfl⟩
    · have hassert : (t.assert (Expr.conj (us.map (·.indexed))).complement).scopes =
          [es ++ [(Expr.conj (us.map (·.indexed))).complement], []] := by
        simp [Solver.assert, hscopes]
      have hassert' : (t.assert (Expr.conj (us.map (·.indexed))).complement).transcript =
          t.transcript := by
        simp [Solver.assert, hscopes]
      obtain ⟨hs', hclosed, new, hnew, hsound⟩ := ih k (Nat.lt_succ_self k) hassert h
      refine ⟨hs', fun F hF hts hcubes => hclosed F hF hts ?_, new ++ [⟨es, answer⟩], ?_,
        fun ht V σ hmatch hor => hsound ht.of_append.1 V σ hmatch ?_⟩
      · refine List.forall_mem_cons.2 ⟨hF.conj fun e he => ?_, hcubes⟩
        obtain ⟨u, hu, rfl⟩ := List.mem_map.1 he
        exact (hus ▸ Tracked.signed_closed hF hts) u hu
      · rw [hnew, hassert', htranscript, List.append_assoc]
        rfl
      · have husm : ∀ u ∈ us, u.Matches V σ := hus ▸ Tracked.signed_matches hmatch
        have hcube := Tracked.truth_conj_eq husm
        rcases hor with hV | ⟨c, hc, hcσ⟩
        · cases hv : (Expr.conj (us.map (·.indexed))).truth V with
          | true => exact .inr ⟨_, by simp, hcube.trans hv⟩
          | false =>
            refine .inl (List.forall_mem_append.2 ⟨hV, List.forall_mem_singleton.2 ?_⟩)
            rw [Expr.holds_iff_truth (Tracked.isFormula_conj husm).complement]
            simpa using hv
        · exact .inr ⟨c, by simp [hc], hcσ⟩

/-- An abstraction is made of the predicates alone. -/
def FromPredicates (ts : List Tracked) (r : Expr) : Prop :=
  ∀ F, Expr.Closed F → (∀ t ∈ ts, F t.predicate) → F r

/-- The boolean abstraction is made of the predicates, and holds wherever the formula does if the
answers are correct. -/
theorem booleanAbstraction_asks (formula : Expr) (ts : List Tracked) :
    Asks (booleanAbstraction formula ts) (FromPredicates ts) fun r => ∀ V σ,
      (∀ t ∈ ts, t.Matches V σ) → formula.Holds V → r.truth σ = true := by
  intro s r s' hs h
  obtain ⟨t, hcubes, rfl⟩ := inScope_assert_ok hs h
  obtain ⟨⟨es, hes⟩, hclosed, new, hnew, hsound⟩ := enumerateCubes_ok rfl hcubes
  have hpop : t.pop = { t with scopes := [[]] } := by
    simp [Solver.pop, hes]
  rw [hpop]
  refine ⟨new, ⟨rfl, hnew⟩, fun F hF hts => hclosed F hF hts (by simp),
    fun ht V σ hmatch hV => hsound ht V σ hmatch (.inl ?_)⟩
  simpa using hV

/-! ## Cartesian abstraction -/

/-- What follows from an expression, if it is a formula, is true wherever the expression holds. -/
theorem impliedLiteral?_asks (formula literal : Expr) :
    Asks (impliedLiteral? formula literal) (fun _ => True) fun sign =>
      ∀ b, sign = some b → literal.IsFormula (fun _ => True) →
        ∀ V : Store, formula.Holds V → literal.truth V = b := by
  refine (isUnsat_asks (formula.and literal.complement)).bind fun known _ => ?_
  cases known with
  | true =>
    refine asks_pure trivial fun hfalse b hb hl V hV => ?_
    cases hb
    have hnot := hfalse rfl V
    rw [Expr.holds_and, Expr.holds_iff_truth hl.complement] at hnot
    simpa [hV] using hnot
  | false =>
    refine (isUnsat_asks (formula.and literal)).bind fun known' _ => ?_
    cases known' with
    | true =>
      refine asks_pure trivial fun hfalse _ b hb hl V hV => ?_
      cases hb
      have hnot := hfalse rfl V
      rw [Expr.holds_and, Expr.holds_iff_truth hl] at hnot
      simpa [hV] using hnot
    | false => exact asks_pure trivial fun _ _ b hb => by cases hb

/-- The literals that follow from the formula are added to the result. -/
theorem addLiterals_asks (formula : Expr) (ts : List Tracked) (result : Expr) :
    Asks (addLiterals formula ts result)
      (fun r => ∀ F, Expr.Closed F → (∀ t ∈ ts, F t.predicate) → F result → F r) fun r => ∀ V σ,
      (∀ t ∈ ts, t.Matches V σ) → formula.Holds V → result.truth σ = true → r.truth σ = true := by
  induction ts generalizing result with
  | nil => exact asks_pure (fun _ _ _ h => h) fun _ _ _ _ h => h
  | cons t ts ih =>
    refine (impliedLiteral?_asks formula t.indexed).bind fun sign _ => ?_
    cases sign with
    | none =>
      exact (ih result).mono (fun r h F hF hts => h F hF fun u hu => hts u (by simp [hu]))
        fun r _ h _ V σ hm => h V σ fun u hu => hm u (by simp [hu])
    | some b =>
      -- the literal has the sign that the formula gives it
      have step (d : Expr) (hd : ∀ F, Expr.Closed F → F t.predicate → F d)
          (hdσ : ∀ V σ, t.Matches V σ → t.indexed.truth V = b → d.truth σ = true) :
          Asks (addLiterals formula ts (result.and d))
            (fun r => ∀ F, Expr.Closed F → (∀ u ∈ t :: ts, F u.predicate) → F result → F r)
            fun r => (∀ c, some b = some c → t.indexed.IsFormula (fun _ => True) →
              ∀ V : Store, formula.Holds V → t.indexed.truth V = c) →
              ∀ V σ, (∀ u ∈ t :: ts, u.Matches V σ) → formula.Holds V → result.truth σ = true →
                r.truth σ = true := by
        refine (ih (result.and d)).mono (fun r h F hF hts hresult => ?_)
          fun r _ h hlit V σ hm hV hσ => ?_
        · exact h F hF (fun u hu => hts u (by simp [hu]))
            (hF.and hresult (hd F hF (hts t (by simp))))
        · refine h V σ (fun u hu => hm u (by simp [hu])) hV ?_
          have hmt := hm t (by simp)
          rw [Expr.truth_and, hσ, hdσ V σ hmt (hlit b rfl hmt.formula V hV)]
          rfl
      cases b with
      | true =>
        exact step t.predicate (fun _ _ h => h) fun V σ hm hb => by rw [← hm.truth, hb]
      | false =>
        exact step t.predicate.complement (fun _ hF h => hF.complement _ h) fun V σ hm hb => by
          rw [Expr.truth_complement, ← hm.truth, hb]
          rfl

/-- The cartesian abstraction is made of the predicates, and holds wherever the formula does if the
answers are correct. -/
theorem cartesianAbstraction_asks (formula : Expr) (ts : List Tracked) :
    Asks (cartesianAbstraction formula ts) (FromPredicates ts) fun r => ∀ V σ,
      (∀ t ∈ ts, t.Matches V σ) → formula.Holds V → r.truth σ = true := by
  refine (isUnsat_asks formula).bind fun known _ => ?_
  cases known with
  | true =>
    exact asks_pure (fun _ hF _ => hF.const false) fun hfalse V σ _ hV => absurd hV (hfalse rfl V)
  | false =>
    exact (addLiterals_asks formula ts (.bool true)).mono
      (fun r h F hF hts => h F hF hts (hF.const true)) fun r _ h _ V σ hm hV => h V σ hm hV rfl

/-! ## Blocks -/

/-- Predicates of the program, over the variables at the end of a block. -/
theorem matches_ofPredicates {ps : List Predicate} (hps : ∀ p ∈ ps, p.expr.IsFormula P)
    {m : SsaMap} (hr : Env.Reads P V m σ) :
    ∀ t ∈ Tracked.ofPredicates ps m, t.Matches V σ := by
  intro t ht
  obtain ⟨p, hp, rfl⟩ := List.mem_map.1 ht
  refine ⟨⟨(hps p hp).sorted.indexed m, ?_, fun _ _ => trivial⟩,
    Expr.truth_indexed (hps p hp).vars hr⟩
  rw [Expr.ty_indexed, (hps p hp).bool]

/-- The formula of a block is what was known at its start and the block itself. -/
theorem holds_blockFormula {prior : Expr} {m : SsaMap} {block : PathFormula} :
    (blockFormula prior m block).Holds V ↔ (prior.indexed m).Holds V ∧ block.formula.Holds V :=
  Expr.holds_and

/-- The abstraction of a block is made of the predicates, and true of the stores that the block
leads to. -/
theorem abstractBlock_asks (kind : AbstractionKind) (prior : Expr) (m : SsaMap)
    (block : PathFormula) (ps : List Predicate) :
    Asks (abstractBlock kind prior m block ps)
      (fun r => ∀ F, Expr.Closed F → (∀ p ∈ ps, F p.expr) → F r) fun r => ∀ (P : Var → Prop) V σ,
      (∀ p ∈ ps, p.expr.IsFormula P) → (blockFormula prior m block).Holds V →
        Env.Reads P V block.ssa σ → r.truth σ = true := by
  have hfrom {r : Expr} (h : FromPredicates (Tracked.ofPredicates ps block.ssa) r) (F : Expr → Prop)
      (hF : Expr.Closed F) (hps : ∀ p ∈ ps, F p.expr) : F r := by
    refine h F hF fun t ht => ?_
    obtain ⟨p, hp, rfl⟩ := List.mem_map.1 ht
    exact hps p hp
  unfold abstractBlock
  split
  · refine (isUnsat_asks _).bind fun known _ => asks_pure (fun _ hF _ => hF.const _)
      fun hfalse P V σ _ hV _ => ?_
    cases known with
    | true => exact absurd hV (hfalse rfl V)
    | false => rfl
  · cases kind with
    | boolean =>
      exact (booleanAbstraction_asks _ _).mono (fun r => hfrom)
        fun r _ h P V σ hps hV hr => h V σ (matches_ofPredicates hps hr) hV
    | cartesian =>
      exact (cartesianAbstraction_asks _ _).mono (fun r => hfrom)
        fun r _ h P V σ hps hV hr => h V σ (matches_ofPredicates hps hr) hV

/-- Every model of the block, and of the abstraction that it starts from, is a model of what comes
out, read at the end of the block. It makes no difference how the abstraction came about: without
predicates, given up by the solver or at the limit of cubes, or computed to its end. -/
theorem abstractBlock_overapproximates (kind : AbstractionKind) (prior : Expr) (m : SsaMap)
    (block : PathFormula) {ps : List Predicate} (hps : ∀ p ∈ ps, p.expr.WellSorted)
    {s s' : Solver} (hs : s.scopes = [[]]) {r : Expr}
    (h : abstractBlock kind prior m block ps s = .ok (r, s')) :
    ∃ new, Rests s new s' ∧ (Truthful new → ∀ V : Store, (prior.indexed m).Holds V →
      block.formula.Holds V → (r.indexed block.ssa).Holds V) := by
  have hformula : ∀ p ∈ ps, p.expr.IsFormula fun _ => True := fun p hp =>
    ⟨hps p hp, p.isPredicate.1, fun _ _ => trivial⟩
  obtain ⟨new, hrests, hmade, hholds⟩ := abstractBlock_asks kind prior m block ps s r s' hs h
  refine ⟨new, hrests, fun ht V hprior hblock => ?_⟩
  have hr : r.IsFormula fun _ => True := hmade _ (Expr.IsFormula.closed _) hformula
  have hindexed : (r.indexed block.ssa).IsFormula fun _ => True :=
    ⟨hr.sorted.indexed _, by rw [Expr.ty_indexed, hr.bool], fun _ _ => trivial⟩
  have hreads := V.reads_after (P := fun _ => True) block.ssa
  rw [Expr.holds_iff_truth hindexed, Expr.truth_indexed hr.vars hreads]
  exact hholds ht _ V _ hformula (holds_blockFormula.2 ⟨hprior, hblock⟩) hreads

/-- The predicate `x = c`. -/
def hasValue (c : Int128) : Predicate where
  expr := .eq varX (.num c)
  isPredicate := ⟨rfl, show (Expr.var varX).vars ≠ ∅ by decide, by
    show (Expr.var varX).vars.all (·.index.isNone) = true
    decide⟩

/-- After a write, `x` is `0` or `2`. -/
def zeroOrTwo : PathFormula :=
  let ssa : SsaMap := ⟨(∅ : Std.ExtTreeMap String Write).insert "x" ⟨1, .int⟩⟩
  ⟨.logic .or ((hasValue 0).expr.indexed ssa) ((hasValue 2).expr.indexed ssa), ssa⟩

/-- Then `x` does not have two values. -/
theorem not_two_values {c d : Int128} (hcd : c ≠ d) (V : Store) :
    ¬ (((hasValue c).expr.indexed zeroOrTwo.ssa).truth V = true ∧
      ((hasValue d).expr.indexed zeroOrTwo.ssa).truth V = true) := by
  have hvalue (c : Int128) (h : ((hasValue c).expr.indexed zeroOrTwo.ssa).truth V = true) :
      V.val ⟨"x", .int, some 1⟩ = .int c :=
    (Expr.truth_eq (l := .var ⟨"x", .int, some 1⟩) (r := .num c) rfl).1 h
  rintro ⟨hc, hd⟩
  cases (hvalue c hc).symm.trans (hvalue d hd)
  exact hcd rfl

/-- There is no other value. -/
theorem truth_zeroOrTwo_and {c : Int128} (hzero : c ≠ 0) (htwo : c ≠ 2) (V : Store) :
    (Expr.logic .and zeroOrTwo.formula
      ((hasValue c).expr.indexed zeroOrTwo.ssa)).truth V = false := by
  refine Bool.eq_false_iff.2 fun hV => ?_
  obtain ⟨hblock, hc⟩ := Bool.and_eq_true_iff.1 hV
  rcases Bool.or_eq_true_iff.1 hblock with h | h
  · exact not_two_values hzero V ⟨hc, h⟩
  · exact not_two_values htwo V ⟨hc, h⟩

/-- The sign patterns over `x = 0` and `x = 2` that `zeroOrTwo` allows. -/
def zeroOrTwoCubes : List Expr :=
  [.logic .and (hasValue 0).expr (.not (hasValue 2).expr),
    .logic .and (.not (hasValue 0).expr) (hasValue 2).expr]

/-- What is asked for the boolean abstraction of `zeroOrTwo`, the last question first. -/
def zeroOrTwoAsked : List Exchange :=
  let excluded := zeroOrTwoCubes.map fun c => Expr.not (c.indexed zeroOrTwo.ssa)
  [⟨zeroOrTwo.formula :: excluded, .unsat⟩, ⟨zeroOrTwo.formula :: excluded.take 1, .sat⟩,
    ⟨[zeroOrTwo.formula], .sat⟩]

/-- What was answered with `unsat` has no model. -/
theorem truthful_zeroOrTwoAsked : Truthful zeroOrTwoAsked := by
  refine List.forall_mem_cons.2 ⟨?_, by simp [Exchange.Correct]⟩
  refine Exchange.correct_of_formulas (by decide +kernel) fun _ V hV => ?_
  obtain ⟨hblock, hexcluded⟩ := List.forall_mem_cons.1 hV
  let value := fun c => ((hasValue c).expr.indexed zeroOrTwo.ssa).truth V
  have hnot : ¬ (value 0 = true ∧ value 2 = true) := not_two_values (by decide) V
  have hsome : (value 0 || value 2) = true := hblock
  have honlyZero : (!(value 0 && !value 2)) = true := hexcluded _ List.mem_cons_self
  have honlyTwo : (!(!value 0 && value 2)) = true :=
    hexcluded _ (List.mem_cons_of_mem _ List.mem_cons_self)
  grind

/-- The abstraction of `zeroOrTwo` is the disjunction of its two cubes. -/
theorem exists_run_zeroOrTwo :
    ∃ s', abstractBlock .boolean (.bool true) .empty zeroOrTwo [hasValue 0, hasValue 2]
        (.unasked 16 [[]]) = .ok (.disj zeroOrTwoCubes, s') ∧ s'.transcript = zeroOrTwoAsked :=
  recorded_eq_some (by decide +kernel)

theorem abstractBlock_overapproximates_zeroOrTwo :
    ∃ s', abstractBlock .boolean (.bool true) .empty zeroOrTwo [hasValue 0, hasValue 2]
        (.unasked 16 [[]]) = .ok (.disj zeroOrTwoCubes, s') ∧ Truthful s'.transcript ∧
      ∀ V : Store, zeroOrTwo.formula.Holds V →
        ((Expr.disj zeroOrTwoCubes).indexed zeroOrTwo.ssa).Holds V := by
  obtain ⟨s', hrun, hasked⟩ := exists_run_zeroOrTwo
  have ht : Truthful s'.transcript := hasked ▸ truthful_zeroOrTwoAsked
  obtain ⟨new, hrests, hholds⟩ :=
    abstractBlock_overapproximates _ _ _ _ (by decide +kernel) rfl hrun
  rw [hrests.eq_transcript] at hholds
  exact ⟨s', hrun, ht, fun V => hholds ht V (by simp [Expr.indexed, Expr.mapVars])⟩

/-- A block that is found infeasible has no model. -/
theorem blockInfeasible_asks (prior : Expr) (m : SsaMap) (block : PathFormula) :
    Asks (blockInfeasible prior m block) (fun _ => True) fun b => b = true → ∀ V : Store,
      ¬ (blockFormula prior m block).Holds V :=
  isUnsat_asks _

/-- An implication that is found holds. -/
theorem implied_asks (a b : Expr) :
    Asks (implied a b) (fun _ => True) fun r => r = true → b.IsFormula (fun _ => True) →
      ∀ V : Store, a.Holds V → b.Holds V := by
  unfold implied
  split
  · next h =>
    refine asks_pure trivial fun _ _ V hV => ?_
    simp only [Bool.or_eq_true, decide_eq_true_eq] at h
    rcases h with (rfl | h) | h
    · exact hV
    · rw [Expr.eq_bool_of_known h] at hV
      simp at hV
    · rw [Expr.eq_bool_of_known h]
      simp
  · refine (isUnsat_asks _).mono (fun _ => id) fun r _ h hr hb V hV => ?_
    have hnot := h hr V
    rw [Expr.holds_and, Expr.holds_iff_truth hb.complement] at hnot
    rw [Expr.holds_iff_truth hb]
    simpa [hV] using hnot

end Cegar

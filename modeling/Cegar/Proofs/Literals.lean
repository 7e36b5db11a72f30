import Cegar.Proofs.Cubes

/-!
# Cartesian abstractions are exact

If all questions are decided, the cartesian abstraction of a block that can be executed is the
conjunction of the literals that the block implies, and of nothing else. It says no more than the
boolean abstraction of the same block, since it is a combination of the predicates that the block
implies.

* **`addLiterals_determines`**: the literals are added one by one;
* **`abstractBlock_literals`**: the cartesian abstraction of a block;
* **`abstractBlock_cartesian_strongest`**: its literals, and how it compares.
-/

namespace Cegar

open SolverM

variable {P : Var → Prop}

/-- The literals over the predicates to which a sign is given. -/
def signedLiterals (sign : Predicate → Option Bool) (ps : List Predicate) : List Expr :=
  ps.filterMap fun p => (sign p).map p.expr.literal

/-- Each predicate with a sign adds its literal. -/
theorem addLiterals_determines {formula : Expr} (hf : formula.IsFormula P)
    (hmodel : ∃ V : Store, formula.truth V = true) {m : SsaMap} {sign : Predicate → Option Bool}
    (hsign : ∀ p b, sign p = some b ↔ formula.Decides (p.expr.indexed m) b) {ps : List Predicate}
    (hps : ∀ p ∈ ps, (p.expr.indexed m).IsFormula P) (result : Expr) :
    Determines (addLiterals formula (Tracked.ofPredicates ps m) result) fun r =>
      r = (signedLiterals sign ps).foldl Expr.and result := by
  induction ps generalizing result with
  | nil => exact determines_pure rfl
  | cons p ps ih =>
    obtain ⟨hp, hps⟩ := List.forall_mem_cons.1 hps
    refine (impliedLiteral?_determines hf hp hmodel).bind fun found => ?_
    -- what is found is the sign of the predicate
    have hsame (h : ∀ b, found = some b ↔ formula.Decides (p.expr.indexed m) b) :
        sign p = found :=
      Option.ext fun b => (hsign p b).trans (h b).symm
    have hrest (d : List Expr) (hd : (found.map p.expr.literal).toList = d) :
        Determines (addLiterals formula (Tracked.ofPredicates ps m) (d.foldl Expr.and result))
          fun r => (∀ b, found = some b ↔ formula.Decides (p.expr.indexed m) b) →
            r = (signedLiterals sign (p :: ps)).foldl Expr.and result := by
      refine (ih hps _).mono fun r hr h => ?_
      rw [hr, ← List.foldl_append, ← hd, signedLiterals, signedLiterals, List.filterMap_cons,
        hsame h]
      cases found <;> rfl
    cases found with
    | none => exact hrest [] rfl
    | some b =>
      cases b with
      | true => exact hrest [p.expr] rfl
      | false => exact hrest [p.expr.complement] rfl

/-- The abstraction of a formula without models is false. -/
theorem cartesianAbstraction_false {formula : Expr} (hf : formula.IsFormula P)
    (hnone : ∀ V : Store, formula.truth V = false) (ts : List Tracked) :
    Determines (cartesianAbstraction formula ts) (· = .bool false) := by
  refine (isUnsat_determines hf).bind fun known => ?_
  cases known with
  | true => exact determines_pure fun _ => rfl
  | false =>
    exact (addLiterals_asks formula ts _).determines.mono fun r _ hknown => by cases hknown.2 hnone

/-- The abstraction of a formula with models is the conjunction of the literals that it decides. -/
theorem cartesianAbstraction_literals {formula : Expr} (hf : formula.IsFormula P)
    (hmodel : ∃ V : Store, formula.truth V = true) {m : SsaMap} {sign : Predicate → Option Bool}
    (hsign : ∀ p b, sign p = some b ↔ formula.Decides (p.expr.indexed m) b) {ps : List Predicate}
    (hps : ∀ p ∈ ps, (p.expr.indexed m).IsFormula P) :
    Determines (cartesianAbstraction formula (Tracked.ofPredicates ps m))
      (· = .conj (signedLiterals sign ps)) := by
  refine (isUnsat_determines hf).bind fun known => ?_
  cases known with
  | true =>
    refine determines_pure fun hknown => ?_
    obtain ⟨V, hV⟩ := hmodel
    simp [hknown.1 rfl V] at hV
  | false => exact (addLiterals_determines hf hmodel hsign hps _).mono fun r hr _ => hr

/-! ## Blocks -/

/-- For a cartesian abstraction the case without predicates is no special one. -/
theorem abstractBlock_cartesian (prior : Expr) (m : SsaMap) (block : PathFormula)
    (ps : List Predicate) :
    abstractBlock .cartesian prior m block ps =
      cartesianAbstraction (blockFormula prior m block) (Tracked.ofPredicates ps block.ssa) := by
  cases ps with
  | nil =>
    refine bind_congr fun known => ?_
    cases known <;> rfl
  | cons p ps => rfl

/-- The cartesian abstraction of a block that cannot be executed is false. -/
theorem abstractBlock_cartesian_false {prior : Expr} (hprior : prior.IsFormula P) (m : SsaMap)
    {block : PathFormula} (hblock : block.Sorted) (ps : List Predicate)
    (hnone : ∀ V : Store, (blockFormula prior m block).truth V = false) :
    Determines (abstractBlock .cartesian prior m block ps) (· = .bool false) := by
  rw [abstractBlock_cartesian]
  exact cartesianAbstraction_false (isFormula_blockFormula hprior m hblock) hnone _

/-- The cartesian abstraction of a block is the conjunction of the literals that it decides. -/
theorem abstractBlock_cartesian_literals {prior : Expr} (hprior : prior.IsFormula P) (m : SsaMap)
    {block : PathFormula} (hblock : block.Sorted) {ps : List Predicate}
    (hps : ∀ p ∈ ps, p.expr.WellSorted)
    (hmodel : ∃ V : Store, (blockFormula prior m block).truth V = true) :
    Determines (abstractBlock .cartesian prior m block ps) fun r =>
      ∃ sign : Predicate → Option Bool,
        (∀ p b, sign p = some b ↔
          (blockFormula prior m block).Decides (p.expr.indexed block.ssa) b) ∧
        r = .conj (signedLiterals sign ps) := by
  choose sign hsign using fun p : Predicate =>
    Expr.exists_sign hmodel (p.expr.indexed block.ssa)
  have hindexed : ∀ p ∈ ps, (p.expr.indexed block.ssa).IsFormula fun _ => True := fun p hp =>
    ⟨(hps p hp).indexed _, by rw [Expr.ty_indexed, p.isPredicate.1], fun _ _ => trivial⟩
  rw [abstractBlock_cartesian]
  exact (cartesianAbstraction_literals (isFormula_blockFormula hprior m hblock) hmodel hsign
    hindexed).mono fun r hr => ⟨sign, hsign, hr⟩

/-- The cartesian abstraction of a block is false if the block has no model. Otherwise it is the
conjunction of the literals that the block implies: a predicate has the sign that the block decides,
and none if it decides none. The boolean abstraction of the same block implies it. -/
theorem abstractBlock_cartesian_strongest {prior : Expr} (hprior : prior.IsFormula P) (m : SsaMap)
    {block : PathFormula} (hblock : block.Sorted) {ps : List Predicate}
    (hps : ∀ p ∈ ps, p.expr.WellSorted) {s s' : Solver} (hs : s.scopes = [[]]) {r : Expr}
    (h : abstractBlock .cartesian prior m block ps s = .ok (r, s')) :
    ∃ new, Rests s new s' ∧ (Decisive new →
      ((∀ V : Store, (blockFormula prior m block).truth V = false) → r = .bool false) ∧
      ((∃ V : Store, (blockFormula prior m block).truth V = true) →
        ∃ sign : Predicate → Option Bool,
          (∀ p b, sign p = some b ↔
            (blockFormula prior m block).Decides (p.expr.indexed block.ssa) b) ∧
          r = .conj (signedLiterals sign ps)) ∧
      ∀ t t' c, t.scopes = [[]] → abstractBlock .boolean prior m block ps t = .ok (c, t') →
        ∃ asked, Rests t asked t' ∧ (Decisive asked →
          asked.countP (·.answer = .sat) ≤ cubeLimit →
          ∀ σ : Store, c.truth σ = true → r.truth σ = true)) := by
  have hformula : ∀ p ∈ ps, p.expr.IsFormula fun _ => True := fun p hp =>
    ⟨hps p hp, p.isPredicate.1, fun _ _ => trivial⟩
  have hf := isFormula_blockFormula hprior m hblock
  obtain ⟨new, hrests, hmade, hholds⟩ := abstractBlock_asks .cartesian prior m block ps s r s' hs h
  refine ⟨new, hrests, fun hd => ⟨fun hnone => ?_, fun hmodel => ?_, ?_⟩⟩
  · obtain ⟨asked, hasked, hfalse⟩ :=
      abstractBlock_cartesian_false hprior m hblock ps hnone s r s' hs h
    exact hfalse (hrests.unique hasked ▸ hd)
  · obtain ⟨asked, hasked, hliterals⟩ :=
      abstractBlock_cartesian_literals hprior m hblock hps hmodel s r s' hs h
    exact hliterals (hrests.unique hasked ▸ hd)
  · intro t t' c ht hc
    obtain ⟨asked, hasked, hsum⟩ := abstractBlock_sumOfCubes hprior m hblock hps ht hc
    refine ⟨asked, hasked, fun hd' hcount σ hσ => ?_⟩
    obtain ⟨vectors, hvectors, -⟩ := hsum hd' (length_le_of_countP hcount)
    -- the cartesian abstraction is a combination of the predicates that the block implies
    have hdepends : r.DependsOn ps :=
      hmade _ (Expr.closed_dependsOn ps) fun p hp _ _ hsigns => hsigns p hp
    refine hvectors.entails hdepends (fun V hV => ?_) hσ
    rw [Expr.truth_indexed_after]
    exact hholds hd.truthful _ V _ hformula ((Expr.holds_iff_truth hf).2 hV) (V.reads_after _)

/-- What is asked for the abstractions of `zeroOrTwo` over `x = 0` and `x = 1`, the last question
first. -/
def askedOverOne : AbstractionKind → List Exchange :=
  let f := zeroOrTwo.formula
  let zero := (hasValue 0).expr.indexed zeroOrTwo.ssa
  let one := (hasValue 1).expr.indexed zeroOrTwo.ssa
  let excluded := [.not (.logic .and zero (.not one)), .not (.logic .and (.not zero) (.not one))]
  fun
  | .cartesian => [⟨[.logic .and f one], .unsat⟩, ⟨[.logic .and f (.not one)], .sat⟩,
      ⟨[.logic .and f zero], .sat⟩, ⟨[.logic .and f (.not zero)], .sat⟩, ⟨[f], .sat⟩]
  | .boolean => [⟨f :: excluded, .unsat⟩, ⟨f :: excluded.take 1, .sat⟩, ⟨[f], .sat⟩]

/-- All answers are decided, and what was answered with `unsat` has no model. -/
theorem decisive_askedOverOne (kind : AbstractionKind) : Decisive (askedOverOne kind) := by
  have hone := truth_zeroOrTwo_and (c := 1) (by decide) (by decide)
  -- the last question is the only one with the answer `unsat`
  cases kind with
  | cartesian =>
    exact ⟨truthful_of_refuted [_] rfl (by decide +kernel) (List.forall_mem_singleton.2 hone),
      by decide⟩
  | boolean =>
    refine ⟨List.forall_mem_cons.2 ⟨?_, by simp [Exchange.Correct]⟩, by decide⟩
    refine Exchange.correct_of_formulas (by decide +kernel) fun _ V hV => ?_
    obtain ⟨hblock, hexcluded⟩ := List.forall_mem_cons.1 hV
    let value := fun c => ((hasValue c).expr.indexed zeroOrTwo.ssa).truth V
    have hnot : (zeroOrTwo.formula.truth V && value 1) = false := hone V
    have hzero : (!(value 0 && !value 1)) = true := hexcluded _ List.mem_cons_self
    have hneither : (!(!value 0 && !value 1)) = true :=
      hexcluded _ (List.mem_cons_of_mem _ List.mem_cons_self)
    grind

/-- Nothing is known about `x = 0`, but `x = 1` is excluded. -/
theorem abstractBlock_cartesian_strongest_zeroOrTwo :
    ∃ s' t' c, abstractBlock .cartesian (.bool true) .empty zeroOrTwo [hasValue 0, hasValue 1]
        (.unasked 16 [[]]) = .ok (.not (hasValue 1).expr, s') ∧ Decisive s'.transcript ∧
      abstractBlock .boolean (.bool true) .empty zeroOrTwo [hasValue 0, hasValue 1]
        (.unasked 16 [[]]) = .ok (c, t') ∧ Decisive t'.transcript ∧
      (∃ sign : Predicate → Option Bool,
        (∀ p b, sign p = some b ↔ (blockFormula (.bool true) .empty zeroOrTwo).Decides
          (p.expr.indexed zeroOrTwo.ssa) b) ∧
        .not (hasValue 1).expr = Expr.conj (signedLiterals sign [hasValue 0, hasValue 1])) ∧
      ∀ σ : Store, c.truth σ = true → (Expr.not (hasValue 1).expr).truth σ = true := by
  obtain ⟨s', hrun, hasked⟩ : ∃ s', abstractBlock .cartesian (.bool true) .empty zeroOrTwo
      [hasValue 0, hasValue 1] (.unasked 16 [[]]) = .ok (.not (hasValue 1).expr, s') ∧
      s'.transcript = askedOverOne .cartesian := recorded_eq_some (by decide +kernel)
  obtain ⟨t', hrun', hasked'⟩ : ∃ t', abstractBlock .boolean (.bool true) .empty zeroOrTwo
      [hasValue 0, hasValue 1] (.unasked 16 [[]]) =
        .ok (.disj ([true, false].map fun b =>
          Expr.cube [(hasValue 0).expr, (hasValue 1).expr] [b, false]), t') ∧
      t'.transcript = askedOverOne .boolean := recorded_eq_some (by decide +kernel)
  have hd : Decisive s'.transcript := hasked ▸ decisive_askedOverOne .cartesian
  have hd' : Decisive t'.transcript := hasked' ▸ decisive_askedOverOne .boolean
  have hblock : zeroOrTwo.Sorted := ⟨by decide +kernel, rfl, fun _ _ => trivial⟩
  obtain ⟨new, hrests, hstrongest⟩ := abstractBlock_cartesian_strongest
    ((Expr.IsFormula.closed fun _ => True).const true) _ hblock (by decide +kernel) rfl hrun
  rw [hrests.eq_transcript] at hstrongest
  obtain ⟨-, hliterals, hboolean⟩ := hstrongest hd
  obtain ⟨new', hrests', hentails⟩ := hboolean _ _ _ rfl hrun'
  rw [hrests'.eq_transcript] at hentails
  refine ⟨s', t', _, hrun, hd, hrun', hd', hliterals ?_, hentails hd' (by rw [hasked']; decide)⟩
  exact ⟨uniform 0, by decide +kernel⟩

end Cegar

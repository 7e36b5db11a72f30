import Cegar.Proofs.Analysis.Succession

/-!
# When blocks are pruned

A block is pruned if its abstraction is the constant false. That is a test of the form of the
abstraction, but it comes down to a single question: the abstraction is false exactly if the solver
refutes the block formula. Neither the predicates nor the way in which the abstraction is computed
have a say in it, since no conjunction of literals over predicates is false by its form, and neither
is a disjunction of such conjunctions.

* **`Expr.conj_eq_false`**, **`Expr.disj_eq_false`**: when the connectives that simplify give false;
* **`enumerateCubes_eq_false`**, **`addLiterals_ne_false`**: what is built from literals is not;
* **`abstractBlock_eq_false`**: the abstraction of a block;
* **`Analysis.successor_eq_none`**: the successor of a state at the end of a block;
* **`pruning_independent`**: no precision finds more edges infeasible than another.
-/

namespace Cegar

/-! ## Constants among formulas -/

namespace Expr

/-- A connective gives the constant that decides it only if one of the operands is that constant. -/
theorem connect_eq_decided (op : LogicOp) {l r : Expr} :
    connect op l r = .bool (!op.unit) ↔ l = .bool (!op.unit) ∨ r = .bool (!op.unit) := by
  unfold connect
  grind

/-- It gives the other constant only if both are that constant. -/
theorem connect_eq_unit (op : LogicOp) {l r : Expr} :
    connect op l r = .bool op.unit ↔ l = .bool op.unit ∧ r = .bool op.unit := by
  unfold connect
  grind

theorem and_eq_false {l r : Expr} : l.and r = .bool false ↔ l = .bool false ∨ r = .bool false :=
  connect_eq_decided .and

theorem or_eq_false {l r : Expr} : l.or r = .bool false ↔ l = .bool false ∧ r = .bool false :=
  connect_eq_unit .or

/-- A conjunction is the constant false only if that is one of its operands. -/
theorem conj_eq_false {es : List Expr} : conj es = .bool false ↔ .bool false ∈ es := by
  have step (e : Expr) : es.foldl and e = .bool false ↔ e = .bool false ∨ .bool false ∈ es := by
    induction es generalizing e with
    | nil => simp
    | cons d es ih =>
      rw [List.foldl_cons, ih, and_eq_false, List.mem_cons, or_assoc, eq_comm (a := d)]
  simpa [conj] using step (.bool true)

/-- A disjunction is the constant false only if all its operands are. -/
theorem disj_eq_false {es : List Expr} : disj es = .bool false ↔ ∀ e ∈ es, e = .bool false := by
  have step (e : Expr) :
      es.foldl or e = .bool false ↔ e = .bool false ∧ ∀ d ∈ es, d = .bool false := by
    induction es generalizing e with
    | nil => simp
    | cons d es ih => rw [List.foldl_cons, ih, or_eq_false, List.forall_mem_cons, and_assoc]
  simpa [disj] using step (.bool false)

/-- A literal over an expression with variables is no constant. -/
theorem ne_false_of_vars {e : Expr} (h : e.vars ≠ ∅) :
    e ≠ .bool false ∧ e.complement ≠ .bool false := by
  constructor
  · rintro rfl
    exact h rfl
  · cases e with
    | bool b => exact absurd rfl h
    | not d =>
      rintro rfl
      exact h rfl
    | num | var | arith | cmp | logic | neg => simp [complement]

end Expr

/-! ## Refutation -/

/-- The solver answers `unsat` when it is asked about the formula. -/
def Solver.Refutes (s : Solver) (e : Expr) : Prop := ∃ s', s.check e = .ok (.unsat, s')

namespace Solver

variable {s : Solver} {e : Expr}

/-- The scope that the question is put in is closed again, which leaves the answer alone. -/
theorem refutes_iff_solve : s.Refutes e ↔ ∃ t, (s.push.assert e).solve = .ok (.unsat, t) := by
  constructor
  · rintro ⟨s', h⟩
    obtain ⟨⟨answer, t⟩, ht, h⟩ := except_bind_ok.1 h
    cases h
    exact ⟨t, ht⟩
  · rintro ⟨t, ht⟩
    exact ⟨t.pop, except_bind_ok.2 ⟨_, ht, rfl⟩⟩

/-- Without assertions the formula is asked about alone. -/
theorem assertions_push_assert (hs : s.assertions = []) :
    (s.push.assert e).assertions = [e] := by
  have hscopes : (s.push.assert e).scopes = [e] :: s.scopes := rfl
  rw [assertions, hscopes, List.reverse_cons, List.flatten_append, ← assertions, hs]
  rfl

/-- A constant is decided by its value, in one step. -/
theorem decideAssertions_bool (range : Int128) (b : Bool) :
    decideAssertions range [.bool b] .zero =
      .ok (if b then (.sat, some ∅, ⟨1, false⟩) else (.unsat, none, ⟨1, false⟩)) := by
  cases b <;> rfl

/-- Of the constants, false is refuted. -/
theorem refutes_bool (hs : s.assertions = []) (b : Bool) : s.Refutes (.bool b) ↔ b = false := by
  rw [refutes_iff_solve, solve_eq, assertions_push_assert hs, decideAssertions_bool]
  cases b with
  | true =>
    refine ⟨?_, fun h => by cases h⟩
    rintro ⟨t, ht⟩
    cases ht
  | false => exact ⟨fun _ => rfl, fun _ => ⟨_, rfl⟩⟩

end Solver

/-- Whether a formula is known to be unsatisfiable is what the solver says about it, constants
included. -/
theorem SolverM.isUnsat_refutes {s s' : Solver} (hs : s.assertions = []) {e : Expr} {b : Bool}
    (h : isUnsat e s = .ok (b, s')) : b = true ↔ s.Refutes e := by
  obtain ⟨answer, t, hask, h⟩ := state_bind_ok.1 h
  cases state_pure_ok.1 h
  rw [decide_eq_true_iff]
  cases hknown : e.known with
  | none =>
    have hask : s.check e = .ok (answer, s') := by simpa only [ask, hknown] using hask
    constructor
    · rintro rfl
      exact ⟨s', hask⟩
    · rintro ⟨t, ht⟩
      cases hask.symm.trans ht
      rfl
  | some b =>
    obtain rfl := Expr.eq_bool_of_known hknown
    rw [Solver.refutes_bool hs]
    cases b <;> cases state_pure_ok.1 hask <;> simp

/-! ## Abstractions -/

open SolverM

variable {ts : List Tracked} {s s' : Solver} {r : Expr}

/-- A cube over predicates is not false. -/
theorem Tracked.cube_ne_false (hts : ∀ t ∈ ts, t.predicate.vars ≠ ∅) (s : Solver) :
    Expr.conj ((ts.filterMap (signed? s)).map (·.predicate)) ≠ .bool false := by
  rw [Ne, Expr.conj_eq_false, List.mem_map]
  rintro ⟨u, hu, hfalse⟩
  obtain ⟨t, ht, hu⟩ := List.mem_filterMap.1 hu
  obtain ⟨hpos, hneg⟩ := Expr.ne_false_of_vars (hts t ht)
  rcases signed?_eq_some hu with rfl | rfl
  · exact hpos hfalse
  · exact hneg hfalse

/-- The enumeration comes to false only if the first question is answered with `unsat`: as soon as
there is a cube, the result is a disjunction with a member that is not false, or true. -/
theorem enumerateCubes_eq_false (hts : ∀ t ∈ ts, t.predicate.vars ≠ ∅) {n : Nat}
    {cubes : List Expr} (hcubes : .bool false ∉ cubes)
    (h : enumerateCubes ts n cubes s = .ok (r, s')) :
    r = .bool false ↔ cubes = [] ∧ ∃ t, s.solve = .ok (.unsat, t) := by
  induction n using Nat.strongRecOn generalizing cubes s with
  | ind n ih =>
    obtain ⟨answer, t, hsolve, hcases⟩ := enumerateCubes_cases h
    -- the answer is one only
    have hanswer : (∃ t, s.solve = .ok (.unsat, t)) ↔ answer = .unsat := by
      constructor
      · rintro ⟨t', ht'⟩
        cases hsolve.symm.trans ht'
        rfl
      · rintro rfl
        exact ⟨t, hsolve⟩
    rw [hanswer]
    rcases hcases with ⟨rfl, rfl, rfl⟩ | ⟨hgiven, rfl, rfl⟩ | ⟨k, us, rfl, rfl, rfl, h⟩
    · -- a disjunction of cubes is false if there are none
      rw [Expr.disj_eq_false]
      refine ⟨fun hall => ⟨List.eq_nil_iff_forall_not_mem.2 fun c hc => ?_, rfl⟩, ?_⟩
      · exact hcubes (hall c (List.mem_reverse.2 hc) ▸ hc)
      · rintro ⟨rfl, -⟩
        simp
    · have hnot : answer ≠ .unsat := by
        rcases hgiven with rfl | ⟨rfl, -⟩ <;> simp
      simp [hnot]
    · -- now there is a cube, so the rest of the enumeration does not come to false
      have hmore := ih k (Nat.lt_succ_self k)
        (by simp [(Tracked.cube_ne_false hts t).symm, hcubes]) h
      simp [hmore]

/-- Literals that are conjoined do not give false. -/
theorem addLiterals_ne_false (hts : ∀ t ∈ ts, t.predicate.vars ≠ ∅) {formula result : Expr}
    (hresult : result ≠ .bool false) (h : addLiterals formula ts result s = .ok (r, s')) :
    r ≠ .bool false := by
  induction ts generalizing result s with
  | nil =>
    cases state_pure_ok.1 h
    exact hresult
  | cons t ts ih =>
    obtain ⟨ht, hts⟩ := List.forall_mem_cons.1 hts
    obtain ⟨hpos, hneg⟩ := Expr.ne_false_of_vars ht
    obtain ⟨sign, s₁, -, h⟩ := state_bind_ok.1 h
    split at h
    · exact ih hts (by simp [Expr.and_eq_false, hresult, hpos]) h
    · exact ih hts (by simp [Expr.and_eq_false, hresult, hneg]) h
    · exact ih hts hresult h

/-- The abstraction of a block is false exactly if the solver refutes the block formula, whichever
predicates there are and however it is computed. -/
theorem abstractBlock_eq_false (hs : s.assertions = []) {kind : AbstractionKind} {prior : Expr}
    {m : SsaMap} {block : PathFormula} {ps : List Predicate}
    (h : abstractBlock kind prior m block ps s = .ok (r, s')) :
    r = .bool false ↔ s.Refutes (blockFormula prior m block) := by
  have hts : ∀ t ∈ Tracked.ofPredicates ps block.ssa, t.predicate.vars ≠ ∅ := by
    intro t ht
    obtain ⟨p, -, rfl⟩ := List.mem_map.1 ht
    exact p.isPredicate.2.1
  unfold abstractBlock at h
  split at h
  · obtain ⟨b, t, hunsat, h⟩ := state_bind_ok.1 h
    cases state_pure_ok.1 h
    rw [← isUnsat_refutes hs hunsat, Expr.bool.injEq, Bool.not_eq_false']
  · cases kind with
    | boolean =>
      obtain ⟨t, hcubes, rfl⟩ := inScope_assert_cases h
      rw [enumerateCubes_eq_false hts List.not_mem_nil hcubes, Solver.refutes_iff_solve]
      exact and_iff_right rfl
    | cartesian =>
      obtain ⟨b, t, hunsat, h⟩ := state_bind_ok.1 h
      rw [← isUnsat_refutes hs hunsat]
      cases b with
      | true =>
        cases state_pure_ok.1 h
        simp
      | false =>
        have hne : r ≠ .bool false := addLiterals_ne_false hts (by simp) h
        simp [hne]

/-! ## Successors -/

/-- An edge leads from a state into a location where blocks end. The block that it completes starts
at `owner` and has the path formula `q`. -/
def State.Enters (A : Automaton) (policy : Policy) (arena : Arena) (s : State) (e : EdgeId)
    (owner : AbstractionState) (q : PathFormula) : Prop :=
  ∃ edge path size, A.edges[e.idx]? = some edge ∧ s.InBlock arena owner path size ∧
    path.extend edge.source e edge.statement = .ok (.ok q) ∧
    policy.Completes A edge.target size true

namespace Analysis

variable {p : Problem} {precision : Precision} {a a' : Analysis} {t : State} {e : EdgeId}
  {owner : AbstractionState} {q : PathFormula} {r : Option State}

/-- There is no successor at the end of a block exactly if the solver refutes the block formula. -/
theorem successor_eq_none (hc : a.cache.Coherent p.automaton) (hs : a.solver.assertions = [])
    (henters : t.Enters p.automaton precision.policy a.arena e owner q)
    (h : successor p precision t e a = .ok (.ok r, a')) :
    r = none ↔ a.solver.Refutes (blockFormula owner.abstraction owner.ssa q) := by
  obtain ⟨edge, path, size, hedge, hblock, hextend, hpolicy⟩ := henters
  obtain ⟨edge', q', b, hedge', hextend', hpolicy', -, hcompleted⟩ :=
    extendBlock_ok_kind hc (successor_inBlock hblock h)
  cases hedge.symm.trans hedge'
  cases hextend.symm.trans hextend'
  obtain ⟨abstraction, solver, habstract, hcases⟩ :=
    hcompleted (hpolicy.unique hpolicy' (.inr rfl))
  rw [← abstractBlock_eq_false hs habstract]
  rcases hcases with ⟨hfalse, hnone⟩ | ⟨hfalse, hsome, -⟩
  · simp [hfalse, hnone]
  · simp [hfalse, hsome]

end Analysis

/-- A block is pruned if the solver refutes its formula, and only then. If nothing is asserted, this
is so for every abstraction that is computed: with any predicates or none, and in either way. So an
edge at the end of a block has a successor with all precisions or with no precision. -/
theorem pruning_independent (hs : s.assertions = []) :
    (∀ kind prior m block ps r s', abstractBlock kind prior m block ps s = .ok (r, s') →
      (r.known = some false ↔ s.Refutes (blockFormula prior m block))) ∧
    ∀ (p p' : Problem) (precision precision' : Precision) (a a₁ a₂ : Analysis) (t : State)
      (e : EdgeId) (owner : AbstractionState) (q : PathFormula) (r r' : Option State),
      a.solver = s → a.cache.Coherent p.automaton → p'.automaton = p.automaton →
      t.Enters p.automaton precision.policy a.arena e owner q →
      t.Enters p.automaton precision'.policy a.arena e owner q →
      Analysis.successor p precision t e a = .ok (.ok r, a₁) →
      Analysis.successor p' precision' t e a = .ok (.ok r', a₂) →
      (r = none ↔ s.Refutes (blockFormula owner.abstraction owner.ssa q)) ∧
        (r' = none ↔ r = none) := by
  refine ⟨fun kind prior m block ps r s' h => ?_, ?_⟩
  · rw [← abstractBlock_eq_false hs h]
    refine ⟨Expr.eq_bool_of_known, ?_⟩
    rintro rfl
    rfl
  · rintro p p' precision precision' a a₁ a₂ t e owner q r r' rfl hc hsame henters henters' h h'
    have hrefuted := Analysis.successor_eq_none hc hs henters h
    have hrefuted' := Analysis.successor_eq_none (hsame ▸ hc) hs (hsame ▸ henters') h'
    exact ⟨hrefuted, hrefuted'.trans hrefuted.symm⟩

/-- Two edges leave the entry: one asks for two values of `x` at once, the other for one of them.
Blocks have one edge. -/
def guarded (kind : AbstractionKind) : Problem where
  automaton := {
    nodes := #[.entryOf "main", .plain "main"]
    edges := #[
      ⟨⟨0⟩, ⟨1⟩, .assume (.logic .and (hasValue 0).expr (hasValue 1).expr) true⟩,
      ⟨⟨0⟩, ⟨1⟩, .assume (hasValue 0).expr true⟩]
    entry := ⟨0⟩
    joins := by decide }
  options := { blockSize := 1, abstraction := kind }

/-- An analysis of it that has the initial state only. -/
def guardedStart : Analysis where
  solver := .unasked 16 [[]]
  arena := (Arena.empty.allocate ⟨0⟩ (.bool true) (.empty .empty) none).2
  cache := .empty
  statistics := {}
  lastPath := none
  precision := .empty (guarded .boolean).options.toPolicy

def guardedPrecision (ps : List Predicate) : Precision :=
  .ofGlobal (guarded .boolean).options.toPolicy ps

/-- Whether the entry has a successor along an edge, if that can be computed. -/
def guardedSurvives (kind : AbstractionKind) (ps : List Predicate) (e : EdgeId) : Option Bool :=
  (Analysis.successor (guarded kind) (guardedPrecision ps) (.abstraction ⟨0⟩) e
    guardedStart).toOption.bind fun x => x.1.toOption.map Option.isSome

/-- The entry has a successor along the edge, or has none. -/
theorem guardedSurvives_eq_some {kind : AbstractionKind} {ps : List Predicate} {e : EdgeId}
    {b : Bool} (h : guardedSurvives kind ps e = some b) : ∃ r a', r.isSome = b ∧
      Analysis.successor (guarded kind) (guardedPrecision ps) (.abstraction ⟨0⟩) e guardedStart =
        .ok (.ok r, a') := by
  obtain ⟨⟨x, a'⟩, hrun, hx⟩ := Option.bind_eq_some_iff.1 h
  obtain ⟨r, hr, hb⟩ := Option.map_eq_some_iff.1 hx
  rw [except_toOption_eq_some] at hrun hr
  cases hr
  exact ⟨r, a', hb, hrun⟩

/-- Both edges complete a block that starts in the initial state. -/
theorem guarded_enters {e : EdgeId} (he : e ∈ [⟨0⟩, ⟨1⟩]) : ∃ owner q,
    (State.abstraction ⟨0⟩).Enters (guarded .boolean).automaton
      (guarded .boolean).options.toPolicy guardedStart.arena e owner q := by
  rcases List.mem_cons.1 he with rfl | he
  · exact ⟨_, _, _, _, _, rfl, .start rfl, rfl, _, _, rfl, rfl, rfl⟩
  · cases List.mem_singleton.1 he
    exact ⟨_, _, _, _, _, rfl, .start rfl, rfl, _, _, rfl, rfl, rfl⟩

/-- Whatever is tracked, the first edge is pruned and the second one is not. -/
theorem pruning_independent_guarded :
    guardedStart.solver.assertions = [] ∧
    guardedStart.cache.Coherent (guarded .boolean).automaton ∧
    guardedSurvives .cartesian [hasValue 0, hasValue 2] ⟨0⟩ = some false ∧
    guardedSurvives .cartesian [hasValue 0, hasValue 2] ⟨1⟩ = some true ∧
    ∀ kind ps, ∀ e ∈ [⟨0⟩, ⟨1⟩], ∀ b, guardedSurvives kind ps e = some b →
      b = decide (e = ⟨1⟩) := by
  have hstack : guardedStart.solver.assertions = [] := rfl
  -- with one precision the successors are computed, so they are known with the others
  have hknown : ∀ e ∈ [⟨0⟩, ⟨1⟩], guardedSurvives .boolean [] e = some (decide (e = ⟨1⟩)) := by
    decide +kernel
  refine ⟨hstack, .empty, by decide +kernel, by decide +kernel, fun kind ps e he b h => ?_⟩
  obtain ⟨r, a₁, hr, hrun⟩ := guardedSurvives_eq_some (hknown e he)
  obtain ⟨r', a₂, rfl, hrun'⟩ := guardedSurvives_eq_some h
  obtain ⟨owner, q, henters⟩ := guarded_enters he
  obtain ⟨-, hsame⟩ := (pruning_independent hstack).2 (guarded .boolean) (guarded kind)
    (guardedPrecision []) (guardedPrecision ps) guardedStart a₁ a₂ (.abstraction ⟨0⟩) e owner q r r'
    rfl .empty rfl henters henters hrun hrun'
  rw [← hr, Bool.eq_iff_iff, Option.isSome_iff_ne_none, Option.isSome_iff_ne_none, Ne, hsame]

end Cegar

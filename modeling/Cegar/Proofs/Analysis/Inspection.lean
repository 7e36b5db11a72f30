import Cegar.Proofs.Analysis.Development

/-!
# What a path to an error location comes to

A path is split into blocks, the solver decides them, and then either a way through the blocks is
looked up in the model or predicates are suggested. `Inspection` says once what can come of it.

* **`Analysis.refine_inspection`**: a refinement is an inspection, and the precision of a spurious
  path joins the one that exploration starts from;
* **`Analysis.refine_develops`**: a refinement keeps states and policy.
-/

namespace Cegar

variable {p : Problem} {g : Graph} {path : Path}

/-! ## Literals are predicates -/

namespace Expr

variable {e : Expr}

/-- The atoms of an expression are atoms. -/
theorem isAtom_of_mem_atoms {c : Expr} (h : c ∈ e.atoms) : c.isAtom = true :=
  (List.mem_filter.1 (List.mem_eraseDups.1 h)).2

/-- An atom and its negation stand for the same predicate. -/
theorem normalAtom_of_literal {l : Expr} (h : e.isAtom = true) (hl : l = e ∨ l = e.complement) :
    l.normalAtom = e.normalAtom := by
  rcases hl with rfl | rfl
  · rfl
  · refine normalAtom_complement.2 ?_
    cases e with
    | bool b => cases h
    | num | var | arith | neg | cmp | logic | not => rfl

/-- The normal form of an atom is about the same variables. -/
theorem normalAtom_of_isAtom (h : e.isAtom = true) :
    e.normalAtom.ty = .bool ∧ ∀ v, v ∈ e.normalAtom.vars ↔ v ∈ e.vars := by
  cases e with
  | cmp op l r => cases op <;> simp [normalAtom, ty, or_comm]
  | var v => simpa [normalAtom, ty, isAtom] using h
  | bool | num | arith | neg | logic | not => cases h

/-- Without indices, an atom that has variables is a predicate. -/
theorem isPredicate_of_isAtom (h : e.isAtom = true) (hvars : e.vars.isEmpty = false) :
    e.normalAtom.unindexed.IsPredicate := by
  obtain ⟨hty, hmem⟩ := normalAtom_of_isAtom h
  have hunindexed : ∀ w ∈ e.normalAtom.unindexed.vars, w.index = none := by
    intro w hw
    obtain ⟨v, -, rfl⟩ := mem_vars_mapVars.1 hw
    rfl
  have hbool : e.normalAtom.unindexed.ty = .bool := by
    rw [unindexed, ty_mapVars (f := Var.unindexed) (fun _ => rfl), hty]
  refine ⟨hbool, fun hempty => ?_, ?_⟩
  · refine Std.ExtTreeSet.isEmpty_eq_false_iff.1 hvars
      (Std.ExtTreeSet.eq_empty_iff_forall_not_mem.2 fun v hv => ?_)
    exact Std.ExtTreeSet.eq_empty_iff_forall_not_mem.1 hempty v.unindexed
      (mem_vars_mapVars.2 ⟨v, (hmem v).2 hv, rfl⟩)
  · rw [VarSet.all_eq, List.all_eq_true]
    exact fun w hw => by simp [hunindexed w (Std.ExtTreeSet.mem_toList.1 hw)]

end Expr

/-- Expressions that are predicates are accepted as such. -/
theorem Predicate.ofExprs_ok {es : List Expr} (h : ∀ e ∈ es, e.IsPredicate) :
    ∃ ps, Predicate.ofExprs es = .ok ps := by
  induction es with
  | nil => exact ⟨[], rfl⟩
  | cons e es ih =>
    obtain ⟨he, hes⟩ := List.forall_mem_cons.1 h
    obtain ⟨ps, hps⟩ := ih hes
    exact ⟨⟨e, he⟩ :: ps, by simp [ofExprs, ofExpr, he, hps, bind, Except.bind, pure, Except.pure]⟩

/-- A candidate is an atom that has variables. -/
theorem mem_candidates {before after e : Expr} (h : e ∈ candidates before after) :
    e.isAtom = true ∧ e.vars.isEmpty = false := by
  have hmem := List.mem_eraseDups.1 (List.mem_of_mem_take h)
  obtain ⟨hmem, hvars⟩ := List.mem_filter.1 hmem
  simp only [Bool.and_eq_true, Bool.not_eq_true'] at hvars
  refine ⟨?_, hvars.1⟩
  rcases List.mem_append.1 hmem with hmem | hmem
  · exact Expr.isAtom_of_mem_atoms hmem
  · exact Expr.isAtom_of_mem_atoms hmem

/-- The literals at a cut are literals of the formulas before and after it, so they are accepted as
predicates. -/
theorem interpolate_no_error {before after : Expr} {s s' : Solver} (hs : s.scopes = [[]])
    {e : Error} : interpolate before after s ≠ .ok (.error e, s') := by
  intro h
  rcases try_bind_ok.1 h with ⟨ls, t, hls, h⟩ | ⟨e, he, -⟩
  · obtain ⟨ls, hls, heq⟩ := try_lift_ok.1 hls
    cases heq
    obtain ⟨-, -, hliterals, -⟩ := interpolantLiterals_asks before after s ls t hs hls
    obtain ⟨ps, hps⟩ : ∃ ps, Predicate.ofExprs (ls.map fun e => e.normalAtom.unindexed) = .ok ps := by
      refine Predicate.ofExprs_ok fun c hc => ?_
      obtain ⟨l, hl, rfl⟩ := List.mem_map.1 hc
      obtain ⟨d, hd, hld⟩ := hliterals l hl
      rw [Expr.normalAtom_of_literal (mem_candidates hd).1 hld]
      exact Expr.isPredicate_of_isAtom (mem_candidates hd).1 (mem_candidates hd).2
    rw [hps] at h
    cases h
  · obtain ⟨ls, -, heq⟩ := try_lift_ok.1 he
    cases heq

/-- No cut fails. -/
theorem interpolants_no_error {before blocks : List Expr} {s s' : Solver} (hs : s.scopes = [[]])
    {e : Error} : interpolants before blocks s ≠ .ok (.error e, s') := by
  induction blocks generalizing before s with
  | nil => exact fun h => by cases try_pure_ok.1 h
  | cons b blocks ih =>
    cases blocks with
    | nil => exact fun h => by cases try_pure_ok.1 h
    | cons c blocks =>
      intro h
      rcases try_bind_ok.1 h with ⟨ps, t, hps, h⟩ | ⟨e, he, -⟩
      · obtain ⟨new, hrests, -⟩ := interpolate_traces _ _ s _ t hs hps
        rcases try_bind_ok.1 h with ⟨pss, t', -, h⟩ | ⟨e', he, heq⟩
        · cases try_pure_ok.1 h
        · cases heq
          exact ih hrests.scopes he
      · exact interpolate_no_error hs he

/-! ## Traces -/

/-- The solver with nothing but the blocks of a trace asserted. -/
def Solver.withBlocks (s : Solver) (blocks : List PathFormula) : Solver :=
  { s with scopes := [[.conj (blocks.map (·.formula))], []] }

/-- The blocks are decided first. If they cannot be executed, each cut is looked at. -/
theorem Trace.ofBlocks_cases {blocks : List PathFormula} {s s' : Solver} (hs : s.scopes = [[]])
    {r : Except Error Trace} (h : Trace.ofBlocks blocks s = .ok (r, s')) :
    ∃ answer t, (s.withBlocks blocks).solve = .ok (answer, t) ∧
      ((answer = .sat ∧ s' = t.pop ∧
          r = .ok (.feasible (t.pop.branches (.conj (blocks.map (·.formula)))))) ∨
        (answer = .undefined ∧ s' = t.pop ∧ r = .error .undecidedTrace) ∨
        (answer = .unsat ∧ ∃ pss, interpolants [] (blocks.map (·.formula)) t.pop = .ok (.ok pss, s') ∧
          r = .ok (.spurious pss))) := by
  rcases try_bind_ok.1 h with ⟨answer, t, hanswer, h⟩ | ⟨e, he, -⟩
  · obtain ⟨answer, hsolve, heq⟩ := try_lift_ok.1 hanswer
    cases heq
    obtain ⟨t, ht, rfl⟩ := SolverM.inScope_assert_ok hs hsolve
    refine ⟨answer, t, ht, ?_⟩
    cases answer with
    | sat =>
      obtain ⟨u, t', hget, h⟩ | ⟨e, he, -⟩ := try_bind_ok.1 h
      · cases hget
        cases try_pure_ok.1 h
        exact .inl ⟨rfl, rfl, rfl⟩
      · cases he
    | undefined =>
      cases try_throw_ok.1 h
      exact .inr (.inl ⟨rfl, rfl, rfl⟩)
    | unsat =>
      have hrest : t.pop.scopes = [[]] := by
        obtain ⟨hscopes, -⟩ := Solver.solve_ok ht
        simp [Solver.pop, hscopes]
      obtain ⟨pss, t', hpss, h⟩ | ⟨e, he, -⟩ := try_bind_ok.1 h
      · cases try_pure_ok.1 h
        exact .inr (.inr ⟨rfl, pss, hpss, rfl⟩)
      · exact absurd he (interpolants_no_error hrest)
  · obtain ⟨_, -, heq⟩ := try_lift_ok.1 he
    cases heq

/-! ## Inspections -/

namespace Analysis

variable {a a' : Analysis}

/-- What looking at a path comes to. -/
inductive Inspection (p : Problem) (g : Graph) (path : Path) (a : Analysis) :
    Except Error Refinement → Analysis → Prop
  | malformed {d : PathDefect} (hsplit : Refinement.split a.arena g path = .ok (.error d)) :
    Inspection p g path a (.error (.invalidPath d)) a
  | undecided {stops : List Refinement.Stop} {blocks : List PathFormula} {e : Error}
    {solver : Solver} (hsplit : Refinement.split a.arena g path = .ok (.ok (stops, blocks)))
    (htrace : Trace.ofBlocks blocks a.solver = .ok (.error e, solver)) :
    Inspection p g path a (.error e) { a with solver := solver }
  | lost {stops : List Refinement.Stop} {blocks : List PathFormula}
    {branches : Std.ExtTreeMap Var Bool} {d : PathDefect} {solver : Solver}
    (hsplit : Refinement.split a.arena g path = .ok (.ok (stops, blocks)))
    (htrace : Trace.ofBlocks blocks a.solver = .ok (.ok (.feasible branches), solver))
    (hfind : TargetPath.find p.automaton g path branches = .ok (.error d)) :
    Inspection p g path a (.error (.invalidPath d)) { a with solver := solver }
  | real {stops : List Refinement.Stop} {blocks : List PathFormula}
    {branches : Std.ExtTreeMap Var Bool} {target : TargetPath} {solver : Solver}
    (hsplit : Refinement.split a.arena g path = .ok (.ok (stops, blocks)))
    (htrace : Trace.ofBlocks blocks a.solver = .ok (.ok (.feasible branches), solver))
    (hfind : TargetPath.find p.automaton g path branches = .ok (.ok target)) :
    Inspection p g path a (.ok (.real target)) { a with solver := solver }
  | stuck {stops : List Refinement.Stop} {blocks : List PathFormula}
    {predicates : List (List Predicate)} {solver : Solver}
    (hsplit : Refinement.split a.arena g path = .ok (.ok (stops, blocks)))
    (htrace : Trace.ofBlocks blocks a.solver = .ok (.ok (.spurious predicates), solver))
    (hrestart : Refinement.restartPoint? a.precision a.lastPath stops
      (Refinement.suggestions stops predicates) = none) :
    Inspection p g path a (.error (.noProgress (stops.map (·.state.location))))
      { a with solver := solver }
  | spurious {stops : List Refinement.Stop} {blocks : List PathFormula}
    {predicates : List (List Predicate)} {root : NodeId} {solver : Solver}
    (hsplit : Refinement.split a.arena g path = .ok (.ok (stops, blocks)))
    (htrace : Trace.ofBlocks blocks a.solver = .ok (.ok (.spurious predicates), solver))
    (hrestart : Refinement.restartPoint? a.precision a.lastPath stops
      (Refinement.suggestions stops predicates) = some root) :
    Inspection p g path a
      (.ok (.spurious (a.precision.refine ((Refinement.suggestions stops predicates).map
        fun sq => (sq.1.state.location, sq.2))).1 root))
      { a with solver := solver, lastPath := some (stops.map (·.state.location)) }

/-- Reading off the graph changes nothing, and a defect of the path is reported. -/
theorem onPath_ok {α : Type} {act : ExceptT PathDefect (Except Abort) α} {r : Except Error α}
    (h : onPath act a = .ok (r, a')) :
    a' = a ∧ ((∃ x, act = .ok (.ok x) ∧ r = .ok x) ∨
      ∃ d, act = .ok (.error d) ∧ r = .error (.invalidPath d)) := by
  obtain ⟨x, a₁, hx, h⟩ | ⟨e, he, -⟩ := try_bind_ok.1 h
  · obtain ⟨y, hy, heq⟩ := try_lift_ok.1 hx
    cases heq
    obtain ⟨hact, rfl⟩ := state_lift_ok.1 hy
    cases x with
    | ok x =>
      cases try_pure_ok.1 h
      exact ⟨rfl, .inl ⟨x, hact, rfl⟩⟩
    | error d =>
      cases try_throw_ok.1 h
      exact ⟨rfl, .inr ⟨d, hact, rfl⟩⟩
  · obtain ⟨_, -, heq⟩ := try_lift_ok.1 he
    cases heq

/-- How looking at a path can end: it is no path of blocks, the answer is undecided, the model is
not found in the graph, the path is real, nothing new is found, or the path is spurious. -/
theorem analysePath_inspection {r : Except Error Refinement}
    (h : analysePath p g path a = .ok (r, a')) : Inspection p g path a r a' := by
  obtain ⟨b, a₁, hb, h⟩ | ⟨e, he, -⟩ := try_bind_ok.1 h
  · cases hb
    obtain ⟨x, a₁, hsplit, h⟩ | ⟨e, he, rfl⟩ := try_bind_ok.1 h
    · obtain ⟨rfl, ⟨y, hsplit, heq⟩ | ⟨d, -, heq⟩⟩ := onPath_ok hsplit
      · cases heq
        obtain ⟨stops, blocks⟩ := x
        obtain ⟨trace, a₂, htrace, h⟩ | ⟨e, he, rfl⟩ := try_bind_ok.1 h
        · obtain ⟨solver, hasked, rfl⟩ := consult_cases htrace
          cases trace with
          | feasible branches =>
            obtain ⟨target, a₃, hfind, h⟩ | ⟨e, he, rfl⟩ := try_bind_ok.1 h
            · obtain ⟨rfl, ⟨y, hfind, heq⟩ | ⟨d, -, heq⟩⟩ := onPath_ok hfind
              · cases heq
                cases try_pure_ok.1 h
                exact .real hsplit hasked hfind
              · cases heq
            · obtain ⟨rfl, ⟨y, -, heq⟩ | ⟨d, hfind, heq⟩⟩ := onPath_ok he
              · cases heq
              · cases heq
                exact .lost hsplit hasked hfind
          | spurious predicates =>
            obtain ⟨b, a₃, hb, h⟩ | ⟨e, he, -⟩ := try_bind_ok.1 h
            · cases hb
              cases hrestart : Refinement.restartPoint? a₁.precision a₁.lastPath stops
                  (Refinement.suggestions stops predicates) with
              | none =>
                simp only [hrestart] at h
                cases try_throw_ok.1 h
                exact .stuck hsplit hasked hrestart
              | some root =>
                simp only [hrestart] at h
                cases h
                exact .spurious hsplit hasked hrestart
            · cases he
        · obtain ⟨solver, hasked, rfl⟩ := consult_cases he
          exact .undecided hsplit hasked
      · cases heq
    · obtain ⟨rfl, ⟨y, -, heq⟩ | ⟨d, hsplit, heq⟩⟩ := onPath_ok he
      · cases heq
      · cases heq
        exact .malformed hsplit
  · cases he

/-- The precision that exploration starts from, after a path was looked at. -/
def precisionAfter (precision : Precision) : Except Error Refinement → Precision
  | .ok (.spurious refined _) => precision.join refined
  | _ => precision

/-- A refinement looks at the path, counts, and takes over the precision of a spurious path. -/
theorem refine_inspection {r : Except Error Refinement} (h : refine p g path a = .ok (r, a')) :
    ∃ a₁ statistics, Inspection p g path a r a₁ ∧
      a' = { a₁ with statistics := statistics, precision := precisionAfter a₁.precision r } := by
  obtain ⟨x, a₁, hx, h⟩ | ⟨e, he, -⟩ := try_bind_ok.1 h
  · obtain ⟨y, hy, heq⟩ := try_lift_ok.1 hx
    cases heq
    have hinspection := analysePath_inspection hy
    obtain ⟨_, a₂, hcount, h⟩ | ⟨e, he, -⟩ := try_bind_ok.1 h
    · cases hcount
      cases x with
      | error e =>
        cases try_throw_ok.1 h
        exact ⟨a₁, _, hinspection, rfl⟩
      | ok result =>
        cases result with
        | real target =>
          obtain ⟨_, a₂, hcount, h⟩ | ⟨e, he, -⟩ := try_bind_ok.1 h
          · cases hcount
            cases try_pure_ok.1 h
            exact ⟨a₁, _, hinspection, rfl⟩
          · cases he
        | spurious precision root =>
          obtain ⟨_, a₂, hcount, h⟩ | ⟨e, he, -⟩ := try_bind_ok.1 h
          · cases hcount
            obtain ⟨_, a₃, hmodify, h⟩ | ⟨e, he, -⟩ := try_bind_ok.1 h
            · cases hmodify
              cases try_pure_ok.1 h
              exact ⟨a₁, _, hinspection, rfl⟩
            · cases he
          · cases he
    · cases he
  · obtain ⟨_, -, heq⟩ := try_lift_ok.1 he
    cases heq

/-- The policy is not refined. -/
theorem policy_precisionAfter (precision : Precision) (r : Except Error Refinement) :
    (precisionAfter precision r).policy = precision.policy := by
  unfold precisionAfter
  split <;> rfl

/-- Refinement asks the solver and keeps predicates, but adds no state. -/
theorem refine_develops {A : Automaton} (ha : a.Legal A) {r : Except Error Refinement}
    (h : refine p g path a = .ok (r, a')) : a.Develops A a' ∧ a'.arena = a.arena := by
  have hspares := refine_spares ha.rest h
  refine ⟨hspares.develops ha ?_, hspares.arena⟩
  obtain ⟨a₁, statistics, hinspection, rfl⟩ := refine_inspection h
  rw [policy_precisionAfter]
  cases hinspection <;> rfl

end Analysis

end Cegar

import Cegar.Interpolation
import Cegar.Proofs.Lockstep

/-!
# Inquiries leave nothing behind

The questions about formulas are put to one solver, whose scopes are opened and closed on the way
and whose model and effort are overwritten. None of that outlives an inquiry: the scopes are as
before, and what the solver happens to remember has no influence on what later inquiries find.

* **`SolverM.Steady`**: a computation that leaves the scopes as they were and finds the same with
  every solver that has the same scopes and range;
* **`SolverM.inScope_steady`**: scopes are closed again, whatever was asserted in them;
* **`Inquiry.findings_independent`**: each inquiry of a sequence finds what it finds alone.
-/

namespace Cegar

/-! ## Solvers that cannot be told apart -/

/-- Two solvers with the range `r` and the same scopes, of which `P` holds. Their models, what they
have spent and their transcripts may differ. -/
structure Solver.Alike (r : Int128) (P : List (List Expr) → Prop) (s t : Solver) : Prop where
  left : s.range = r
  right : t.range = r
  scopes : t.scopes = s.scopes
  holds : P s.scopes

/-- Their models do not differ either. -/
def Solver.Twins (r : Int128) (P : List (List Expr) → Prop) (s t : Solver) : Prop :=
  Solver.Alike r P s t ∧ t.model = s.model

/-- There is one more scope, with whatever is in it. -/
def Opened (ss scopes : List (List Expr)) : Prop := ∃ scope, scopes = scope :: ss

namespace Solver

variable {r : Int128} {P : List (List Expr) → Prop} {ss : List (List Expr)} {s t : Solver}

theorem Alike.push (h : Alike r (· = ss) s t) : Alike r (Opened ss) s.push t.push :=
  ⟨h.left, h.right, congrArg ([] :: ·) h.scopes, ⟨[], congrArg ([] :: ·) h.holds⟩⟩

theorem Alike.assert (h : Alike r (Opened ss) s t) (e : Expr) :
    Alike r (Opened ss) (s.assert e) (t.assert e) := by
  obtain ⟨scope, hscope⟩ := h.holds
  have hs : s.assert e = { s with scopes := (scope ++ [e]) :: ss } := by
    simp [Solver.assert, hscope]
  have ht : t.assert e = { t with scopes := (scope ++ [e]) :: ss } := by
    simp [Solver.assert, h.scopes, hscope]
  rw [hs, ht]
  exact ⟨h.left, h.right, rfl, ⟨_, rfl⟩⟩

/-- Closing a scope gives back the scopes from before. -/
theorem pop_eq (hss : ss ≠ []) (h : Opened ss s.scopes) : s.pop = { s with scopes := ss } := by
  obtain ⟨scope, hscope⟩ := h
  obtain ⟨outer, ss, rfl⟩ := List.exists_cons_of_ne_nil hss
  simp [Solver.pop, hscope]

theorem Alike.pop (hss : ss ≠ []) (h : Alike r (Opened ss) s t) :
    Alike r (· = ss) s.pop t.pop := by
  rw [pop_eq hss h.holds, pop_eq hss (h.scopes ▸ h.holds)]
  exact ⟨h.left, h.right, rfl, rfl⟩

theorem Twins.pop (hss : ss ≠ []) (h : Twins r (Opened ss) s t) : Twins r (· = ss) s.pop t.pop := by
  refine ⟨h.1.pop hss, ?_⟩
  rw [pop_eq hss h.1.holds, pop_eq hss (h.1.scopes ▸ h.1.holds)]
  exact h.2

end Solver

namespace SolverM

open Solver

variable {r : Int128} {P : List (List Expr) → Prop} {ss : List (List Expr)} {α β : Type}

/-- The model that a question leaves behind depends on the question only, since every search starts
with nothing spent. -/
theorem solve_lockstep : Lockstep (Alike r P) (Twins r P) solve solve := by
  intro s t h
  have hassertions : t.assertions = s.assertions := by rw [assertions, assertions, h.scopes]
  show Agree _ (Solver.solve s) (Solver.solve t)
  rw [solve_eq, solve_eq, hassertions, h.right.trans h.left.symm]
  cases decideAssertions s.range s.assertions .zero with
  | error e => exact .abort
  | ok found => exact .ok ⟨⟨h.left, h.left, h.scopes, h.holds⟩, rfl⟩

/-- What is done in a scope of its own, with two solvers in lockstep. -/
theorem inScope_lockstep {act : SolverM α} {S T : Solver → Solver → Prop}
    (h : Lockstep (Alike r (Opened ss)) S act act) (hpop : ∀ s t, S s t → T s.pop t.pop) :
    Lockstep (Alike r (· = ss)) T (inScope act) (inScope act) :=
  (lockstep_modify fun _ _ h => h.push).bind fun _ =>
    h.bind fun a => (lockstep_modify hpop).bind fun _ => lockstep_pure a

theorem assert_lockstep (e : Expr) :
    Lockstep (Alike r (Opened ss)) (Alike r (Opened ss)) (modify (·.assert e) : SolverM Unit)
      (modify (·.assert e)) :=
  lockstep_modify fun _ _ h => h.assert e

/-! ## Steady computations -/

/-- Wherever scopes are open, the computation leaves them as they were. It comes to the same with
every solver that has these scopes and this range. -/
def Steady (act : SolverM α) : Prop :=
  ∀ r ss, ss ≠ [] → Lockstep (Alike r (· = ss)) (Alike r (· = ss)) act act

theorem steady_pure (a : α) : Steady (pure a) := fun _ _ _ => lockstep_pure a

/-- Steady computations one after the other. -/
theorem Steady.bind {act : SolverM α} {f : α → SolverM β} (h : Steady act)
    (hf : ∀ a, Steady (f a)) : Steady (act >>= f) :=
  fun r ss hss => (h r ss hss).bind fun a => hf a r ss hss

theorem Steady.map {act : SolverM α} (h : Steady act) (f : α → β) : Steady (f <$> act) := by
  rw [map_eq_pure_bind]
  exact h.bind fun a => steady_pure (f a)

theorem Steady.ite {c : Prop} [Decidable c] {x y : SolverM α} (hx : Steady x) (hy : Steady y) :
    Steady (if c then x else y) := by
  split <;> assumption

/-- What was asserted in a scope is gone when it is closed. -/
theorem inScope_steady {act : SolverM α}
    (h : ∀ r ss, Lockstep (Alike r (Opened ss)) (Alike r (Opened ss)) act act) :
    Steady (inScope act) :=
  fun r ss hss => inScope_lockstep (h r ss) fun _ _ h => h.pop hss

/-- The answer depends on the scopes and the range only, as the effort is reset and the scope that
was opened is closed. -/
theorem check_steady (e : Expr) : Steady fun s => s.check e := by
  intro r ss hss s t h
  have hagree : Agree (Twins r (Opened ss)) (Solver.solve (s.push.assert e))
      (Solver.solve (t.push.assert e)) := solve_lockstep _ _ (h.push.assert e)
  show Agree _ (s.check e) (t.check e)
  unfold Solver.check
  generalize Solver.solve (s.push.assert e) = x, Solver.solve (t.push.assert e) = y at hagree
  cases hagree with
  | ok h => exact .ok (h.1.pop hss)
  | abort => exact .abort

theorem ask_steady (e : Expr) : Steady (ask e) := by
  unfold ask
  split
  · exact steady_pure _
  · exact steady_pure _
  · exact check_steady e

theorem isUnsat_steady (e : Expr) : Steady (isUnsat e) :=
  (ask_steady e).bind fun _ => steady_pure _

/-- Solvers with the same scopes and range come to the same. -/
theorem Steady.agree {act : SolverM α} {s t : Solver} (h : Steady act) (hs : s.scopes ≠ [])
    (hscopes : t.scopes = s.scopes) (hrange : t.range = s.range) :
    Agree (Alike s.range (· = s.scopes)) (act s) (act t) :=
  h s.range s.scopes hs s t ⟨rfl, hrange, hscopes, rfl⟩

/-- Scopes and range stay as they were. -/
theorem Steady.keeps {act : SolverM α} {s s' : Solver} {a : α} (h : Steady act)
    (hs : s.scopes ≠ []) (hact : act s = .ok (a, s')) :
    s'.scopes = s.scopes ∧ s'.range = s.range := by
  have hagree := h.agree hs rfl rfl
  rw [hact] at hagree
  obtain ⟨_, -, halike⟩ := hagree.of_ok
  exact ⟨halike.holds, halike.left⟩

end SolverM

open SolverM Solver

/-! ## Abstractions -/

/-- The loop reads the model of the question it has just asked. -/
theorem enumerateCubes_lockstep {r : Int128} {ss : List (List Expr)} (ts : List Tracked) (n : Nat)
    (cubes : List Expr) :
    Lockstep (Alike r (Opened ss)) (Alike r (Opened ss)) (enumerateCubes ts n cubes)
      (enumerateCubes ts n cubes) := by
  induction n generalizing cubes with
  | zero =>
    unfold enumerateCubes
    refine solve_lockstep.bind fun answer => ?_
    cases answer <;> exact (lockstep_pure _).mono fun _ _ h => h.1
  | succ n ih =>
    unfold enumerateCubes
    refine solve_lockstep.bind fun answer => ?_
    cases answer with
    | unsat => exact (lockstep_pure _).mono fun _ _ h => h.1
    | undefined => exact (lockstep_pure _).mono fun _ _ h => h.1
    | sat =>
      refine lockstep_get fun s t h => ?_
      have hsigned : Tracked.signed? t = Tracked.signed? s := by
        funext tracked
        simp only [Tracked.signed?, truth?, h.2]
      rw [hsigned]
      exact ((assert_lockstep _).bind fun _ => ih _) s t h.1

/-- The boolean abstraction works in a scope of its own. -/
theorem booleanAbstraction_steady (formula : Expr) (ts : List Tracked) :
    Steady (booleanAbstraction formula ts) :=
  inScope_steady fun _ _ => (assert_lockstep formula).bind fun _ =>
    enumerateCubes_lockstep ts cubeLimit []

theorem impliedLiteral?_steady (formula literal : Expr) :
    Steady (impliedLiteral? formula literal) := by
  refine (isUnsat_steady _).bind fun _ => .ite (steady_pure _) ?_
  exact (isUnsat_steady _).bind fun _ => .ite (steady_pure _) (steady_pure _)

/-- Adding literals asks one question for each of them. -/
theorem addLiterals_steady (formula : Expr) (ts : List Tracked) (result : Expr) :
    Steady (addLiterals formula ts result) := by
  induction ts generalizing result with
  | nil => exact steady_pure _
  | cons t ts ih =>
    refine (impliedLiteral?_steady _ _).bind fun sign => ?_
    split <;> exact ih _

theorem cartesianAbstraction_steady (formula : Expr) (ts : List Tracked) :
    Steady (cartesianAbstraction formula ts) :=
  (isUnsat_steady _).bind fun _ => .ite (steady_pure _) (addLiterals_steady _ _ _)

/-- Either kind of abstraction of a block is steady. -/
theorem abstractBlock_steady (kind : AbstractionKind) (prior : Expr) (ssa : SsaMap)
    (block : PathFormula) (ps : List Predicate) :
    Steady (abstractBlock kind prior ssa block ps) := by
  refine .ite ((isUnsat_steady _).bind fun _ => steady_pure _) ?_
  cases kind with
  | boolean => exact booleanAbstraction_steady _ _
  | cartesian => exact cartesianAbstraction_steady _ _

theorem implied_steady (a b : Expr) : Steady (implied a b) :=
  .ite (steady_pure _) (isUnsat_steady _)

/-! ## Traces -/

/-- Each candidate is one question or two. -/
theorem impliedLiterals_steady (formula : Expr) (es : List Expr) :
    Steady (impliedLiterals formula es) := by
  induction es with
  | nil => exact steady_pure _
  | cons e es ih =>
    refine (impliedLiteral?_steady _ _).bind fun sign => ih.bind fun rest => ?_
    split <;> exact steady_pure _

/-- Whether a literal is needed is one question. -/
theorem dropNeedless_steady (formula : Expr) (kept es : List Expr) :
    Steady (dropNeedless formula kept es) := by
  induction es generalizing kept with
  | nil => exact steady_pure _
  | cons e es ih => exact (isUnsat_steady _).bind fun _ => .ite (ih _) (ih _)

/-- The literals at a cut are found by steady computations. -/
theorem interpolantLiterals_steady (before after : Expr) :
    Steady (interpolantLiterals before after) := by
  refine .ite (steady_pure _) ((isUnsat_steady _).bind fun _ => .ite (steady_pure _) ?_)
  refine (impliedLiterals_steady _ _).bind fun literals => (isUnsat_steady _).bind fun _ => ?_
  exact .ite (dropNeedless_steady _ _ _) (steady_pure _)

/-- A trace that ends in an error has asked its questions as well. -/
theorem SolverM.Steady.try_bind {α β : Type} {x : TraceM α} {f : α → TraceM β} (h : Steady x.run)
    (hf : ∀ a, Steady (f a).run) : Steady (x >>= f).run :=
  fun r ss hss => (h r ss hss).try_bind (fun _ _ h => h) fun a => hf a r ss hss

/-- Predicates follow from the literals without further questions. -/
theorem interpolate_steady (before after : Expr) : Steady (interpolate before after).run := by
  have hlift := fun r ss hss => (interpolantLiterals_steady before after r ss hss).try_lift (κ := Error)
  refine SolverM.Steady.try_bind hlift fun literals => ?_
  refine SolverM.Steady.try_bind ?_ fun ps => steady_pure (Except.ok ps.eraseDups)
  cases Predicate.ofExprs (literals.map fun e => e.normalAtom.unindexed) with
  | ok ps => exact steady_pure (Except.ok ps)
  | error e => exact steady_pure (Except.error e)

/-- Every cut is steady, and so are all of them. -/
theorem interpolants_steady (before blocks : List Expr) :
    Steady (interpolants before blocks).run := by
  induction blocks generalizing before with
  | nil => exact steady_pure (Except.ok [])
  | cons b blocks ih =>
    cases blocks with
    | nil => exact steady_pure (Except.ok [[]])
    | cons b' blocks =>
      refine (interpolate_steady _ _).try_bind fun ps => ?_
      exact (ih _).try_bind fun rest => steady_pure (Except.ok (ps :: rest))

/-- The branches are read from the model of the question about the whole trace. -/
theorem Trace.ofBlocks_steady (blocks : List PathFormula) : Steady (Trace.ofBlocks blocks).run := by
  intro r ss hss
  have hsolve := inScope_lockstep (T := Twins r (· = ss))
    ((assert_lockstep (Expr.conj (blocks.map (·.formula)))).bind fun _ => solve_lockstep)
    fun _ _ h => Twins.pop hss h
  refine hsolve.try_lift.try_bind (fun _ _ h => h.1) fun answer => ?_
  cases answer with
  | sat =>
    intro s t h
    have hbranches : t.branches = s.branches := by
      funext e
      simp only [Solver.branches, truth?, h.2]
    show Agree _ (.ok (Except.ok (feasible (s.branches _)), s))
      (.ok (Except.ok (feasible (t.branches _)), t))
    rw [hbranches]
    exact .ok h.1
  | unsat =>
    have hcuts := (interpolants_steady [] (blocks.map (·.formula))).try_bind fun ps =>
      steady_pure (Except.ok (Trace.spurious ps))
    exact fun s t h => hcuts r ss hss s t h.1
  | undefined => exact fun s t h => lockstep_pure (Except.error Error.undecidedTrace) s t h.1

/-! ## Sequences of inquiries -/

/-- A question about formulas. -/
inductive Inquiry where
  /-- What a block implies about predicates at its end. -/
  | abstraction (prior : Expr) (ssa : SsaMap) (block : PathFormula) (ps : List Predicate)
  /-- Whether a block is known to have no execution. -/
  | infeasible (prior : Expr) (ssa : SsaMap) (block : PathFormula)
  | implication (a b : Expr)
  | trace (blocks : List PathFormula)

/-- What an inquiry finds. -/
inductive Finding where
  | formula (e : Expr)
  | verdict (b : Bool)
  | trace (result : Except Error Trace)

namespace Inquiry

def run (kind : AbstractionKind) : Inquiry → SolverM Finding
  | abstraction prior ssa block ps => .formula <$> abstractBlock kind prior ssa block ps
  | infeasible prior ssa block => .verdict <$> blockInfeasible prior ssa block
  | implication a b => .verdict <$> implied a b
  | trace blocks => .trace <$> (Trace.ofBlocks blocks).run

/-- The findings of inquiries that are put to one solver, one after the other. -/
def findings (kind : AbstractionKind) : List Inquiry → SolverM (List Finding)
  | [] => return []
  | q :: qs => do
    let finding ← q.run kind
    return finding :: (← findings kind qs)

/-- Every inquiry is steady. -/
theorem run_steady (kind : AbstractionKind) (q : Inquiry) : Steady (q.run kind) := by
  cases q with
  | abstraction prior ssa block ps => exact (abstractBlock_steady _ _ _ _ _).map _
  | infeasible prior ssa block => exact (isUnsat_steady _).map _
  | implication a b => exact (implied_steady _ _).map _
  | trace blocks => exact (Trace.ofBlocks_steady _).map _

/-- Any number of inquiries is steady. -/
theorem findings_steady (kind : AbstractionKind) (qs : List Inquiry) :
    Steady (findings kind qs) := by
  induction qs with
  | nil => exact steady_pure []
  | cons q qs ih =>
    exact (run_steady kind q).bind fun finding => ih.bind fun rest => steady_pure (finding :: rest)

/-- The first finding, and what the rest finds from there. -/
theorem map_findings_cons {kind : AbstractionKind} {q : Inquiry} {qs : List Inquiry}
    {s t : Solver} {finding : Finding} (h : q.run kind s = .ok (finding, t)) :
    (findings kind (q :: qs) s).map Prod.fst =
      ((findings kind qs t).map Prod.fst).map (finding :: ·) := by
  show (q.run kind s >>= fun r => findings kind qs r.2 >>= fun r' => .ok (r.1 :: r'.1, r'.2)).map
    Prod.fst = _
  rw [h]
  show (findings kind qs t >>= fun r' => .ok (finding :: r'.1, r'.2)).map Prod.fst = _
  cases findings kind qs t <;> rfl

/-- Each inquiry of a sequence finds what it finds when it is the only one put to a solver with the
same scopes and range, and the sequence ends with the scopes that it started from. What either
solver was asked before does not matter: neither which model that left behind, nor how many steps it
took, nor whether a domain was cut off. -/
theorem findings_independent (kind : AbstractionKind) (qs : List Inquiry) {s fresh : Solver}
    (hs : s.scopes ≠ []) (hscopes : fresh.scopes = s.scopes) (hrange : fresh.range = s.range) :
    (findings kind qs s).map Prod.fst = qs.mapM (fun q => (q.run kind fresh).map Prod.fst) ∧
      ∀ found s', findings kind qs s = .ok (found, s') →
        s'.scopes = s.scopes ∧ s'.range = s.range := by
  refine ⟨?_, fun found s' h => (findings_steady kind qs).keeps hs h⟩
  induction qs generalizing s with
  | nil => rfl
  | cons q qs ih =>
    rw [List.mapM_cons, ← ((run_steady kind q).agree hs hscopes hrange).fst_eq]
    cases hq : q.run kind s with
    | error e =>
      show (q.run kind s >>= _).map Prod.fst = _
      rw [hq]
      rfl
    | ok r =>
      obtain ⟨finding, t⟩ := r
      -- the solver that the rest is put to is like the fresh one again
      obtain ⟨hscopes', hrange'⟩ := (run_steady kind q).keeps hs hq
      have hrest := ih (hscopes' ▸ hs) (hscopes.trans hscopes'.symm) (hrange.trans hrange'.symm)
      rw [map_findings_cons hq, hrest]
      rfl

/-- A solver that remembers the model `x@1 == 5`, and a search that used up its steps and cut off a
domain. -/
def stale : Solver :=
  { Solver.unasked 16 [[]] with
    model := some ((∅ : Assignment).insert ⟨"x", .int, some 1⟩ (.int 5))
    effort := ⟨Query.stepLimit, true⟩ }

/-- A trace that can be executed, one that cannot, and questions about its blocks. -/
def varied : List Inquiry :=
  let zero : Expr := .eq (.var ⟨"x", .int, some 1⟩) (.num 0)
  let five : Expr := .eq (.var ⟨"x", .int, some 1⟩) (.num 5)
  let branch : Expr := .var (.branch 0 1)
  [.trace [⟨zero, .empty⟩, ⟨branch, .empty⟩], .trace [⟨zero, .empty⟩, ⟨five, .empty⟩],
    .infeasible (.bool true) .empty ⟨zero.and five, .empty⟩, .implication zero five]

theorem findings_independent_stale :
    ∃ fresh, Solver.new stale.range = .ok fresh ∧
      (findings .boolean varied stale).map Prod.fst =
        varied.mapM (fun q => (q.run .boolean fresh).map Prod.fst) ∧
      ∃ found s', findings .boolean varied stale = .ok (found, s') ∧ found.length = 4 ∧
        s'.scopes = stale.scopes := by
  have hscopes : (Solver.unasked 16 [[]]).scopes = stale.scopes := rfl
  obtain ⟨hfindings, hkeeps⟩ := findings_independent .boolean varied (by decide) hscopes rfl
  refine ⟨_, rfl, hfindings, ?_⟩
  have hlength : (findings .boolean varied stale).toOption.map (·.1.length) = some 4 := by
    decide +kernel
  cases h : findings .boolean varied stale with
  | error e =>
    rw [h] at hlength
    cases hlength
  | ok r =>
    rw [h] at hlength
    exact ⟨r.1, r.2, rfl, Option.some.inj hlength, (hkeeps r.1 r.2 h).1⟩

end Inquiry

end Cegar

import Cegar.Proofs.Satisfaction
import Cegar.Proofs.Solver.Models
import Cegar.Solver.Session

/-!
# What the answers of a session are worth

The solver may be wrong when it says `unsat`, since its arithmetic saturates. Conclusions from that
answer therefore rest on the transcript: they hold if the recorded answers are correct. An answer
`sat` needs no such assumption, because it comes with a model.

* **`Truthful`**: no question of a transcript that was answered with `unsat` has a model;
* **`SolverM.Asks`**: what a computation between two states of rest does to the solver, together
  with what its result means if the answers that it got on the way are correct;
* **`SolverM.isUnsat_asks`**: an expression known to be unsatisfiable holds in no store;
* **`SolverM.recorded`**: what a computation puts to a solver that was asked nothing before.
-/

namespace Cegar

/-! ## Correct answers -/

/-- A question that was answered with `unsat` has no model. -/
def Exchange.Correct (q : Exchange) : Prop :=
  q.answer = .unsat → ∀ m : Assignment, m.Typed → ¬ m.Models q.assertions

/-- All answers are correct. -/
def Truthful (qs : List Exchange) : Prop := ∀ q ∈ qs, q.Correct

/-- Answers that are correct together are correct one by one. -/
theorem Truthful.of_append {qs rs : List Exchange} (h : Truthful (qs ++ rs)) :
    Truthful qs ∧ Truthful rs :=
  List.forall_mem_append.1 h

theorem Truthful.of_suffix {qs rs : List Exchange} (h : Truthful rs) (hs : qs <:+ rs) :
    Truthful qs :=
  fun q hq => h q (hs.mem hq)

/-- What the solver was right to reject, no store satisfies. -/
theorem Exchange.Correct.not_holds {q : Exchange} (h : q.Correct) (hans : q.answer = .unsat)
    (V : Store) : ¬ ∀ e ∈ q.assertions, e.Holds V := by
  intro hV
  -- finitely many values of the store matter
  have ht := V.typed_restrict (q.assertions.flatMap fun e => e.vars.toList)
  refine h hans _ ht fun e he => ?_
  rw [← Expr.holds_iff_eval fun v hv => ?_]
  · exact hV e he
  · exact Env.getElem?_restrict (List.mem_flatMap.2 ⟨e, he, Std.ExtTreeSet.mem_toList.2 hv⟩)

/-- Formulas are questions about stores. -/
theorem Exchange.correct_of_formulas {q : Exchange}
    (hformula : ∀ e ∈ q.assertions, e.WellSorted ∧ e.ty = .bool)
    (hnone : q.answer = .unsat → ∀ V : Store, ¬ V.Models q.assertions) : q.Correct := by
  intro hans m hm
  have hes : ∀ e ∈ q.assertions, e.IsFormula fun _ => True := fun e he =>
    ⟨(hformula e he).1, (hformula e he).2, fun _ _ => trivial⟩
  rw [Assignment.models_iff hm hes]
  exact hnone hans _

/-- If the questions answered with `unsat` are about these formulas, and none of them is true
anywhere, all answers are correct. -/
theorem truthful_of_refuted {qs : List Exchange} (refuted : List Expr)
    (hasked : qs.filter (·.answer = .unsat) = refuted.map fun e => ⟨[e], .unsat⟩)
    (hformula : ∀ e ∈ refuted, e.WellSorted ∧ e.ty = .bool)
    (hfalse : ∀ e ∈ refuted, ∀ V : Store, e.truth V = false) : Truthful qs := by
  intro q hq hans
  have hmem : q ∈ qs.filter (·.answer = .unsat) := List.mem_filter.2 ⟨hq, decide_eq_true hans⟩
  rw [hasked] at hmem
  obtain ⟨e, he, rfl⟩ := List.mem_map.1 hmem
  refine Exchange.correct_of_formulas ?_ (fun _ V hV => ?_) hans
  · simpa using hformula e he
  · cases (hV e (List.mem_singleton_self e)).symm.trans (hfalse e he V)

/-- Only constants are known. -/
theorem Expr.eq_bool_of_known {e : Expr} {b : Bool} (h : e.known = some b) : e = .bool b := by
  unfold known at h
  split at h <;> cases h
  rfl

/-! ## Questions -/

namespace Solver

/-- Deciding records the question and leaves the scopes alone. What earlier searches have spent does
not count. -/
theorem solve_ok {s s' : Solver} {answer : Answer} (h : s.solve = .ok (answer, s')) :
    s'.scopes = s.scopes ∧ s'.range = s.range ∧
      s'.transcript = ⟨s.assertions, answer⟩ :: s.transcript ∧
      decideAssertions s.range s.assertions .zero = .ok (answer, s'.model, s'.effort) := by
  obtain ⟨⟨answer', model, effort⟩, hd, h⟩ := except_bind_ok.1 h
  cases h
  exact ⟨rfl, rfl, rfl, hd⟩

/-- A model of the last question, if it was answered with `sat`. -/
theorem models_of_sat {s s' : Solver} {P : Var → Prop}
    (hes : ∀ e ∈ s.assertions, e.IsFormula P) (h : s.solve = .ok (.sat, s')) :
    ∃ m : Assignment, ∃ ht : m.Typed, s'.model = some m ∧ (m.env ht).Models s.assertions := by
  obtain ⟨-, -, -, hd⟩ := solve_ok h
  obtain ⟨hsome, hmodels⟩ := decideAssertions_sat hes hd
  obtain ⟨m, hm⟩ := hsome rfl
  obtain ⟨ht, hmm⟩ := hmodels m hm
  exact ⟨m, ht, hm, (Assignment.models_iff ht hes).1 hmm⟩

end Solver

namespace SolverM

variable {α β : Type} {s s' : Solver}

/-- From a solver to a solver at rest, with the questions `new` answered on the way. -/
structure Rests (s : Solver) (new : List Exchange) (s' : Solver) : Prop where
  scopes : s'.scopes = [[]]
  transcript : s'.transcript = new ++ s.transcript

theorem Rests.refl (hs : s.scopes = [[]]) : Rests s [] s := ⟨hs, rfl⟩

/-- One computation after the other. -/
theorem Rests.trans {s'' : Solver} {new new' : List Exchange} (h : Rests s new s')
    (h' : Rests s' new' s'') : Rests s (new' ++ new) s'' :=
  ⟨h'.scopes, by rw [h'.transcript, h.transcript, List.append_assoc]⟩

/-- What was answered can be read off the two solvers. -/
theorem Rests.unique {new new' : List Exchange} (h : Rests s new s') (h' : Rests s new' s') :
    new = new' :=
  List.append_cancel_right (h.transcript.symm.trans h'.transcript)

theorem Rests.suffix {new : List Exchange} (h : Rests s new s') :
    s.transcript <:+ s'.transcript :=
  ⟨new, h.transcript.symm⟩

/-- Run at rest, the computation ends at rest. Its result satisfies `R`, and also `Q` if the answers
that it got are correct. -/
def Asks (act : SolverM α) (R Q : α → Prop) : Prop :=
  ∀ s x s', s.scopes = [[]] → act s = .ok (x, s') →
    ∃ new, Rests s new s' ∧ R x ∧ (Truthful new → Q x)

theorem asks_pure {R Q : α → Prop} {x : α} (hR : R x) (hQ : Q x) : Asks (pure x) R Q := by
  intro s y s' hs hy
  cases state_pure_ok.1 hy
  exact ⟨[], .refl hs, hR, fun _ => hQ⟩

/-- In what comes next the result of a computation is known, and what it means may be used for what
comes after. -/
theorem Asks.bind {act : SolverM α} {f : α → SolverM β} {R Q : α → Prop} {R' Q' : β → Prop}
    (h : Asks act R Q) (hf : ∀ x, R x → Asks (f x) R' fun y => Q x → Q' y) :
    Asks (act >>= f) R' Q' := by
  intro s y s' hs hy
  obtain ⟨x, t, hx, hy⟩ := state_bind_ok.1 hy
  obtain ⟨new, hrest, hR, hQ⟩ := h s x t hs hx
  obtain ⟨new', hrest', hR', hQ'⟩ := hf x hR t y s' hrest.scopes hy
  refine ⟨_, hrest.trans hrest', hR', fun ht => ?_⟩
  obtain ⟨hnew', hnew⟩ := ht.of_append
  exact hQ' hnew' (hQ hnew)

/-- Weaker promises. -/
theorem Asks.mono {act : SolverM α} {R R' Q Q' : α → Prop} (h : Asks act R Q)
    (hR : ∀ x, R x → R' x) (hQ : ∀ x, R x → Q x → Q' x) : Asks act R' Q' := by
  intro s x s' hs hx
  obtain ⟨new, hrest, hr, hq⟩ := h s x s' hs hx
  exact ⟨new, hrest, hR x hr, fun ht => hQ x hr (hq ht)⟩

/-- What is done in a scope with one assertion. -/
theorem inScope_assert_cases {act : SolverM α} {e : Expr} {x : α}
    (h : inScope (do modify (·.assert e); act) s = .ok (x, s')) :
    ∃ t, act (s.push.assert e) = .ok (x, t) ∧ s' = t.pop := by
  obtain ⟨_, _, hpush, h⟩ := state_bind_ok.1 h
  cases state_modify_ok.1 hpush
  obtain ⟨y, t, hact, h⟩ := state_bind_ok.1 h
  obtain ⟨_, _, hassert, hact⟩ := state_bind_ok.1 hact
  cases state_modify_ok.1 hassert
  obtain ⟨_, _, hpop, h⟩ := state_bind_ok.1 h
  cases state_modify_ok.1 hpop
  cases state_pure_ok.1 h
  exact ⟨t, hact, rfl⟩

/-- A scope with one assertion, opened at rest. -/
theorem inScope_assert_ok {act : SolverM α} {e : Expr} {x : α} (hs : s.scopes = [[]])
    (h : inScope (do modify (·.assert e); act) s = .ok (x, s')) :
    ∃ t, act { s with scopes := [[e], []] } = .ok (x, t) ∧ s' = t.pop := by
  have hscope : s.push.assert e = { s with scopes := [[e], []] } := by
    simp [Solver.push, Solver.assert, hs]
  rw [← hscope]
  exact inScope_assert_cases h

/-- A question to a solver at rest is about the formula alone. -/
theorem check_ok {e : Expr} {answer : Answer} (hs : s.scopes = [[]])
    (h : s.check e = .ok (answer, s')) :
    s'.scopes = [[]] ∧ s'.transcript = ⟨[e], answer⟩ :: s.transcript := by
  obtain ⟨⟨answer', t⟩, ht, h⟩ := except_bind_ok.1 h
  cases h
  obtain ⟨hscopes, -, htranscript, -⟩ := Solver.solve_ok ht
  have hpush : (s.push.assert e).scopes = [[e], []] := by
    simp [Solver.push, Solver.assert, hs]
  rw [hpush] at hscopes
  have hpop : t.pop = { t with scopes := [[]] } := by
    simp [Solver.pop, hscopes]
  rw [hpop]
  refine ⟨rfl, ?_⟩
  rw [htranscript, Solver.assertions, hpush]
  simp [Solver.push, Solver.assert]

/-- What is rejected, no store satisfies. -/
theorem ask_asks (e : Expr) :
    Asks (ask e) (fun _ => True) fun answer => answer = .unsat → ∀ V : Store, ¬ e.Holds V := by
  intro s answer s' hs h
  cases hknown : e.known with
  | none =>
    have h : s.check e = .ok (answer, s') := by simpa only [ask, hknown] using h
    obtain ⟨hscopes, htranscript⟩ := check_ok hs h
    refine ⟨[⟨[e], answer⟩], ⟨hscopes, htranscript⟩, trivial, fun ht hans V => ?_⟩
    simpa using (ht ⟨[e], answer⟩ (by simp)).not_holds hans V
  | some b =>
    obtain rfl := Expr.eq_bool_of_known hknown
    cases b with
    | true =>
      cases state_pure_ok.1 h
      exact ⟨[], .refl hs, trivial, fun _ h => by cases h⟩
    | false =>
      cases state_pure_ok.1 h
      exact ⟨[], .refl hs, trivial, fun _ _ V => by simp⟩

/-- An expression that is known to be unsatisfiable holds in no store. -/
theorem isUnsat_asks (e : Expr) :
    Asks (isUnsat e) (fun _ => True) fun b => b = true → ∀ V : Store, ¬ e.Holds V :=
  (ask_asks e).bind fun answer _ => asks_pure trivial fun hans hb V => hans (by simpa using hb) V

/-! ## Recorded runs -/

deriving instance DecidableEq for Exchange

/-- The result of a computation that starts from a new solver, and all that it asked. -/
def recorded (act : SolverM α) (range : Int128) : Option (α × List Exchange) :=
  (act (.unasked range [[]])).toOption.map fun p => (p.1, p.2.transcript)

/-- The computation has the result, with these questions asked. -/
theorem recorded_eq_some {act : SolverM α} {range : Int128} {x : α} {asked : List Exchange}
    (h : act.recorded range = some (x, asked)) :
    ∃ s', act (.unasked range [[]]) = .ok (x, s') ∧ s'.transcript = asked := by
  obtain ⟨⟨y, s'⟩, hrun, heq⟩ := Option.map_eq_some_iff.1 h
  cases heq
  exact ⟨s', except_toOption_eq_some.1 hrun, rfl⟩

/-- A new solver has been asked nothing else. -/
theorem Rests.eq_transcript {range : Int128} {new : List Exchange}
    (h : Rests (.unasked range [[]]) new s') : new = s'.transcript := by
  rw [h.transcript, Solver.unasked, List.append_nil]

end SolverM

end Cegar

import Cegar.Proofs.Abstraction

/-!
# What decided questions tell

If the solver decides all questions of a computation, and rejects no formula that has a model, then
what the computation finds out is exact: a formula is known to be unsatisfiable exactly if it is,
and a literal is known to be implied exactly if it is.

* **`Decisive`**: what is asked of the answers;
* **`SolverM.Determines`**: what a computation finds out if its questions are decided;
* **`SolverM.isUnsat_determines`**: whether a formula has a model;
* **`impliedLiteral?_determines`**: the sign that a formula gives a literal.
-/

namespace Cegar

variable {P : Var → Prop}

/-- All questions were decided, and no formula with a model was rejected. -/
structure Decisive (qs : List Exchange) : Prop where
  truthful : Truthful qs
  decided : ∀ q ∈ qs, q.answer ≠ .undefined

/-- Questions that were decided together were decided one by one. -/
theorem Decisive.of_append {qs rs : List Exchange} (h : Decisive (qs ++ rs)) :
    Decisive qs ∧ Decisive rs := by
  obtain ⟨ht, ht'⟩ := h.truthful.of_append
  obtain ⟨hd, hd'⟩ := List.forall_mem_append.1 h.decided
  exact ⟨⟨ht, hd⟩, ⟨ht', hd'⟩⟩

namespace SolverM

variable {α β : Type}

/-- Run at rest, the computation ends at rest, and its result satisfies `Q` if the questions that it
asked were decided. -/
def Determines (act : SolverM α) (Q : α → Prop) : Prop :=
  ∀ s x s', s.scopes = [[]] → act s = .ok (x, s') →
    ∃ new, Rests s new s' ∧ (Decisive new → Q x)

theorem determines_pure {Q : α → Prop} {x : α} (h : Q x) : Determines (pure x) Q := by
  intro s y s' hs hy
  cases state_pure_ok.1 hy
  exact ⟨[], .refl hs, fun _ => h⟩

/-- Computations one after the other. -/
theorem Determines.bind {act : SolverM α} {f : α → SolverM β} {Q : α → Prop} {Q' : β → Prop}
    (h : Determines act Q) (hf : ∀ x, Determines (f x) fun y => Q x → Q' y) :
    Determines (act >>= f) Q' := by
  intro s y s' hs hy
  obtain ⟨x, t, hx, hy⟩ := state_bind_ok.1 hy
  obtain ⟨new, hrest, hQ⟩ := h s x t hs hx
  obtain ⟨new', hrest', hQ'⟩ := hf x t y s' hrest.scopes hy
  refine ⟨_, hrest.trans hrest', fun hd => ?_⟩
  obtain ⟨hnew', hnew⟩ := hd.of_append
  exact hQ' hnew' (hQ hnew)

theorem Determines.mono {act : SolverM α} {Q Q' : α → Prop} (h : Determines act Q)
    (hQ : ∀ x, Q x → Q' x) : Determines act Q' := by
  intro s x s' hs hx
  obtain ⟨new, hrest, hq⟩ := h s x s' hs hx
  exact ⟨new, hrest, fun hd => hQ x (hq hd)⟩

/-- Correct answers are among those that decide. -/
theorem Asks.determines {act : SolverM α} {R Q : α → Prop} (h : Asks act R Q) :
    Determines act fun x => R x ∧ Q x := by
  intro s x s' hs hx
  obtain ⟨new, hrest, hr, hq⟩ := h s x s' hs hx
  exact ⟨new, hrest, fun hd => ⟨hr, hq hd.truthful⟩⟩

/-- What is known of a result without answers may be used in what comes next. -/
theorem Asks.bind_determines {act : SolverM α} {f : α → SolverM β} {R Q : α → Prop}
    {Q' : β → Prop} (h : Asks act R Q) (hf : ∀ x, R x → Determines (f x) Q') :
    Determines (act >>= f) Q' := by
  intro s y s' hs hy
  obtain ⟨x, t, hx, hy⟩ := state_bind_ok.1 hy
  obtain ⟨new, hrest, hR, -⟩ := h s x t hs hx
  obtain ⟨new', hrest', hQ'⟩ := hf x hR t y s' hrest.scopes hy
  exact ⟨_, hrest.trans hrest', fun hd => hQ' hd.of_append.1⟩

/-- A formula that was found satisfiable has a model. -/
theorem check_sat {e : Expr} (he : e.IsFormula P) {s s' : Solver} (hs : s.scopes = [[]])
    (h : s.check e = .ok (.sat, s')) : ∃ V : Store, e.truth V = true := by
  obtain ⟨⟨answer, t⟩, ht, h⟩ := except_bind_ok.1 h
  cases h
  have hassertions : (s.push.assert e).assertions = [e] := by
    simp [Solver.assertions, Solver.push, Solver.assert, hs]
  obtain ⟨m, hm, -, hmodels⟩ := Solver.models_of_sat (by simpa [hassertions] using he) ht
  exact ⟨m.env hm, hmodels e (by simp [hassertions])⟩

/-- A formula that is not known to be unsatisfiable has a model, if the question was decided. -/
theorem isUnsat_model {e : Expr} (he : e.IsFormula P) {s s' : Solver} (hs : s.scopes = [[]])
    (h : isUnsat e s = .ok (false, s')) :
    ∃ new, Rests s new s' ∧ ((∀ q ∈ new, q.assertions = [e] → q.answer ≠ .undefined) →
      ∃ V : Store, e.truth V = true) := by
  obtain ⟨answer, t, hask, hpure⟩ := state_bind_ok.1 h
  have hpure := state_pure_ok.1 hpure
  obtain rfl : s' = t := congrArg Prod.snd hpure
  have hanswer : answer ≠ .unsat := by simpa using (congrArg Prod.fst hpure).symm
  unfold ask at hask
  cases hknown : e.known with
  | some b =>
    rw [hknown] at hask
    obtain rfl := Expr.eq_bool_of_known hknown
    cases b with
    | true =>
      cases state_pure_ok.1 hask
      exact ⟨[], .refl hs, fun _ => ⟨(∅ : Assignment).env Assignment.typed_empty, rfl⟩⟩
    | false =>
      cases state_pure_ok.1 hask
      exact absurd rfl hanswer
  | none =>
    rw [hknown] at hask
    obtain ⟨hscopes, htranscript⟩ := check_ok hs hask
    refine ⟨[⟨[e], answer⟩], ⟨hscopes, htranscript⟩, fun hd => ?_⟩
    cases answer with
    | unsat => exact absurd rfl hanswer
    | undefined => exact absurd rfl (hd ⟨[e], .undefined⟩ (by simp) rfl)
    | sat => exact check_sat he hs hask

/-- A formula is known to be unsatisfiable exactly if no store satisfies it. -/
theorem isUnsat_determines {e : Expr} (he : e.IsFormula P) :
    Determines (isUnsat e) fun b => b = true ↔ ∀ V : Store, e.truth V = false := by
  intro s b s' hs h
  cases b with
  | true =>
    obtain ⟨new, hrests, -, hunsat⟩ := isUnsat_asks e s true s' hs h
    refine ⟨new, hrests, fun hd => ⟨fun _ V => ?_, fun _ => rfl⟩⟩
    have hnot := hunsat hd.truthful rfl V
    rw [Expr.holds_iff_truth he] at hnot
    simpa using hnot
  | false =>
    obtain ⟨new, hrests, hmodel⟩ := isUnsat_model he hs h
    refine ⟨new, hrests, fun hd => ⟨(by cases ·), fun hnone => ?_⟩⟩
    obtain ⟨V, hV⟩ := hmodel fun q hq _ => hd.decided q hq
    rw [hnone V] at hV
    cases hV

end SolverM

open SolverM

/-! ## What formulas decide -/

namespace Expr

variable {formula e : Expr}

/-- The formula decides the truth value of a predicate. -/
def Decides (formula e : Expr) (b : Bool) : Prop :=
  ∀ V : Store, formula.truth V = true → e.truth V = b

/-- A formula that makes a predicate true has no model in which it is false. -/
theorem decides_true_iff :
    formula.Decides e true ↔ ∀ V : Store, (formula.and e.complement).truth V = false := by
  refine forall_congr' fun V => ?_
  rw [truth_and, truth_complement]
  cases formula.truth V <;> simp

/-- A formula that makes a predicate false has no model in which it is true. -/
theorem decides_false_iff :
    formula.Decides e false ↔ ∀ V : Store, (formula.and e).truth V = false := by
  refine forall_congr' fun V => ?_
  rw [truth_and]
  cases formula.truth V <;> simp

theorem exists_model_of_not (h : ¬ ∀ V : Store, e.truth V = false) :
    ∃ V : Store, e.truth V = true := by
  obtain ⟨V, hV⟩ := Classical.not_forall.1 h
  exact ⟨V, by simpa using hV⟩

/-- A formula with a model decides at most one sign. -/
theorem Decides.unique (hmodel : ∃ V : Store, formula.truth V = true) {b c : Bool}
    (hb : formula.Decides e b) (hc : formula.Decides e c) : b = c := by
  obtain ⟨V, hV⟩ := hmodel
  rw [← hb V hV, hc V hV]

/-- The sign that a formula with a model decides, if it decides one. -/
theorem exists_sign (hmodel : ∃ V : Store, formula.truth V = true) (e : Expr) :
    ∃ sign : Option Bool, ∀ b, sign = some b ↔ formula.Decides e b := by
  by_cases h : ∃ b, formula.Decides e b
  · obtain ⟨b, hb⟩ := h
    refine ⟨some b, fun c => ⟨?_, fun hc => congrArg some (hb.unique hmodel hc)⟩⟩
    rintro ⟨⟩
    exact hb
  · exact ⟨none, fun c => ⟨(by cases ·), fun hc => absurd ⟨c, hc⟩ h⟩⟩

end Expr

/-- A literal gets the sign that a formula with a model decides, and none otherwise. -/
theorem impliedLiteral?_determines {formula literal : Expr} (hf : formula.IsFormula P)
    (hl : literal.IsFormula P) (hmodel : ∃ V : Store, formula.truth V = true) :
    Determines (impliedLiteral? formula literal) fun sign =>
      ∀ b, sign = some b ↔ formula.Decides literal b := by
  refine (isUnsat_determines (hf.and hl.complement)).bind fun known => ?_
  simp only [← Expr.decides_true_iff]
  cases known with
  | true =>
    refine determines_pure fun htrue b => ⟨?_, fun hb => ?_⟩
    · rintro ⟨⟩
      exact htrue.1 rfl
    · exact congrArg some ((htrue.1 rfl).unique hmodel hb)
  | false =>
    refine (isUnsat_determines (hf.and hl)).bind fun known' => ?_
    simp only [← Expr.decides_false_iff]
    cases known' with
    | true =>
      refine determines_pure fun hfalse _ b => ⟨?_, fun hb => ?_⟩
      · rintro ⟨⟩
        exact hfalse.1 rfl
      · exact congrArg some ((hfalse.1 rfl).unique hmodel hb)
    | false =>
      refine determines_pure fun hfalse htrue b => ⟨(by cases ·), fun hb => ?_⟩
      cases b with
      | true => cases htrue.2 hb
      | false => cases hfalse.2 hb

end Cegar

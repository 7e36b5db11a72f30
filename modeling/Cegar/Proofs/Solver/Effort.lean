import Cegar.Proofs.Solver.Session

/-!
# What a refutation costs

A search that finds no model spends one step on each assignment that it looks at, and the steps
spent on the values of a variable add up. So the number of steps that a search needs to fail follows
from the conjuncts, and with it the answer: a number beyond the limit gives no verdict.

* **`Query.FailsIn`**: a part of a search that fails after a number of steps;
* **`Query.FailsIn.settle`**: the values of a variable add up;
* **`Query.FailsIn.answers`**: the answer that a failing search leads to;
* **`SolverM.Replies`**: the questions that a computation puts, if these are the answers.
-/

namespace Cegar

namespace Query

variable {q : Query} {range : Int128} {a a' : Assignment} {n : Nat}

/-- With enough steps left, the part of a search fails after `n` steps and cuts off no domain. With
fewer steps left it has no verdict. -/
def FailsIn (act : Effort → Except Abort Result) (n : Nat) : Prop :=
  ∀ e : Effort, e.steps ≤ stepLimit → ∃ r, act e = .ok r ∧
    (e.steps + n ≤ stepLimit → r.verdict = some false ∧ r.effort = ⟨e.steps + n, e.cut⟩) ∧
    (stepLimit < e.steps + n → r.verdict = none)

/-- What `n` values cost together, from position `i` on. -/
def costFrom (cost : Nat → Nat) : (n i : Nat) → Nat
  | 0, _ => 0
  | n + 1, i => cost i + costFrom cost n (i + 1)

theorem costFrom_one (n i : Nat) : costFrom (fun _ => 1) n i = n := by
  induction n generalizing i with
  | zero => rfl
  | succ n ih => rw [costFrom, ih, Nat.add_comm]

namespace FailsIn

/-! ## One step -/

variable {next : Assignment → Effort → Except Abort Result}

/-- An assignment that propagation refutes costs one step. -/
theorem refuted (h : q.propagate a = none) : FailsIn (q.step next a) 1 := by
  intro e he
  by_cases hlimit : stepLimit < e.steps + 1
  · refine ⟨⟨none, a, ⟨e.steps + 1, e.cut⟩⟩, if_pos hlimit, fun hle => ?_, fun _ => rfl⟩
    omega
  · refine ⟨⟨some false, a, ⟨e.steps + 1, e.cut⟩⟩, ?_, fun _ => ⟨rfl, rfl⟩, fun hlt => ?_⟩
    · simp only [step, if_neg hlimit, h]
    · exact absurd hlt hlimit

/-- Otherwise the step adds to what is spent after it. -/
theorem propagated (h : q.propagate a = some a') (hnext : FailsIn (next a') n) :
    FailsIn (q.step next a) (n + 1) := by
  intro e he
  by_cases hlimit : stepLimit < e.steps + 1
  · refine ⟨⟨none, a, ⟨e.steps + 1, e.cut⟩⟩, if_pos hlimit, fun hle => ?_, fun _ => rfl⟩
    omega
  · obtain ⟨r, hr, hfails, hruns⟩ := hnext ⟨e.steps + 1, e.cut⟩ (Nat.not_lt.1 hlimit)
    have hsum : e.steps + (n + 1) = e.steps + 1 + n := by omega
    have hfailed : r.verdict ≠ some true := by
      intro htrue
      rcases Nat.lt_or_ge stepLimit (e.steps + 1 + n) with hlt | hle
      · cases htrue.symm.trans (hruns hlt)
      · cases htrue.symm.trans (hfails hle).1
    refine ⟨{ r with assignment := a }, ?_, ?_, ?_⟩
    · simp only [step, if_neg hlimit, h, hr, if_neg hfailed]
    · rw [hsum]
      exact hfails
    · rw [hsum]
      exact hruns

/-! ## Values and variables -/

/-- The steps spent on the values add up. -/
theorem tryFrom {d : Domain} {attempt : Value → Effort → Except Abort Result} {cost : Nat → Nat}
    {i : Nat} (h : ∀ j, i ≤ j → j < i + n → FailsIn (attempt (d.get j)) (cost j)) :
    FailsIn (Query.tryFrom d attempt a n i) (costFrom cost n i) := by
  induction n generalizing i with
  | zero =>
    intro e he
    refine ⟨⟨some false, a, e⟩, rfl, fun _ => ⟨rfl, rfl⟩, fun hlt => ?_⟩
    exact absurd hlt (Nat.not_lt.2 he)
  | succ n ih =>
    intro e he
    obtain ⟨r, hr, hfails, hruns⟩ := h i (Nat.le_refl i) (by omega) e he
    have hrest := ih (i := i + 1) fun j hij hj => h j (by omega) (by omega)
    simp only [costFrom, Query.tryFrom, hr]
    by_cases hlimit : e.steps + cost i ≤ stepLimit
    · -- the first value fails and the others are tried with the steps that are left
      obtain ⟨hverdict, heffort⟩ := hfails hlimit
      rw [hverdict, heffort, ← Nat.add_assoc]
      exact hrest ⟨e.steps + cost i, e.cut⟩ hlimit
    · rw [hruns (Nat.not_le.1 hlimit)]
      exact ⟨_, rfl, fun hle => by omega, fun _ => rfl⟩

/-- A variable that is assigned already costs nothing. -/
theorem assigned {x : Var} {xs : List Var} (hx : a.contains x = true)
    (h : FailsIn (q.settle range xs a) n) : FailsIn (q.settle range (x :: xs) a) n := by
  intro e he
  rw [settle, if_pos hx]
  exact h e he

/-- An open variable costs what its values cost. -/
theorem settle {x : Var} {xs : List Var} (cost : Nat → Nat) (hx : a.contains x = false)
    {d : Domain} (hd : q.domain range x a = .ok d) (hcut : d.isCut = false)
    (h : ∀ i < d.size, FailsIn (q.step (q.settle range xs) (a.insert x (d.get i))) (cost i)) :
    FailsIn (q.settle range (x :: xs) a) (costFrom cost d.size 0) := by
  intro e he
  rw [Query.settle, if_neg (by rw [hx]; exact Bool.false_ne_true), hd]
  simp only [hcut, Bool.or_false]
  exact tryFrom (fun j _ hj => h j (by omega)) e he

/-- A boolean variable costs what its two values cost. -/
theorem settle_bool {x : Var} {xs : List Var} (hty : x.ty = .bool) (hx : a.contains x = false)
    {m : Nat} (hfalse : FailsIn (q.step (q.settle range xs) (a.insert x (.bool false))) m)
    (htrue : FailsIn (q.step (q.settle range xs) (a.insert x (.bool true))) n) :
    FailsIn (q.settle range (x :: xs) a) (m + n) := by
  have hd : q.domain range x a = .ok .truth := by simp only [domain, hty]
  refine settle (fun i => if i = 0 then m else n) hx hd rfl fun i hi => ?_
  rcases Nat.lt_succ_iff_lt_or_eq.1 hi with hi | rfl
  · rw [Nat.lt_one_iff.1 hi]
    exact hfalse
  · exact htrue

/-- A variable none of whose values survives costs as many steps as it has values. -/
theorem exhausted {x : Var} {xs : List Var} (hx : a.contains x = false) {d : Domain}
    (hd : q.domain range x a = .ok d) (hcut : d.isCut = false)
    (h : ∀ i, q.propagate (a.insert x (d.get i)) = none) :
    FailsIn (q.settle range (x :: xs) a) d.size := by
  have hsum : FailsIn (q.settle range (x :: xs) a) (costFrom (fun _ => 1) d.size 0) :=
    settle _ hx hd hcut fun i _ => refuted (h i)
  rwa [costFrom_one] at hsum

end FailsIn

end Query

/-! ## Answers -/

/-- The solver is asked about the formula, and this is its answer. -/
def Answers (range : Int128) (e : Expr) (answer : Answer) : Prop :=
  e.known = none ∧ (decideAssertions range [e] .zero).toOption.map Prod.fst = some answer

instance (range : Int128) (e : Expr) (answer : Answer) : Decidable (Answers range e answer) :=
  inferInstanceAs (Decidable (_ ∧ _))

/-- A search that fails is answered with `unsat` if its steps are within the limit. -/
theorem Query.FailsIn.answers {q : Query} {range : Int128} {e : Expr} {n : Nat}
    (hknown : e.known = none)
    (hq : ofConjuncts (Definition.eliminate ([e].flatMap Expr.conjuncts)).1 = .ok q)
    (h : FailsIn (q.step (q.settle range q.vars) ∅) n) :
    Answers range e (if n ≤ stepLimit then .unsat else .undefined) := by
  obtain ⟨r, hr, hfails, hruns⟩ := h .zero (Nat.zero_le _)
  rw [← search_eq] at hr
  rw [Effort.zero, Nat.zero_add] at hfails hruns
  refine ⟨hknown, ?_⟩
  unfold decideAssertions
  simp only [hq, hr, bind, Except.bind]
  by_cases hlimit : n ≤ stepLimit
  · obtain ⟨hverdict, heffort⟩ := hfails hlimit
    rw [hverdict, heffort, if_pos hlimit]
    rfl
  · rw [hruns (Nat.not_le.1 hlimit), if_neg hlimit]
    rfl

namespace SolverM

variable {α β : Type} {range : Int128} {e : Expr} {answer : Answer}

/-- Run at rest, the computation puts these questions and comes to this result, whatever was asked
before. -/
def Replies (range : Int128) (act : SolverM α) (x : α) (asked : List Exchange) : Prop :=
  ∀ s, s.range = range → s.scopes = [[]] →
    ∃ s', act s = .ok (x, s') ∧ s'.range = range ∧ Rests s asked s'

theorem replies_pure (x : α) : Replies range (pure x) x [] :=
  fun s hrange hs => ⟨s, rfl, hrange, .refl hs⟩

/-- Questions one after the other, the later ones first in the transcript. -/
theorem Replies.bind {act : SolverM α} {f : α → SolverM β} {x : α} {y : β}
    {asked asked' : List Exchange} (h : Replies range act x asked)
    (hf : Replies range (f x) y asked') : Replies range (act >>= f) y (asked' ++ asked) := by
  intro s hrange hs
  obtain ⟨t, hx, hrange, hrests⟩ := h s hrange hs
  obtain ⟨s', hy, hrange', hrests'⟩ := hf t hrange hrests.scopes
  exact ⟨s', state_bind_ok.2 ⟨x, t, hx, hy⟩, hrange', hrests.trans hrests'⟩

/-- The answer to a question depends on the question only. -/
theorem check_replies (h : Answers range e answer) :
    Replies range (fun s => s.check e) answer [⟨[e], answer⟩] := by
  obtain ⟨⟨answer, model, effort⟩, hdecide, rfl⟩ := Option.map_eq_some_iff.1 h.2
  rintro s rfl hs
  have hopened : s.push.assert e = { s with scopes := [[e], []] } := by
    simp [Solver.push, Solver.assert, hs]
  refine ⟨⟨s.range, [[]], model, effort, ⟨[e], answer⟩ :: s.transcript⟩, ?_, rfl, rfl, rfl⟩
  have hasked : (s.push.assert e).assertions = [e] := by simp [hopened, Solver.assertions]
  have hsolve := (s.push.assert e).solve_eq
  rw [hasked, hopened, except_toOption_eq_some.1 hdecide] at hsolve
  show s.check e = _
  rw [Solver.check, hopened, hsolve]
  rfl

/-- It does not matter how the formula is asserted. -/
theorem inScope_replies (h : Answers range e answer) :
    Replies range (inScope do modify (·.assert e); solve) answer [⟨[e], answer⟩] := by
  intro s hrange hs
  obtain ⟨s', hcheck, hrests⟩ := check_replies h s hrange hs
  obtain ⟨⟨_, t⟩, hsolve, hpop⟩ := except_bind_ok.1 hcheck
  cases hpop
  have hasserted : (do modify (·.assert e); solve : SolverM Answer) s.push = .ok (answer, t) :=
    state_bind_ok.2 ⟨(), s.push.assert e, rfl, hsolve⟩
  have hclosed : (do modify Solver.pop; return answer : SolverM Answer) t = .ok (answer, t.pop) :=
    state_bind_ok.2 ⟨(), t.pop, rfl, rfl⟩
  refine ⟨t.pop, state_bind_ok.2 ⟨(), s.push, rfl, ?_⟩, hrests⟩
  exact state_bind_ok.2 ⟨answer, t, hasserted, hclosed⟩

/-- Whether a formula is unsatisfiable takes one question. -/
theorem isUnsat_replies (h : Answers range e answer) :
    Replies range (isUnsat e) (answer = .unsat) [⟨[e], answer⟩] := by
  have hask : Replies range (ask e) answer [⟨[e], answer⟩] := by
    simp only [ask, h.1]
    exact check_replies h
  show Replies range (ask e >>= fun answer => pure (decide (answer = .unsat))) _ ([] ++ _)
  exact hask.bind (replies_pure _)

/-! ### Computations with errors -/

variable {κ : Type} {asked asked' : List Exchange}

theorem Replies.try_lift {act : SolverM α} {x : α} (h : Replies range act x asked) :
    Replies range (liftM act : ExceptT κ SolverM α).run (.ok x) asked := by
  intro s hrange hs
  obtain ⟨s', hx, hrest⟩ := h s hrange hs
  exact ⟨s', try_lift_ok.2 ⟨x, hx, rfl⟩, hrest⟩

theorem Replies.try_bind {act : ExceptT κ SolverM α} {f : α → ExceptT κ SolverM β} {x : α} {y : β}
    (h : Replies range act.run (.ok x) asked) (hf : Replies range (f x).run (.ok y) asked') :
    Replies range (act >>= f).run (.ok y) (asked' ++ asked) := by
  intro s hrange hs
  obtain ⟨t, hx, hrange, hrests⟩ := h s hrange hs
  obtain ⟨s', hy, hrange', hrests'⟩ := hf t hrange hrests.scopes
  exact ⟨s', try_bind_ok_ok.2 ⟨x, t, hx, hy⟩, hrange', hrests.trans hrests'⟩

end SolverM

end Cegar

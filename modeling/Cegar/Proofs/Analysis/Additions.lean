import Cegar.Proofs.Analysis.Development

/-!
# What exploration does to an analysis

Successors are computed, states merged and coverage decided without a look at the precision that
exploration starts from. States are added in two ways: at a location, to start from, and at the end
of a block, to continue its owner.

* **`Analysis.Accrues`**: the changes to an analysis while states are explored;
* **`Operation.accrues_run`**: a call other than one that sets or refines the precision makes
  these changes only.
-/

namespace Cegar

variable {A : Automaton} {p : Problem}

namespace Analysis

variable {a a' a'' : Analysis}

/-- The solver was used, results were kept and counted, initial states were added and states at the
ends of blocks. -/
inductive Accrues (A : Automaton) (a : Analysis) : Analysis → Prop
  | refl : Accrues A a a
  | aside {a' : Analysis} (h : Accrues A a a') (solver : Solver) (cache : Cache)
      (statistics : Statistics) :
      Accrues A a { a' with solver := solver, cache := cache, statistics := statistics }
  | initial {a' : Analysis} (h : Accrues A a a') (l : Location) :
      Accrues A a { a' with
        arena := (a'.arena.allocate l (.bool true) (.empty .empty) none).2 }
  | block {a' : Analysis} {owner : AbstractionState} {q : PathFormula} (h : Accrues A a a')
      (howner : a'.arena.get? owner.id = some owner) (hq : q.Grown A owner.ssa) (l : Location)
      (e : Expr) :
      Accrues A a { a' with arena := (a'.arena.allocate l e q (some owner.id)).2 }

/-- Additions one after the other. -/
theorem Accrues.trans (h : a.Accrues A a') (h' : a'.Accrues A a'') : a.Accrues A a'' := by
  induction h' with
  | refl => exact h
  | aside _ solver cache statistics ih => exact ih.aside solver cache statistics
  | initial _ l ih => exact ih.initial l
  | block _ howner hq l e ih => exact ih.block howner hq l e

/-- What exploration starts from, and the last spurious path, stay as they are. -/
theorem Accrues.precision (h : a.Accrues A a') :
    a'.precision = a.precision ∧ a'.lastPath = a.lastPath := by
  induction h with
  | refl => exact ⟨rfl, rfl⟩
  | aside _ _ _ _ ih | initial _ _ ih | block _ _ _ _ _ ih => exact ih

/-- Extending a block adds at most one state, if the block is completed. -/
theorem extendBlock_accrues (ha : a.Legal p.automaton) {precision : Precision}
    {owner : AbstractionState} (howner : a.arena.get? owner.id = some owner) {path : PathFormula}
    (hpath : path.Grown p.automaton owner.ssa) {size : Nat} {e : EdgeId}
    {r : Except Error (Option State)}
    (h : extendBlock p precision owner path size e a = .ok (r, a')) :
    a.Accrues p.automaton a' := by
  obtain ⟨edge, hedge, cache, statistics, -, -, hcases⟩ := extendBlock_cases ha.cache h
  obtain ⟨x, -, -, rfl⟩ | ⟨q, o, solver, arena, hextend, -, houtcome, rfl⟩ := hcases
  · exact Accrues.refl.aside a.solver cache statistics
  · -- a state is added only if the block is complete and has an execution
    rcases houtcome.arena_cases ha.rest with ⟨rfl, -⟩ | ⟨c, -, rfl, -⟩
    · exact Accrues.refl.aside solver cache statistics
    · exact (Accrues.refl.block howner (hpath.extend hedge hextend) edge.target c).aside solver
        cache statistics

/-- Computing a successor adds at most what extending its block does. -/
theorem successor_accrues (ha : a.Legal p.automaton) {precision : Precision} {s : State}
    (hs : s.Legal p.automaton a.arena) {e : EdgeId} {r : Except Error (Option State)}
    (h : successor p precision s e a = .ok (r, a')) : a.Accrues p.automaton a' := by
  obtain ⟨-, -, rfl⟩ | ⟨-, -, rfl⟩ | ⟨id, owner, rfl, hget, h⟩ | ⟨t, owner, rfl, hget, h⟩ :=
    successor_cases h
  · exact .refl
  · exact .refl
  · exact extendBlock_accrues ha (ha.owner hget) .empty h
  · obtain ⟨owner', hget', hpath⟩ := hs
    cases hget.symm.trans hget'
    exact extendBlock_accrues ha (ha.owner hget) hpath h

/-- Successors along several edges, one after the other. -/
theorem successorsAlong_accrues (ha : a.Legal p.automaton) {precision : Precision} {s : State}
    (hs : s.Legal p.automaton a.arena) {es : List EdgeId} {r : Except Error (List (EdgeId × State))}
    (h : successorsAlong p precision s es a = .ok (r, a')) : a.Accrues p.automaton a' := by
  induction es generalizing a r with
  | nil =>
    cases try_pure_ok.1 h
    exact .refl
  | cons e es ih =>
    obtain ⟨first, a₁, hfirst, h₁⟩ | ⟨x, hx, rfl⟩ := try_bind_ok.1 h
    · have haccrues := successor_accrues ha hs hfirst
      obtain ⟨hproceeds, -⟩ := successor_legal ha hs hfirst
      have hs' := hs.mono hproceeds.arena
      obtain ⟨rest, a₂, hrest, h₂⟩ | ⟨x, hx, rfl⟩ := try_bind_ok.1 h₁
      · cases try_pure_ok.1 h₂
        exact haccrues.trans (ih hproceeds.legal hs' hrest)
      · exact haccrues.trans (ih hproceeds.legal hs' hx)
    · exact successor_accrues ha hs hx

/-- Computing all successors adds what computing those along the edges does. -/
theorem successors_accrues (ha : a.Legal p.automaton) {precision : Precision} {s : State}
    (hs : s.Legal p.automaton a.arena) {r : Except Error (List (EdgeId × State))}
    (h : successors p precision s a = .ok (r, a')) : a.Accrues p.automaton a' := by
  obtain ⟨b, a₁, hb, h₁⟩ | ⟨x, hx, -⟩ := try_bind_ok.1 h
  · cases hb
    obtain ⟨l?, a₁, hl, h₂⟩ | ⟨x, hx, -⟩ := try_bind_ok.1 h₁
    · obtain ⟨-, rfl⟩ := try_lift_except_ok.1 hl
      cases l? with
      | some l => exact successorsAlong_accrues ha hs h₂
      | none =>
        cases s with
        | bottom =>
          cases try_pure_ok.1 h₂
          exact .refl
        | top | abstraction | inner =>
          cases try_throw_ok.1 h₂
          exact .refl
    · obtain ⟨_, -, hx⟩ := try_lift_ok.1 hx
      cases hx
  · cases hx

end Analysis

namespace Operation

/-- A call that leaves the precision alone. -/
def Explores : Operation → Prop
  | .setPrecision _ | .refine _ _ => False
  | .initialState _ | .successor .. | .successors .. | .merge .. | .join .. | .covers .. => True

/-- Only setting a precision and refining concern the precision. -/
theorem explores_or (op : Operation) :
    op.Explores ∨ (∃ precision, op = .setPrecision precision) ∨ ∃ g path, op = .refine g path := by
  cases op with
  | setPrecision precision => exact .inr (.inl ⟨precision, rfl⟩)
  | refine g path => exact .inr (.inr ⟨g, path, rfl⟩)
  | initialState | successor | successors | merge | join | covers => exact .inl trivial

/-- Every call that leaves the precision alone adds to the analysis and changes nothing else. -/
theorem accrues_run {op : Operation} {a a' : Analysis} (hexplores : op.Explores)
    (ha : a.Legal p.automaton) (hop : ∀ s ∈ op.states, s.Legal p.automaton a.arena)
    {ss : List State} (h : op.run p a = .ok (ss, a')) : a.Accrues p.automaton a' := by
  cases op with
  | setPrecision | refine => exact hexplores.elim
  | initialState l =>
    obtain ⟨s, a₁, hs, h⟩ := state_bind_ok.1 h
    cases state_pure_ok.1 h
    obtain ⟨id, -, -, rfl⟩ | ⟨-, -, rfl⟩ := Analysis.initialState_cases hs
    · exact .refl
    · exact (Analysis.Accrues.refl.initial l).aside _ _ _
  | successor precision s e =>
    obtain ⟨r, a₁, hr, h⟩ := state_bind_ok.1 h
    have haccrues := Analysis.successor_accrues ha (hop s (by simp [states])) hr
    cases r <;> cases state_pure_ok.1 h <;> exact haccrues
  | successors precision s =>
    obtain ⟨r, a₁, hr, h⟩ := state_bind_ok.1 h
    have haccrues := Analysis.successors_accrues ha (hop s (by simp [states])) hr
    cases r <;> cases state_pure_ok.1 h <;> exact haccrues
  | merge s t =>
    obtain ⟨m, a₁, hm, h⟩ := state_bind_ok.1 h
    cases state_pure_ok.1 h
    obtain ⟨r, a₁, hr, hm⟩ := state_bind_ok.1 hm
    cases state_pure_ok.1 hm
    obtain ⟨-, rfl⟩ | ⟨u, v, cache, statistics, -, -, -, -, -, -, rfl, -, -⟩ :=
      Analysis.merge?_cases ha.cache hr
    · exact .refl
    · exact Analysis.Accrues.refl.aside a.solver cache statistics
  | join s t =>
    cases state_pure_ok.1 h
    exact .refl
  | covers s t =>
    obtain ⟨b, a₁, hb, h⟩ := state_bind_ok.1 h
    cases state_pure_ok.1 h
    obtain ⟨solver, rfl⟩ := Analysis.covers_solver hb
    exact Analysis.Accrues.refl.aside solver a.cache a.statistics

end Operation

end Cegar

import Cegar.Proofs.Analysis.Succession

/-!
# How an analysis develops

Abstraction states are never changed. Each one but the initial ones continues an older one, so that
following the predecessors leads back to an initial state. The operations that exploration uses keep
this up, and they keep the policy by which blocks are completed.

* **`Analysis.Anchored`**: predecessors are older, and initial states have none;
* **`Analysis.Develops`**: a later analysis of the same session;
* **`Session.anchored`**: the states of any session are anchored.
-/

namespace Cegar

variable {A : Automaton} {p : Problem}

/-- Predecessors are older than the states that continue them. -/
def Arena.Chained (arena : Arena) : Prop :=
  ∀ i s, arena.get? i = some s → ∀ j, s.previous = some j → j.idx < i.idx

theorem Arena.lt_size_of_get? {arena : Arena} {i : AbstractionId} {s : AbstractionState}
    (h : arena.get? i = some s) : i.idx < arena.size :=
  (Array.getElem?_eq_some_iff.1 h).1

/-- A new state is younger than all others, its predecessor among them. -/
theorem Arena.Chained.allocate {arena : Arena} (h : arena.Chained) {l : Location} {e : Expr}
    {block : PathFormula} {previous : Option AbstractionId}
    (hprevious : ∀ j, previous = some j → ∃ s, arena.get? j = some s) :
    (arena.allocate l e block previous).2.Chained := by
  refine Arena.forall_allocate h fun j hj => ?_
  obtain ⟨s, hs⟩ := hprevious j hj
  exact Arena.lt_size_of_get? hs

namespace Analysis

variable {a a' a'' : Analysis}

structure Anchored (a : Analysis) : Prop where
  chained : a.arena.Chained
  initial : ∀ (l : Location) (id : AbstractionId), a.cache.initial[l]? = some id →
    ∃ s, a.arena.get? id = some s ∧ s.location = l ∧ s.previous = none

/-- The initial states are still what they were. -/
theorem Anchored.of_extends (h : a.Anchored) (hchained : a'.arena.Chained)
    (hext : a.arena.Extends a'.arena) (hinitial : a'.cache.initial = a.cache.initial) :
    a'.Anchored := by
  refine ⟨hchained, fun l id hid => ?_⟩
  rw [hinitial] at hid
  obtain ⟨s, hs, hl, hprevious⟩ := h.initial l id hid
  exact ⟨s, hext _ _ hs, hl, hprevious⟩

/-- A later analysis of the same session, with the same policy. -/
structure Develops (A : Automaton) (a a' : Analysis) : Prop where
  proceeds : a.Proceeds A a'
  anchored : a.Anchored → a'.Anchored
  policy : a'.precision.policy = a.precision.policy

namespace Develops

theorem refl (ha : a.Legal A) : a.Develops A a := ⟨.refl ha, id, rfl⟩

theorem trans (h : a.Develops A a') (h' : a'.Develops A a'') : a.Develops A a'' :=
  ⟨h.proceeds.trans h'.proceeds, h'.anchored ∘ h.anchored, h'.policy.trans h.policy⟩

theorem legal (h : a.Develops A a') : a'.Legal A := h.proceeds.legal

theorem extends_arena (h : a.Develops A a') : a.arena.Extends a'.arena := h.proceeds.arena

end Develops

/-- If only the solver was asked, the analysis is of the same session. -/
theorem Spares.develops (ha : a.Legal A) (h : a.Spares a')
    (hpolicy : a'.precision.policy = a.precision.policy) : a.Develops A a' := by
  refine ⟨h.proceeds ha, fun hanchored => ?_, hpolicy⟩
  refine hanchored.of_extends ?_ (h.proceeds ha).arena (by rw [h.cache])
  rw [h.arena]
  exact hanchored.chained

/-! ## The operations -/

/-- The initial state is at the location, without a predecessor. -/
theorem initialState_develops (ha : a.Legal A) {l : Location} {s : State}
    (h : initialState l a = .ok (s, a')) :
    a.Develops A a' ∧ (a.Anchored → ∃ id t, s = .abstraction id ∧ a'.arena.get? id = some t ∧
      t.location = l ∧ t.previous = none) := by
  obtain ⟨hproceeds, -⟩ := initialState_legal ha h
  obtain ⟨id, hid, rfl, rfl⟩ | ⟨-, rfl, rfl⟩ := initialState_cases h
  · refine ⟨.refl ha, fun hanchored => ?_⟩
    obtain ⟨t, ht, hl, hprevious⟩ := hanchored.initial l id hid
    exact ⟨id, t, rfl, ht, hl, hprevious⟩
  · have hget := Arena.get?_allocate_self a.arena l (.bool true) (.empty .empty) none
    refine ⟨⟨hproceeds, fun hanchored => ⟨hanchored.chained.allocate fun j hj => ?_, ?_⟩, rfl⟩,
      fun _ => ⟨_, _, rfl, hget, rfl, rfl⟩⟩
    · cases hj
    · intro k id hid
      rw [Std.ExtTreeMap.getElem?_insert] at hid
      split at hid
      · next heq =>
        cases hid
        exact ⟨_, hget, Std.LawfulEqOrd.compare_eq_iff_eq.1 heq, rfl⟩
      · obtain ⟨t, ht, hl, hprevious⟩ := hanchored.initial k id hid
        exact ⟨t, hproceeds.arena _ _ ht, hl, hprevious⟩

/-- Extending a block develops the analysis, whether the block is completed or not. -/
theorem extendBlock_develops (ha : a.Legal p.automaton) {precision : Precision}
    {owner : AbstractionState} (howner : a.arena.get? owner.id = some owner) {path : PathFormula}
    (hpath : path.Grown p.automaton owner.ssa) {size : Nat} {e : EdgeId}
    {r : Except Error (Option State)}
    (h : extendBlock p precision owner path size e a = .ok (r, a')) :
    a.Develops p.automaton a' := by
  obtain ⟨hproceeds, -⟩ := extendBlock_legal ha howner hpath h
  obtain ⟨edge, -, cache, statistics, -, hinitial, hcases⟩ := extendBlock_cases ha.cache h
  obtain ⟨x, -, -, rfl⟩ | ⟨q, o, solver, arena, -, -, houtcome, rfl⟩ := hcases
  · exact ⟨hproceeds, fun hanchored =>
      hanchored.of_extends hanchored.chained hproceeds.arena hinitial, rfl⟩
  · refine ⟨hproceeds, fun hanchored => hanchored.of_extends ?_ hproceeds.arena hinitial, rfl⟩
    -- a new state continues the owner of its block
    rcases houtcome.arena_cases ha.rest with ⟨rfl, -⟩ | ⟨c, -, rfl, -⟩
    · exact hanchored.chained
    · exact hanchored.chained.allocate fun j hj => ⟨owner, Option.some.inj hj ▸ howner⟩

/-- Computing a successor develops the analysis. -/
theorem successor_develops (ha : a.Legal p.automaton) {precision : Precision} {s : State}
    (hs : s.Legal p.automaton a.arena) {e : EdgeId} {r : Except Error (Option State)}
    (h : successor p precision s e a = .ok (r, a')) : a.Develops p.automaton a' := by
  obtain ⟨-, -, rfl⟩ | ⟨-, -, rfl⟩ | ⟨id, owner, rfl, hget, h⟩ | ⟨t, owner, rfl, hget, h⟩ :=
    successor_cases h
  · exact .refl ha
  · exact .refl ha
  · exact extendBlock_develops ha (ha.owner hget) .empty h
  · obtain ⟨owner', hget', hpath⟩ := hs
    cases hget.symm.trans hget'
    exact extendBlock_develops ha (ha.owner hget) hpath h

/-- Computing successors along several edges develops the analysis. -/
theorem successorsAlong_develops (ha : a.Legal p.automaton) {precision : Precision} {s : State}
    (hs : s.Legal p.automaton a.arena) {es : List EdgeId} {r : Except Error (List (EdgeId × State))}
    (h : successorsAlong p precision s es a = .ok (r, a')) : a.Develops p.automaton a' := by
  induction es generalizing a r with
  | nil =>
    cases try_pure_ok.1 h
    exact .refl ha
  | cons e es ih =>
    obtain ⟨first, a₁, hfirst, h₁⟩ | ⟨x, hx, rfl⟩ := try_bind_ok.1 h
    · have hdevelops := successor_develops ha hs hfirst
      have hs' := hs.mono hdevelops.extends_arena
      obtain ⟨rest, a₂, hrest, h₂⟩ | ⟨x, hx, rfl⟩ := try_bind_ok.1 h₁
      · cases try_pure_ok.1 h₂
        exact hdevelops.trans (ih hdevelops.legal hs' hrest)
      · exact hdevelops.trans (ih hdevelops.legal hs' hx)
    · exact successor_develops ha hs hx

/-- Computing all successors develops the analysis. -/
theorem successors_develops (ha : a.Legal p.automaton) {precision : Precision} {s : State}
    (hs : s.Legal p.automaton a.arena) {r : Except Error (List (EdgeId × State))}
    (h : successors p precision s a = .ok (r, a')) : a.Develops p.automaton a' := by
  obtain ⟨b, a₁, hb, h₁⟩ | ⟨x, hx, -⟩ := try_bind_ok.1 h
  · cases hb
    obtain ⟨l?, a₁, hl, h₂⟩ | ⟨x, hx, -⟩ := try_bind_ok.1 h₁
    · obtain ⟨-, rfl⟩ := try_lift_except_ok.1 hl
      cases l? with
      | some l => exact successorsAlong_develops ha hs h₂
      | none =>
        cases s with
        | bottom =>
          cases try_pure_ok.1 h₂
          exact .refl ha
        | top | abstraction | inner =>
          cases try_throw_ok.1 h₂
          exact .refl ha
    · obtain ⟨_, -, hx⟩ := try_lift_ok.1 hx
      cases hx
  · cases hx

/-- Merging keeps a union and adds no state. -/
theorem merge?_develops (ha : a.Legal p.automaton) {s t : State} {r : Option State}
    (h : merge? p s t a = .ok (r, a')) : a.Develops p.automaton a' ∧ a'.arena = a.arena := by
  obtain ⟨-, rfl⟩ | ⟨u, v, cache, statistics, -, -, -, -, -, -, rfl, hcache, hinitial⟩ :=
    merge?_cases ha.cache h
  · exact ⟨.refl ha, rfl⟩
  · exact ⟨⟨.of_update ha (.refl ha.rest) ha.arena (.refl _) hcache hinitial,
      fun hanchored => hanchored.of_extends hanchored.chained (.refl _) hinitial, rfl⟩, rfl⟩

/-- Asking whether a state is covered is a matter of the solver alone. -/
theorem covers_solver {s t : State} {b : Bool} (h : covers p s t a = .ok (b, a')) :
    ∃ solver, a' = { a with solver := solver } := by
  have hpure {b' : Bool} (h : (pure b' : AnalysisM Bool) a = .ok (b, a')) :
      ∃ solver, a' = { a with solver := solver } := by
    cases state_pure_ok.1 h
    exact ⟨_, rfl⟩
  have hask {i j : AbstractionId} (f : AbstractionState → AbstractionState → SolverM Bool)
      (h : (do
        let u ← abstractionState i
        let v ← abstractionState j
        consult (f u v) : AnalysisM Bool) a = .ok (b, a')) :
      ∃ solver, a' = { a with solver := solver } := by
    obtain ⟨u, a₁, hu, h₁⟩ := state_bind_ok.1 h
    obtain ⟨-, rfl⟩ := abstractionState_ok.1 hu
    obtain ⟨v, a₁, hv, h₂⟩ := state_bind_ok.1 h₁
    obtain ⟨-, rfl⟩ := abstractionState_ok.1 hv
    obtain ⟨solver, -, rfl⟩ := consult_cases h₂
    exact ⟨solver, rfl⟩
  unfold covers at h
  split at h
  · exact hpure h
  · exact hpure h
  · exact hpure h
  · exact hpure h
  · split at h
    · exact hpure h
    · exact hask (fun u v => implied u.abstraction v.abstraction) h
  · split at h
    · exact hpure h
    · next s _ _ =>
      exact hask (fun u v => implied (u.formula.and s.path.formula)
        (v.abstraction.indexed s.path.ssa)) h
  · exact hpure h
  · exact hpure h

/-- Coverage asks the solver and adds no state. -/
theorem covers_develops (ha : a.Legal A) {s t : State} {b : Bool}
    (h : covers p s t a = .ok (b, a')) : a.Develops A a' ∧ a'.arena = a.arena := by
  have hspares := covers_spares ha.rest h
  obtain ⟨solver, rfl⟩ := covers_solver h
  exact ⟨hspares.develops ha rfl, rfl⟩

end Analysis

/-! ## Sessions -/

/-- One call keeps the states anchored. -/
theorem Operation.anchored_run {op : Operation} {a a' : Analysis} (ha : a.Legal p.automaton)
    (hop : ∀ s ∈ op.states, s.Legal p.automaton a.arena) {ss : List State}
    (hanchored : a.Anchored) (h : op.run p a = .ok (ss, a')) : a'.Anchored := by
  cases op with
  | initialState l =>
    obtain ⟨s, a₁, hs, h⟩ := state_bind_ok.1 h
    cases state_pure_ok.1 h
    exact (Analysis.initialState_develops ha hs).1.anchored hanchored
  | setPrecision precision =>
    obtain ⟨_, a₁, hmod, h⟩ := state_bind_ok.1 h
    cases state_modify_ok.1 hmod
    cases state_pure_ok.1 h
    exact ⟨hanchored.chained, hanchored.initial⟩
  | successor precision s e =>
    obtain ⟨r, a₁, hr, h⟩ := state_bind_ok.1 h
    have hdevelops := Analysis.successor_develops ha (hop s (by simp [states])) hr
    cases r <;> cases state_pure_ok.1 h <;> exact hdevelops.anchored hanchored
  | successors precision s =>
    obtain ⟨r, a₁, hr, h⟩ := state_bind_ok.1 h
    have hdevelops := Analysis.successors_develops ha (hop s (by simp [states])) hr
    cases r <;> cases state_pure_ok.1 h <;> exact hdevelops.anchored hanchored
  | merge s t =>
    obtain ⟨m, a₁, hm, h⟩ := state_bind_ok.1 h
    cases state_pure_ok.1 h
    obtain ⟨r, a₁, hr, hm⟩ := state_bind_ok.1 hm
    cases state_pure_ok.1 hm
    exact (Analysis.merge?_develops ha hr).1.anchored hanchored
  | join s t =>
    cases state_pure_ok.1 h
    exact hanchored
  | covers s t =>
    obtain ⟨b, a₁, hb, h⟩ := state_bind_ok.1 h
    cases state_pure_ok.1 h
    exact (Analysis.covers_develops ha hb).1.anchored hanchored
  | refine g path =>
    obtain ⟨r, a₁, hr, h⟩ := state_bind_ok.1 h
    cases state_pure_ok.1 h
    have hspares := Analysis.refine_spares ha.rest hr
    refine hanchored.of_extends ?_ (hspares.proceeds ha).arena (by rw [hspares.cache])
    rw [hspares.arena]
    exact hanchored.chained

/-- In a session all states are anchored. -/
theorem Session.anchored {given : List State} {a : Analysis} (h : Session p given a) :
    a.Anchored := by
  induction h with
  | start h =>
    obtain ⟨solver, -, h⟩ := except_bind_ok.1 h
    cases h
    refine ⟨fun i s h => ?_, fun l id h => ?_⟩
    · simp [Arena.get?, Arena.empty] at h
    · simp [Cache.empty] at h
  | call hsession hop h ih =>
    obtain ⟨ha, hgiven⟩ := hsession.legal
    exact Operation.anchored_run ha (fun s hs => hgiven s (hop s hs)) ih h

end Cegar

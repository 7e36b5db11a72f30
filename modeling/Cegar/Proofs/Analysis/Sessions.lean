import Cegar.Proofs.Analysis.Concretisation
import Cegar.Proofs.Analysis.Refinement

/-!
# Sessions with an analysis

An analysis is used by calling its operations one after the other, in any order, with any edges and
precisions and with states that earlier calls returned. Whatever the program is, all states of such
a session are built in the same way.

* **`PathFormula.Grown`**: a path formula that came about by extension along edges and disjunction;
* **`Analysis.Legal`**: every abstraction is made of predicates, every path formula has grown from
  the numbering of its owner, and what is kept is what would be computed anew;
* **`Operation.legal_run`**: one call keeps an analysis legal and returns legal states;
* **`Session.legal`**: so all states of a session are legal.
-/

namespace Cegar

variable {A : Automaton}

/-! ## Path formulas that have grown -/

/-- The statements of the program, and the branch variables of its conditions, are about variables
of a class. -/
structure Automaton.Within (K : Var → Prop) (A : Automaton) : Prop where
  vars : ∀ edge ∈ A.edges, ∀ e ∈ edge.statement.exprs, ∀ v ∈ e.vars, v.index = none ∧ K v
  branch : ∀ edge ∈ A.edges, ∀ condition truth, edge.statement = .assume condition truth →
    ∀ i, K (Var.branch edge.source.idx i)

/-- Path formulas that come about from a numbering by edges of the program and disjunctions. -/
inductive PathFormula.Grown (A : Automaton) (m : SsaMap) : PathFormula → Prop
  | empty : Grown A m (.empty m)
  | extend {p q : PathFormula} {e : EdgeId} {edge : Edge} (hp : Grown A m p)
      (hedge : A.edges[e.idx]? = some edge)
      (h : p.extend edge.source e edge.statement = .ok (.ok q)) : Grown A m q
  | or {p q : PathFormula} (hp : Grown A m p) (hq : Grown A m q) : Grown A m (p.or q)

namespace PathFormula.Grown

variable {m : SsaMap} {p : PathFormula} {K : Var → Prop}

/-- No index goes back. -/
theorem le (h : p.Grown A m) : m ≤ p.ssa := by
  induction h with
  | empty => exact SsaMap.le_refl m
  | extend _ _ h ih => exact SsaMap.le_trans ih (le_of_extend h)
  | or _ _ ih _ => exact SsaMap.le_trans ih (SsaMap.le_merge_left _ _)

/-- All variables of a path formula are of the class that statements are about. -/
theorem within (hK : Versioned K) (hA : A.Within K) (hm : m.Entries K) (h : p.Grown A m) :
    p.Within K := by
  induction h with
  | empty => exact .empty hm
  | extend _ hedge h ih =>
    have hmem := Automaton.mem_edges_of_getElem? hedge
    exact ih.extend hK (hA.branch _ hmem) (hA.vars _ hmem) h
  | or _ _ ih ih' => exact ih.or hK ih'

/-- Every index of a variable was given by a write or at the start. -/
theorem seen (hA : A.Within fun _ => True) (h : p.Grown A m) : p.Seen :=
  (h.within versioned_true hA fun _ _ _ => trivial).seen

/-- Path formulas over well-sorted statements are well-sorted. -/
theorem sorted (hA : ∀ edge ∈ A.edges, edge.statement.WellSorted) (h : p.Grown A m) : p.Sorted := by
  induction h with
  | empty => exact .const true
  | extend _ hedge h ih => exact ih.extend (hA _ (Automaton.mem_edges_of_getElem? hedge)) h
  | or _ _ ih ih' => exact ih.or ih'

end PathFormula.Grown

/-- Numberings at the end of blocks. -/
inductive SsaMap.Grown (A : Automaton) : SsaMap → Prop
  | empty : Grown A .empty
  | block {m : SsaMap} {p : PathFormula} (hm : Grown A m) (hp : p.Grown A m) : Grown A p.ssa

/-! ## Legal states -/

/-- An expression made of predicates by connectives. -/
def Expr.MadeOfPredicates (e : Expr) : Prop :=
  ∀ F : Expr → Prop, Closed F → (∀ q : Predicate, F q.expr) → F e

structure AbstractionState.Legal (A : Automaton) (s : AbstractionState) : Prop where
  made : s.abstraction.MadeOfPredicates
  numbering : s.ssa.Grown A

theorem AbstractionState.Legal.unindexed {s : AbstractionState} (h : s.Legal A) : s.Unindexed :=
  h.made _ (Expr.closed_vars _) Predicate.unindexed

structure Arena.Legal (A : Automaton) (arena : Arena) : Prop where
  id : ∀ i s, arena.get? i = some s → s.id = i
  state : ∀ i s, arena.get? i = some s → s.Legal A

/-- The path formula has grown since the owner. -/
def Segment.Legal (A : Automaton) (arena : Arena) (s : Segment) : Prop :=
  ∃ owner, arena.get? s.owner = some owner ∧ s.path.Grown A owner.ssa

def State.Legal (A : Automaton) (arena : Arena) : State → Prop
  | .top | .bottom => True
  | .abstraction id => ∃ s, arena.get? id = some s
  | .inner s => s.toSegment.Legal A arena

/-- What holds of an analysis in a session. -/
structure Analysis.Legal (A : Automaton) (a : Analysis) : Prop where
  rest : a.solver.scopes = [[]]
  arena : a.arena.Legal A
  cache : a.cache.Coherent A
  initial : ∀ (l : Location) (id : AbstractionId), a.cache.initial[l]? = some id →
    ∃ s, a.arena.get? id = some s

section Growing

variable {arena arena' : Arena}

/-- What a session has built stays so when abstraction states are added. -/
theorem State.Legal.mono {s : State} (hs : s.Legal A arena) (h : arena.Extends arena') :
    s.Legal A arena' := by
  cases s with
  | top | bottom => trivial
  | abstraction id =>
    obtain ⟨t, ht⟩ := hs
    exact ⟨t, h _ _ ht⟩
  | inner s =>
    obtain ⟨owner, howner, hpath⟩ := hs
    exact ⟨owner, h _ _ howner, hpath⟩

/-- A new state with an abstraction made of predicates. -/
theorem Arena.Legal.allocate (h : arena.Legal A) {l : Location} {e : Expr} {block : PathFormula}
    {previous : Option AbstractionId} (he : e.MadeOfPredicates) (hblock : block.ssa.Grown A) :
    (arena.allocate l e block previous).2.Legal A :=
  ⟨Arena.forall_allocate h.id rfl, Arena.forall_allocate h.state ⟨he, hblock⟩⟩

end Growing

namespace Analysis

variable {p : Problem} {a a' : Analysis}

/-- A later analysis of a session. -/
structure Proceeds (A : Automaton) (a a' : Analysis) : Prop where
  legal : a'.Legal A
  arena : a.arena.Extends a'.arena

theorem Proceeds.refl (ha : a.Legal A) : a.Proceeds A a := ⟨ha, .refl _⟩

theorem Proceeds.trans {a'' : Analysis} (h : a.Proceeds A a') (h' : a'.Proceeds A a'') :
    a.Proceeds A a'' :=
  ⟨h'.legal, h.arena.trans h'.arena⟩

/-- The solver was asked, states were added, and what is kept for later has changed. -/
theorem Proceeds.of_update (ha : a.Legal A) {solver : Solver} {new : List Exchange}
    (hsolver : SolverM.Rests a.solver new solver) {arena : Arena} (harena : arena.Legal A)
    (hext : a.arena.Extends arena) {cache : Cache} (hcache : cache.Coherent A)
    (hinitial : cache.initial = a.cache.initial) {statistics : Statistics} :
    a.Proceeds A { a with solver := solver, arena := arena, cache := cache,
                          statistics := statistics } := by
  refine ⟨⟨hsolver.scopes, harena, hcache, fun l id h => ?_⟩, hext⟩
  obtain ⟨s, hs⟩ := ha.initial l id (hinitial ▸ h)
  exact ⟨s, hext _ _ hs⟩

/-- If only the solver was asked, the session goes on. -/
theorem Spares.proceeds (ha : a.Legal A) (h : a.Spares a') : a.Proceeds A a' := by
  refine ⟨⟨h.scopes, ?_, ?_, ?_⟩, ?_⟩
  · rw [h.arena]
    exact ha.arena
  · rw [h.cache]
    exact ha.cache
  · rw [h.cache, h.arena]
    exact ha.initial
  · rw [h.arena]
    exact .refl _

/-! ## The operations keep an analysis legal -/

/-- Nothing has been built yet. -/
theorem legal_new {options : Options} (h : Analysis.new options = .ok a) : a.Legal A := by
  obtain ⟨solver, hsolver, h⟩ := except_bind_ok.1 h
  cases h
  obtain ⟨range, -, hs⟩ := except_bind_ok.1 hsolver
  cases hs
  refine ⟨rfl, ⟨fun i s h => ?_, fun i s h => ?_⟩, .empty, fun l id h => ?_⟩
  · simp [Arena.get?, Arena.empty] at h
  · simp [Arena.get?, Arena.empty] at h
  · simp [Cache.empty] at h

/-- The initial state knows nothing, and its block is empty. -/
theorem initialState_legal (ha : a.Legal A) {l : Location} {s : State}
    (h : initialState l a = .ok (s, a')) : a.Proceeds A a' ∧ s.Legal A a'.arena := by
  obtain ⟨id, hid, rfl, rfl⟩ | ⟨-, rfl, rfl⟩ := initialState_cases h
  · exact ⟨.refl ha, ha.initial l id hid⟩
  · have hext := a.arena.extends_allocate l (.bool true) (.empty .empty) none
    have hget := Arena.get?_allocate_self a.arena l (.bool true) (.empty .empty) none
    have harena : (a.arena.allocate l (.bool true) (.empty .empty) none).2.Legal A :=
      ha.arena.allocate (fun F hF _ => hF.const true) .empty
    refine ⟨⟨⟨ha.rest, harena, ⟨ha.cache.paths, ha.cache.merges⟩, fun k i hi => ?_⟩, hext⟩,
      _, hget⟩
    rw [Std.ExtTreeMap.getElem?_insert] at hi
    split at hi
    · cases hi
      exact ⟨_, hget⟩
    · obtain ⟨s, hs⟩ := ha.initial k i hi
      exact ⟨s, hext _ _ hs⟩

/-- The state that a block leads to is legal. -/
theorem Outcome.legal (ha : a.Legal p.automaton) {precision : Precision} {owner : AbstractionState}
    (howner : a.arena.get? owner.id = some owner) {l : Location} {size : Nat} {q : PathFormula}
    (hq : q.Grown p.automaton owner.ssa) {r : Option State} {solver : Solver} {arena : Arena}
    (h : Outcome p precision owner l size q a r solver arena) :
    arena.Legal p.automaton ∧ a.arena.Extends arena ∧
      ∀ s ∈ r.toList, s.Legal p.automaton arena := by
  rcases h.arena_cases ha.rest with ⟨rfl, hr⟩ | ⟨e, hmade, rfl, rfl⟩
  -- no state was added: the block goes on, or there is no successor
  · refine ⟨ha.arena, .refl _, fun s hs => ?_⟩
    rw [hr s (Option.mem_toList.1 hs)]
    exact ⟨owner, howner, hq⟩
  -- the block is complete, and the new state starts the next one from its numbering
  · have hnumbering : q.ssa.Grown p.automaton :=
      .block (ha.arena.state _ _ howner).numbering hq
    refine ⟨ha.arena.allocate (fun F hF hps => hmade F hF fun d _ => hps d) hnumbering,
      a.arena.extends_allocate _ _ _ _, fun s hs => ?_⟩
    rw [Option.toList_some, List.mem_singleton] at hs
    rw [hs]
    exact ⟨_, Arena.get?_allocate_self _ _ _ _ _⟩

/-- Extending a block: the path formula grows by an edge, and the abstraction at its end is made of
predicates. -/
theorem extendBlock_legal (ha : a.Legal p.automaton) {precision : Precision}
    {owner : AbstractionState} (howner : a.arena.get? owner.id = some owner) {path : PathFormula}
    (hpath : path.Grown p.automaton owner.ssa) {size : Nat} {e : EdgeId}
    {r : Except Error (Option State)}
    (h : extendBlock p precision owner path size e a = .ok (r, a')) :
    a.Proceeds p.automaton a' ∧
      ∀ o, r = .ok o → ∀ s ∈ o.toList, s.Legal p.automaton a'.arena := by
  obtain ⟨edge, hedge, cache, statistics, hcache, hinitial, hcases⟩ := extendBlock_cases ha.cache h
  obtain ⟨x, -, rfl, rfl⟩ | ⟨q, o, solver, arena, hextend, rfl, houtcome, rfl⟩ := hcases
  · exact ⟨.of_update ha (.refl ha.rest) ha.arena (.refl _) hcache hinitial,
      fun o ho => by cases ho⟩
  · obtain ⟨new, hrests, -⟩ := houtcome.sound ha.rest howner
    obtain ⟨harena, hext, hlegal⟩ := houtcome.legal ha howner (hpath.extend hedge hextend)
    refine ⟨.of_update ha hrests harena hext hcache hinitial, fun o ho => ?_⟩
    cases ho
    exact hlegal

/-- Where a block goes on from a legal state. -/
theorem Legal.owner (ha : a.Legal A) {id : AbstractionId} {owner : AbstractionState}
    (h : a.arena.get? id = some owner) : a.arena.get? owner.id = some owner := by
  rw [ha.arena.id id owner h]
  exact h

/-- The block of a state has grown since its owner, so its successor is legal. -/
theorem successor_legal (ha : a.Legal p.automaton) {precision : Precision} {s : State}
    (hs : s.Legal p.automaton a.arena) {e : EdgeId} {r : Except Error (Option State)}
    (h : successor p precision s e a = .ok (r, a')) :
    a.Proceeds p.automaton a' ∧
      ∀ o, r = .ok o → ∀ s ∈ o.toList, s.Legal p.automaton a'.arena := by
  obtain ⟨rfl, rfl, rfl⟩ | ⟨rfl, rfl, rfl⟩ | ⟨id, owner, rfl, hget, h⟩ | ⟨t, owner, rfl, hget, h⟩ :=
    successor_cases h
  · exact ⟨.refl ha, fun o ho => by cases ho⟩
  · exact ⟨.refl ha, fun o ho => by cases ho; simp⟩
  · exact extendBlock_legal ha (ha.owner hget) .empty h
  · obtain ⟨owner', hget', hpath⟩ := hs
    cases hget.symm.trans hget'
    exact extendBlock_legal ha (ha.owner hget) hpath h

/-- Successors along several edges. -/
theorem successorsAlong_legal (ha : a.Legal p.automaton) {precision : Precision} {s : State}
    (hs : s.Legal p.automaton a.arena) {es : List EdgeId} {r : Except Error (List (EdgeId × State))}
    (h : successorsAlong p precision s es a = .ok (r, a')) :
    a.Proceeds p.automaton a' ∧
      ∀ rs, r = .ok rs → ∀ t ∈ rs.map (·.2), t.Legal p.automaton a'.arena := by
  -- induction on the edges: states found along the first one stay legal
  induction es generalizing a r with
  | nil =>
    cases try_pure_ok.1 h
    exact ⟨.refl ha, fun rs hrs => by cases hrs; simp⟩
  | cons e es ih =>
    obtain ⟨first, a₁, hfirst, h₁⟩ | ⟨x, hx, rfl⟩ := try_bind_ok.1 h
    · obtain ⟨hproceeds, hlegal⟩ := successor_legal ha hs hfirst
      obtain ⟨rest, a₂, hrest, h₂⟩ | ⟨x, hx, rfl⟩ := try_bind_ok.1 h₁
      · cases try_pure_ok.1 h₂
        obtain ⟨hproceeds', hlegal'⟩ := ih hproceeds.legal (hs.mono hproceeds.arena) hrest
        refine ⟨hproceeds.trans hproceeds', fun rs hrs t ht => ?_⟩
        cases hrs
        rw [List.map_append, List.map_map, List.mem_append] at ht
        rcases ht with ht | ht
        -- what the first edge gave stays legal while the other edges are followed
        · obtain ⟨u, hu, rfl⟩ := List.mem_map.1 ht
          exact (hlegal first rfl u hu).mono hproceeds'.arena
        · exact hlegal' rest rfl t ht
      -- an error at a later edge takes the states back, but not what was done
      · obtain ⟨hproceeds', -⟩ := ih hproceeds.legal (hs.mono hproceeds.arena) hx
        exact ⟨hproceeds.trans hproceeds', fun rs hrs => by cases hrs⟩
    · exact ⟨(successor_legal ha hs hx).1, fun rs hrs => by cases hrs⟩

/-- All successors of a state. -/
theorem successors_legal (ha : a.Legal p.automaton) {precision : Precision} {s : State}
    (hs : s.Legal p.automaton a.arena) {r : Except Error (List (EdgeId × State))}
    (h : successors p precision s a = .ok (r, a')) :
    a.Proceeds p.automaton a' ∧
      ∀ rs, r = .ok rs → ∀ t ∈ rs.map (·.2), t.Legal p.automaton a'.arena := by
  obtain ⟨b, a₁, hb, h₁⟩ | ⟨x, hx, -⟩ := try_bind_ok.1 h
  · cases hb
    obtain ⟨l?, a₁, hl, h₂⟩ | ⟨x, hx, -⟩ := try_bind_ok.1 h₁
    · obtain ⟨-, rfl⟩ := try_lift_except_ok.1 hl
      cases l? with
      | some l => exact successorsAlong_legal ha hs h₂
      | none =>
        cases s with
        | bottom =>
          cases try_pure_ok.1 h₂
          exact ⟨.refl ha, fun rs hrs => by cases hrs; simp⟩
        | top | abstraction | inner =>
          cases try_throw_ok.1 h₂
          exact ⟨.refl ha, fun rs hrs => by cases hrs⟩
    · obtain ⟨_, -, hx⟩ := try_lift_ok.1 hx
      cases hx
  · cases hx

/-- The union has grown from the same owner as its parts. -/
theorem merge_legal (ha : a.Legal p.automaton) {s t m : State} (hs : s.Legal p.automaton a.arena)
    (ht : t.Legal p.automaton a.arena) (h : merge p s t a = .ok (m, a')) :
    a.Proceeds p.automaton a' ∧ m.Legal p.automaton a'.arena := by
  obtain ⟨r, a₁, hr, h⟩ := state_bind_ok.1 h
  cases state_pure_ok.1 h
  obtain ⟨rfl, rfl⟩ | ⟨u, v, cache, statistics, rfl, rfl, howner, -, -, rfl, rfl, hcache,
    hinitial⟩ := merge?_cases ha.cache hr
  · exact ⟨.refl ha, ht⟩
  · refine ⟨.of_update ha (.refl ha.rest) ha.arena (.refl _) hcache hinitial, ?_⟩
    obtain ⟨owner, hget, hu⟩ := hs
    obtain ⟨owner', hget', hv⟩ := ht
    -- both paths have grown from the same owner, so their disjunction has, too
    rw [← howner] at hget'
    cases hget.symm.trans hget'
    exact ⟨owner, hget, hu.or hv⟩

/-- Asking whether a state is covered changes the solver only. -/
theorem covers_spares (ha : a.solver.scopes = [[]]) {s t : State} {b : Bool}
    (h : covers p s t a = .ok (b, a')) : a.Spares a' := by
  have hpure {b' : Bool} (h : (pure b' : AnalysisM Bool) a = .ok (b, a')) : a.Spares a' := by
    cases state_pure_ok.1 h
    exact .refl ha
  -- otherwise two abstraction states are looked up, and the solver is asked about them
  have hask {i j : AbstractionId} (f g : AbstractionState → AbstractionState → Expr)
      (h : (do
        let u ← abstractionState i
        let v ← abstractionState j
        consult (implied (f u v) (g u v)) : AnalysisM Bool) a = .ok (b, a')) : a.Spares a' := by
    obtain ⟨u, a₁, hu, h₁⟩ := state_bind_ok.1 h
    obtain ⟨-, rfl⟩ := abstractionState_ok.1 hu
    obtain ⟨v, a₁, hv, h₂⟩ := state_bind_ok.1 h₁
    obtain ⟨-, rfl⟩ := abstractionState_ok.1 hv
    obtain ⟨solver, hsolver, rfl⟩ := consult_cases h₂
    obtain ⟨new, hrests, -⟩ := implied_asks _ _ a.solver b solver ha hsolver
    exact ⟨⟨new, hrests⟩, rfl, rfl⟩
  unfold covers at h
  split at h
  · exact hpure h
  · exact hpure h
  · exact hpure h
  · exact hpure h
  · split at h
    · exact hpure h
    · exact hask (fun u _ => u.abstraction) (fun _ v => v.abstraction) h
  · split at h
    · exact hpure h
    · next s _ _ =>
      exact hask (fun u _ => u.formula.and s.path.formula)
        (fun _ v => v.abstraction.indexed s.path.ssa) h
  · exact hpure h
  · exact hpure h

end Analysis

/-! ## Sessions -/

/-- A call of an operation, other than those that only look something up. -/
inductive Operation where
  | initialState (l : Location)
  | setPrecision (precision : Precision)
  | successor (precision : Precision) (s : State) (e : EdgeId)
  | successors (precision : Precision) (s : State)
  | merge (s t : State)
  | join (s t : State)
  | covers (s t : State)
  | refine (g : Graph) (path : Path)

namespace Operation

/-- The states that the operation is called with. -/
def states : Operation → List State
  | .successor _ s _ | .successors _ s => [s]
  | .merge s t | .join s t | .covers s t => [s, t]
  | .initialState _ | .setPrecision _ | .refine _ _ => []

/-- The states that the call returns. If it fails it returns none, but what it did stays done. -/
def run (p : Problem) : Operation → AnalysisM (List State)
  | .initialState l => return [← Analysis.initialState l]
  | .setPrecision precision => do
    modify fun a => { a with precision }
    return []
  | .successor precision s e => do
    match ← (Analysis.successor p precision s e).run with
    | .ok r => return r.toList
    | .error _ => return []
  | .successors precision s => do
    match ← (Analysis.successors p precision s).run with
    | .ok rs => return rs.map (·.2)
    | .error _ => return []
  | .merge s t => return [← Analysis.merge p s t]
  | .join s t => return [s.join t]
  | .covers s t => do
    let _ ← Analysis.covers p s t
    return []
  | .refine g path => do
    let _ ← (Analysis.refine p g path).run
    return []

variable {p : Problem} {a a' : Analysis}

/-- One call keeps an analysis legal and returns legal states. -/
theorem legal_run {op : Operation} (ha : a.Legal p.automaton)
    (hop : ∀ s ∈ op.states, s.Legal p.automaton a.arena) {ss : List State}
    (h : op.run p a = .ok (ss, a')) :
    a.Proceeds p.automaton a' ∧ ∀ s ∈ ss, s.Legal p.automaton a'.arena := by
  cases op with
  | initialState l =>
    obtain ⟨s, a₁, hs, h⟩ := state_bind_ok.1 h
    cases state_pure_ok.1 h
    obtain ⟨hproceeds, hlegal⟩ := Analysis.initialState_legal ha hs
    exact ⟨hproceeds, by simpa using hlegal⟩
  | setPrecision precision =>
    obtain ⟨_, a₁, hmod, h⟩ := state_bind_ok.1 h
    cases state_modify_ok.1 hmod
    cases state_pure_ok.1 h
    exact ⟨⟨⟨ha.rest, ha.arena, ha.cache, ha.initial⟩, .refl _⟩, by simp⟩
  | successor precision s e =>
    obtain ⟨r, a₁, hr, h⟩ := state_bind_ok.1 h
    obtain ⟨hproceeds, hlegal⟩ := Analysis.successor_legal ha (hop s (by simp [states])) hr
    cases r with
    | ok o =>
      cases state_pure_ok.1 h
      exact ⟨hproceeds, hlegal o rfl⟩
    | error x =>
      cases state_pure_ok.1 h
      exact ⟨hproceeds, by simp⟩
  | successors precision s =>
    obtain ⟨r, a₁, hr, h⟩ := state_bind_ok.1 h
    obtain ⟨hproceeds, hlegal⟩ := Analysis.successors_legal ha (hop s (by simp [states])) hr
    cases r with
    | ok rs =>
      cases state_pure_ok.1 h
      exact ⟨hproceeds, hlegal rs rfl⟩
    | error x =>
      cases state_pure_ok.1 h
      exact ⟨hproceeds, by simp⟩
  | merge s t =>
    obtain ⟨m, a₁, hm, h⟩ := state_bind_ok.1 h
    cases state_pure_ok.1 h
    obtain ⟨hproceeds, hlegal⟩ :=
      Analysis.merge_legal ha (hop s (by simp [states])) (hop t (by simp [states])) hm
    exact ⟨hproceeds, by simpa using hlegal⟩
  | join s t =>
    cases state_pure_ok.1 h
    refine ⟨.refl ha, fun m hm => ?_⟩
    rw [List.mem_singleton.1 hm]
    unfold State.join
    split
    · exact hop _ (by simp [states])
    · exact hop _ (by simp [states])
    · trivial
  | covers s t =>
    obtain ⟨b, a₁, hb, h⟩ := state_bind_ok.1 h
    cases state_pure_ok.1 h
    exact ⟨(Analysis.covers_spares ha.rest hb).proceeds ha, by simp⟩
  | refine g path =>
    obtain ⟨r, a₁, hr, h⟩ := state_bind_ok.1 h
    cases state_pure_ok.1 h
    exact ⟨(Analysis.refine_spares ha.rest hr).proceeds ha, by simp⟩

end Operation

/-- A new analysis was used by a sequence of calls. The states given so far are those that the calls
have returned, and the two that there are without any call. -/
inductive Session (p : Problem) : List State → Analysis → Prop
  | start {a : Analysis} (h : Analysis.new p.options = .ok a) : Session p [.top, .bottom] a
  | call {given ss : List State} {a a' : Analysis} {op : Operation} (hs : Session p given a)
      (hop : ∀ s ∈ op.states, s ∈ given) (h : op.run p a = .ok (ss, a')) :
      Session p (ss ++ given) a'

/-- In a session all states are legal. -/
theorem Session.legal {p : Problem} {given : List State} {a : Analysis} (h : Session p given a) :
    a.Legal p.automaton ∧ ∀ s ∈ given, s.Legal p.automaton a.arena := by
  induction h with
  | start h =>
    refine ⟨Analysis.legal_new h, fun s hs => ?_⟩
    simp only [List.mem_cons, List.not_mem_nil, or_false] at hs
    rcases hs with rfl | rfl <;> trivial
  | call _ hop h ih =>
    obtain ⟨ha, hgiven⟩ := ih
    obtain ⟨hproceeds, hlegal⟩ := Operation.legal_run ha (fun s hs => hgiven s (hop s hs)) h
    refine ⟨hproceeds.legal, fun s hs => ?_⟩
    rcases List.mem_append.1 hs with hs | hs
    · exact hlegal s hs
    · exact (hgiven s hs).mono hproceeds.arena

namespace Session

variable {p : Problem} {given : List State} {a a' : Analysis}

/-- A successor that was computed is given from then on. -/
theorem successor (hs : Session p given a) {precision : Precision} {s : State} (hmem : s ∈ given)
    {e : EdgeId} {r : Option State}
    (h : Analysis.successor p precision s e a = .ok (.ok r, a')) :
    Session p (r.toList ++ given) a' := by
  have hrun : (Operation.successor precision s e).run p a = .ok (r.toList, a') :=
    state_bind_ok.2 ⟨.ok r, a', h, rfl⟩
  exact .call hs (by simpa [Operation.states] using hmem) hrun

/-- A new analysis and its initial state at a location. -/
def begin? (p : Problem) (l : Location) : Option (State × Analysis) :=
  (Analysis.new p.options >>= Analysis.initialState l).toOption

/-- The state that some edges lead to, one after the other. -/
def walk? (p : Problem) (precision : Precision) :
    List EdgeId → State → Analysis → Option (State × Analysis)
  | [], s, a => some (s, a)
  | e :: es, s, a => match Analysis.successor p precision s e a with
    | .ok (.ok (some t), a') => walk? p precision es t a'
    | _ => none

/-- An initial state is given in a session. -/
theorem of_begin? {l : Location} {s : State} (h : begin? p l = some (s, a)) :
    ∃ given, Session p given a ∧ s ∈ given := by
  obtain ⟨a₀, hnew, hinit⟩ := except_bind_ok.1 (except_toOption_eq_some.1 h)
  have hrun : (Operation.initialState l).run p a₀ = .ok ([s], a) :=
    state_bind_ok.2 ⟨s, a, hinit, rfl⟩
  exact ⟨_, .call (.start hnew) (by simp [Operation.states]) hrun, by simp⟩

/-- The first edge leads to a state from which the rest is walked. -/
theorem walk?_cons_eq_some {precision : Precision} {e : EdgeId} {es : List EdgeId} {s : State}
    {r : State × Analysis} (h : walk? p precision (e :: es) s a = some r) :
    ∃ t a', Analysis.successor p precision s e a = .ok (.ok (some t), a') ∧
      walk? p precision es t a' = some r := by
  unfold walk? at h
  split at h
  · next t a' hstep => exact ⟨t, a', hstep, h⟩
  · cases h

/-- The states of a walk are given in the session, and so is what was given before. -/
theorem of_walk? {precision : Precision} {es : List EdgeId} {s t : State} (hs : Session p given a)
    (hmem : s ∈ given) (h : walk? p precision es s a = some (t, a')) :
    ∃ given', Session p given' a' ∧ t ∈ given' ∧ given ⊆ given' := by
  induction es generalizing s a given with
  | nil =>
    cases h
    exact ⟨given, hs, hmem, List.Subset.refl _⟩
  | cons e es ih =>
    obtain ⟨u, a₁, hstep, hrest⟩ := walk?_cons_eq_some h
    obtain ⟨given', hs', ht, hsub⟩ := ih (hs.successor hmem hstep) (by simp) hrest
    exact ⟨given', hs', ht, fun v hv => hsub (by simp [hv])⟩

end Session

end Cegar

import Cegar.Proofs.Analysis.Sessions
import Cegar.Proofs.Lockstep

/-!
# Results that are used again

An analysis keeps how path formulas were extended and what merges were, and looks there first. An
analysis that computes everything anew does the same otherwise: called with the same operations it
gives the same replies and has the same states. Only the kept results themselves and the counters of
their use tell the two apart.

* **`Operation.replyAnew`**: the replies of an analysis that looks nothing up;
* **`Cache.Exact`**: what is kept is the result of an extension or of a merge;
* **`Analysis.Mirrors`**: two analyses of which one keeps results and the other does not;
* **`Operation.reply_inStep`**: such analyses give the same reply to a call, and stay such;
* **`Operation.replies_agree`**: with and without kept results, all replies are the same.
-/

namespace Cegar

variable {A : Automaton} {p : Problem} {α β : Type}

/-! ## Operations that do not look anything up -/

namespace Analysis

/-- Extends a path formula by an edge. -/
def extendAnew (edge : Edge) (e : EdgeId) (path : PathFormula) : TryM PathFormula :=
  ExceptT.mk (liftM (path.extend edge.source e edge.statement).run)

/-- Forms the union of two states. -/
def unionAnew (s t : Segment) : AnalysisM Inner := return Inner.merge s t

/-- `extendBlock`, with a given way to extend path formulas. -/
def extendBlockBy (extend : Edge → EdgeId → PathFormula → TryM PathFormula) (p : Problem)
    (precision : Precision) (owner : AbstractionState) (path : PathFormula) (size : Nat)
    (e : EdgeId) : TryM (Option State) := do
  let edge ← p.automaton.edge e
  let reached ← precision.policy.thresholdReached size
  let node ← p.automaton.node edge.target
  let path ← extend edge e path
  if precision.policy.abstracts node (p.automaton.isCallSite edge.target) reached then
    completeBlock p precision owner edge.target (size + 1) path
  else if ← prunes p owner (size + 1) path then return none
  else return some (.inner ⟨⟨owner.id, edge.target, size + 1, path⟩, none⟩)

/-- `successor`, with a given way to extend path formulas. -/
def successorBy (extend : Edge → EdgeId → PathFormula → TryM PathFormula) (p : Problem)
    (precision : Precision) (s : State) (e : EdgeId) : TryM (Option State) := do
  match s with
  | .top => throw .unexpectedTop
  | .bottom => return none
  | .abstraction id =>
    let owner ← abstractionState id
    extendBlockBy extend p precision owner owner.fresh 0 e
  | .inner s => extendBlockBy extend p precision (← abstractionState s.owner) s.path s.size e

/-- `successorsAlong`, with a given way to extend path formulas. -/
def successorsAlongBy (extend : Edge → EdgeId → PathFormula → TryM PathFormula) (p : Problem)
    (precision : Precision) (s : State) : List EdgeId → TryM (List (EdgeId × State))
  | [] => return []
  | e :: es => do
    let first ← successorBy extend p precision s e
    let rest ← successorsAlongBy extend p precision s es
    return first.toList.map (e, ·) ++ rest

/-- `successors`, with a given way to follow edges. -/
def successorsWith (along : List EdgeId → TryM (List (EdgeId × State))) (p : Problem) (s : State) :
    TryM (List (EdgeId × State)) := do
  match ← s.location? (← get).arena with
  | some l => along (p.automaton.leaving l)
  | none =>
    match s with
    | .bottom => return []
    | _ => throw .unexpectedTop

/-- `merge?`, with a given way to form unions. -/
def mergeBy? (unite : Segment → Segment → AnalysisM Inner) (p : Problem) (s t : State) :
    AnalysisM (Option State) := do
  match p.options.merge, s, t with
  | .join, .inner a, .inner b =>
    if a.owner ≠ b.owner || a.location ≠ b.location || a.toSegment = b.toSegment then return none
    return some (.inner (← unite a.toSegment b.toSegment))
  | _, _, _ => return none

/-- `merge`, with a given way to form unions. -/
def mergeBy (unite : Segment → Segment → AnalysisM Inner) (p : Problem) (s t : State) :
    AnalysisM State := return (← mergeBy? unite p s t).getD t

/-- The successor that is computed is the one with extensions that are kept. -/
theorem successor_eq (precision : Precision) (s : State) (e : EdgeId) :
    successor p precision s e = successorBy extendPath p precision s e := rfl

theorem successorsAlong_eq (precision : Precision) (s : State) (es : List EdgeId) :
    successorsAlong p precision s es = successorsAlongBy extendPath p precision s es := by
  induction es with
  | nil => rfl
  | cons e es ih => rw [successorsAlong, successorsAlongBy, ih, successor_eq]

theorem successors_eq (precision : Precision) (s : State) :
    successors p precision s = successorsWith (successorsAlongBy extendPath p precision s) p s := by
  rw [← funext (successorsAlong_eq precision s)]
  rfl

theorem merge_eq (s t : State) : merge p s t = mergeBy union p s t := rfl

end Analysis

/-! ## Analyses that differ in what is kept -/

/-- What is kept is the extension along an edge of the program, or the union of two states of one
block. -/
structure Cache.Exact (A : Automaton) (c : Cache) : Prop extends c.Coherent A where
  edge : ∀ e path q, c.path? e path = some q → ∃ edge, A.edges[e.idx]? = some edge
  owner : ∀ s t m, c.merge? s t = some m → s.owner = t.owner

namespace Cache.Exact

variable {c : Cache}

theorem empty : Cache.empty.Exact A :=
  ⟨.empty, fun e path q h => by simp [Cache.path?, Cache.empty] at h,
    fun s t m h => by simp [Cache.merge?, Cache.empty] at h⟩

/-- Keeping the extension along an edge. -/
theorem insertPath (h : c.Exact A) {e : EdgeId} {edge : Edge}
    (hedge : A.edges[e.idx]? = some edge) {path q : PathFormula}
    (hq : path.extend edge.source e edge.statement = .ok (.ok q)) :
    (c.insertPath e path q).Exact A := by
  refine ⟨h.toCoherent.insertPath hedge hq, fun f r t hs => ?_, h.owner⟩
  rw [path?_insertPath] at hs
  split at hs
  · next heq => exact ⟨edge, heq.1 ▸ hedge⟩
  · exact h.edge f r t hs

/-- Keeping the union of two states of one block. -/
theorem insertMerge (h : c.Exact A) {s t : Segment} (howner : s.owner = t.owner) :
    (c.insertMerge s t (Inner.merge s t)).Exact A := by
  refine ⟨h.toCoherent.insertMerge s t, h.edge, fun u v m huv => ?_⟩
  rw [merge?_insertMerge] at huv
  split at huv
  · next heq => rw [heq.1, heq.2, howner]
  · exact h.owner u v m huv

end Cache.Exact

/-- The counters without those of kept results. -/
def Statistics.work (s : Statistics) : Statistics :=
  { s with pathCacheHits := 0, merges := 0, mergeCacheHits := 0 }

/-- The first analysis keeps exact results and the second one none. Otherwise they are alike, up to
the counters of the use of kept results. -/
structure Analysis.Mirrors (A : Automaton) (a b : Analysis) : Prop where
  solver : b.solver = a.solver
  arena : b.arena = a.arena
  cache : b.cache = { Cache.empty with initial := a.cache.initial }
  statistics : b.statistics.work = a.statistics.work
  lastPath : b.lastPath = a.lastPath
  precision : b.precision = a.precision
  exact : a.cache.Exact A

/-- A new analysis keeps nothing, so it mirrors itself. -/
theorem Analysis.mirrors_new {options : Options} {a : Analysis} (h : Analysis.new options = .ok a) :
    a.Mirrors A a := by
  obtain ⟨solver, -, h⟩ := except_bind_ok.1 h
  cases h
  exact ⟨rfl, rfl, rfl, rfl, rfl, rfl, .empty⟩

/-- Two operations that give the same replies to analyses that differ in what is kept. -/
def InStep (A : Automaton) (x y : AnalysisM α) : Prop :=
  Lockstep (Analysis.Mirrors A) (Analysis.Mirrors A) x y

theorem inStep_pure (x : α) : InStep A (pure x) (pure x) := lockstep_pure x

/-- Operations that are in step one after the other. -/
theorem InStep.bind {x y : AnalysisM α} {f g : α → AnalysisM β} (h : InStep A x y)
    (hf : ∀ a, InStep A (f a) (g a)) : InStep A (x >>= f) (y >>= g) :=
  Lockstep.bind h hf

theorem InStep.map {x y : AnalysisM α} (h : InStep A x y) (f : α → β) :
    InStep A (f <$> x) (f <$> y) := by
  rw [map_eq_pure_bind, map_eq_pure_bind]
  exact h.bind fun a => inStep_pure (f a)

theorem InStep.try_bind {x y : TryM α} {f g : α → TryM β} (h : InStep A x.run y.run)
    (hf : ∀ a, InStep A (f a).run (g a).run) : InStep A (x >>= f).run (y >>= g).run :=
  Lockstep.try_bind h (fun _ _ h => h) hf

theorem InStep.try_lift {x y : AnalysisM α} (h : InStep A x y) :
    InStep A (liftM x : TryM α).run (liftM y : TryM α).run :=
  Lockstep.try_lift h

namespace Analysis

/-- The solver is the same, so it gives the same answer. -/
theorem consult_inStep (act : SolverM α) : InStep A (consult act) (consult act) := by
  intro a b h
  show Agree _ (act a.solver >>= _) (act b.solver >>= _)
  rw [h.solver]
  cases act a.solver with
  | error e => exact .abort
  | ok r => exact .ok ⟨rfl, h.arena, h.cache, h.statistics, h.lastPath, h.precision, h.exact⟩

/-- Work is counted alike. -/
theorem count_inStep {f : Statistics → Statistics} (hf : ∀ s, (f s).work = f s.work) :
    InStep A (count f) (count f) := by
  refine lockstep_modify fun a b h => ?_
  refine ⟨h.solver, h.arena, h.cache, ?_, h.lastPath, h.precision, h.exact⟩
  show (f b.statistics).work = (f a.statistics).work
  rw [hf, hf, h.statistics]

theorem abstractionState_inStep (id : AbstractionId) :
    InStep A (abstractionState id) (abstractionState id) := by
  refine lockstep_get fun a b h => ?_
  rw [h.arena]
  exact lockstep_lift _ a b h

theorem allocate_inStep (l : Location) (e : Expr) (block : PathFormula)
    (previous : Option AbstractionId) :
    InStep A (allocate l e block previous) (allocate l e block previous) := by
  intro a b h
  have hallocate : allocate l e block previous b =
      .ok (⟨a.arena.size⟩, { b with arena := (a.arena.allocate l e block previous).2 }) := by
    rw [← h.arena]
    rfl
  rw [hallocate]
  exact .ok ⟨h.solver, rfl, h.cache, h.statistics, h.lastPath, h.precision, h.exact⟩

theorem initialState_inStep (l : Location) : InStep A (initialState l) (initialState l) := by
  refine lockstep_get fun a b h => ?_
  rw [h.cache]
  dsimp only
  cases a.cache.initial[l]? with
  | some id => exact .ok h
  | none =>
    refine (Lockstep.bind (allocate_inStep _ _ _ _) fun id => Lockstep.bind ?_ fun _ =>
      lockstep_pure _) a b h
    refine lockstep_modify fun a b h => ?_
    refine ⟨h.solver, h.arena, ?_, h.statistics, h.lastPath, h.precision, ?_⟩
    · -- initial states are kept on both sides: they are not computed from anything
      rw [h.cache]
    · exact ⟨⟨h.exact.paths, h.exact.merges⟩, h.exact.edge, h.exact.owner⟩

/-! ## Successors -/

/-- What is looked up is what would be computed. -/
theorem extendPath_inStep {edge : Edge} {e : EdgeId} (hedge : A.edges[e.idx]? = some edge)
    (path : PathFormula) :
    InStep A (extendPath edge e path).run (extendAnew edge e path).run := by
  intro a b h
  have hlookup : extendPath edge e path a = _ := try_get_bind _ a
  show Agree _ (extendPath edge e path a) (extendAnew edge e path b)
  cases hpath : a.cache.path? e path with
  | some q =>
    have hanew : extendAnew edge e path b = .ok (.ok q, b) :=
      state_lift_ok.2 ⟨h.exact.paths e path q edge hpath hedge, rfl⟩
    rw [hlookup, hpath, hanew]
    exact .ok ⟨h.solver, h.arena, h.cache, h.statistics, h.lastPath, h.precision, h.exact⟩
  | none =>
    -- computed on both sides, and kept on one of them unless it is an error
    rw [hlookup, hpath]
    unfold extendAnew
    cases hq : (path.extend edge.source e edge.statement).run with
    | error x => exact .abort
    | ok r =>
      cases r with
      | error x => exact .ok h
      | ok q =>
        exact .ok ⟨h.solver, h.arena, h.cache, h.statistics, h.lastPath, h.precision,
          h.exact.insertPath hedge hq⟩

/-- Whether a block is pruned does not depend on what is kept. -/
theorem prunes_inStep (owner : AbstractionState) (size : Nat) (path : PathFormula) :
    InStep A (prunes p owner size path) (prunes p owner size path) := by
  unfold prunes
  split
  · exact inStep_pure _
  · refine (count_inStep (by intro _; rfl)).bind fun _ => (consult_inStep _).bind fun infeasible => ?_
    cases infeasible with
    | true => exact (count_inStep (by intro _; rfl)).bind fun _ => inStep_pure _
    | false => exact inStep_pure _

/-- How a block is completed does not depend on what is kept. -/
theorem completeBlock_inStep (precision : Precision) (owner : AbstractionState) (l : Location)
    (size : Nat) (path : PathFormula) :
    InStep A (completeBlock p precision owner l size path)
      (completeBlock p precision owner l size path) := by
  refine (consult_inStep _).bind fun abstraction => (count_inStep (by intro _; rfl)).bind fun _ => ?_
  split
  · exact (count_inStep (by intro _; rfl)).bind fun _ => inStep_pure _
  · exact (allocate_inStep _ _ _ _).bind fun _ => inStep_pure _

/-- Extending a block by an extension that was kept gives what extending it anew gives. -/
theorem extendBlock_inStep (precision : Precision) (owner : AbstractionState) (path : PathFormula)
    (size : Nat) (e : EdgeId) :
    InStep p.automaton (extendBlockBy extendPath p precision owner path size e).run
      (extendBlockBy extendAnew p precision owner path size e).run := by
  refine Lockstep.try_lift_bind fun edge hedge => Lockstep.try_lift_bind fun reached _ =>
    Lockstep.try_lift_bind fun node _ => ?_
  refine InStep.try_bind (extendPath_inStep (Automaton.edge_eq_ok.1 hedge) path) fun q => ?_
  split
  · exact (completeBlock_inStep _ _ _ _ _).try_lift
  · refine InStep.try_bind (prunes_inStep _ _ _).try_lift fun pruned => ?_
    cases pruned with
    | true => exact inStep_pure _
    | false => exact inStep_pure _

/-- A successor is the same, whether extensions are kept or not. -/
theorem successor_inStep (precision : Precision) (s : State) (e : EdgeId) :
    InStep p.automaton (successorBy extendPath p precision s e).run
      (successorBy extendAnew p precision s e).run := by
  cases s with
  | top => exact inStep_pure _
  | bottom => exact inStep_pure _
  | abstraction id =>
    exact InStep.try_bind (abstractionState_inStep id).try_lift fun owner =>
      extendBlock_inStep _ _ _ _ _
  | inner s =>
    exact InStep.try_bind (abstractionState_inStep s.owner).try_lift fun owner =>
      extendBlock_inStep _ _ _ _ _

/-- Successors along several edges are the same. -/
theorem successorsAlong_inStep (precision : Precision) (s : State) (es : List EdgeId) :
    InStep p.automaton (successorsAlongBy extendPath p precision s es).run
      (successorsAlongBy extendAnew p precision s es).run := by
  induction es with
  | nil => exact inStep_pure _
  | cons e es ih =>
    exact InStep.try_bind (successor_inStep _ _ _) fun first => InStep.try_bind ih fun rest =>
      inStep_pure _

/-- All successors are the same. -/
theorem successors_inStep (precision : Precision) (s : State) :
    InStep p.automaton (successorsWith (successorsAlongBy extendPath p precision s) p s).run
      (successorsWith (successorsAlongBy extendAnew p precision s) p s).run := by
  refine lockstep_try_get fun a b h => ?_
  rw [h.arena]
  refine Lockstep.try_lift_bind (fun l? _ => ?_) a b h
  cases l? with
  | some l => exact successorsAlong_inStep precision s (p.automaton.leaving l)
  | none => cases s <;> exact inStep_pure _

/-! ## Merging and coverage -/

/-- What is looked up is what would be formed. -/
theorem union_inStep {s t : Segment} (howner : s.owner = t.owner) :
    InStep A (union s t) (unionAnew s t) := by
  refine fun a b h => ?_
  have hlookup : union s t a = _ := state_get_bind _ a
  show Agree _ (union s t a) (.ok (Inner.merge s t, b))
  cases hmerge : a.cache.merge? s t with
  | some m =>
    obtain rfl := h.exact.merges s t m hmerge
    rw [hlookup, hmerge]
    exact .ok ⟨h.solver, h.arena, h.cache, h.statistics, h.lastPath, h.precision, h.exact⟩
  | none =>
    rw [hlookup, hmerge]
    exact .ok ⟨h.solver, h.arena, h.cache, h.statistics, h.lastPath, h.precision,
      h.exact.insertMerge howner⟩

/-- A union that was kept is the one that would be formed. -/
theorem merge_inStep (s t : State) : InStep A (mergeBy union p s t) (mergeBy unionAnew p s t) := by
  refine InStep.bind ?_ fun r => inStep_pure _
  unfold mergeBy?
  split
  · next u v _ =>
    split
    · exact inStep_pure _
    · next hcond =>
      -- unions are formed, and so kept, within one block only
      simp only [Bool.or_eq_true, decide_eq_true_eq, not_or, Decidable.not_not] at hcond
      exact (union_inStep hcond.1.1).bind fun _ => inStep_pure _
  · exact inStep_pure _

/-- Coverage asks the solver and keeps nothing. -/
theorem covers_inStep (s t : State) : InStep A (covers p s t) (covers p s t) := by
  unfold covers
  split
  · exact inStep_pure _
  · exact inStep_pure _
  · exact inStep_pure _
  · exact inStep_pure _
  · refine lockstep_ite (inStep_pure _) ?_
    exact (abstractionState_inStep _).bind fun _ => (abstractionState_inStep _).bind fun _ =>
      consult_inStep _
  · refine lockstep_ite (inStep_pure _) ?_
    exact (abstractionState_inStep _).bind fun _ => (abstractionState_inStep _).bind fun _ =>
      consult_inStep _
  · exact inStep_pure _
  · exact inStep_pure _

/-! ## Refinement -/

theorem onPath_inStep (act : ExceptT PathDefect (Except Abort) α) :
    InStep A (onPath act).run (onPath act).run := by
  refine InStep.try_bind (InStep.try_lift (lockstep_lift act.run)) fun result => ?_
  cases result <;> exact inStep_pure _

/-- Looking at a path asks the solver and keeps nothing. -/
theorem analysePath_inStep (g : Graph) (path : Path) :
    InStep A (analysePath p g path).run (analysePath p g path).run := by
  refine lockstep_try_get fun a b h => ?_
  rw [h.arena]
  refine (InStep.try_bind (onPath_inStep _) fun found => ?_) a b h
  refine InStep.try_bind (consult_inStep _) fun trace => ?_
  cases trace with
  | feasible branches => exact InStep.try_bind (onPath_inStep _) fun _ => inStep_pure _
  | spurious predicates =>
    refine lockstep_try_get fun a b h => ?_
    rw [h.precision, h.lastPath]
    dsimp only
    cases Refinement.restartPoint? a.precision a.lastPath found.1
      (Refinement.suggestions found.1 predicates) with
    | none => exact .ok h
    | some root =>
      exact .ok ⟨h.solver, h.arena, h.cache, h.statistics, rfl, rfl, h.exact⟩

/-- Refinement keeps predicates and paths, but no extensions or unions. -/
theorem refine_inStep (g : Graph) (path : Path) :
    InStep A (refine p g path).run (refine p g path).run := by
  refine InStep.try_bind (analysePath_inStep g path).try_lift fun result => ?_
  refine InStep.try_bind (count_inStep (by intro _; rfl)).try_lift fun _ => ?_
  cases result with
  | error x => exact inStep_pure _
  | ok refinement =>
    cases refinement with
    | real path =>
      exact InStep.try_bind (count_inStep (by intro _; rfl)).try_lift fun _ => inStep_pure _
    | spurious precision root =>
      refine InStep.try_bind (count_inStep (by intro _; rfl)).try_lift fun _ => ?_
      refine InStep.try_bind (InStep.try_lift (lockstep_modify fun a b h => ?_)) fun _ =>
        inStep_pure _
      refine ⟨h.solver, h.arena, h.cache, h.statistics, h.lastPath, ?_, h.exact⟩
      show b.precision.join precision = a.precision.join precision
      rw [h.precision]

end Analysis

/-- A union absorbs the states that it was formed of, and no other. -/
theorem Inner.absorbs_merge {s t u : Segment} :
    (Inner.merge s t).absorbs u = true ↔ u = s ∨ u = t := by
  show (decide (s = u) || decide (t = u)) = true ↔ _
  rw [Bool.or_eq_true, decide_eq_true_eq, decide_eq_true_eq, @eq_comm _ s, @eq_comm _ t]

/-! ## Sequences of calls -/

/-- What a call returns. -/
inductive Reply where
  | done
  | state (s : State)
  | successor (r : Except Error (Option State))
  | successors (r : Except Error (List (EdgeId × State)))
  | verdict (b : Bool)
  | refinement (r : Except Error Refinement)

namespace Operation

/-- The reply to a call. -/
def reply (p : Problem) : Operation → AnalysisM Reply
  | .initialState l => .state <$> Analysis.initialState l
  | .setPrecision precision => do
    modify fun a => { a with precision }
    return .done
  | .successor precision s e => .successor <$> (Analysis.successor p precision s e).run
  | .successors precision s => .successors <$> (Analysis.successors p precision s).run
  | .merge s t => .state <$> Analysis.merge p s t
  | .join s t => return .state (s.join t)
  | .covers s t => .verdict <$> Analysis.covers p s t
  | .refine g path => .refinement <$> (Analysis.refine p g path).run

/-- The reply to a call, if path formulas are extended and unions formed anew each time. -/
def replyAnew (p : Problem) : Operation → AnalysisM Reply
  | .successor precision s e =>
    .successor <$> (Analysis.successorBy Analysis.extendAnew p precision s e).run
  | .successors precision s =>
    let along := Analysis.successorsAlongBy Analysis.extendAnew p precision s
    .successors <$> (Analysis.successorsWith along p s).run
  | .merge s t => .state <$> Analysis.mergeBy Analysis.unionAnew p s t
  | op => op.reply p

/-- Every call gets the same reply, with results kept or without. -/
theorem reply_inStep (op : Operation) : InStep p.automaton (op.reply p) (op.replyAnew p) := by
  cases op with
  | initialState l => exact (Analysis.initialState_inStep l).map _
  | setPrecision precision =>
    refine InStep.bind (lockstep_modify fun a b h => ?_) fun _ => inStep_pure _
    exact ⟨h.solver, h.arena, h.cache, h.statistics, h.lastPath, rfl, h.exact⟩
  | successor precision s e =>
    rw [reply, Analysis.successor_eq]
    exact (Analysis.successor_inStep precision s e).map _
  | successors precision s =>
    rw [reply, Analysis.successors_eq]
    exact (Analysis.successors_inStep precision s).map _
  | merge s t =>
    rw [reply, Analysis.merge_eq]
    exact (Analysis.merge_inStep s t).map _
  | join s t => exact inStep_pure _
  | covers s t => exact (Analysis.covers_inStep s t).map _
  | refine g path => exact (Analysis.refine_inStep g path).map _

/-- Any number of calls get the same replies. -/
theorem replies_inStep (ops : List Operation) :
    InStep p.automaton (ops.mapM (reply p)) (ops.mapM (replyAnew p)) := by
  induction ops with
  | nil => exact inStep_pure _
  | cons op ops ih =>
    rw [List.mapM_cons, List.mapM_cons]
    exact op.reply_inStep.bind fun r => ih.bind fun rs => inStep_pure _

/-- Whatever a new analysis is called with, with and without kept results its replies are the same,
and the two have the same states. What is kept is what would be computed. -/
theorem replies_agree {a : Analysis} (h : Analysis.new p.options = .ok a) (ops : List Operation) :
    Agree (Analysis.Mirrors p.automaton) (ops.mapM (reply p) a) (ops.mapM (replyAnew p) a) ∧
    ∀ rs a', ops.mapM (reply p) a = .ok (rs, a') →
      (∀ e path q, a'.cache.path? e path = some q → ∃ edge,
        p.automaton.edges[e.idx]? = some edge ∧
        path.extend edge.source e edge.statement = .ok (.ok q)) ∧
      ∀ s t m, a'.cache.merge? s t = some m →
        m.owner = s.owner ∧ m.owner = t.owner ∧ m.path = s.path.or t.path ∧
        m.size = max s.size t.size ∧ ∀ u, m.absorbs u = true ↔ u = s ∨ u = t := by
  have hagree := replies_inStep (p := p) ops a a (Analysis.mirrors_new h)
  refine ⟨hagree, fun rs a' hreplies => ?_⟩
  rw [hreplies] at hagree
  obtain ⟨b', -, hmirrors⟩ := hagree.of_ok
  refine ⟨fun e path q hq => ?_, fun s t m hm => ?_⟩
  · obtain ⟨edge, hedge⟩ := hmirrors.exact.edge e path q hq
    exact ⟨edge, hedge, hmirrors.exact.paths e path q edge hq hedge⟩
  · have howner := hmirrors.exact.owner s t m hm
    obtain rfl := hmirrors.exact.merges s t m hm
    exact ⟨rfl, howner, rfl, rfl, fun u => Inner.absorbs_merge⟩

/-- Two edges that lead from one location to another. -/
def fork : Problem where
  automaton := {
    nodes := #[.entryOf "main", .plain "main"]
    edges :=
      let condition : Expr := .eq varX (.num 0)
      #[⟨⟨0⟩, ⟨1⟩, .assume condition true⟩, ⟨⟨0⟩, ⟨1⟩, .assume condition false⟩]
    entry := ⟨0⟩
    joins := by decide }
  options := {}

/-- The state at the end of an edge. -/
def forkEnd (e : EdgeId) : State :=
  match fork.automaton.edges[e.idx]? with
  | none => .bottom
  | some edge =>
    match (PathFormula.empty .empty).extend edge.source e edge.statement with
    | .ok (.ok path) => .inner ⟨⟨⟨0⟩, edge.target, 1, path⟩, none⟩
    | _ => .bottom

/-- Both edges are followed twice, and the states that they lead to are merged twice. -/
def forkCalls : List Operation :=
  let precision := Precision.empty fork.options.toPolicy
  [.initialState ⟨0⟩, .successors precision (.abstraction ⟨0⟩),
    .successors precision (.abstraction ⟨0⟩), .merge (forkEnd ⟨0⟩) (forkEnd ⟨1⟩),
    .merge (forkEnd ⟨0⟩) (forkEnd ⟨1⟩)]

theorem replies_agree_fork :
    ∃ a rs a' b', Analysis.new fork.options = .ok a ∧
      forkCalls.mapM (reply fork) a = .ok (rs, a') ∧
      forkCalls.mapM (replyAnew fork) a = .ok (rs, b') ∧ b'.arena = a'.arena ∧
      a'.statistics.pathCacheHits = 2 ∧ a'.statistics.mergeCacheHits = 1 := by
  have hrun : ((Analysis.new fork.options).toOption.any fun a =>
      (forkCalls.mapM (reply fork) a).toOption.any fun r =>
        r.2.statistics.pathCacheHits = 2 && r.2.statistics.mergeCacheHits = 1) = true := by
    decide +kernel
  obtain ⟨a, hnew, hrun⟩ := (Option.any_eq_true _ _).1 hrun
  obtain ⟨⟨rs, a'⟩, hreplies, hhits⟩ := (Option.any_eq_true _ _).1 hrun
  simp only [Bool.and_eq_true, decide_eq_true_eq] at hhits
  have hnew := except_toOption_eq_some.1 hnew
  have hreplies := except_toOption_eq_some.1 hreplies
  obtain ⟨hagree, -⟩ := replies_agree hnew forkCalls
  rw [hreplies] at hagree
  obtain ⟨b', hanew, hmirrors⟩ := hagree.of_ok
  exact ⟨a, rs, a', b', hnew, hreplies, hanew, hmirrors.arena, hhits⟩

end Operation

end Cegar

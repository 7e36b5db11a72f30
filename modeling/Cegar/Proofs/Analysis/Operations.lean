import Cegar.Analysis.Coverage
import Cegar.Analysis.Refinement
import Cegar.Analysis.Successor
import Cegar.Proofs.Execution
import Cegar.Proofs.Inversion

/-!
# What the operations of an analysis do

For each operation that finished, the parts of the analysis that it changed and what its result is.
Nothing is asked of the program, the precision or the states that the operation is given, except
that what is looked up was computed before (`Cache.Coherent`).

* **`Analysis.extendBlock_cases`**: along an edge a block is extended, and then abstracted, pruned
  or carried on;
* **`Analysis.successor_cases`**: the block of an abstraction state starts anew, that of a state
  inside a block goes on;
* **`Analysis.merge?_cases`**: two different states of one block at one location are merged.
-/

namespace Cegar

/-! ## Abstraction states -/

namespace Arena

/-- Nothing in the arena changes. -/
def Extends (arena arena' : Arena) : Prop :=
  ∀ i s, arena.get? i = some s → arena'.get? i = some s

theorem Extends.refl (arena : Arena) : arena.Extends arena := fun _ _ => id

theorem Extends.trans {arena arena' arena'' : Arena} (h : arena.Extends arena')
    (h' : arena'.Extends arena'') : arena.Extends arena'' :=
  fun i s hs => h' i s (h i s hs)

/-- A state that is added gets the next number. -/
theorem get?_allocate_eq_some {arena : Arena} {l : Location} {e : Expr} {block : PathFormula}
    {previous : Option AbstractionId} {i : AbstractionId} {s : AbstractionState} :
    (arena.allocate l e block previous).2.get? i = some s ↔
      arena.get? i = some s ∨ i = ⟨arena.size⟩ ∧ s = ⟨⟨arena.size⟩, l, e, block, previous⟩ := by
  have hlt (h : arena.get? i = some s) : i.idx < arena.size :=
    (Array.getElem?_eq_some_iff.1 h).1
  show (Array.push _ _)[i.idx]? = some s ↔ _
  rw [Array.getElem?_push]
  split
  · next heq =>
    obtain rfl : i = ⟨arena.size⟩ := by cases i; exact congrArg _ heq
    constructor
    · rintro ⟨⟩
      exact .inr ⟨rfl, rfl⟩
    · rintro (h | ⟨-, rfl⟩)
      · exact absurd (hlt h) (Nat.lt_irrefl _)
      · rfl
  · next hne =>
    refine ⟨.inl, fun h => h.resolve_right fun h => hne ?_⟩
    rw [h.1]
    rfl

/-- Adding a state changes none that is there. -/
theorem extends_allocate (arena : Arena) (l : Location) (e : Expr) (block : PathFormula)
    (previous : Option AbstractionId) :
    arena.Extends (arena.allocate l e block previous).2 :=
  fun _ _ h => get?_allocate_eq_some.2 (.inl h)

/-- What holds of the states and of the one that is added. -/
theorem forall_allocate {arena : Arena} {R : AbstractionId → AbstractionState → Prop}
    (h : ∀ i s, arena.get? i = some s → R i s) {l : Location} {e : Expr} {block : PathFormula}
    {previous : Option AbstractionId}
    (hnew : R ⟨arena.size⟩ ⟨⟨arena.size⟩, l, e, block, previous⟩) :
    ∀ i s, (arena.allocate l e block previous).2.get? i = some s → R i s := by
  intro i s hi
  rcases get?_allocate_eq_some.1 hi with hi | ⟨rfl, rfl⟩
  · exact h i s hi
  · exact hnew

theorem get?_allocate_self (arena : Arena) (l : Location) (e : Expr) (block : PathFormula)
    (previous : Option AbstractionId) :
    (arena.allocate l e block previous).2.get? ⟨arena.size⟩ =
      some ⟨⟨arena.size⟩, l, e, block, previous⟩ :=
  get?_allocate_eq_some.2 (.inr ⟨rfl, rfl⟩)

end Arena

/-! ## Results to be used again -/

/-- What is kept is what would be computed anew. -/
structure Cache.Coherent (A : Automaton) (c : Cache) : Prop where
  paths : ∀ e p q edge, c.path? e p = some q → A.edges[e.idx]? = some edge →
    p.extend edge.source e edge.statement = .ok (.ok q)
  merges : ∀ s t m, c.merge? s t = some m → m = Inner.merge s t

/-- What is found after an extension was kept. -/
theorem Cache.path?_insertPath {c : Cache} {e f : EdgeId} {q r path : PathFormula} :
    (c.insertPath e path q).path? f r = if f = e ∧ r = path then some q else c.path? f r := by
  unfold Cache.path? Cache.insertPath
  by_cases hf : f = e
  · subst hf
    simp only [Std.ExtTreeMap.getElem?_insert_self, Option.bind_eq_bind, Option.bind_some, true_and,
      Std.ExtTreeMap.getElem?_insert, Std.LawfulEqOrd.compare_eq_iff_eq, eq_comm (a := path)]
    split
    · rfl
    · cases c.paths[f]? <;> simp
  · have hne : compare e f ≠ .eq := fun h => hf (Std.LawfulEqOrd.compare_eq_iff_eq.1 h).symm
    simp [Std.ExtTreeMap.getElem?_insert, hne, hf]

/-- What is found after a union was kept. -/
theorem Cache.merge?_insertMerge {c : Cache} {s t u v : Segment} {m : Inner} :
    (c.insertMerge s t m).merge? u v = if u = s ∧ v = t then some m else c.merge? u v := by
  unfold Cache.merge? Cache.insertMerge
  by_cases hu : u = s
  · subst hu
    simp only [Std.ExtTreeMap.getElem?_insert_self, Option.bind_eq_bind, Option.bind_some, true_and,
      Std.ExtTreeMap.getElem?_insert, Std.LawfulEqOrd.compare_eq_iff_eq, eq_comm (a := t)]
    split
    · rfl
    · cases c.merges[u]? <;> simp
  · have hne : compare s u ≠ .eq := fun h => hu (Std.LawfulEqOrd.compare_eq_iff_eq.1 h).symm
    simp [Std.ExtTreeMap.getElem?_insert, hne, hu]

namespace Cache.Coherent

variable {A : Automaton} {c : Cache}

theorem empty : Cache.empty.Coherent A :=
  ⟨fun e p q edge h => by simp [Cache.path?, Cache.empty] at h,
    fun s t m h => by simp [Cache.merge?, Cache.empty] at h⟩

/-- Keeping the extension along an edge of the program. -/
theorem insertPath (h : c.Coherent A) {e : EdgeId} {edge : Edge}
    (hedge : A.edges[e.idx]? = some edge) {p q : PathFormula}
    (hq : p.extend edge.source e edge.statement = .ok (.ok q)) :
    (c.insertPath e p q).Coherent A := by
  refine ⟨fun f r t edge' hs hf => ?_, h.merges⟩
  rw [path?_insertPath] at hs
  split at hs
  · next heq =>
    obtain ⟨rfl, rfl⟩ := heq
    cases hs
    cases hedge.symm.trans hf
    exact hq
  · exact h.paths f r t edge' hs hf

/-- Keeping a union. -/
theorem insertMerge (h : c.Coherent A) (s t : Segment) :
    (c.insertMerge s t (Inner.merge s t)).Coherent A := by
  refine ⟨h.paths, fun u v m huv => ?_⟩
  rw [merge?_insertMerge] at huv
  split at huv
  · next heq =>
    obtain ⟨rfl, rfl⟩ := heq
    cases huv
    rfl
  · exact h.merges u v m huv

end Cache.Coherent

namespace Analysis

variable {a a' : Analysis} {p : Problem}

/-! ## Parts of operations -/

/-- Counting concerns the statistics only. -/
theorem count_ok {f : Statistics → Statistics} {u : Unit} (h : count f a = .ok (u, a')) :
    a' = { a with statistics := f a.statistics } := by
  cases state_modify_ok.1 h
  rfl

/-- A question concerns the solver only. -/
theorem consult_cases {α : Type} {act : SolverM α} {x : α} (h : consult act a = .ok (x, a')) :
    ∃ solver, act a.solver = .ok (x, solver) ∧ a' = { a with solver := solver } := by
  obtain ⟨⟨y, solver⟩, hy, h⟩ := except_bind_ok.1 h
  cases h
  exact ⟨solver, hy, rfl⟩

theorem abstractionState_ok {id : AbstractionId} {s : AbstractionState} :
    abstractionState id a = .ok (s, a') ↔ a.arena.get? id = some s ∧ a = a' := by
  have hget (s : AbstractionState) : a.arena.get id = .ok s ↔ a.arena.get? id = some s := by
    unfold Arena.get
    split <;> simp_all
  unfold abstractionState
  rw [state_bind_ok]
  constructor
  · rintro ⟨b, a₁, hb, h⟩
    cases state_get_ok.1 hb
    obtain ⟨hs, ha⟩ := state_lift_ok.1 h
    exact ⟨(hget _).1 hs, ha⟩
  · rintro ⟨hs, ha⟩
    exact ⟨a, a, rfl, state_lift_ok.2 ⟨(hget _).2 hs, ha⟩⟩

/-- The initial state of a location is there already, or it is added and kept. -/
theorem initialState_cases {l : Location} {s : State} (h : initialState l a = .ok (s, a')) :
    (∃ id, a.cache.initial[l]? = some id ∧ s = .abstraction id ∧ a' = a) ∨
    (a.cache.initial[l]? = none ∧ s = .abstraction ⟨a.arena.size⟩ ∧ a' = { a with
      arena := (a.arena.allocate l (.bool true) (.empty .empty) none).2
      cache := { a.cache with initial := a.cache.initial.insert l ⟨a.arena.size⟩ } }) := by
  obtain ⟨b, a₁, hb, h⟩ := state_bind_ok.1 h
  cases state_get_ok.1 hb
  cases hid : a.cache.initial[l]? with
  | some id =>
    rw [hid] at h
    cases state_pure_ok.1 h
    exact .inl ⟨id, rfl, rfl, rfl⟩
  | none =>
    rw [hid] at h
    obtain ⟨id, a₁, halloc, h⟩ := state_bind_ok.1 h
    cases halloc
    obtain ⟨_, a₂, hmod, h⟩ := state_bind_ok.1 h
    cases state_modify_ok.1 hmod
    cases state_pure_ok.1 h
    exact .inr ⟨rfl, rfl, rfl⟩

/-! ## Successors -/

/-- An extension is computed or was computed before, and is kept. -/
theorem extendPath_cases (hc : a.cache.Coherent p.automaton) {edge : Edge} {e : EdgeId}
    (hedge : p.automaton.edges[e.idx]? = some edge) {path : PathFormula}
    {r : Except Error PathFormula} (h : extendPath edge e path a = .ok (r, a')) :
    path.extend edge.source e edge.statement = .ok r ∧
      ∃ cache statistics, a' = { a with cache := cache, statistics := statistics } ∧
        cache.Coherent p.automaton ∧ cache.initial = a.cache.initial := by
  obtain ⟨b, a₁, hb, h₁⟩ | ⟨x, hx, -⟩ := try_bind_ok.1 h
  · cases hb
    cases hpath : a.cache.path? e path with
    | some q =>
      rw [hpath] at h₁
      obtain ⟨_, a₂, hcount, h₂⟩ | ⟨x, hx, -⟩ := try_bind_ok.1 h₁
      · obtain ⟨_, hcount, -⟩ := try_lift_ok.1 hcount
        rw [count_ok hcount] at h₂
        cases try_pure_ok.1 h₂
        exact ⟨hc.paths e path q edge hpath hedge, a.cache, _, rfl, hc, rfl⟩
      · obtain ⟨_, -, hx⟩ := try_lift_ok.1 hx
        cases hx
    | none =>
      rw [hpath] at h₁
      obtain ⟨q, a₂, hq, h₂⟩ | ⟨x, hx, rfl⟩ := try_bind_ok.1 h₁
      · obtain ⟨hext, rfl⟩ := state_lift_ok.1 hq
        obtain ⟨_, a₃, hmod, h₃⟩ | ⟨x, hx, -⟩ := try_bind_ok.1 h₂
        · cases hmod
          cases try_pure_ok.1 h₃
          exact ⟨hext, _, a.statistics, rfl, hc.insertPath hedge hext, rfl⟩
        · cases hx
      · obtain ⟨hext, rfl⟩ := state_lift_ok.1 hx
        exact ⟨hext, a.cache, a.statistics, rfl, hc, rfl⟩
  · cases hx

/-- A block that is due for a check is put to the solver. -/
theorem prunes_cases {owner : AbstractionState} {size : Nat} {path : PathFormula} {b : Bool}
    (h : prunes p owner size path a = .ok (b, a')) :
    ∃ solver statistics, a' = { a with solver := solver, statistics := statistics } ∧
      ((b = false ∧ solver = a.solver) ∨
        blockInfeasible owner.abstraction owner.ssa path a.solver = .ok (b, solver)) := by
  unfold prunes at h
  split at h
  · cases state_pure_ok.1 h
    exact ⟨a.solver, a.statistics, rfl, .inl ⟨rfl, rfl⟩⟩
  · obtain ⟨_, a₁, hcount, h₁⟩ := state_bind_ok.1 h
    rw [count_ok hcount] at h₁
    obtain ⟨infeasible, a₂, hconsult, h₂⟩ := state_bind_ok.1 h₁
    obtain ⟨solver, hsolver, rfl⟩ := consult_cases hconsult
    cases infeasible with
    | true =>
      obtain ⟨_, a₃, hcount₃, h₃⟩ := state_bind_ok.1 h₂
      rw [count_ok hcount₃] at h₃
      cases state_pure_ok.1 h₃
      exact ⟨solver, _, rfl, .inr hsolver⟩
    | false =>
      cases state_pure_ok.1 h₂
      exact ⟨solver, _, rfl, .inr hsolver⟩

/-- What becomes of a block of `size` edges from `owner` to `l` with the path formula `q`: the
state, if there is one, the solver and the arena afterwards. -/
inductive Outcome (p : Problem) (precision : Precision) (owner : AbstractionState) (l : Location)
    (size : Nat) (q : PathFormula) (a : Analysis) : Option State → Solver → Arena → Prop
  /-- The abstraction came out false. -/
  | infeasible {solver : Solver}
      (asked : abstractBlock p.options.abstraction owner.abstraction owner.ssa q
        (precision.predicatesAt l) a.solver = .ok (.bool false, solver)) :
      Outcome p precision owner l size q a none solver a.arena
  | completed {abstraction : Expr} {solver : Solver}
      (asked : abstractBlock p.options.abstraction owner.abstraction owner.ssa q
        (precision.predicatesAt l) a.solver = .ok (abstraction, solver)) :
      Outcome p precision owner l size q a (some (.abstraction ⟨a.arena.size⟩)) solver
        (a.arena.allocate l abstraction q (some owner.id)).2
  | pruned {solver : Solver}
      (asked : blockInfeasible owner.abstraction owner.ssa q a.solver = .ok (true, solver)) :
      Outcome p precision owner l size q a none solver a.arena
  | carriedOn {solver : Solver}
      (asked : solver = a.solver ∨
        blockInfeasible owner.abstraction owner.ssa q a.solver = .ok (false, solver)) :
      Outcome p precision owner l size q a (some (.inner ⟨⟨owner.id, l, size, q⟩, none⟩)) solver
        a.arena

/-- The abstraction of a completed block comes out false, or a state is added. Besides, only the
solver and the counters change. -/
theorem completeBlock_cases {precision : Precision} {owner : AbstractionState} {l : Location}
    {size : Nat} {q : PathFormula} {r : Option State}
    (h : completeBlock p precision owner l size q a = .ok (r, a')) :
    ∃ solver arena statistics, Outcome p precision owner l size q a r solver arena ∧
      a' = { a with solver := solver, arena := arena, statistics := statistics } := by
  obtain ⟨e, a₁, hconsult, h₁⟩ := state_bind_ok.1 h
  obtain ⟨solver, hsolver, rfl⟩ := consult_cases hconsult
  obtain ⟨_, a₂, hcount, h₂⟩ := state_bind_ok.1 h₁
  rw [count_ok hcount] at h₂
  split at h₂
  · next hknown =>
    obtain ⟨_, a₃, hcount₃, h₃⟩ := state_bind_ok.1 h₂
    rw [count_ok hcount₃] at h₃
    cases state_pure_ok.1 h₃
    have he : e = .bool false := by
      cases e <;> simp_all [Expr.known]
    subst he
    exact ⟨solver, a.arena, _, .infeasible hsolver, rfl⟩
  · obtain ⟨id, a₃, hid, h₃⟩ := state_bind_ok.1 h₂
    cases hid
    cases state_pure_ok.1 h₃
    exact ⟨solver, _, _, .completed hsolver, rfl⟩

/-- One more edge: the path formula is extended, or there is an error and nothing happens. -/
theorem extendBlock_cases (hc : a.cache.Coherent p.automaton) {precision : Precision}
    {owner : AbstractionState} {path : PathFormula} {size : Nat} {e : EdgeId}
    {r : Except Error (Option State)}
    (h : extendBlock p precision owner path size e a = .ok (r, a')) :
    ∃ edge, p.automaton.edges[e.idx]? = some edge ∧
      ∃ cache statistics, cache.Coherent p.automaton ∧ cache.initial = a.cache.initial ∧
      ((∃ x, path.extend edge.source e edge.statement = .ok (.error x) ∧ r = .error x ∧
          a' = { a with cache := cache, statistics := statistics }) ∨
        ∃ q s solver arena, path.extend edge.source e edge.statement = .ok (.ok q) ∧ r = .ok s ∧
          Outcome p precision owner edge.target (size + 1) q a s solver arena ∧
          a' = { a with solver := solver, arena := arena, cache := cache,
                        statistics := statistics }) := by
  obtain ⟨edge, a₁, hlift, h₁⟩ | ⟨x, hx, -⟩ := try_bind_ok.1 h
  · obtain ⟨hfound, rfl⟩ := try_lift_except_ok.1 hlift
    have hedge := Automaton.edge_eq_ok.1 hfound
    refine ⟨edge, hedge, ?_⟩
    obtain ⟨reached, a₁, hreached, h₂⟩ | ⟨x, hx, -⟩ := try_bind_ok.1 h₁
    · obtain ⟨-, rfl⟩ := try_lift_except_ok.1 hreached
      obtain ⟨node, a₁, hnode, h₃⟩ | ⟨x, hx, -⟩ := try_bind_ok.1 h₂
      · obtain ⟨-, rfl⟩ := try_lift_except_ok.1 hnode
        obtain ⟨q, a₁, hq, h₄⟩ | ⟨x, hx, rfl⟩ := try_bind_ok.1 h₃
        · obtain ⟨hext, cache, statistics, rfl, hcache, hinitial⟩ := extendPath_cases hc hedge hq
          split at h₄
          · obtain ⟨s, hcomplete, rfl⟩ := try_lift_ok.1 h₄
            obtain ⟨solver, arena, statistics', houtcome, rfl⟩ := completeBlock_cases hcomplete
            refine ⟨cache, statistics', hcache, hinitial, .inr ⟨q, s, solver, arena, hext, rfl, ?_,
              rfl⟩⟩
            cases houtcome with
            | infeasible asked => exact .infeasible asked
            | completed asked => exact .completed asked
            | pruned asked => exact .pruned asked
            | carriedOn asked => exact .carriedOn asked
          · obtain ⟨b, a₂, hprunes, h₅⟩ | ⟨x, hx, -⟩ := try_bind_ok.1 h₄
            · obtain ⟨_, hprunes, ⟨⟩⟩ := try_lift_ok.1 hprunes
              obtain ⟨solver, statistics', rfl, hsolver⟩ := prunes_cases hprunes
              cases b with
              | true =>
                cases try_pure_ok.1 h₅
                have hasked := hsolver.resolve_left fun h => by cases h.1
                exact ⟨cache, statistics', hcache, hinitial,
                  .inr ⟨q, _, solver, a.arena, hext, rfl, .pruned hasked, rfl⟩⟩
              | false =>
                cases try_pure_ok.1 h₅
                exact ⟨cache, statistics', hcache, hinitial,
                  .inr ⟨q, _, solver, a.arena, hext, rfl, .carriedOn (hsolver.imp_left And.right),
                    rfl⟩⟩
            · obtain ⟨_, -, hx⟩ := try_lift_ok.1 hx
              cases hx
        · obtain ⟨hext, cache, statistics, rfl, hcache, hinitial⟩ := extendPath_cases hc hedge hx
          exact ⟨cache, statistics, hcache, hinitial, .inl ⟨x, hext, rfl, rfl⟩⟩
      · obtain ⟨_, -, hx⟩ := try_lift_ok.1 hx
        cases hx
    · obtain ⟨_, -, hx⟩ := try_lift_ok.1 hx
      cases hx
  · obtain ⟨_, -, hx⟩ := try_lift_ok.1 hx
    cases hx

/-- Where a successor comes from. -/
theorem successor_cases {precision : Precision} {s : State} {e : EdgeId}
    {r : Except Error (Option State)} (h : successor p precision s e a = .ok (r, a')) :
    (s = .top ∧ r = .error .unexpectedTop ∧ a' = a) ∨ (s = .bottom ∧ r = .ok none ∧ a' = a) ∨
    (∃ id owner, s = .abstraction id ∧ a.arena.get? id = some owner ∧
      extendBlock p precision owner owner.fresh 0 e a = .ok (r, a')) ∨
    ∃ t owner, s = .inner t ∧ a.arena.get? t.owner = some owner ∧
      extendBlock p precision owner t.path t.size e a = .ok (r, a') := by
  cases s with
  | top =>
    cases try_throw_ok.1 h
    exact .inl ⟨rfl, rfl, rfl⟩
  | bottom =>
    cases try_pure_ok.1 h
    exact .inr (.inl ⟨rfl, rfl, rfl⟩)
  | abstraction id =>
    obtain ⟨owner, a₁, howner, h₁⟩ | ⟨x, hx, -⟩ := try_bind_ok.1 h
    · obtain ⟨_, hlift, ⟨⟩⟩ := try_lift_ok.1 howner
      obtain ⟨hget, rfl⟩ := abstractionState_ok.1 hlift
      exact .inr (.inr (.inl ⟨id, owner, rfl, hget, h₁⟩))
    · obtain ⟨_, -, hx⟩ := try_lift_ok.1 hx
      cases hx
  | inner t =>
    obtain ⟨owner, a₁, howner, h₁⟩ | ⟨x, hx, -⟩ := try_bind_ok.1 h
    · obtain ⟨_, hlift, ⟨⟩⟩ := try_lift_ok.1 howner
      obtain ⟨hget, rfl⟩ := abstractionState_ok.1 hlift
      exact .inr (.inr (.inr ⟨t, owner, rfl, hget, h₁⟩))
    · obtain ⟨_, -, hx⟩ := try_lift_ok.1 hx
      cases hx

/-! ## Merging -/

/-- A union is the one that would be formed, also if it was formed before. -/
theorem union_cases (hc : a.cache.Coherent p.automaton) {s t : Segment} {m : Inner}
    (h : union s t a = .ok (m, a')) :
    m = Inner.merge s t ∧
      ∃ cache statistics, a' = { a with cache := cache, statistics := statistics } ∧
        cache.Coherent p.automaton ∧ cache.initial = a.cache.initial := by
  obtain ⟨b, a₁, hb, h₁⟩ := state_bind_ok.1 h
  cases state_get_ok.1 hb
  cases hcache : a.cache.merge? s t with
  | some m =>
    rw [hcache] at h₁
    obtain ⟨_, a₁, hcount, h₂⟩ := state_bind_ok.1 h₁
    rw [count_ok hcount] at h₂
    cases state_pure_ok.1 h₂
    exact ⟨hc.merges _ _ _ hcache, a.cache, _, rfl, hc, rfl⟩
  | none =>
    rw [hcache] at h₁
    obtain ⟨_, a₁, hcount, h₂⟩ := state_bind_ok.1 h₁
    rw [count_ok hcount] at h₂
    obtain ⟨_, a₂, hmod, h₃⟩ := state_bind_ok.1 h₂
    cases state_modify_ok.1 hmod
    cases state_pure_ok.1 h₃
    exact ⟨rfl, _, _, rfl, hc.insertMerge s t, rfl⟩

/-- Either nothing is merged and nothing happens, or two states of one block are. -/
theorem merge?_cases (hc : a.cache.Coherent p.automaton) {s t : State} {r : Option State}
    (h : merge? p s t a = .ok (r, a')) :
    (r = none ∧ a' = a) ∨
    ∃ u v cache statistics, s = .inner u ∧ t = .inner v ∧ u.owner = v.owner ∧
      u.location = v.location ∧ u.toSegment ≠ v.toSegment ∧
      r = some (.inner (Inner.merge u.toSegment v.toSegment)) ∧
      a' = { a with cache := cache, statistics := statistics } ∧
      cache.Coherent p.automaton ∧ cache.initial = a.cache.initial := by
  have hnothing (h : (pure none : AnalysisM (Option State)) a = .ok (r, a')) :
      r = none ∧ a' = a := by
    cases state_pure_ok.1 h
    exact ⟨rfl, rfl⟩
  cases hkind : p.options.merge with
  | sep => exact .inl (hnothing (by simpa only [merge?, hkind] using h))
  | join =>
    cases s with
    | top | bottom | abstraction =>
      exact .inl (hnothing (by simpa only [merge?, hkind] using h))
    | inner u =>
      cases t with
      | top | bottom | abstraction =>
        exact .inl (hnothing (by simpa only [merge?, hkind] using h))
      | inner v =>
        simp only [merge?, hkind] at h
        split at h
        · exact .inl (hnothing h)
        · next hcond =>
          simp only [Bool.or_eq_true, decide_eq_true_eq, not_or, Decidable.not_not] at hcond
          obtain ⟨w, a₁, hw, h₁⟩ := state_bind_ok.1 h
          obtain ⟨rfl, cache, statistics, rfl, hcache, hinitial⟩ := union_cases hc hw
          cases state_pure_ok.1 h₁
          exact .inr ⟨u, v, cache, statistics, rfl, rfl, hcond.1.1, hcond.1.2, hcond.2, rfl, rfl,
            hcache, hinitial⟩

end Analysis

end Cegar

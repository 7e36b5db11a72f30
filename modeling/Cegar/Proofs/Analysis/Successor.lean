import Cegar.Proofs.Analysis.States

/-!
# Successors lose no store

A store that an edge leads to from a store of a state is a store of the successor, if the answers of
the solver are correct. A successor is left out only if there is no such store.

* **`Analysis.extendBlock_ok`**: one more edge of a block, which may complete it;
* **`Analysis.successor_ok`**: the successor of a state along an edge;
* **`Analysis.successors_ok`**: all successors of a state.
-/

namespace Cegar

variable {A : Automaton}

theorem Precision.Valid.wellSorted {precision : Precision} (h : precision.Valid A) (l : Location) :
    ∀ q ∈ precision.predicatesAt l, q.expr.WellSorted :=
  fun q hq => (h l q (Std.ExtTreeSet.mem_toList.1 hq)).sorted

namespace Analysis

variable {a a' : Analysis} {p : Problem}

/-! ## One edge -/

/-- The state that a block leads to is valid. -/
theorem Outcome.valid (ha : a.Valid p.automaton) {precision : Precision}
    (hprecision : precision.Valid p.automaton) {owner : AbstractionState}
    (howner : a.arena.get? owner.id = some owner) {l : Location} {size : Nat} {q : PathFormula}
    (hq : q.Describes p.automaton owner.location owner.ssa l) {r : Option State} {solver : Solver}
    {arena : Arena} (h : Outcome p precision owner l size q a r solver arena) :
    arena.Valid p.automaton ∧ a.arena.Extends arena ∧
      ∀ s, r = some s → s.Valid p.automaton arena l := by
  rcases h.arena_cases ha.rest with ⟨rfl, hr⟩ | ⟨e, hmade, rfl, rfl⟩
  · refine ⟨ha.arena, .refl _, fun s hs => ?_⟩
    rw [hr s hs]
    exact ⟨⟨⟨owner, howner, hq⟩, fun _ _ hin => by cases hin⟩, rfl⟩
  · have he : e.IsFormula (· ∈ p.automaton.vars) := hmade _ (Expr.IsFormula.closed _) fun d hd =>
      hprecision l d (Std.ExtTreeSet.mem_toList.1 hd)
    have hvalid : (⟨⟨a.arena.size⟩, l, e, q, some owner.id⟩ : AbstractionState).Valid p.automaton
        a.arena := by
      refine ⟨he, (fun hn => by cases hn), fun i hi => ?_⟩
      cases hi
      exact ⟨owner, howner, hq⟩
    refine ⟨ha.arena.allocate hvalid, a.arena.extends_allocate _ _ _ _, fun s hs => ?_⟩
    cases hs
    exact ⟨_, Arena.get?_allocate_self _ _ _ _ _, rfl⟩

/-- One more edge of a block. -/
theorem extendBlock_ok (hA : p.automaton.WellFormed) (ha : a.Valid p.automaton)
    {precision : Precision} (hprecision : precision.Valid p.automaton) {owner : AbstractionState}
    (howner : a.arena.get? owner.id = some owner) {l : Location} {size : Nat} {path : PathFormula}
    (hpath : path.Describes p.automaton owner.location owner.ssa l) {e : EdgeId} {edge : Edge}
    (hedge : p.automaton.edges[e.idx]? = some edge) (hl : edge.source = l) {r : Option State}
    (h : extendBlock p precision owner path size e a = .ok (.ok r, a')) :
    a.Advances p.automaton a' ∧ (∀ s, r = some s → s.Valid p.automaton a'.arena edge.target) ∧
      (a'.Truthful → ∀ σ σ', owner.Reaches (· ∈ p.automaton.vars) path σ →
        edge.statement.Step σ σ' → ∃ s, r = some s ∧ s.StandsFor p.automaton a'.arena σ') := by
  obtain ⟨edge', hedge', cache, statistics, hcache, hinitial, hcases⟩ :=
    extendBlock_cases ha.cache.toCoherent h
  cases hedge.symm.trans hedge'
  obtain ⟨x, -, hx, -⟩ | ⟨q, s, solver, arena, hextend, ⟨⟩, houtcome, rfl⟩ := hcases
  · cases hx
  have hmem := Automaton.mem_edges_of_getElem? hedge
  have hdescribes := hpath.extend hA hmem hl hextend
  obtain ⟨new, hrests, hsound⟩ := houtcome.sound ha.rest howner
  obtain ⟨harena, hext, hvalid⟩ := houtcome.valid ha hprecision howner hdescribes
  refine ⟨.of_update ha hrests harena hext hcache hinitial, hvalid, fun ht σ σ' hσ hstep => ?_⟩
  have hreaches : owner.Reaches (· ∈ p.automaton.vars) q σ' :=
    hσ.extend hA.vocabulary.toPlain ((ha.arena.state _ _ howner).unindexed hA) hpath.le
      hpath.overVars.seen hpath.overVars.sorted (hA.overVars hmem) hextend hstep
  have hnew : Cegar.Truthful new := by
    rw [Truthful, hrests.transcript] at ht
    exact ht.of_append.1
  obtain ⟨s, rfl, hs⟩ := hsound hnew (hprecision.wellSorted edge.target) _ σ' hreaches
  exact ⟨s, rfl, ((hvalid s rfl).denotes_iff hA harena).1 hs⟩

/-! ## All edges -/

/-- What a computation of successors along an edge has to give: valid states at its target that
stand for all stores it leads to. -/
def Carries (A : Automaton) (arena arena' : Arena) (s : State) (edge : Edge) (rs : List State) :
    Prop :=
  ∀ σ σ', s.StandsFor A arena σ → edge.statement.Step σ σ' → ∃ r ∈ rs, r.StandsFor A arena' σ'

/-- The successor of a state along an edge that leaves its location. -/
theorem successor_ok (hA : p.automaton.WellFormed) (ha : a.Valid p.automaton)
    {precision : Precision} (hprecision : precision.Valid p.automaton) {s : State} {l : Location}
    (hs : s.Valid p.automaton a.arena l) {e : EdgeId} {edge : Edge}
    (hedge : p.automaton.edges[e.idx]? = some edge) (hl : edge.source = l) {r : Option State}
    (h : successor p precision s e a = .ok (.ok r, a')) :
    a.Advances p.automaton a' ∧ (∀ t ∈ r.toList, t.Valid p.automaton a'.arena edge.target) ∧
      (a'.Truthful → Carries p.automaton a.arena a'.arena s edge r.toList) := by
  obtain ⟨rfl, -⟩ | ⟨rfl, -⟩ | ⟨id, owner, rfl, hget, h⟩ | ⟨t, owner, rfl, hget, h⟩ :=
    successor_cases h
  · cases hs
  · cases hs
  · have howner : a.arena.get? owner.id = some owner := by rwa [ha.arena.id id owner hget]
    obtain ⟨owner', hget', hl'⟩ := hs
    cases hget.symm.trans hget'
    obtain ⟨hadv, hvalid, hsound⟩ := extendBlock_ok hA ha hprecision howner
      (.empty (ha.arena.state _ _ hget).overVars.ssa) hedge (hl.trans hl'.symm) h
    refine ⟨hadv, fun t ht => hvalid t (Option.mem_toList.1 ht), fun htr σ σ' hσ hstep => ?_⟩
    have hs : State.Valid p.automaton a.arena l (.abstraction id) := ⟨owner, hget, hl'⟩
    obtain ⟨owner', hget', hreaches⟩ := (hs.denotes_iff hA ha.arena).2 hσ
    cases hget.symm.trans hget'
    obtain ⟨t, rfl, ht⟩ := hsound htr σ σ' (AbstractionState.reaches_fresh.2 hreaches) hstep
    exact ⟨t, by simp, ht⟩
  · have howner : a.arena.get? owner.id = some owner := by rwa [ha.arena.id t.owner owner hget]
    obtain ⟨owner', hget', hdescribes⟩ := hs.1.segment
    cases hget.symm.trans hget'
    obtain ⟨hadv, hvalid, hsound⟩ := extendBlock_ok hA ha hprecision howner hdescribes hedge
      (hl.trans hs.2.symm) h
    refine ⟨hadv, fun t ht => hvalid t (Option.mem_toList.1 ht), fun htr σ σ' hσ hstep => ?_⟩
    obtain ⟨owner', hget', hreaches⟩ := (hs.denotes_iff hA ha.arena).2 hσ
    cases hget.symm.trans hget'
    obtain ⟨t, rfl, ht⟩ := hsound htr σ σ' hreaches hstep
    exact ⟨t, by simp, ht⟩

/-- Successors along several edges are valid at the targets, and stand for all stores that the edges
lead to. -/
theorem successorsAlong_ok (hA : p.automaton.WellFormed) (ha : a.Valid p.automaton)
    {precision : Precision} (hprecision : precision.Valid p.automaton) {s : State} {l : Location}
    (hs : s.Valid p.automaton a.arena l) {es : List EdgeId}
    (hes : ∀ e ∈ es, ∃ edge, p.automaton.edges[e.idx]? = some edge ∧ edge.source = l)
    {rs : List (EdgeId × State)} (h : successorsAlong p precision s es a = .ok (.ok rs, a')) :
    a.Advances p.automaton a' ∧
      (∀ e t, (e, t) ∈ rs → ∃ edge, p.automaton.edges[e.idx]? = some edge ∧
        t.Valid p.automaton a'.arena edge.target) ∧
      (a'.Truthful → ∀ e ∈ es, ∀ edge, p.automaton.edges[e.idx]? = some edge →
        ∀ σ σ', s.StandsFor p.automaton a.arena σ → edge.statement.Step σ σ' →
          ∃ t, (e, t) ∈ rs ∧ t.Valid p.automaton a'.arena edge.target ∧
            t.StandsFor p.automaton a'.arena σ') := by
  -- induction on the edges; what is right about the later ones is so in the last arena
  induction es generalizing a rs with
  | nil =>
    cases try_pure_ok.1 h
    exact ⟨.refl ha, by simp, by simp⟩
  | cons e es ih =>
    obtain ⟨first, a₁, hfirst, h₁⟩ := try_bind_ok_ok.1 h
    obtain ⟨rest, a₂, hrest, h₂⟩ := try_bind_ok_ok.1 h₁
    cases try_pure_ok.1 h₂
    obtain ⟨edge, hedge, hl⟩ := hes e (by simp)
    obtain ⟨hadv₁, hvalid₁, hsound₁⟩ := successor_ok hA ha hprecision hs hedge hl hfirst
    obtain ⟨hadv₂, hvalid₂, hsound₂⟩ := ih hadv₁.valid (hs.mono hadv₁.arena)
      (fun d hd => hes d (by simp [hd])) hrest
    refine ⟨hadv₁.trans hadv₂, fun d t ht => ?_, fun htr d hd edge' hedge' σ σ' hσ hstep => ?_⟩
    · rcases List.mem_append.1 ht with ht | ht
      · obtain ⟨u, hu, heq⟩ := List.mem_map.1 ht
        cases heq
        exact ⟨edge, hedge, (hvalid₁ t hu).mono hadv₂.arena⟩
      · exact hvalid₂ d t ht
    · rcases List.mem_cons.1 hd with rfl | hd
      · cases hedge.symm.trans hedge'
        obtain ⟨t, ht, hσ'⟩ := hsound₁ (hadv₂.truthful htr) σ σ' hσ hstep
        have hmem : (d, t) ∈ first.toList.map (d, ·) ++ rest :=
          List.mem_append_left _ (List.mem_map.2 ⟨t, ht, rfl⟩)
        exact ⟨t, hmem, (hvalid₁ t ht).mono hadv₂.arena, hσ'.mono hadv₂.arena⟩
      · obtain ⟨t, ht, hrest⟩ := hsound₂ htr d hd edge' hedge' σ σ' (hσ.mono hadv₁.arena) hstep
        exact ⟨t, List.mem_append_right _ ht, hrest⟩

/-- A valid state is where it is said to be. -/
theorem location?_ok {arena : Arena} {s : State} {l : Location} (hs : s.Valid A arena l)
    {r : Option Location} (h : s.location? arena = .ok r) : r = some l := by
  cases s with
  | top | bottom => cases hs
  | abstraction id =>
    obtain ⟨t, ht, rfl⟩ := hs
    have hget : arena.get id = .ok t := by simp [Arena.get, ht]
    obtain ⟨u, hu, h⟩ := except_bind_ok.1 h
    cases hget.symm.trans hu
    cases h
    rfl
  | inner s =>
    cases h
    rw [hs.2]

/-- The successors of a state along all edges that leave its location. -/
theorem successors_ok (hA : p.automaton.WellFormed) (ha : a.Valid p.automaton)
    {precision : Precision} (hprecision : precision.Valid p.automaton) {s : State} {l : Location}
    (hs : s.Valid p.automaton a.arena l) {rs : List (EdgeId × State)}
    (h : successors p precision s a = .ok (.ok rs, a')) :
    a.Advances p.automaton a' ∧
      (∀ e t, (e, t) ∈ rs → ∃ edge, p.automaton.edges[e.idx]? = some edge ∧
        t.Valid p.automaton a'.arena edge.target) ∧
      (a'.Truthful → ∀ edge ∈ p.automaton.edges, edge.source = l →
        ∀ σ σ', s.StandsFor p.automaton a.arena σ → edge.statement.Step σ σ' →
          ∃ e t, (e, t) ∈ rs ∧ t.Valid p.automaton a'.arena edge.target ∧
            t.StandsFor p.automaton a'.arena σ') := by
  obtain ⟨b, a₁, hb, h₁⟩ := try_bind_ok_ok.1 h
  cases hb
  obtain ⟨r, a₁, hr, h₂⟩ := try_bind_ok_ok.1 h₁
  obtain ⟨hloc, rfl⟩ := try_lift_except_ok.1 hr
  cases location?_ok hs hloc
  obtain ⟨hadv, hvalid, hsound⟩ := successorsAlong_ok hA ha hprecision hs
    (fun e he => Automaton.mem_leaving.1 he) h₂
  refine ⟨hadv, hvalid, fun htr edge hedge hl σ σ' hσ hstep => ?_⟩
  obtain ⟨i, hi⟩ := Array.mem_iff_getElem?.1 hedge
  have he : (⟨i⟩ : EdgeId) ∈ p.automaton.leaving l := Automaton.mem_leaving.2 ⟨edge, hi, hl⟩
  obtain ⟨t, ht, hrest⟩ := hsound htr ⟨i⟩ he edge hi σ σ' hσ hstep
  exact ⟨⟨i⟩, t, ht, hrest⟩

end Analysis

end Cegar

import Mathlib.Data.List.Basic
import Cegar.Proofs.Analysis.Stalls
import Cegar.Proofs.Cuts
import Cegar.Proofs.Exploration.Rehearsal
import Cegar.Proofs.Exploration.Routes
import Cegar.Proofs.Verification

/-!
# Progress of refinement

A spurious path is ruled out by the refined precision if the predicates at its cuts work together:
what they tell about one block has to be enough for the next one. With a single cut inside the path
that is always so.

* **`Analysis.replay`**: takes the edges of a path once more;
* **`Analysis.replayFrom_refuted`**: a path whose blocks are refuted comes to nothing;
* **`Refinement.refutes_of_cut`**: a single cut refutes the blocks;
* **`Exploration.Reached.replay_eq_none`**: when a refinement rules out its path.
-/

namespace Cegar

variable {p : Problem} {arena : Arena} {a a' : Analysis} {precision : Precision}

namespace Analysis

/-- Takes edges one after the other, as long as there are successors. -/
def replayFrom (p : Problem) (precision : Precision) : State → List EdgeId → TryM (Option State)
  | s, [] => return some s
  | s, e :: es => do
    match ← successor p precision s e with
    | some t => replayFrom p precision t es
    | none => return none

/-- Takes edges one after the other from the initial state. -/
def replay (p : Problem) (precision : Precision) (es : List EdgeId) : TryM (Option State) := do
  replayFrom p precision (← initialState p.automaton.entry) es

/-- The first edge fails, has no successor, or leads to a state from which the rest is taken. -/
theorem replayFrom_cons_ok {s : State} {e : EdgeId} {es : List EdgeId}
    {r : Except Error (Option State)} (h : replayFrom p precision s (e :: es) a = .ok (r, a')) :
    ∃ o a₁, successor p precision s e a = .ok (o, a₁) ∧
      ((∃ x, o = .error x ∧ r = .error x ∧ a' = a₁) ∨ (o = .ok none ∧ r = .ok none ∧ a' = a₁) ∨
        ∃ t, o = .ok (some t) ∧ replayFrom p precision t es a₁ = .ok (r, a')) := by
  unfold replayFrom at h
  obtain ⟨o, a₁, hsuccessor, h⟩ | ⟨x, hx, rfl⟩ := try_bind_ok.1 h
  · refine ⟨.ok o, a₁, hsuccessor, .inr ?_⟩
    cases o with
    | none =>
      cases try_pure_ok.1 h
      exact .inl ⟨rfl, rfl, rfl⟩
    | some t => exact .inr ⟨t, rfl, h⟩
  · exact ⟨.error x, a', hx, .inl ⟨x, rfl, rfl, rfl⟩⟩

/-- Taking edges leaves the solver with nothing asserted, and what it was asked is new in the
transcript. -/
theorem replayFrom_rests (hrest : a.solver.scopes = [[]]) (hc : a.cache.Coherent p.automaton)
    {s : State} {es : List EdgeId} {r : Except Error (Option State)}
    (h : replayFrom p precision s es a = .ok (r, a')) :
    ∃ new, SolverM.Rests a.solver new a'.solver := by
  induction es generalizing s a with
  | nil =>
    cases try_pure_ok.1 h
    exact ⟨[], .refl hrest⟩
  | cons e es ih =>
    obtain ⟨o, a₁, hsuccessor, hcases⟩ := replayFrom_cons_ok h
    obtain ⟨⟨new, hrests⟩, hc₁⟩ := successor_rests hrest hc hsuccessor
    obtain ⟨x, -, -, rfl⟩ | ⟨-, -, rfl⟩ | ⟨t, -, h⟩ := hcases
    · exact ⟨new, hrests⟩
    · exact ⟨new, hrests⟩
    · obtain ⟨new', hrests'⟩ := ih hrests.scopes hc₁ h
      exact ⟨_, hrests.trans hrests'⟩

/-- The initial state is made without a question to the solver, and edges are taken from there. -/
theorem replay_ok (ha : a.Valid p.automaton) {es : List EdgeId} {r : Except Error (Option State)}
    (h : replay p precision es a = .ok (r, a')) :
    ∃ id s a₁, a₁.Valid p.automaton ∧ a₁.solver = a.solver ∧ a₁.arena.get? id = some s ∧
      s.location = p.automaton.entry ∧
      replayFrom p precision (.abstraction id) es a₁ = .ok (r, a') := by
  obtain ⟨s, a₁, hs, h⟩ | ⟨x, hx, -⟩ := try_bind_ok.1 h
  · obtain ⟨_, hs, heq⟩ := try_lift_ok.1 hs
    cases heq
    obtain ⟨hadvances, id, t, rfl, hget, hlocation, -⟩ := initialState_ok ha hs
    refine ⟨id, t, a₁, hadvances.valid, ?_, hget, hlocation, h⟩
    obtain ⟨_, -, -, rfl⟩ | ⟨-, -, rfl⟩ := initialState_cases hs <;> rfl
  · obtain ⟨_, -, heq⟩ := try_lift_ok.1 hx
    cases heq

/-- A replay leaves the solver with nothing asserted. -/
theorem replay_rests (ha : a.Valid p.automaton) {es : List EdgeId} {r : Except Error (Option State)}
    (h : replay p precision es a = .ok (r, a')) : ∃ new, SolverM.Rests a.solver new a'.solver := by
  obtain ⟨id, s, a₁, ha₁, hsolver, -, -, h⟩ := replay_ok ha h
  rw [← hsolver]
  exact replayFrom_rests ha₁.rest ha₁.cache.toCoherent h

end Analysis

/-! ## Paths that come to nothing -/

namespace Graph

variable {g : Graph} {n t : NodeId} {path : Path}

/-- A path begins with its first node. -/
theorem Route.exists_head (h : g.Route n path t) : ∃ e tail, path = ⟨n, e⟩ :: tail := by
  cases h with
  | last => exact ⟨_, _, rfl⟩
  | step => exact ⟨_, _, rfl⟩

/-- The state at the second hop, if it is inside a block, has the size of the one at the first hop
and one edge more. -/
def Counts (g : Graph) (h k : Hop) : Prop :=
  ∀ u ∈ g.nodes[h.node]?, ∀ v ∈ g.nodes[k.node]?, u.state.Counts v.state

instance (g : Graph) (h k : Hop) : Decidable (g.Counts h k) :=
  inferInstanceAs (Decidable (∀ u ∈ g.nodes[h.node]?, ∀ v ∈ g.nodes[k.node]?, _))

/-- Without merging, sizes count the edges of every path. -/
theorem Route.counts (hroute : g.Route n path t) (hunmerged : g.Unmerged p arena) :
    path.IsChain g.Counts := by
  induction hroute with
  | last => exact .singleton _
  | step hlink hrest ih =>
    obtain ⟨f, tail, rfl⟩ := hrest.exists_head
    exact .cons_cons (fun u hu v hv => (hunmerged _ hlink u v hu hv).counts) ih

end Graph

namespace Analysis

open Cegar.Graph Cegar.Refinement

variable {g : Graph} {n t : NodeId} {path : Path}

/-- Along the edges of a path whose blocks are refuted, there is no successor at some point. -/
theorem replayFrom_refuted (hA : p.automaton.WellFormed) (harena : arena.Valid p.automaton)
    (hvalid : g.Valid p.automaton arena) (hg : g.Shaped p arena)
    (hprecision : precision.Valid p.automaton) (hpolicy : precision.policy = p.options.toPolicy)
    (hroute : g.Route n path t) (hcounts : p.options.blockSize = 0 ∨ path.IsChain g.Counts)
    {u : GraphNode} (hu : g.nodes[n]? = some u) (ha : a.Valid p.automaton) {s : State}
    (hs : s.Valid p.automaton a.arena u.location)
    {owner : AbstractionState} {before : Store → Prop}
    (hrehearses : u.state.Rehearses p arena a.arena owner before s)
    {last : Option AbstractionId} {ss : List Stop}
    (hstops : stops arena g last path.tail = .ok (.ok ss))
    (hrefutes : precision.Refutes p.automaton owner.ssa before (ss.map (·.state)))
    {r : Except Error (Option State)}
    (h : replayFrom p precision s (path.filterMap (·.edge)) a = .ok (r, a')) {new : List Exchange}
    (hnew : a'.solver.transcript = new ++ a.solver.transcript) (hconclusive : Conclusive new) :
    r = .ok none := by
  induction hroute generalizing u a s owner before last ss new with
  | last =>
    cases attempt_pure_ok.1 hstops
    exact hrefutes.elim
  | @step n m t e path hlink hrest ih =>
    obtain ⟨v, hv⟩ := contains_iff.1 (hg.wellFormed.target _ hlink)
    obtain ⟨edge, hedge, hsource, htarget⟩ := (hg.leads _ hlink u v hu hv).edge
    -- what the edge of the graph stands for
    obtain ⟨w, hsucceeds, hpart⟩ := (hg.leads _ hlink u v hu hv).successor
    obtain ⟨f, tail, rfl⟩ := hrest.exists_head
    have hsize : p.options.blockSize = 0 ∨ u.state.Counts v.state :=
      hcounts.imp_right fun hchain => by
        obtain ⟨hfirst, -⟩ := List.isChain_cons_cons.1 hchain
        exact hfirst u hu v hv
    have hcounts' : p.options.blockSize = 0 ∨ (⟨m, f⟩ :: tail : Path).IsChain g.Counts :=
      hcounts.imp_right fun hchain => (List.isChain_cons_cons.1 hchain).2
    obtain ⟨o, a₁, hsuccessor, hcases⟩ := replayFrom_cons_ok h
    obtain ⟨⟨new₁, hrests⟩, hc₁⟩ := successor_rests ha.rest ha.cache.toCoherent hsuccessor
    have hstep (hconclusive₁ : Conclusive new₁) := successor_rehearses hA harena ha hprecision
      hpolicy (hvalid n u hu) hs hrehearses hsucceeds hpart hsize hsuccessor hrests.transcript
      hconclusive₁
    obtain ⟨x, rfl, rfl, rfl⟩ | ⟨rfl, rfl, rfl⟩ | ⟨t', rfl, h⟩ := hcases
    · -- the statement of the edge was no error on the path
      rw [List.append_cancel_right (hnew.symm.trans hrests.transcript)] at hconclusive
      obtain ⟨_, hok, -⟩ := hstep hconclusive
      cases hok
    · rfl
    · obtain ⟨new₂, hrests₂⟩ := replayFrom_rests hrests.scopes hc₁ h
      have hsplit : new = new₂ ++ new₁ :=
        List.append_cancel_right (hnew.symm.trans (hrests.trans hrests₂).transcript)
      obtain ⟨hconclusive₂, hconclusive₁⟩ := (hsplit ▸ hconclusive).of_append
      obtain ⟨hadvances, ht', -⟩ := successor_ok hA ha hprecision hs hedge hsource hsuccessor
      have hplace : t'.Valid p.automaton a₁.arena v.location := htarget ▸ ht' t' (by simp)
      obtain ⟨_, heq, hnext⟩ := hstep hconclusive₁
      cases heq
      -- the next node is a stop of the path, or inside a block
      obtain ⟨v', hv', hcases⟩ := stops_cons_ok hstops
      cases hv.symm.trans hv'
      obtain ⟨hinner, hnext⟩ | ⟨id, q, hid, hget, hblocked, hnext⟩ := hnext t' rfl
      · obtain ⟨_, _, _, hstate, -⟩ | ⟨-, hstops⟩ := hcases
        · rw [hstate] at hinner
          cases hinner
        · exact ih hcounts' hv hadvances.valid hplace hnext hstops hrefutes h hrests₂.transcript
            hconclusive₂
      · obtain ⟨_, q', rest, hstate, hget', -, hrest', rfl⟩ | ⟨hno, -⟩ := hcases
        · cases hid.symm.trans hstate
          cases hget.symm.trans hget'
          exact ih hcounts' hv hadvances.valid hplace hnext hrest' (hrefutes.resolve_left hblocked) h
            hrests₂.transcript hconclusive₂
        · rw [hid] at hno
          cases hno

/-- The same from the initial state. -/
theorem replay_refuted (hA : p.automaton.WellFormed) (harena : arena.Valid p.automaton)
    (hvalid : g.Valid p.automaton arena) (hg : g.Shaped p arena)
    (hprecision : precision.Valid p.automaton) (hpolicy : precision.policy = p.options.toPolicy)
    (hroot : g.root = some n) (hroute : g.Route n path t)
    (hcounts : p.options.blockSize = 0 ∨ path.IsChain g.Counts) (ha : a.Valid p.automaton)
    {ss : List Stop} (hstops : stops arena g none path = .ok (.ok ss))
    (hrefutes : precision.Refutes p.automaton .empty (fun _ => True) (ss.tail.map (·.state)))
    {r : Except Error (Option State)}
    (h : replay p precision (path.filterMap (·.edge)) a = .ok (r, a')) {new : List Exchange}
    (hnew : a'.solver.transcript = new ++ a.solver.transcript) (hconclusive : Conclusive new) :
    r = .ok none := by
  obtain ⟨id', s', a₁, ha₁, hsolver, hget', hlocation', h⟩ := replay_ok ha h
  have hs' : (State.abstraction id').Valid p.automaton a₁.arena p.automaton.entry :=
    ⟨s', hget', hlocation'⟩
  -- the path starts at an initial state as well
  obtain ⟨id, s, hn, hget, hprevious⟩ := hg.root n hroot
  have hssa : s.ssa = .empty := by
    show s.block.ssa = .empty
    rw [((harena.state id s hget).initial hprevious).2.1]
    rfl
  obtain ⟨e, tail, rfl⟩ := hroute.exists_head
  obtain ⟨u, hu, ⟨_, q, rest, hstate, hget₁, -, hrest, rfl⟩ | ⟨hinner, -⟩⟩ := stops_cons_ok hstops
  · cases hn.symm.trans hu
    cases hstate
    cases hget.symm.trans hget₁
    rw [← hsolver] at hnew
    rw [← hssa] at hrefutes
    exact replayFrom_refuted hA harena hvalid hg hprecision hpolicy hroute hcounts hn ha₁ hs'
      (State.rehearses_start hA hget hget' fun _ _ => trivial) hrest hrefutes h hnew hconclusive
  · cases hn.symm.trans hu
    cases hinner

end Analysis

/-! ## A single cut -/

/-- The block before an abstraction state of the graph grows from the state before it. -/
theorem Graph.Shaped.grown_block {g : Graph} (hg : g.Shaped p arena)
    (harena : arena.Legal p.automaton) {n : NodeId} {u : GraphNode} (hn : g.nodes[n]? = some u)
    {id : AbstractionId} (hstate : u.state = .abstraction id) {s : AbstractionState}
    (hget : arena.get? id = some s) {j : AbstractionId} (hprevious : s.previous = some j) :
    ∃ owner, arena.get? j = some owner ∧ s.block.Grown p.automaton owner.ssa := by
  obtain ⟨r, hr, -⟩ := hg.wellFormed.rooted n (contains_iff.2 ⟨u, hn⟩)
  -- the state at the root has no predecessor, so an edge leads to this node
  have hne : n ≠ r := by
    rintro rfl
    obtain ⟨id', s', hroot, hget', hnone⟩ := hg.root n hr
    cases hn.symm.trans hroot
    cases hstate
    cases hget.symm.trans hget'
    cases hprevious.symm.trans hnone
  obtain ⟨k, hk, rfl⟩ := hg.wellFormed.exists_incoming hr (contains_iff.2 ⟨u, hn⟩) hne
  obtain ⟨v, hv⟩ := contains_iff.1 (hg.wellFormed.source k hk)
  obtain ⟨t, hsucceeds, hpart⟩ := (hg.leads k hk v u hv hn).successor
  rw [hstate] at hpart
  cases hsucceeds with
  | inner => exact hpart.elim
  | abstraction hedge hblock hextend _ hget' _ hprevious' =>
    cases hpart
    cases hget.symm.trans hget'
    cases hprevious.symm.trans hprevious'
    have hlegal := hg.legal _ v hv
    generalize v.state = state at hblock hlegal
    cases hblock with
    | start howner =>
      rw [harena.id _ _ howner]
      exact ⟨_, howner, .extend .empty hedge hextend⟩
    | inside howner =>
      obtain ⟨owner', howner', hgrown⟩ := hlegal
      cases howner.symm.trans howner'
      rw [harena.id _ _ howner]
      exact ⟨_, howner, .extend hgrown hedge hextend⟩

namespace Refinement

variable {g : Graph} {path : Path}

/-- Stops are abstraction states of the graph. -/
theorem stops_placed {last : Option AbstractionId} {ss : List Stop}
    (h : stops arena g last path = .ok (.ok ss)) :
    ∀ s ∈ ss, ∃ u id, g.nodes[s.node]? = some u ∧ u.state = .abstraction id ∧
      arena.get? id = some s.state := by
  induction path generalizing last ss with
  | nil =>
    cases attempt_pure_ok.1 h
    simp
  | cons hop path ih =>
    obtain ⟨node, hnode, ⟨id, s, rest, hstate, hget, -, hrest, rfl⟩ | ⟨-, h⟩⟩ := stops_cons_ok h
    · exact List.forall_mem_cons.2 ⟨⟨node, id, hnode, hstate, hget⟩, ih hrest⟩
    · exact ih h

/-- Predicates that separate two blocks refute them. -/
theorem refutes_of_separates {A : Automaton} (hprecision : precision.Valid A)
    {s t : AbstractionState} {before after : Expr} {ps : List Predicate}
    (hbefore : ∀ V : Store, s.block.formula.Holds V → before.truth V = true)
    (hafter : ∀ V : Store, t.block.formula.Holds V → after.truth V = true)
    (hseparates : Separates s.ssa before after ps)
    (hps : ∀ q ∈ ps, precision.tracks s.location q = true) (m : SsaMap) (start : Store → Prop) :
    precision.Refutes A m start [s, t] := by
  refine .inr (.inl fun σ τ hadmits hrelates => ?_)
  obtain ⟨V, hV, hσ, -⟩ := hrelates
  have hvars (q : Predicate) (hq : q ∈ ps) : ∀ v ∈ q.expr.vars, v ∈ A.vars :=
    (hprecision s.location q (Std.ExtTreeSet.contains_iff_mem.1 (hps q hq))).vars
  have hfalse := hseparates V fun q hq b hb => ?_
  · rw [hafter V hV] at hfalse
    cases hfalse
  -- the sign that the predicate has after the first block
  rw [Expr.truth_indexed (hvars q hq) hσ]
  refine hadmits q (hps q hq) b fun σ' τ' _ hrelates => ?_
  obtain ⟨W, hW, -, hτ'⟩ := hrelates
  rw [← Expr.truth_indexed (hvars q hq) hτ']
  exact hb W (hbefore W hW)

/-- The two sides of the cut between two blocks share the latest versions only. -/
theorem sharesLatest_of_grown (hA : p.automaton.WellFormed) {s t : AbstractionState}
    (hs : s.block.Seen) (ht : t.block.Grown p.automaton s.ssa) {before after : Expr}
    (hbefore : ∀ v ∈ before.vars, v ∈ s.block.formula.vars)
    (hafter : ∀ v ∈ after.vars, v ∈ t.block.formula.vars) : SharesLatest s.ssa before after := by
  intro v hv
  obtain ⟨hv₂, hv₁, -⟩ := mem_sharedVars.1 hv
  obtain ⟨i, hi, hle⟩ := hs v (hbefore v hv₁)
  obtain ⟨j, hj, hge⟩ := ht.since hA.unindexed v (hafter v hv₂)
  cases hi.symm.trans hj
  rw [hi, UInt32.le_antisymm hle hge]
  rfl

/-- The first stop of a path is an initial state. -/
theorem stops_first (harena : arena.Valid p.automaton) {t : Stop} {ss : List Stop}
    (h : stops arena g none path = .ok (.ok (t :: ss))) : t.state.block = .empty .empty := by
  obtain ⟨id, hget⟩ := (mem_stops h t (by simp)).2
  exact ((harena.state id _ hget).initial (chained_stops harena h).1).2.1

/-- Between two stops a block has grown. -/
theorem grown_of_previous (harena : arena.Valid p.automaton) (hlegal : arena.Legal p.automaton)
    (hg : g.Shaped p arena) {last : Option AbstractionId} {ss : List Stop}
    (hstops : stops arena g last path = .ok (.ok ss)) {s t : Stop} (hs : s ∈ ss) (ht : t ∈ ss)
    (hprevious : t.state.previous = some s.state.id) :
    t.state.block.Grown p.automaton s.state.ssa := by
  obtain ⟨u, id, hu, hstate, hget⟩ := stops_placed hstops t ht
  obtain ⟨owner, howner, hgrown⟩ := hg.grown_block hlegal hu hstate hget hprevious
  obtain ⟨id', hget'⟩ := (mem_stops hstops s hs).2
  rw [harena.id id' _ hget'] at howner
  cases hget'.symm.trans howner
  exact hgrown

/-- Something is shared at a cut inside the path only, if nothing happens in the first block. -/
theorem inside_of_shared {b : PathFormula} {blocks : List PathFormula}
    (hfirst : b.formula = .bool true) {i : Nat} {v : Var}
    (h : v ∈ sharedVars (.conj (((b :: blocks).map (·.formula)).take (i + 1)))
      (.conj (((b :: blocks).map (·.formula)).drop (i + 1)))) : i ≠ 0 ∧ i < blocks.length := by
  obtain ⟨hafter, hbefore, -⟩ := mem_sharedVars.1 h
  constructor
  · rintro rfl
    obtain ⟨e, he, hv⟩ := Expr.exists_mem_vars_conj hbefore
    obtain rfl : e = .bool true := (List.mem_singleton.1 he).trans hfirst
    simp at hv
  · refine Nat.lt_of_not_le fun hle => ?_
    rw [List.drop_eq_nil_of_le (by simpa using hle)] at hafter
    obtain ⟨e, he, -⟩ := Expr.exists_mem_vars_conj hafter
    cases he

/-- If a path has a single cut inside, the predicates that are found there refute its blocks. -/
theorem refutes_of_cut (hA : p.automaton.WellFormed) (harena : arena.Valid p.automaton)
    (hlegal : arena.Legal p.automaton) (hg : g.Shaped p arena)
    (hprecision : precision.Valid p.automaton) {ss : List Stop}
    (hstops : stops arena g none path = .ok (.ok ss)) (hlength : ss.length ≤ 3) {s s' : Solver}
    (hs : s.scopes = [[]]) {pss : List (List Predicate)}
    (htrace : Trace.ofBlocks (ss.map (·.state.block)) s = .ok (.ok (.spurious pss), s'))
    {new : List Exchange} (hnew : s'.transcript = new ++ s.transcript) (htruthful : Truthful new)
    {i : Nat} {stop : Stop} {ps : List Predicate} (hstop : ss[i]? = some stop)
    (hps : pss[i]? = some ps) (hne : ps ≠ [])
    (htracks : ∀ q ∈ ps, precision.tracks stop.state.location q = true) :
    precision.Refutes p.automaton .empty (fun _ => True) (ss.tail.map (·.state)) := by
  have hover : ∀ t ∈ ss, t.state.block.Over (· ∈ p.automaton.vars) := fun t ht => by
    obtain ⟨id, hget⟩ := (mem_stops hstops t ht).2
    exact (harena.state id _ hget).overVars
  have hsorted : ∀ b ∈ ss.map (·.state.block), b.Sorted := fun b hb => by
    obtain ⟨t, ht, rfl⟩ := List.mem_map.1 hb
    exact (hover t ht).sorted
  obtain ⟨new', hrests, hcuts⟩ := Trace.spurious_separates hsorted hs htrace
  obtain rfl : new' = new := List.append_cancel_right (hrests.transcript.symm.trans hnew)
  obtain ⟨⟨v, hshared⟩, hseparates⟩ := hcuts htruthful i ps hps hne
  cases ss with
  | nil => cases hstop
  | cons s₀ ss =>
    have hfirst : s₀.state.block.formula = .bool true := by
      rw [stops_first harena hstops]
      rfl
    obtain ⟨hstart, hend⟩ := inside_of_shared hfirst hshared
    rw [List.length_map] at hend
    rw [List.length_cons] at hlength
    -- so there are three stops, and the predicates are those at the second one
    obtain ⟨s₁, s₂, rfl⟩ := List.length_eq_two.1 (show ss.length = 2 by omega)
    obtain rfl : i = 1 := by
      simp only [List.length_cons, List.length_nil] at hend
      omega
    obtain rfl : s₁ = stop := by simpa using hstop
    obtain ⟨-, -, hprevious, -⟩ := chained_stops harena hstops
    have hgrown := grown_of_previous harena hlegal hg hstops (s := s₁) (t := s₂) (by simp) (by simp)
      hprevious
    -- what comes before the cut is the first block, and what comes after it the second one
    have hbeforeVars (v : Var) (hv : v ∈ (Expr.conj [s₀.state.block.formula,
        s₁.state.block.formula]).vars) : v ∈ s₁.state.block.formula.vars := by
      obtain ⟨e, he, hv⟩ := Expr.exists_mem_vars_conj hv
      simp only [List.mem_cons, List.not_mem_nil, or_false, hfirst] at he
      rcases he with rfl | rfl
      · simp at hv
      · exact hv
    have hafterVars (v : Var) (hv : v ∈ (Expr.conj [s₂.state.block.formula]).vars) :
        v ∈ s₂.state.block.formula.vars := by
      obtain ⟨e, he, hv⟩ := Expr.exists_mem_vars_conj hv
      rwa [List.mem_singleton.1 he] at hv
    have hshares := sharesLatest_of_grown hA (hover s₁ (by simp)).seen hgrown hbeforeVars hafterVars
    refine refutes_of_separates hprecision (fun V hV => ?_) (fun V hV => ?_)
      (hseparates s₁.state.ssa hshares) htracks _ _
    · rw [Expr.holds_iff_truth (hover s₁ (by simp)).formula] at hV
      simp [hfirst, hV]
    · rw [Expr.holds_iff_truth (hover s₂ (by simp)).formula] at hV
      simp [hV]

/-- A predicate at a stop is suggested there. -/
theorem mem_suggestions {ss : List Stop} {pss : List (List Predicate)} {i : Nat} {stop : Stop}
    {ps : List Predicate} (hstop : ss[i]? = some stop) (hps : pss[i]? = some ps) {q : Predicate}
    (hq : q ∈ ps) : (stop, q) ∈ suggestions ss pss := by
  have hzip : (ss.zip pss)[i]? = some (stop, ps) := List.getElem?_zip_eq_some.2 ⟨hstop, hps⟩
  exact List.mem_flatMap.2 ⟨_, List.mem_of_getElem? hzip, List.mem_map_of_mem hq⟩

end Refinement

/-! ## Refinements -/

/-- A refinement that finds a new predicate on a path with a single cut inside refutes its
blocks. -/
theorem Analysis.refine_refutes (hA : p.automaton.WellFormed) (ha : a.Valid p.automaton)
    (hlegal : a.Legal p.automaton) {g : Graph} (hvalid : g.Valid p.automaton a.arena)
    (hg : g.Shaped p a.arena) {path : Path} {root : NodeId}
    (hrefine : Analysis.refine p g path a = .ok (.ok (.spurious precision root), a'))
    (hgain : ∃ l q, precision.tracks l q = true ∧ a.precision.tracks l q = false)
    {new : List Exchange} (hnew : a'.solver.transcript = new ++ a.solver.transcript)
    (htruthful : Cegar.Truthful new) {ss : List Refinement.Stop} {blocks : List PathFormula}
    (hsplit : Refinement.split a.arena g path = .ok (.ok (ss, blocks)))
    (hclosed : blocks.length = ss.length) (hlength : ss.length ≤ 3) :
    precision.Refutes p.automaton .empty (fun _ => True) (ss.tail.map (·.state)) := by
  obtain ⟨-, -, hsound⟩ := refine_ok ha hvalid hrefine
  obtain ⟨hprecision, -⟩ := hsound _ rfl
  obtain ⟨hstops, -, -, rest, -, -, rfl, -⟩ := Refinement.split_ok hsplit
  obtain rfl : rest = [] := by simpa using hclosed
  obtain ⟨a₁, statistics, hinspection, rfl⟩ := refine_inspection hrefine
  cases hinspection with
  | spurious hsplit' htrace =>
    cases hsplit.symm.trans hsplit'
    rw [List.append_nil] at htrace
    obtain ⟨l, q, htracks, hnot⟩ := hgain
    have hout : q ∉ a.precision.setAt l := fun hin => by
      rw [Precision.tracks_eq_true.2 hin] at hnot
      cases hnot
    obtain ⟨i, stop, ps, q, hstop, hps, hq, -⟩ :=
      Refinement.gains_iff.1 ⟨l, q, Precision.tracks_eq_true.1 htracks, hout⟩
    refine Refinement.refutes_of_cut hA ha.arena hlegal.arena hg hprecision hstops hlength ha.rest
      htrace hnew htruthful hstop hps (List.ne_nil_of_mem hq) fun q hq => ?_
    refine Precision.tracks_eq_true.2 (Precision.mem_setAt_refine.2 (.inr ?_))
    exact List.mem_map.2 ⟨_, Refinement.mem_suggestions hstop hps hq, rfl⟩

namespace Exploration

open Analysis

variable {x : Exploration}

/-- A refinement that found a new predicate rules its path out: along its edges there is no
successor at some point then. This takes conclusive answers, and predicates that refute the path
block by block, as they do if the path has a single cut inside. If states are merged, moreover
blocks have no size limit or the sizes on the path count its edges, since otherwise other states of
the path are abstracted the next time. -/
theorem Reached.replay_eq_none (hA : p.automaton.WellFormed) (hp : p.Unlooped)
    {short : NodeId → Prop} (hx : Reached p x a short) {n : NodeId} {path : Path}
    (hpath : x.graph.pathTo n = .ok path) {root : NodeId} {a₁ a₂ : Analysis}
    (hrefine : Analysis.refine p x.graph path a = .ok (.ok (.spurious precision root), a₁))
    (hgain : ∃ l q, precision.tracks l q = true ∧ a.precision.tracks l q = false)
    {r : Except Error (Option State)}
    (hreplay : replay p precision (path.filterMap (·.edge)) a₁ = .ok (r, a₂)) {new : List Exchange}
    (hnew : a₂.solver.transcript = new ++ a.solver.transcript) (hconclusive : Conclusive new)
    (hcounts : p.options.merge = .join →
      p.options.blockSize = 0 ∨ path.IsChain x.graph.Counts)
    {ss : List Refinement.Stop} {blocks : List PathFormula}
    (hsplit : Refinement.split a.arena x.graph path = .ok (.ok (ss, blocks)))
    (hcuts : (blocks.length = ss.length ∧ ss.length ≤ 3) ∨
      precision.Refutes p.automaton .empty (fun _ => True) (ss.tail.map (·.state))) :
    r = .ok none := by
  obtain ⟨ha, hvalid, -⟩ := hx.attended hA
  obtain ⟨hlegal, -, hpolicy, hshaped⟩ := hx.arises.standing hp
  obtain ⟨hadvances, -, hsound⟩ := refine_ok ha hvalid.states hrefine
  obtain ⟨hprecision, -⟩ := hsound _ rfl
  obtain ⟨top, hroot, hroute⟩ := Graph.pathTo_route hpath
  obtain ⟨hstops, -⟩ := Refinement.split_ok hsplit
  have hsizes : p.options.blockSize = 0 ∨ path.IsChain x.graph.Counts := by
    cases hmerge : p.options.merge with
    | join => exact hcounts hmerge
    | sep => exact .inr (hroute.counts (hx.arises.unmerged hmerge))
  -- first the questions of the refinement, then those of the replay
  obtain ⟨new₁, hnew₁⟩ := hadvances.transcript
  obtain ⟨new₂, hrests₂⟩ := replay_rests hadvances.valid hreplay
  have hboth : new ++ a.solver.transcript = new₂ ++ new₁ ++ a.solver.transcript := by
    rw [← hnew, hrests₂.transcript, List.append_assoc, hnew₁]
  rw [List.append_cancel_right hboth] at hconclusive
  obtain ⟨hconclusive₂, hconclusive₁⟩ := hconclusive.of_append
  have hrefutes : precision.Refutes p.automaton .empty (fun _ => True) (ss.tail.map (·.state)) := by
    obtain ⟨hclosed, hlength⟩ | hrefutes := hcuts
    · exact refine_refutes hA ha hlegal hvalid.states hshaped hrefine hgain hnew₁.symm
        hconclusive₁.truthful hsplit hclosed hlength
    · exact hrefutes
  have hpolicy' : precision.policy = p.options.toPolicy := by
    obtain ⟨ss, pss, -, -, rfl, -⟩ := refine_spurious hrefine
    exact Precision.policy_refine.trans hpolicy
  exact replay_refuted hA ha.arena hvalid.states hshaped hprecision hpolicy' hroot hroute hsizes
    hadvances.valid hstops hrefutes hreplay hrests₂.transcript hconclusive₂

/-! ## A path with one cut and a path with two -/

/-- A refinement after some steps, and what became of the edges of its path then. -/
structure Rehearsal where
  exploration : Exploration
  before : Analysis
  path : Path
  precision : Precision
  root : NodeId
  refined : Analysis
  outcome : Option State
  after : Analysis

/-- Takes some steps, refines the path to a node, and takes the edges of the path once more. -/
def rehearsal? (p : Problem) (k : Nat) (n : NodeId) : Option Rehearsal := do
  let (x, a) ← after? p k
  let path ← (x.graph.pathTo n).toOption
  match Analysis.refine p x.graph path a with
  | .ok (.ok (.spurious precision root), a₁) =>
    match replay p precision (path.filterMap (·.edge)) a₁ with
    | .ok (.ok outcome, a₂) => some ⟨x, a, path, precision, root, a₁, outcome, a₂⟩
    | _ => none
  | _ => none

/-- What a rehearsal is: a refinement that found a spurious path after some steps, and a replay
under the new precision. -/
theorem rehearsal?_eq_some (hA : p.automaton.WellFormed) {k : Nat} {n : NodeId} {r : Rehearsal}
    (h : rehearsal? p k n = some r) :
    (∃ short, Reached p r.exploration r.before short) ∧
    r.exploration.graph.pathTo n = .ok r.path ∧
    Analysis.refine p r.exploration.graph r.path r.before =
      .ok (.ok (.spurious r.precision r.root), r.refined) ∧
    replay p r.precision (r.path.filterMap (·.edge)) r.refined = .ok (.ok r.outcome, r.after) ∧
    ∃ new, r.after.solver.transcript = new ++ r.before.solver.transcript := by
  obtain ⟨⟨x, a⟩, hafter, h⟩ := Option.bind_eq_some_iff.1 h
  obtain ⟨path, hpath, h⟩ := Option.bind_eq_some_iff.1 h
  split at h
  · next precision root a₁ hrefine =>
    split at h
    · next outcome a₂ hreplay =>
      cases h
      obtain ⟨short, hx⟩ := reached_after hafter
      obtain ⟨ha, hvalid, -⟩ := hx.attended hA
      obtain ⟨hadvances, -⟩ := refine_ok ha hvalid.states hrefine
      obtain ⟨new₁, hnew₁⟩ := hadvances.transcript
      obtain ⟨new₂, hrests⟩ := replay_rests hadvances.valid hreplay
      refine ⟨⟨short, hx⟩, except_toOption_eq_some.1 hpath, hrefine, hreplay, new₂ ++ new₁, ?_⟩
      rw [hrests.transcript, ← hnew₁, List.append_assoc]
    · cases h
  · cases h

/-- The abstraction states on the path, if it ends at one. -/
def Rehearsal.stops (r : Rehearsal) : Option (List Refinement.Stop) :=
  match Refinement.split r.before.arena r.exploration.graph r.path with
  | .ok (.ok (ss, blocks)) => if blocks.length = ss.length then some ss else none
  | _ => none

/-- The stops of a rehearsal are those that its path was split at, each with a block. -/
theorem Rehearsal.stops_eq_some {r : Rehearsal} {ss : List Refinement.Stop}
    (h : r.stops = some ss) : ∃ blocks,
      Refinement.split r.before.arena r.exploration.graph r.path = .ok (.ok (ss, blocks)) ∧
      blocks.length = ss.length := by
  unfold stops at h
  split at h
  · next blocks hsplit =>
    split at h
    · next hlength =>
      cases h
      exact ⟨blocks, hsplit, hlength⟩
    · cases h
  · cases h

/-- Whether there is a new predicate at the location. -/
def Rehearsal.gainsAt (r : Rehearsal) (l : Location) : Bool :=
  (r.precision.predicatesAt l).any fun q => !r.before.precision.tracks l q

/-- A new predicate at a location is tracked after the refinement only. -/
theorem Rehearsal.gain_of_gainsAt {r : Rehearsal} {l : Location} (h : r.gainsAt l = true) :
    ∃ l q, r.precision.tracks l q = true ∧ r.before.precision.tracks l q = false := by
  obtain ⟨q, hq, hnew⟩ := List.any_eq_true.1 h
  exact ⟨l, q, Precision.tracks_eq_true.2 (Std.ExtTreeSet.mem_toList.1 hq), by simpa using hnew⟩

/-- All questions are decided, and those with the answer `unsat` are among the given ones. -/
def Rehearsal.asks (r : Rehearsal) (questions : List (List Expr)) : Bool :=
  r.after.solver.transcript.length ≤ cubeLimit &&
    r.after.solver.transcript.all fun q =>
      q.answer = .sat || q.answer = .unsat && questions.contains q.assertions

/-- If the questions that were answered with `unsat` have no model, the answers are decided and
correct. -/
theorem Rehearsal.conclusive_of_asks {r : Rehearsal} {questions : List (List Expr)}
    (h : r.asks questions = true)
    (hquestions : ∀ cs ∈ questions, ∀ m : Assignment, m.Typed → ¬ m.Models cs) :
    Conclusive r.after.solver.transcript := by
  simp only [asks, Bool.and_eq_true, decide_eq_true_eq, List.all_eq_true, Bool.or_eq_true,
    List.contains_iff_mem] at h
  obtain ⟨hlength, hanswers⟩ := h
  refine ⟨fun q hq hunsat => ?_, fun q hq => ?_, fun rs hrs _ => ?_⟩
  · obtain hsat | ⟨-, hmem⟩ := hanswers q hq
    · rw [hsat] at hunsat
      cases hunsat
    · exact hquestions _ hmem
  · obtain hsat | ⟨hunsat, -⟩ := hanswers q hq
    · rw [hsat]
      exact nofun
    · rw [hunsat]
      exact nofun
  · exact Nat.le_trans hrs.length_le hlength

/-- After the refinement of its path, the error location of `guarded` is not found again. -/
theorem replay_eq_none_guarded : ∃ (x : Exploration) (a a₁ a₂ : Analysis) (short : NodeId → Prop)
    (path : Path) (precision : Precision) (root : NodeId),
    Reached Report.guarded x a short ∧ x.graph.pathTo ⟨2⟩ = .ok path ∧
    Analysis.refine Report.guarded x.graph path a = .ok (.ok (.spurious precision root), a₁) ∧
    replay Report.guarded precision (path.filterMap (·.edge)) a₁ = .ok (.ok none, a₂) := by
  have hA : Report.guarded.automaton.WellFormed := by decide +kernel
  have hrun : ((rehearsal? Report.guarded 2 ⟨2⟩).any fun r => r.gainsAt ⟨1⟩ &&
      r.asks Report.guardedQuestions && r.stops.any (·.length = 3)) = true := by
    decide +kernel
  obtain ⟨r, hr, hrun⟩ := (Option.any_eq_true _ _).1 hrun
  simp only [Bool.and_eq_true] at hrun
  obtain ⟨⟨hgains, hasks⟩, hstops⟩ := hrun
  obtain ⟨ss, hss, hlength⟩ := (Option.any_eq_true _ _).1 hstops
  obtain ⟨blocks, hsplit, hclosed⟩ := Rehearsal.stops_eq_some hss
  obtain ⟨⟨short, hx⟩, hpath, hrefine, hreplay, new, hnew⟩ := rehearsal?_eq_some hA hr
  have hconclusive := Rehearsal.conclusive_of_asks hasks fun cs hcs m hm =>
    Report.not_models_guardedQuestions hcs hm
  rw [hnew] at hconclusive
  have hp : Report.guarded.Unlooped := nofun
  have hnone := hx.replay_eq_none hA hp hpath hrefine (Rehearsal.gain_of_gainsAt hgains) hreplay
    hnew hconclusive.of_append.1 nofun hsplit
    (.inl ⟨hclosed, Nat.le_of_eq (of_decide_eq_true hlength)⟩)
  rw [hnone] at hreplay
  exact ⟨_, _, _, _, short, r.path, r.precision, r.root, hx, hpath, hrefine, hreplay⟩

/-- The error location is behind `x = 2` and `y = 2`, but `x` and `w` are set to `1`, and `y` to
`w`. Every state is abstracted. -/
def relayed : Problem where
  automaton := {
    nodes := #[.entryOf "main", .plain "main", .plain "main", .errorOf "main"]
    edges :=
      #[⟨⟨0⟩, ⟨1⟩, .call [(varX, .num 1), (varW, .num 1)]⟩, ⟨⟨1⟩, ⟨2⟩, .assign varY varW⟩,
        ⟨⟨2⟩, ⟨3⟩, .assume (.logic .and (.eq varX (.num 2)) (.eq varY (.num 2))) true⟩]
    entry := ⟨0⟩
    joins := by decide }
  options := { blockSize := 1 }

/-- The formula that a variable is `c` after it was written. -/
def relayedValue (name : String) (c : Int128) : Expr := .eq (.var ⟨name, .int, some 1⟩) (.num c)

/-- The first edge is taken. -/
def relayedStart : Expr := .logic .and (relayedValue "x" 1) (relayedValue "w" 1)

/-- The second edge is taken. -/
def relayedCopy : Expr := .eq (.var ⟨"y", .int, some 1⟩) (.var ⟨"w", .int, some 1⟩)

/-- The third edge is taken. -/
def relayedTest : Expr :=
  .logic .and (.logic .and (relayedValue "x" 2) (relayedValue "y" 2)) (.var (Var.branch 2 1))

/-- The questions that are answered with `unsat` when the path of `relayed` is refined and taken once
more. -/
def relayedQuestions : List (List Expr) :=
  let x := relayedValue "x" 2
  let y := relayedValue "y" 2
  let both := .logic .and relayedStart relayedCopy
  let rest := .logic .and relayedCopy relayedTest
  [[.logic .and (.not x) relayedCopy, y, .not y],
    [relayedStart, x],
    [.logic .and (.not y) relayedTest],
    [.logic .and (.logic .and (.not x) (.not y)) relayedTest],
    [.logic .and (.logic .and (.logic .and (relayedValue "x" 1) (.not x)) (.not y)) relayedTest],
    [.logic .and both y],
    [.logic .and both x],
    [.logic .and both (.not (relayedValue "x" 1))],
    [.logic .and (.not x) rest],
    [.logic .and (.logic .and (relayedValue "w" 1) (.not x)) rest],
    [.logic .and (.logic .and relayedStart (.not x)) rest],
    [.logic .and relayedStart x],
    [.logic .and relayedStart (.not (relayedValue "w" 1))],
    [.logic .and relayedStart (.not (relayedValue "x" 1))],
    [.logic .and both relayedTest]]

/-- What was answered with `unsat` has no model. -/
theorem not_models_relayedQuestions {cs : List Expr} (hcs : cs ∈ relayedQuestions)
    {m : Assignment} (hm : m.Typed) : ¬ m.Models cs := by
  have hsorted : ∀ cs ∈ relayedQuestions, ∀ c ∈ cs, c.WellSorted ∧ c.ty = .bool := by
    decide +kernel
  have hformula : ∀ c ∈ cs, c.IsFormula fun _ => True :=
    fun c hc => ⟨(hsorted cs hcs c hc).1, (hsorted cs hcs c hc).2, fun _ _ => trivial⟩
  rw [Assignment.models_iff hm hformula]
  have hvalue (name : String) (c : Int128) (h : (relayedValue name c).truth (m.env hm) = true) :
      (m.env hm).val ⟨name, .int, some 1⟩ = .int c :=
    (Expr.truth_eq (l := .var ⟨name, .int, some 1⟩) (r := .num c) rfl).1 h
  -- `x` cannot have both values, and neither can `w` and its copy
  have hx : ¬ ((relayedValue "x" 1).truth (m.env hm) = true ∧
      (relayedValue "x" 2).truth (m.env hm) = true) := by
    rintro ⟨hone, htwo⟩
    cases (hvalue "x" 1 hone).symm.trans (hvalue "x" 2 htwo)
  have hy : ¬ ((relayedValue "w" 1).truth (m.env hm) = true ∧
      relayedCopy.truth (m.env hm) = true ∧ (relayedValue "y" 2).truth (m.env hm) = true) := by
    rintro ⟨hone, hcopy, htwo⟩
    have hsame := (Expr.truth_eq (l := .var ⟨"y", .int, some 1⟩) (r := .var ⟨"w", .int, some 1⟩)
      rfl).1 hcopy
    cases (hvalue "w" 1 hone).symm.trans (hsame.symm.trans (hvalue "y" 2 htwo))
  simp only [relayedQuestions, List.mem_cons, List.not_mem_nil, or_false] at hcs
  rcases hcs with rfl | rfl | rfl | rfl | rfl | rfl | rfl | rfl | rfl | rfl | rfl | rfl | rfl |
      rfl | rfl <;>
    simp [Env.Models, relayedTest, relayedStart, LogicOp.combine] <;> grind

/-- At the first cut of the path of `relayed` the predicate `x = 2` is found, at the second one
`y = 2`. What is known of `x` after the first block says nothing about `y` after the second one, so
the path is taken once more to its end. -/
theorem replay_succeeds_relayed : relayed.automaton.WellFormed ∧ relayed.Unlooped ∧
    ∃ (x : Exploration) (a a₁ a₂ : Analysis) (short : NodeId → Prop) (path : Path)
      (precision : Precision) (root : NodeId) (t : State) (new : List Exchange)
      (ss : List Refinement.Stop) (blocks : List PathFormula),
      Reached relayed x a short ∧ x.graph.pathTo ⟨3⟩ = .ok path ∧
      Analysis.refine relayed x.graph path a = .ok (.ok (.spurious precision root), a₁) ∧
      (∃ l q, precision.tracks l q = true ∧ a.precision.tracks l q = false) ∧
      path.IsChain x.graph.Counts ∧
      Refinement.split a.arena x.graph path = .ok (.ok (ss, blocks)) ∧
      blocks.length = ss.length ∧ ss.length = 4 ∧
      replay relayed precision (path.filterMap (·.edge)) a₁ = .ok (.ok (some t), a₂) ∧
      a₂.solver.transcript = new ++ a.solver.transcript ∧ Conclusive new := by
  have hA : relayed.automaton.WellFormed := by decide +kernel
  have hp : relayed.Unlooped := by
    rintro - l - ⟨edge, hedge, hsource, htarget, -⟩
    have hforward : ∀ edge ∈ relayed.automaton.edges, edge.source ≠ edge.target := by decide +kernel
    exact hforward edge hedge (hsource.trans htarget.symm)
  have hrun : ((rehearsal? relayed 3 ⟨3⟩).any fun r => r.gainsAt ⟨1⟩ &&
      r.asks relayedQuestions && r.stops.any (·.length = 4) && r.outcome.isSome &&
      decide (r.path.IsChain r.exploration.graph.Counts)) = true := by
    decide +kernel
  obtain ⟨r, hr, hrun⟩ := (Option.any_eq_true _ _).1 hrun
  simp only [Bool.and_eq_true, decide_eq_true_eq, Option.isSome_iff_exists] at hrun
  obtain ⟨⟨⟨⟨hgains, hasks⟩, hstops⟩, t, ht⟩, hcounts⟩ := hrun
  obtain ⟨ss, hss, hlength⟩ := (Option.any_eq_true _ _).1 hstops
  obtain ⟨blocks, hsplit, hclosed⟩ := Rehearsal.stops_eq_some hss
  obtain ⟨⟨short, hx⟩, hpath, hrefine, hreplay, new, hnew⟩ := rehearsal?_eq_some hA hr
  have hconclusive := Rehearsal.conclusive_of_asks hasks fun cs hcs m hm =>
    not_models_relayedQuestions hcs hm
  rw [hnew] at hconclusive
  rw [ht] at hreplay
  exact ⟨hA, hp, _, _, _, _, short, _, _, _, t, new, ss, blocks, hx, hpath, hrefine,
    Rehearsal.gain_of_gainsAt hgains, hcounts, hsplit, hclosed, of_decide_eq_true hlength, hreplay,
    hnew, hconclusive.of_append.1⟩

end Exploration

end Cegar

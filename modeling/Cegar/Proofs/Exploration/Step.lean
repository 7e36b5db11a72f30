import Cegar.Proofs.Analysis.Coverage
import Cegar.Proofs.Analysis.Successor
import Cegar.Proofs.Exploration.Evolution

/-!
# One step of exploration

A step expands the node that was taken from the waitlist: its successors are merged, covered or
added one after the other.

* **`Exploration.addSuccessors_ok`**: in the end every successor is accounted for, unless the node
  is gone or waits to be expanded again;
* **`Exploration.step_ok`**: what a step does to all nodes.
-/

namespace Cegar

namespace Exploration

variable {p : Problem} {a a' : Analysis} {x x' : Exploration} {n : NodeId} {l : Location}

/-! ## Merging -/

/-- A node keeps its location. -/
def KeepsPlaces (x x' : Exploration) : Prop :=
  ∀ (m : NodeId) (node' : GraphNode), x'.graph.nodes[m]? = some node' →
    ∃ node, x.graph.nodes[m]? = some node ∧ node.location = node'.location

theorem KeepsPlaces.refl (x : Exploration) : x.KeepsPlaces x := fun _ node h => ⟨node, h, rfl⟩

/-- The node `r` comes to stand for more, with an edge to it, and waits. -/
theorem evolves_merged {A : Automaton} {arena : Arena} (hx : x.Valid A arena) {r : NodeId}
    {node : GraphNode} {s : State} {g : Graph} {e : EdgeId} (hr : r ∈ x.waitlist)
    (hnode : x.graph.nodes[r]? = some node) (hs : s.Valid A arena node.location)
    (hsub : ∀ σ, node.state.StandsFor A arena σ → s.StandsFor A arena σ)
    (hg : g = x.graph.replace r s ∨ (x.graph.replace r s).addEdge ⟨n, r, e⟩ = .ok g) :
    Valid A arena { x with graph := g } ∧ x.Evolves A arena n { x with graph := g } ∧
      x.KeepsPlaces { x with graph := g } := by
  obtain ⟨hwf, hnodes, hlinks, hnew⟩ := Graph.addsEdge_ok (hx.graph.replace (n := r) (s := s)) hg
  -- nodes stay where they are, and only one of them has another state
  have hget : ∀ m : NodeId, g.nodes[m]? =
      if m = r then some { node with state := s } else x.graph.nodes[m]? := by
    intro m
    rw [hnodes, Graph.getElem?_replace, hnode]
    rfl
  have hplace : x.KeepsPlaces { x with graph := g } := by
    intro m node' hm
    change g.nodes[m]? = some node' at hm
    rw [hget] at hm
    split at hm
    · next heq =>
      cases hm
      exact ⟨node, heq ▸ hnode, rfl⟩
    · exact ⟨node', hm, rfl⟩
  have hstays : ∀ (m : NodeId) (v : GraphNode), x.graph.nodes[m]? = some v →
      ∃ v', g.nodes[m]? = some v' ∧ v'.location = v.location := by
    intro m v hv
    rw [hget]
    split
    · next heq =>
      cases hnode.symm.trans (heq ▸ hv)
      exact ⟨_, rfl, rfl⟩
    · exact ⟨v, hv, rfl⟩
  refine ⟨⟨hwf, fun m v hm => ?_, fun l m hm => ?_, fun c hc => ?_⟩,
    (Evolves.replace hr hnode hsub).trans (Evolves.grow hnodes hlinks hnew (fun _ h => h) rfl),
    hplace⟩
  · change g.nodes[m]? = some v at hm
    rw [hget] at hm
    split at hm
    · cases hm
      exact hs
    · exact hx.states m v hm
  · obtain ⟨v, hv, hl⟩ := hx.reached l m hm
    obtain ⟨v', hv', hl'⟩ := hstays m v hv
    exact ⟨v', hv', hl'.trans hl⟩
  · obtain ⟨v, hv⟩ := Graph.contains_iff.1 (hx.covered c hc)
    obtain ⟨v', hv', -⟩ := hstays _ v hv
    exact Graph.contains_iff.2 ⟨v', hv'⟩

/-- What is below the node `r` is removed before it comes to stand for more. -/
theorem evolves_cutBelow_merged {A : Automaton} {arena : Arena} (hx : x.Valid A arena) {r : NodeId}
    {node : GraphNode} {s : State} {g : Graph} {e : EdgeId}
    (hnode : x.graph.nodes[r]? = some node) (hleft : (x.cutBelow r).graph.contains r = true)
    (hs : s.Valid A arena node.location)
    (hsub : ∀ σ, node.state.StandsFor A arena σ → s.StandsFor A arena σ)
    (hg : g = (x.cutBelow r).graph.replace r s ∨
      ((x.cutBelow r).graph.replace r s).addEdge ⟨n, r, e⟩ = .ok g) :
    Valid A arena ({ x.cutBelow r with graph := g }.enqueue r) ∧
      x.Evolves A arena n ({ x.cutBelow r with graph := g }.enqueue r) ∧
      x.KeepsPlaces ({ x.cutBelow r with graph := g }.enqueue r) := by
  obtain ⟨hremoves, hground⟩ := removes_cutBelow hx.graph r
  have hshrinks := hremoves.shrinks
  have hwaits : r ∈ ((x.cutBelow r).enqueue r).waitlist := List.mem_append_right _ (by simp)
  -- the node waits again, so it may lose its children
  have hevolves : x.Evolves A arena n ((x.cutBelow r).enqueue r) :=
    hremoves.enqueue.evolves hground fun heq _ => heq ▸ hwaits
  obtain ⟨hvalid, hmerged, hplaces⟩ := evolves_merged (n := n) (g := g) (e := e)
    (hremoves.enqueue.valid hx) hwaits (hshrinks.kept hnode hleft) hs hsub hg
  refine ⟨hvalid, hevolves.trans hmerged, fun m v hm => ?_⟩
  obtain ⟨v', hv', hl⟩ := hplaces m v hm
  exact ⟨v', hshrinks.nodes m v' hv', hl⟩

/-- Merging a successor into a node at its location keeps the exploration valid. The successor is
accounted for, and no node moves. -/
theorem mergeInto_ok (hA : p.automaton.WellFormed) (ha : a.Valid p.automaton)
    (hx : x.Valid p.automaton a.arena) {s : State} (hs : s.Valid p.automaton a.arena l)
    {e : EdgeId} {r : NodeId}
    (hr : ∀ node, x.graph.nodes[r]? = some node → node.location = l)
    (h : x.mergeInto p n e s r a = .ok (x', a')) :
    a.Advances p.automaton a' ∧ a'.arena = a.arena ∧ x'.Valid p.automaton a.arena ∧
      x.Evolves p.automaton a.arena n x' ∧ x.KeepsPlaces x' := by
  unfold mergeInto at h
  cases hnode : x.graph.nodes[r]? with
  | none =>
    simp only [hnode] at h
    cases state_pure_ok.1 h
    exact ⟨.refl ha, rfl, hx, .refl x, .refl x⟩
  | some node =>
    simp only [hnode] at h
    obtain ⟨merged, a₁, hmerge, h₁⟩ := state_bind_ok.1 h
    have hplace := hr node hnode
    have hstate := hx.states r node hnode
    rw [hplace] at hstate
    obtain ⟨hadv, harena, hmerged⟩ := Analysis.merge?_ok hA ha hs hstate hmerge
    cases merged with
    | none =>
      cases state_pure_ok.1 h₁
      exact ⟨hadv, harena, hx, .refl x, .refl x⟩
    | some merged =>
      obtain ⟨-, hvalid, hsub⟩ := hmerged merged rfl
      rw [harena] at hvalid hsub
      dsimp only at h₁
      split at h₁
      · cases state_pure_ok.1 h₁
        exact ⟨hadv, harena, hx, .refl x, .refl x⟩
      · split at h₁
        · next hgone =>
          -- the node is below itself and went with its children
          obtain ⟨hremoves, hground⟩ := removes_cutBelow hx.graph r
          cases state_pure_ok.1 h₁
          refine ⟨hadv, harena, hremoves.valid hx, hremoves.evolves hground fun heq hc => ?_,
            fun m v hv => ⟨v, hremoves.shrinks.nodes m v hv, rfl⟩⟩
          subst heq
          simp [hc] at hgone
        · next hleft =>
          simp only [Bool.not_eq_true', Bool.not_eq_false] at hleft
          have hdone := fun g hg =>
            evolves_cutBelow_merged (n := n) (g := g) (e := e) hx hnode hleft
            (hplace ▸ hvalid) (fun σ hσ => hsub σ (.inr hσ)) hg
          split at h₁
          · obtain ⟨g, a₂, hlift, h₂⟩ := state_bind_ok.1 h₁
            obtain ⟨hg, rfl⟩ := state_lift_ok.1 hlift
            cases state_pure_ok.1 h₂
            exact ⟨hadv, harena, hdone g (.inr hg)⟩
          · cases h₁
            exact ⟨hadv, harena, hdone _ (.inl rfl)⟩

/-- Merging into a list of nodes, one after the other. No node moves, so that the others are still
at the location. -/
theorem mergeIntoAll_ok (hA : p.automaton.WellFormed) (ha : a.Valid p.automaton)
    (hx : x.Valid p.automaton a.arena) {s : State} (hs : s.Valid p.automaton a.arena l)
    {e : EdgeId} {rs : List NodeId}
    (hrs : ∀ r ∈ rs, ∀ node, x.graph.nodes[r]? = some node → node.location = l)
    (h : mergeIntoAll p n e s rs x a = .ok (x', a')) :
    a.Advances p.automaton a' ∧ a'.arena = a.arena ∧ x'.Valid p.automaton a.arena ∧
      x.Evolves p.automaton a.arena n x' := by
  induction rs generalizing x a with
  | nil =>
    cases state_pure_ok.1 h
    exact ⟨.refl ha, rfl, hx, .refl _⟩
  | cons r rs ih =>
    obtain ⟨x₁, a₁, hfirst, hrest⟩ := state_bind_ok.1 h
    obtain ⟨hadv, harena, hx₁, hevolves, hplaces⟩ :=
      mergeInto_ok hA ha hx hs (hrs r (by simp)) hfirst
    have hrs₁ : ∀ r' ∈ rs, ∀ node, x₁.graph.nodes[r']? = some node → node.location = l := by
      intro r' hr' node hnode
      obtain ⟨node', hnode', hl⟩ := hplaces r' node hnode
      exact hl ▸ hrs r' (by simp [hr']) node' hnode'
    obtain ⟨hadv', harena', hx', hevolves'⟩ :=
      ih hadv.valid (harena ▸ hx₁) (harena ▸ hs) hrs₁ hrest
    rw [harena] at hx' hevolves' harena'
    exact ⟨hadv.trans hadv', harena', hx', hevolves.trans hevolves'⟩

/-- The nodes that were reached at a location are there. -/
theorem Valid.place {A : Automaton} {arena : Arena} (hx : x.Valid A arena) :
    ∀ r ∈ x.reachedAt l, ∀ node, x.graph.nodes[r]? = some node → node.location = l := by
  intro r hr node hnode
  obtain ⟨node', hnode', hl⟩ := hx.reached l r hr
  cases hnode.symm.trans hnode'
  exact hl

/-- Merging a successor into what was reached at its location, if states are merged at all. -/
theorem mergeSuccessor_ok (hA : p.automaton.WellFormed) (ha : a.Valid p.automaton)
    (hx : x.Valid p.automaton a.arena) {s : State} (hs : s.Valid p.automaton a.arena l)
    {e : EdgeId} (h : x.mergeSuccessor p n e s l a = .ok (x', a')) :
    a.Advances p.automaton a' ∧ a'.arena = a.arena ∧ x'.Valid p.automaton a.arena ∧
      x.Evolves p.automaton a.arena n x' := by
  cases hmerge : p.options.merge with
  | sep =>
    simp only [mergeSuccessor, hmerge] at h
    cases state_pure_ok.1 h
    exact ⟨.refl ha, rfl, hx, .refl _⟩
  | join =>
    simp only [mergeSuccessor, hmerge] at h
    exact mergeIntoAll_ok hA ha hx hs hx.place h

/-! ## Covering -/

/-- A node that is found to cover a state stands for all that the state does. -/
theorem coverAmong_ok (hA : p.automaton.WellFormed) (ha : a.Valid p.automaton)
    (hx : x.graph.Valid p.automaton a.arena) {s : State} (hs : s.Valid p.automaton a.arena l)
    {rs : List NodeId}
    (hrs : ∀ r ∈ rs, ∀ node, x.graph.nodes[r]? = some node → node.location = l)
    {r : Option NodeId} (h : x.coverAmong p s rs a = .ok (r, a')) :
    a.Advances p.automaton a' ∧ a'.arena = a.arena ∧ ∀ c, r = some c →
      ∃ node, x.graph.nodes[c]? = some node ∧ node.location = l ∧ (a'.Truthful → ∀ σ,
        s.StandsFor p.automaton a.arena σ → node.state.StandsFor p.automaton a.arena σ) := by
  induction rs generalizing a with
  | nil =>
    cases state_pure_ok.1 h
    exact ⟨.refl ha, rfl, fun c hc => by cases hc⟩
  | cons c rs ih =>
    have hrs' := fun r hr => hrs r (List.mem_cons_of_mem c hr)
    unfold coverAmong at h
    cases hnode : x.graph.nodes[c]? with
    | none =>
      simp only [hnode] at h
      exact ih ha hx hs hrs' h
    | some node =>
      simp only [hnode] at h
      obtain ⟨b, a₁, hb, h₁⟩ := state_bind_ok.1 h
      have hl := hrs c (by simp) node hnode
      obtain ⟨hadv, harena, hcovers⟩ := Analysis.covers_ok hA ha hs (hl ▸ hx c node hnode) hb
      cases b with
      | true =>
        cases state_pure_ok.1 h₁
        refine ⟨hadv, harena, fun c' hc' => ?_⟩
        cases hc'
        exact ⟨node, hnode, hl, fun htr => harena ▸ hcovers htr rfl⟩
      | false =>
        obtain ⟨hadv', harena', hrest⟩ := ih hadv.valid (harena ▸ hx) (harena ▸ hs) hrs' h₁
        rw [harena] at hrest harena'
        exact ⟨hadv.trans hadv', harena', hrest⟩

/-! ## Successors -/

/-- A successor is accounted for, unless its node is gone or waits. -/
theorem addSuccessor_ok (hA : p.automaton.WellFormed) (ha : a.Valid p.automaton)
    (hx : x.Valid p.automaton a.arena) {s : State} (hs : s.Valid p.automaton a.arena l)
    {e : EdgeId} (h : x.addSuccessor p n e s l a = .ok (x', a')) :
    a.Advances p.automaton a' ∧ a'.arena = a.arena ∧ x'.Valid p.automaton a.arena ∧
      x.Evolves p.automaton a.arena n x' ∧
      (a'.Truthful → x'.graph.contains n = true → Handled p.automaton a.arena x' n l s) := by
  obtain ⟨x₁, a₁, hmerge, h₁⟩ := state_bind_ok.1 h
  obtain ⟨hadv₁, harena₁, hx₁, hevolves₁⟩ := mergeSuccessor_ok hA ha hx hs hmerge
  obtain ⟨cover, a₂, hcover, h₂⟩ := state_bind_ok.1 h₁
  obtain ⟨hadv₂, harena₂, hcovers⟩ := coverAmong_ok hA hadv₁.valid (harena₁ ▸ hx₁.states)
    (harena₁ ▸ hs) hx₁.place hcover
  rw [harena₁] at harena₂ hcovers
  have hadv := hadv₁.trans hadv₂
  split at h₂
  -- with the node under expansion gone, nothing is to be accounted for
  · next hgone =>
    cases state_pure_ok.1 h₂
    refine ⟨hadv, harena₂, hx₁, hevolves₁, fun _ hc => ?_⟩
    simp [hc] at hgone
  · next hleft =>
    simp only [Bool.not_eq_true', Bool.not_eq_false] at hleft
    cases cover with
    | some c =>
      cases state_pure_ok.1 h₂
      obtain ⟨node, hnode, hl, hsub⟩ := hcovers c rfl
      refine ⟨hadv, harena₂, ⟨hx₁.graph, hx₁.states, hx₁.reached, fun d hd => ?_⟩,
        hevolves₁.trans (Evolves.grow rfl (fun _ h => h) (fun _ h => .inr h)
          (fun d hd => List.mem_append_left _ hd) rfl),
        fun htr _ => ⟨c, node, .inl (List.mem_append_right _ (by simp)), hnode, hl, hsub htr⟩⟩
      rcases List.mem_append.1 hd with hd | hd
      · exact hx₁.covered d hd
      · cases List.mem_singleton.1 hd
        exact Graph.contains_iff.2 ⟨node, hnode⟩
    | none =>
      obtain ⟨⟨c, g⟩, a₃, hlift, h₃⟩ := state_bind_ok.1 h₂
      obtain ⟨hchild, rfl⟩ := state_lift_ok.1 hlift
      cases state_pure_ok.1 h₃
      obtain ⟨hx₂, hevolves₂, hhandled⟩ := evolves_addChild hx₁ hleft hs hchild
      exact ⟨hadv, harena₂, hx₂, hevolves₁.trans hevolves₂, fun _ _ => hhandled⟩

/-- All successors are accounted for, unless their node is gone or waits. -/
theorem addSuccessors_ok (hA : p.automaton.WellFormed) (ha : a.Valid p.automaton)
    (hx : x.Valid p.automaton a.arena) {rs : List (EdgeId × State)}
    (hrs : ∀ e s, (e, s) ∈ rs → ∃ l, s.Valid p.automaton a.arena l)
    (h : addSuccessors p n rs x a = .ok (x', a')) :
    a.Advances p.automaton a' ∧ a'.arena = a.arena ∧ x'.Valid p.automaton a.arena ∧
      x.Evolves p.automaton a.arena n x' ∧
      (a'.Truthful → x'.graph.contains n = true → n ∉ x'.waitlist →
        ∀ e s l, (e, s) ∈ rs → s.Valid p.automaton a.arena l →
          Handled p.automaton a.arena x' n l s) := by
  induction rs generalizing x a with
  | nil =>
    cases state_pure_ok.1 h
    exact ⟨.refl ha, rfl, hx, .refl _, fun _ _ _ e s l hmem => by cases hmem⟩
  | cons es rs ih =>
    obtain ⟨e, s⟩ := es
    unfold addSuccessors at h
    split at h
    · next hgone =>
      cases state_pure_ok.1 h
      refine ⟨.refl ha, rfl, hx, .refl _, fun _ hc => ?_⟩
      simp [hc] at hgone
    · obtain ⟨b, a₁, hb, h₁⟩ := state_bind_ok.1 h
      cases state_get_ok.1 hb
      obtain ⟨r, a₁, hlift, h₂⟩ := state_bind_ok.1 h₁
      obtain ⟨hr, rfl⟩ := state_lift_ok.1 hlift
      obtain ⟨l, hl⟩ := hrs e s (by simp)
      cases Analysis.location?_ok hl hr
      obtain ⟨x₁, a₁, hfirst, h₃⟩ := state_bind_ok.1 h₂
      obtain ⟨hadv, harena, hx₁, hevolves, hhandled⟩ := addSuccessor_ok hA ha hx hl hfirst
      obtain ⟨hadv', harena', hx', hevolves', hrest⟩ := ih hadv.valid (harena ▸ hx₁)
        (fun e' s' hmem => harena ▸ hrs e' s' (List.mem_cons_of_mem _ hmem)) h₃
      rw [harena] at harena' hx' hevolves' hrest
      refine ⟨hadv.trans hadv', harena', hx', hevolves.trans hevolves', ?_⟩
      intro htr hc hw e' s' l' hmem hs'
      rcases List.mem_cons.1 hmem with heq | hmem
      · cases heq
        -- accounted for when it was added, and still so after the other successors
        have hbefore := hevolves'.before hc hw
        have hfirst := hhandled (hadv'.truthful htr) hbefore.1
        have hll := Option.some.inj ((Analysis.location?_ok hs' hr).symm.trans rfl)
        rw [← hll] at hfirst
        exact hevolves'.handled hc hw l' s hfirst
      · exact hrest htr hc hw e' s' l' hmem hs'

/-! ## Successors without merging -/

/-- Nothing is taken away from the graph. -/
structure Grows (x x' : Exploration) : Prop where
  nodes : ∀ (m : NodeId) (node : GraphNode), x.graph.nodes[m]? = some node →
    x'.graph.nodes[m]? = some node
  links : ∀ k ∈ x.graph.links, k ∈ x'.graph.links
  root : x'.graph.root = x.graph.root

theorem Grows.refl (x : Exploration) : x.Grows x := ⟨fun _ _ h => h, fun _ h => h, rfl⟩

theorem Grows.trans {x'' : Exploration} (h : x.Grows x') (h' : x'.Grows x'') : x.Grows x'' :=
  ⟨fun m node hm => h'.nodes m node (h.nodes m node hm), fun k hk => h'.links k (h.links k hk),
    h'.root.trans h.root⟩

/-- Without merging, a successor is covered or becomes a new child, so nothing is taken away. -/
theorem addSuccessor_grows (hsep : p.options.merge = .sep) (hx : x.graph.WellFormed) {e : EdgeId}
    {s : State} (h : x.addSuccessor p n e s l a = .ok (x', a')) :
    x'.graph.WellFormed ∧ x.Grows x' := by
  obtain ⟨x₁, a₁, hmerge, h₁⟩ := state_bind_ok.1 h
  simp only [mergeSuccessor, hsep] at hmerge
  cases state_pure_ok.1 hmerge
  obtain ⟨cover, a₂, -, h₂⟩ := state_bind_ok.1 h₁
  split at h₂
  · cases state_pure_ok.1 h₂
    exact ⟨hx, .refl _⟩
  · next hleft =>
    simp only [Bool.not_eq_true', Bool.not_eq_false] at hleft
    cases cover with
    | some c =>
      cases state_pure_ok.1 h₂
      exact ⟨hx, fun _ _ h => h, fun _ h => h, rfl⟩
    | none =>
      obtain ⟨⟨c, g⟩, a₃, hlift, h₃⟩ := state_bind_ok.1 h₂
      obtain ⟨hchild, rfl⟩ := state_lift_ok.1 hlift
      cases state_pure_ok.1 h₃
      obtain ⟨hwf, hfresh, hnodes, hlinks, hroot⟩ := Graph.addChild_ok hx hleft hchild
      refine ⟨hwf, fun m node hm => ?_, fun k hk => ?_, hroot⟩
      · change g.nodes[m]? = some node
        rw [hnodes, if_neg, hm]
        rintro rfl
        cases hfresh.symm.trans hm
      · change k ∈ g.links
        rw [hlinks]
        exact List.mem_cons_of_mem _ hk

/-- Without merging, the expansion of a node takes nothing away. -/
theorem addSuccessors_grows (hsep : p.options.merge = .sep) (hx : x.graph.WellFormed)
    {rs : List (EdgeId × State)} (h : addSuccessors p n rs x a = .ok (x', a')) : x.Grows x' := by
  induction rs generalizing x a with
  | nil =>
    cases state_pure_ok.1 h
    exact .refl _
  | cons es rs ih =>
    obtain ⟨e, s⟩ := es
    unfold addSuccessors at h
    split at h
    · cases state_pure_ok.1 h
      exact .refl _
    · obtain ⟨b, a₁, -, h₁⟩ := state_bind_ok.1 h
      obtain ⟨r, a₂, -, h₂⟩ := state_bind_ok.1 h₁
      cases r with
      | none => exact ih hx h₂
      | some l =>
        obtain ⟨x₁, a₃, hfirst, h₃⟩ := state_bind_ok.1 h₂
        obtain ⟨hx₁, hgrows⟩ := addSuccessor_grows hsep hx hfirst
        exact hgrows.trans (ih hx₁ h₃)

/-! ## Nodes that are taken care of -/

/-- Every step from a store that the node stands for leads to a node that it relies on. -/
def Closed (A : Automaton) (arena : Arena) (x : Exploration) (m : NodeId) : Prop :=
  ∀ node, x.graph.nodes[m]? = some node → ∀ edge ∈ A.edges, edge.source = node.location →
    ∀ σ σ', node.state.StandsFor A arena σ → edge.statement.Step σ σ' →
      Meets A arena x m edge.target σ'

/-- The node waits, or it is at an error location, or it has been expanded. -/
def Attended (A : Automaton) (arena : Arena) (x : Exploration) (m : NodeId) : Prop :=
  m ∈ x.waitlist ∨ (∃ node, x.graph.nodes[m]? = some node ∧ A.IsError node.location) ∨
    Closed A arena x m

section Attention

variable {A : Automaton} {arena arena' : Arena} {m : NodeId}

/-- A node that was expanded stays so when abstraction states are added. -/
theorem Closed.mono (h : Closed A arena x m) (hx : x.graph.Valid A arena)
    (hext : arena.Extends arena') : Closed A arena' x m := by
  intro node hnode edge hedge hl σ σ' hσ hstep
  have hσ := ((hx m node hnode).standsFor_iff hext).1 hσ
  obtain ⟨c, v, hrelies, hv, hloc, hσ'⟩ := h node hnode edge hedge hl σ σ' hσ hstep
  exact ⟨c, v, hrelies, hv, hloc, hσ'.mono hext⟩

theorem Attended.mono (h : Attended A arena x m) (hx : x.graph.Valid A arena)
    (hext : arena.Extends arena') : Attended A arena' x m :=
  h.imp id (Or.imp id (·.mono hx hext))

/-- While another node is expanded, a node stays taken care of, or it loses an edge. -/
theorem Evolves.attended (h : x.Evolves A arena n x') (hne : m ≠ n)
    (hc : x'.graph.contains m = true) (hm : Attended A arena x m) :
    Attended A arena x' m ∨ x.LosesChild x' m := by
  by_cases hw : m ∈ x'.waitlist
  · exact .inl (.inl hw)
  · obtain ⟨node, hnode⟩ := Graph.contains_iff.1 hc
    have hsame := h.node m node hnode hw
    rcases hm with hwait | ⟨v, hv, herror⟩ | hclosed
    · exact absurd (h.waits m hwait hc) hw
    · cases hsame.symm.trans hv
      exact .inl (.inr (.inl ⟨node, hnode, herror⟩))
    · by_cases hlost : x.LosesChild x' m
      · exact .inr hlost
      · refine .inl (.inr (.inr fun v hv edge hedge hl σ σ' hσ hstep => ?_))
        cases hnode.symm.trans hv
        have hmet := hclosed node hsame edge hedge hl σ σ' hσ hstep
        exact (h.meets m hne hc hw _ _ hmet).resolve_right hlost

end Attention

/-! ## Steps -/

/-- A state is a target exactly if it is at an error location, and to look changes nothing. -/
theorem isTarget_ok {s : State} (hs : s.Valid p.automaton a.arena l) {b : Bool}
    (h : Analysis.isTarget p s a = .ok (b, a')) :
    a = a' ∧ (b = true ↔ p.automaton.IsError l) := by
  obtain ⟨c, a₁, hc, h₁⟩ := state_bind_ok.1 h
  cases state_get_ok.1 hc
  obtain ⟨r, a₁, hlift, h₂⟩ := state_bind_ok.1 h₁
  obtain ⟨hr, rfl⟩ := state_lift_ok.1 hlift
  cases Analysis.location?_ok hs hr
  obtain ⟨node, a₁, hlift, h₃⟩ := state_bind_ok.1 h₂
  obtain ⟨hnode, rfl⟩ := state_lift_ok.1 hlift
  cases state_pure_ok.1 h₃
  have hnode := Automaton.node_eq_ok.1 hnode
  refine ⟨rfl, fun herror => ⟨node, hnode, herror⟩, fun ⟨v, hv, herror⟩ => ?_⟩
  cases hnode.symm.trans hv
  exact herror

/-- The exploration after a node was taken from the waitlist, which leaves `w`. -/
def took (x : Exploration) (w : List NodeId) : Exploration :=
  { x with waitlist := w, steps := x.steps + 1 }

/-- What a step comes to. -/
inductive StepResult (p : Problem) (x : Exploration) (a : Analysis) :
    Option Outcome → Exploration → Analysis → Prop where
  | complete : x.waitlist = [] → StepResult p x a (some .complete) x a
  /-- The node is no longer there. -/
  | gone {n : NodeId} {w : List NodeId} : x.waitlist = n :: w → x.graph.nodes[n]? = none →
    StepResult p x a none (x.took w) a
  | target {n : NodeId} {w : List NodeId} {node : GraphNode} : x.waitlist = n :: w →
    x.graph.nodes[n]? = some node → p.automaton.IsError node.location →
    StepResult p x a (some (.target n)) (x.took w) a
  | failed {e : Error} {x' : Exploration} {a' : Analysis} :
    StepResult p x a (some (.failed e)) x' a'
  /-- The node is expanded: its successors are computed and added. -/
  | expanded {n : NodeId} {w : List NodeId} {node : GraphNode} {a₁ a' : Analysis}
      {rs : List (EdgeId × State)} {x' : Exploration} : x.waitlist = n :: w →
    x.graph.nodes[n]? = some node → ¬ p.automaton.IsError node.location →
    a.Advances p.automaton a₁ →
    (∀ e s, (e, s) ∈ rs → ∃ l, s.Valid p.automaton a₁.arena l) →
    (a₁.Truthful → ∀ edge ∈ p.automaton.edges, edge.source = node.location →
      ∀ σ σ', node.state.StandsFor p.automaton a.arena σ → edge.statement.Step σ σ' →
        ∃ e t, (e, t) ∈ rs ∧ t.Valid p.automaton a₁.arena edge.target ∧
          t.StandsFor p.automaton a₁.arena σ') →
    addSuccessors p n rs (x.took w) a₁ = .ok (x', a') → StepResult p x a none x' a'

theorem Valid.took {A : Automaton} {arena : Arena} (hx : x.Valid A arena) (w : List NodeId) :
    (x.took w).Valid A arena :=
  ⟨hx.graph, hx.states, hx.reached, hx.covered⟩

theorem Valid.mono {A : Automaton} {arena arena' : Arena} (hx : x.Valid A arena)
    (hext : arena.Extends arena') : x.Valid A arena' :=
  ⟨hx.graph, fun n node hn => (hx.states n node hn).mono hext, hx.reached, hx.covered⟩

/-- A step keeps the exploration valid. It finds a target at an error location, finds nothing left
to do, or accounts for all successors of the node that it takes. -/
theorem step_ok (hA : p.automaton.WellFormed) (ha : a.Valid p.automaton)
    (hx : x.Valid p.automaton a.arena) {o : Option Outcome}
    (h : x.step p a = .ok ((o, x'), a')) : StepResult p x a o x' a' := by
  unfold step at h
  cases hwait : x.waitlist with
  | nil =>
    simp only [hwait] at h
    cases state_pure_ok.1 h
    exact .complete hwait
  | cons n w =>
    simp only [hwait] at h
    split at h
    · obtain ⟨_, a₁, hthrow, -⟩ := state_bind_ok.1 h
      exact absurd hthrow state_throw_ok
    · cases hnode : x.graph.nodes[n]? with
      | none =>
        simp only [hnode] at h
        cases state_pure_ok.1 h
        exact .gone hwait hnode
      | some node =>
        simp only [hnode] at h
        obtain ⟨b, a₁, hb, h₁⟩ := state_bind_ok.1 h
        obtain ⟨rfl, herror⟩ := isTarget_ok (hx.states n node hnode) hb
        cases b with
        | true =>
          cases state_pure_ok.1 h₁
          exact .target hwait hnode (herror.1 rfl)
        | false =>
          obtain ⟨c, a₁, hc, h₂⟩ := state_bind_ok.1 h₁
          cases state_get_ok.1 hc
          obtain ⟨r, a₁, hr, h₃⟩ := state_bind_ok.1 h₂
          cases r with
          | error e =>
            cases state_pure_ok.1 h₃
            exact .failed
          | ok rs =>
            obtain ⟨x₁, a₂, hadd, h₄⟩ := state_bind_ok.1 h₃
            cases state_pure_ok.1 h₄
            obtain ⟨hadv, hvalid, hsound⟩ := Analysis.successors_ok hA ha ha.precision
              (hx.states n node hnode) hr
            refine .expanded hwait hnode (fun he => ?_) hadv (fun e s hmem => ?_) hsound hadd
            · cases herror.2 he
            · obtain ⟨edge, -, hs⟩ := hvalid e s hmem
              exact ⟨edge.target, hs⟩

/-- Taking a node from the waitlist concerns no other node. -/
theorem Attended.took {A : Automaton} {arena : Arena} {m : NodeId} {w : List NodeId}
    (hm : Attended A arena x m) (hwait : x.waitlist = n :: w) (hne : m ≠ n) :
    Attended A arena (x.took w) m := by
  refine hm.imp (fun hw => ?_) id
  rw [hwait] at hw
  exact (List.mem_cons.1 hw).resolve_left hne

/-- A step keeps the exploration valid. -/
theorem StepResult.valid (hA : p.automaton.WellFormed) (ha : a.Valid p.automaton)
    (hx : x.Valid p.automaton a.arena) {o : Option Outcome} (h : StepResult p x a o x' a')
    (ho : ∀ e, o ≠ some (.failed e)) :
    a.Advances p.automaton a' ∧ x'.Valid p.automaton a'.arena := by
  cases h with
  | complete => exact ⟨.refl ha, hx⟩
  | gone => exact ⟨.refl ha, hx.took _⟩
  | target => exact ⟨.refl ha, hx.took _⟩
  | failed => exact absurd rfl (ho _)
  | expanded _ _ _ hadv hrs _ hadd =>
    obtain ⟨hadv', harena, hx', -, -⟩ :=
      addSuccessors_ok hA hadv.valid ((hx.took _).mono hadv.arena) hrs hadd
    exact ⟨hadv.trans hadv', harena ▸ hx'⟩

/-- After a step, the node that was taken is taken care of. Any other node stays so, unless an edge
from it was lost. -/
theorem StepResult.attended (hA : p.automaton.WellFormed)
    (hx : x.Valid p.automaton a.arena) {o : Option Outcome} (h : StepResult p x a o x' a')
    (ho : ∀ e, o ≠ some (.failed e)) (ht : a'.Truthful) {m : NodeId}
    (hc : x'.graph.contains m = true) :
    (x.waitlist.head? = some m → Attended p.automaton a'.arena x' m) ∧
      (Attended p.automaton a.arena x m →
        Attended p.automaton a'.arena x' m ∨ x.LosesChild x' m) := by
  cases h with
  | complete hwait => exact ⟨fun hm => by simp [hwait] at hm, .inl⟩
  | @gone n w hwait hnode =>
    have hne : m ≠ n := by
      rintro rfl
      obtain ⟨node, hnode'⟩ := Graph.contains_iff.1 hc
      cases hnode.symm.trans hnode'
    rw [hwait]
    exact ⟨fun hm => absurd (Option.some.inj hm).symm hne, fun hm => .inl (hm.took hwait hne)⟩
  | @target n w node hwait hnode herror =>
    have htarget : Attended p.automaton a.arena (x.took w) n := .inr (.inl ⟨node, hnode, herror⟩)
    rw [hwait]
    refine ⟨fun hm => Option.some.inj hm ▸ htarget, fun hm => .inl ?_⟩
    by_cases hmn : m = n
    · exact hmn ▸ htarget
    · exact hm.took hwait hmn
  | failed => exact absurd rfl (ho _)
  | @expanded n w node a₁ _ rs _ hwait hnode herror hadv hrs hsound hadd =>
    obtain ⟨hadv', harena, hx', hevolves, hhandled⟩ :=
      addSuccessors_ok hA hadv.valid ((hx.took w).mono hadv.arena) hrs hadd
    rw [harena]
    -- the node that was expanded
    have hself : x'.graph.contains n = true → Attended p.automaton a₁.arena x' n := by
      intro hc
      by_cases hw : n ∈ x'.waitlist
      · exact .inl hw
      · refine .inr (.inr fun v hv edge hedge hl σ σ' hσ hstep => ?_)
        cases hnode.symm.trans (hevolves.node n v hv hw)
        have hσ := ((hx.states n node hnode).standsFor_iff hadv.arena).1 hσ
        obtain ⟨e, t, hmem, ht', hσ'⟩ := hsound (hadv'.truthful ht) edge hedge hl σ σ' hσ hstep
        exact (hhandled ht hc hw e t edge.target hmem ht').meets hσ'
    rw [hwait]
    refine ⟨fun hm => ?_, fun hm => ?_⟩
    · cases Option.some.inj hm
      exact hself hc
    · by_cases hmn : m = n
      · exact .inl (hmn ▸ hself (hmn ▸ hc))
      · exact hevolves.attended hmn hc ((hm.took hwait hmn).mono hx.states hadv.arena)

/-- Without merging, a step takes nothing away from the graph. -/
theorem StepResult.grows (hsep : p.options.merge = .sep) (hx : x.graph.WellFormed)
    {o : Option Outcome} (h : StepResult p x a o x' a') (ho : ∀ e, o ≠ some (.failed e)) :
    x.Grows x' := by
  cases h with
  | complete => exact .refl x
  | gone => exact ⟨fun _ _ h => h, fun _ h => h, rfl⟩
  | target => exact ⟨fun _ _ h => h, fun _ h => h, rfl⟩
  | failed => exact absurd rfl (ho _)
  | @expanded n w _ _ _ _ _ _ _ _ _ _ _ hadd =>
    obtain ⟨hnodes, hlinks, hroot⟩ := addSuccessors_grows hsep (x := x.took w) hx hadd
    exact ⟨hnodes, hlinks, hroot⟩

end Exploration

end Cegar

import Cegar.Exploration
import Cegar.Proofs.Analysis.Refinement
import Cegar.Proofs.Graph

/-!
# How exploration changes the graph

While a node is expanded, nodes are added, merged and removed. Of the other nodes, one that does not
wait to be expanded again is what it was, and it can still rely on the nodes that stood for its
successors, unless an edge from it was lost.

* **`Exploration.Valid`**: what holds of an exploration between its operations;
* **`Exploration.Evolves`**: what one change does to the nodes that do not wait afterwards;
* **`Exploration.Evolves.trans`**: a sequence of changes does no more.
-/

namespace Cegar

variable {A : Automaton} {arena : Arena}

namespace Exploration

variable {x x' x'' : Exploration} {n m : NodeId} {l : Location} {σ : Store}

/-- What holds of an exploration between its operations. -/
structure Valid (A : Automaton) (arena : Arena) (x : Exploration) : Prop where
  graph : x.graph.WellFormed
  states : x.graph.Valid A arena
  reached : ∀ l, ∀ n ∈ x.reachedAt l, ∃ node, x.graph.nodes[n]? = some node ∧ node.location = l
  covered : ∀ c ∈ x.covered, x.graph.contains c.cover = true

/-- A successor of `n` is accounted for by `m`, which is a child of `n` or covers the successor. -/
def Relies (x : Exploration) (n m : NodeId) : Prop := x.graph.Linked n m ∨ ⟨n, m⟩ ∈ x.covered

/-- The store is among those that a node at the location stands for, and `n` relies on that node. -/
def Meets (A : Automaton) (arena : Arena) (x : Exploration) (n : NodeId) (l : Location)
    (σ : Store) : Prop :=
  ∃ m node, x.Relies n m ∧ x.graph.nodes[m]? = some node ∧ node.location = l ∧
    node.state.StandsFor A arena σ

/-- A successor of the node under expansion is accounted for. It is covered, or it is a child that
no other node has an edge to. -/
def Handled (A : Automaton) (arena : Arena) (x : Exploration) (n : NodeId) (l : Location)
    (s : State) : Prop :=
  ∃ m node, (⟨n, m⟩ ∈ x.covered ∨
      (x.graph.Linked n m ∧ ∀ k ∈ x.graph.links, k.target = m → k.source = n)) ∧
    x.graph.nodes[m]? = some node ∧ node.location = l ∧
    ∀ σ, s.StandsFor A arena σ → node.state.StandsFor A arena σ

/-- A store of a successor that is accounted for is met by a node. -/
theorem Handled.meets {s : State} (h : Handled A arena x n l s) (hσ : s.StandsFor A arena σ) :
    Meets A arena x n l σ := by
  obtain ⟨m, node, hm, hnode, hl, hsub⟩ := h
  exact ⟨m, node, hm.elim .inr fun h => .inl h.1, hnode, hl, hsub σ hσ⟩

/-- An edge from the node is no longer there. -/
def LosesChild (x x' : Exploration) (n : NodeId) : Prop :=
  ∃ k ∈ x.graph.links, k.source = n ∧ k ∉ x'.graph.links

/-! ## Changes during the expansion of a node -/

/-- What a change does, while `n` is expanded, to the nodes that do not wait afterwards. -/
structure Evolves (A : Automaton) (arena : Arena) (n : NodeId) (x x' : Exploration) : Prop where
  /-- Edges are added from the node under expansion only. -/
  links : ∀ k ∈ x'.graph.links, k.source = n ∨ k ∈ x.graph.links
  /-- New and changed nodes wait. -/
  node : ∀ (m : NodeId) (node : GraphNode), x'.graph.nodes[m]? = some node → m ∉ x'.waitlist →
    x.graph.nodes[m]? = some node
  /-- Nodes do not stop to wait. -/
  waits : ∀ m ∈ x.waitlist, x'.graph.contains m = true → m ∈ x'.waitlist
  meets : ∀ m, m ≠ n → x'.graph.contains m = true → m ∉ x'.waitlist → ∀ l σ,
    Meets A arena x m l σ → Meets A arena x' m l σ ∨ x.LosesChild x' m
  handled : x'.graph.contains n = true → n ∉ x'.waitlist → ∀ l s,
    Handled A arena x n l s → Handled A arena x' n l s

namespace Evolves

theorem refl (x : Exploration) : x.Evolves A arena n x where
  links _ hk := .inr hk
  node _ _ h _ := h
  waits _ h _ := h
  meets _ _ _ _ _ _ h := .inl h
  handled _ _ _ _ h := h

/-- A node that does not wait afterwards was there before and did not wait. -/
theorem before (h : x.Evolves A arena n x') (hm : x'.graph.contains m = true)
    (hwait : m ∉ x'.waitlist) : x.graph.contains m = true ∧ m ∉ x.waitlist := by
  obtain ⟨node, hnode⟩ := Graph.contains_iff.1 hm
  exact ⟨Graph.contains_iff.2 ⟨node, h.node m node hnode hwait⟩,
    fun hw => hwait (h.waits m hw hm)⟩

/-- An edge that is lost is not there later. -/
theorem losesChild_trans (h : x.Evolves A arena n x') (h' : x'.Evolves A arena n x'') (hm : m ≠ n)
    (hlost : x.LosesChild x' m ∨ x'.LosesChild x'' m) : x.LosesChild x'' m := by
  rcases hlost with ⟨k, hk, rfl, hnot⟩ | ⟨k, hk, rfl, hnot⟩
  · exact ⟨k, hk, rfl, fun hk'' => (h'.links k hk'').elim hm hnot⟩
  · exact ⟨k, (h.links k hk).resolve_left hm, rfl, hnot⟩

/-- One change after another, while the same node is expanded: an edge that either of them takes
away is lost. -/
theorem trans (h : x.Evolves A arena n x') (h' : x'.Evolves A arena n x'') :
    x.Evolves A arena n x'' where
  links k hk := (h'.links k hk).elim .inl (h.links k)
  node m node hm hw :=
    have hm' := h'.node m node hm hw
    h.node m node hm' (h'.before (Graph.contains_iff.2 ⟨node, hm⟩) hw).2
  waits m hm hc := by
    refine Classical.byContradiction fun hw => ?_
    obtain ⟨hc', hw'⟩ := h'.before hc hw
    exact hw' (h.waits m hm hc')
  meets m hne hc hw l σ hmeets := by
    obtain ⟨hc', hw'⟩ := h'.before hc hw
    rcases h.meets m hne hc' hw' l σ hmeets with hmeets | hlost
    · rcases h'.meets m hne hc hw l σ hmeets with hmeets | hlost
      · exact .inl hmeets
      · exact .inr (h.losesChild_trans h' hne (.inr hlost))
    · exact .inr (h.losesChild_trans h' hne (.inl hlost))
  handled hc hw l s hs := by
    obtain ⟨hc', hw'⟩ := h'.before hc hw
    exact h'.handled hc hw l s (h.handled hc' hw' l s hs)

end Evolves

/-! ## Removals -/

/-- Who waits after a node was put on the waitlist. -/
theorem mem_waitlist_enqueueNew : m ∈ (x.enqueueNew n).waitlist ↔ m = n ∨ m ∈ x.waitlist := by
  unfold enqueueNew
  split
  · next h => exact ⟨.inr, fun hm => hm.elim (· ▸ h) id⟩
  · rw [enqueue, List.mem_append, List.mem_singleton, or_comm]

/-- Queueing several nodes changes nothing but the waitlist. -/
theorem foldl_enqueueNew {α : Type} (f : α → NodeId) (ns : List α) (x : Exploration) :
    (∀ m, m ∈ (ns.foldl (fun x c => x.enqueueNew (f c)) x).waitlist ↔
      (∃ c ∈ ns, f c = m) ∨ m ∈ x.waitlist) ∧
    (ns.foldl (fun x c => x.enqueueNew (f c)) x).graph = x.graph ∧
    (ns.foldl (fun x c => x.enqueueNew (f c)) x).reached = x.reached ∧
    (ns.foldl (fun x c => x.enqueueNew (f c)) x).covered = x.covered := by
  induction ns generalizing x with
  | nil => simp
  | cons c ns ih =>
    obtain ⟨hwait, hgraph, hreached, hcovered⟩ := ih (x.enqueueNew (f c))
    have hsame : (x.enqueueNew (f c)).graph = x.graph ∧ (x.enqueueNew (f c)).reached = x.reached ∧
        (x.enqueueNew (f c)).covered = x.covered := by
      unfold enqueueNew
      split <;> exact ⟨rfl, rfl, rfl⟩
    refine ⟨fun m => (hwait m).trans ?_, hgraph.trans hsame.1, hreached.trans hsame.2.1,
      hcovered.trans hsame.2.2⟩
    rw [mem_waitlist_enqueueNew]
    simp only [List.mem_cons, exists_eq_or_imp, eq_comm (a := m)]
    exact or_left_comm.trans or_assoc.symm

/-- What is kept after nodes were removed from the graph, and who waits then. -/
theorem prune_spec (x : Exploration) : x.prune.graph = x.graph ∧
    (∀ m ∈ x.waitlist, x.graph.contains m = true → m ∈ x.prune.waitlist) ∧
    (∀ l, x.prune.reachedAt l = (x.reachedAt l).filter x.graph.contains) ∧
    (∀ c ∈ x.prune.covered, c ∈ x.covered ∧ x.graph.contains c.cover = true) ∧
    ∀ c ∈ x.covered, x.graph.contains c.node = true →
      (x.graph.contains c.cover = true ∧ c ∈ x.prune.covered) ∨ c.node ∈ x.prune.waitlist := by
  unfold prune
  dsimp only
  obtain ⟨hwait, hgraph, hreached, hcovered⟩ := foldl_enqueueNew Cover.node
    (x.covered.filter fun c => !x.graph.contains c.cover && x.graph.contains c.node)
    { x with
      reached := x.reached.map fun _ ns => ns.filter x.graph.contains
      waitlist := x.waitlist.filter x.graph.contains
      covered := x.covered.filter fun c => x.graph.contains c.cover && x.graph.contains c.node }
  refine ⟨hgraph, fun m hm hc => (hwait m).2 (.inr (List.mem_filter.2 ⟨hm, hc⟩)), fun l => ?_,
    fun c hc => ?_, fun c hc hn => ?_⟩
  · unfold reachedAt
    rw [hreached, Std.ExtTreeMap.getElem?_map]
    cases x.reached[l]? <;> rfl
  · rw [hcovered] at hc
    obtain ⟨hc, hb⟩ := List.mem_filter.1 hc
    simp only [Bool.and_eq_true] at hb
    exact ⟨hc, hb.1⟩
  · cases hcover : x.graph.contains c.cover with
    | true =>
      refine .inl ⟨rfl, ?_⟩
      rw [hcovered]
      exact List.mem_filter.2 ⟨hc, by simp [hcover, hn]⟩
    | false =>
      exact .inr ((hwait c.node).2 (.inl ⟨c, List.mem_filter.2 ⟨hc, by simp [hcover, hn]⟩, rfl⟩))

/-- Removing the subtrees of some children of `r`: a node goes only with a parent, or as a child of
`r`. -/
theorem removeChildren_spec {g₀ : Graph} {r : NodeId} (cs : List (NodeId × EdgeId)) {g : Graph}
    (hg : g.WellFormed) (hsub : ∀ k ∈ g.links, k ∈ g₀.links) (hcs : ∀ c ∈ cs, g₀.Linked r c.1) :
    (cs.foldl (fun g (c : NodeId × EdgeId) => (g.removeSubtree c.1).2) g).WellFormed ∧
    g.Shrinks (cs.foldl (fun g (c : NodeId × EdgeId) => (g.removeSubtree c.1).2) g) ∧
    ∀ m, g.contains m = true →
      (cs.foldl (fun g (c : NodeId × EdgeId) => (g.removeSubtree c.1).2) g).contains m = false →
      ∃ k ∈ g₀.links, k.target = m ∧ (k.source = r ∨
        (cs.foldl (fun g (c : NodeId × EdgeId) => (g.removeSubtree c.1).2) g).contains k.source =
          false) := by
  induction cs generalizing g with
  | nil =>
    refine ⟨hg, .refl hg.intact, fun m hm hnot => ?_⟩
    rw [List.foldl_nil, hm] at hnot
    cases hnot
  | cons c cs ih =>
    rw [List.foldl_cons]
    have hshrinks := Graph.Shrinks.removeSubtree hg c.1
    obtain ⟨hwf, hrest, hground⟩ := ih (hg.removeSubtree c.1)
      (fun k hk => hsub k ((hshrinks.links k).1 hk).1) fun c' hc' => hcs c' (by simp [hc'])
    refine ⟨hwf, hshrinks.trans hrest, fun m hm hnot => ?_⟩
    cases hfirst : (g.removeSubtree c.1).2.contains m with
    | true => exact hground m hfirst hnot
    | false =>
      -- the node goes with the first child: it is that child, or a parent of it goes as well
      have hc : g.contains c.1 = true := by
        cases hc : g.contains c.1 with
        | true => rfl
        | false => simp [Graph.removeSubtree, hc, hm] at hfirst
      have hreach : g.Reaches c.1 m := by
        refine Classical.byContradiction fun hne => ?_
        rw [(Graph.contains_removeSubtree hc m).2 ⟨hm, hne⟩] at hfirst
        cases hfirst
      rcases Relation.ReflTransGen.cases_tail hreach with rfl | ⟨b, hb, e, he⟩
      · obtain ⟨e, he⟩ := hcs c (by simp)
        exact ⟨_, he, rfl, .inl rfl⟩
      · refine ⟨_, hsub _ he, rfl, .inr ?_⟩
        rw [Bool.eq_false_iff]
        intro hleft
        exact ((Graph.contains_removeSubtree hc b).1 (hrest.contains hleft)).2 hb

theorem linked_of_mem_children {g : Graph} {c : NodeId × EdgeId} (h : c ∈ g.children n) :
    g.Linked n c.1 := by
  unfold Graph.children at h
  obtain ⟨k, hk, rfl⟩ := List.mem_map.1 (mem_sortBy.1 h)
  obtain ⟨hk, hs⟩ := List.mem_filter.1 hk
  exact ⟨k.label, of_decide_eq_true hs ▸ hk⟩

/-- The second exploration is what is left of the first after a removal. Nodes that have lost a
cover wait. -/
structure Removes (x x' : Exploration) : Prop where
  graph : x'.graph.WellFormed
  shrinks : x.graph.Shrinks x'.graph
  waits : ∀ m ∈ x.waitlist, x'.graph.contains m = true → m ∈ x'.waitlist
  reached : ∀ l, ∀ m ∈ x'.reachedAt l, m ∈ x.reachedAt l ∧ x'.graph.contains m = true
  covered : ∀ c ∈ x'.covered, x'.graph.contains c.cover = true
  covers : ∀ c ∈ x.covered, x'.graph.contains c.node = true →
    (x'.graph.contains c.cover = true ∧ c ∈ x'.covered) ∨ c.node ∈ x'.waitlist

/-- Dropping the records of nodes that are gone completes a removal. -/
theorem removes_prune {g : Graph} (hg : g.WellFormed) (hs : x.graph.Shrinks g) :
    x.Removes (prune { x with graph := g }) := by
  obtain ⟨hgraph, hwaits, hreached, hcovered, hcovers⟩ := prune_spec { x with graph := g }
  refine ⟨hgraph ▸ hg, hgraph ▸ hs, ?_, fun l m hm => ?_, ?_, ?_⟩
  · rw [hgraph]
    exact hwaits
  · rw [hreached] at hm
    rw [hgraph]
    exact List.mem_filter.1 hm
  · rw [hgraph]
    exact fun c hc => (hcovered c hc).2
  · rw [hgraph]
    exact hcovers

namespace Removes

/-- More nodes may wait. -/
theorem queue {y : Exploration} (h : x.Removes x') (hgraph : y.graph = x'.graph)
    (hreached : y.reached = x'.reached) (hcovered : y.covered = x'.covered)
    (hwait : ∀ m ∈ x'.waitlist, m ∈ y.waitlist) : x.Removes y := by
  refine ⟨hgraph ▸ h.graph, hgraph ▸ h.shrinks, ?_, ?_, ?_, ?_⟩
  · rw [hgraph]
    exact fun m hm hc => hwait m (h.waits m hm hc)
  · unfold reachedAt
    rw [hgraph, hreached]
    exact h.reached
  · rw [hgraph, hcovered]
    exact h.covered
  · rw [hgraph, hcovered]
    exact fun c hc hn => (h.covers c hc hn).imp id (hwait _)

theorem enqueue (h : x.Removes x') : x.Removes (x'.enqueue n) :=
  h.queue rfl rfl rfl fun _ hm => List.mem_append_left _ hm

/-- A removal leaves a valid exploration. -/
theorem valid (h : x.Removes x') (hx : x.Valid A arena) : x'.Valid A arena where
  graph := h.graph
  states n node hn := hx.states n node (h.shrinks.nodes n node hn)
  reached l n hn := by
    obtain ⟨hmem, hc⟩ := h.reached l n hn
    obtain ⟨node, hnode, hl⟩ := hx.reached l n hmem
    exact ⟨node, h.shrinks.kept hnode hc, hl⟩
  covered := h.covered

/-- A node that is left and does not wait relies on what it did, unless an edge from it is lost. -/
theorem meets (h : x.Removes x') (hm : x'.graph.contains m = true) (hw : m ∉ x'.waitlist)
    (hmeets : Meets A arena x m l σ) :
    Meets A arena x' m l σ ∨
      ∃ k ∈ x.graph.links, k.source = m ∧ x'.graph.contains k.target = false := by
  obtain ⟨c, node, hrelies, hnode, hl, hσ⟩ := hmeets
  rcases hrelies with ⟨e, he⟩ | hcover
  · cases hc : x'.graph.contains c with
    | true =>
      exact .inl ⟨c, node, .inl ⟨e, (h.shrinks.links _).2 ⟨he, hc⟩⟩, h.shrinks.kept hnode hc, hl,
        hσ⟩
    | false => exact .inr ⟨_, he, rfl, hc⟩
  · rcases h.covers _ hcover hm with ⟨hc, hcover'⟩ | hwait
    · exact .inl ⟨c, node, .inr hcover', h.shrinks.kept hnode hc, hl, hσ⟩
    · exact absurd hwait hw

/-- A removal below `r` while `n` is expanded. If the children of `n` itself are removed, it has to
wait. -/
theorem evolves (h : x.Removes x') {r : NodeId}
    (hground : ∀ m, x.graph.contains m = true → x'.graph.contains m = false →
      ∃ k ∈ x.graph.links, k.target = m ∧ (k.source = r ∨ x'.graph.contains k.source = false))
    (hself : r = n → x'.graph.contains n = true → n ∈ x'.waitlist) : x.Evolves A arena n x' where
  links k hk := .inr ((h.shrinks.links k).1 hk).1
  node m node hm _ := h.shrinks.nodes m node hm
  waits := h.waits
  meets m _ hc hw l σ hmeets := by
    refine (h.meets hc hw hmeets).imp id fun ⟨k, hk, hs, ht⟩ => ⟨k, hk, hs, fun hk' => ?_⟩
    rw [((h.shrinks.links k).1 hk').2] at ht
    cases ht
  handled hc hw l s := by
    rintro ⟨m, node, hm, hnode, hl, hsub⟩
    rcases hm with hcover | ⟨⟨e, he⟩, honly⟩
    · rcases h.covers _ hcover hc with ⟨hm, hcover'⟩ | hwait
      · exact ⟨m, node, .inl hcover', h.shrinks.kept hnode hm, hl, hsub⟩
      · exact absurd hwait hw
    · cases hm : x'.graph.contains m with
      | true =>
        refine ⟨m, node, .inr ⟨⟨e, (h.shrinks.links _).2 ⟨he, hm⟩⟩, fun k hk => ?_⟩,
          h.shrinks.kept hnode hm, hl, hsub⟩
        exact honly k ((h.shrinks.links k).1 hk).1
      | false =>
        -- the child of `n` goes only with `n`, or as a child of `r`
        obtain ⟨k, hk, ht, hs⟩ := hground m (Graph.contains_iff.2 ⟨node, hnode⟩) hm
        rw [honly k hk ht] at hs
        rcases hs with rfl | hs
        · exact absurd (hself rfl hc) hw
        · rw [hc] at hs
          cases hs

end Removes

/-- What is left after the subtrees of all children of a node were removed. -/
theorem removes_cutBelow (hx : x.graph.WellFormed) (r : NodeId) :
    x.Removes (x.cutBelow r) ∧ ∀ m, x.graph.contains m = true →
      (x.cutBelow r).graph.contains m = false →
      ∃ k ∈ x.graph.links, k.target = m ∧
        (k.source = r ∨ (x.cutBelow r).graph.contains k.source = false) := by
  obtain ⟨hg, hs, hground⟩ := removeChildren_spec (r := r) (x.graph.children r) hx
    (fun _ => id) fun c hc => linked_of_mem_children hc
  have hgraph : (x.cutBelow r).graph = (x.graph.children r).foldl
      (fun g (c : NodeId × EdgeId) => (g.removeSubtree c.1).2) x.graph := (prune_spec _).1
  refine ⟨removes_prune hg hs, ?_⟩
  rw [hgraph]
  exact hground

/-! ## Growth -/

/-- A node that waits may come to stand for more. -/
theorem Evolves.replace {r : NodeId} {node : GraphNode} {s : State} (hr : r ∈ x.waitlist)
    (hnode : x.graph.nodes[r]? = some node)
    (hs : ∀ σ, node.state.StandsFor A arena σ → s.StandsFor A arena σ) :
    x.Evolves A arena n { x with graph := x.graph.replace r s } := by
  have hlinks : (x.graph.replace r s).links = x.graph.links := by
    unfold Graph.replace
    split <;> rfl
  -- whatever a node stood for, it still stands for
  have hgrows : ∀ (m : NodeId) (v : GraphNode), x.graph.nodes[m]? = some v →
      ∃ v', (x.graph.replace r s).nodes[m]? = some v' ∧ v'.location = v.location ∧
        ∀ σ, v.state.StandsFor A arena σ → v'.state.StandsFor A arena σ := by
    intro m v hv
    rw [Graph.getElem?_replace]
    split
    · next heq =>
      subst heq
      cases hnode.symm.trans hv
      exact ⟨{ node with state := s }, by rw [hnode]; rfl, rfl, hs⟩
    · exact ⟨v, hv, rfl, fun _ h => h⟩
  refine ⟨fun k hk => .inr (hlinks ▸ hk), fun m v hm hw => ?_, fun m hm _ => hm, ?_, ?_⟩
  · change (x.graph.replace r s).nodes[m]? = some v at hm
    rw [Graph.getElem?_replace, if_neg fun heq : m = r => hw (heq ▸ hr)] at hm
    exact hm
  · rintro m - - - l σ ⟨c, v, hrelies, hc, hl, hσ⟩
    obtain ⟨v', hv', hloc, hsub⟩ := hgrows c v hc
    refine .inl ⟨c, v', ?_, hv', hloc.trans hl, hsub σ hσ⟩
    exact hrelies.imp (fun ⟨e, he⟩ => ⟨e, hlinks.symm ▸ he⟩) id
  · rintro - - l t ⟨c, v, hrelies, hc, hl, hsub⟩
    obtain ⟨v', hv', hloc, hsub'⟩ := hgrows c v hc
    refine ⟨c, v', ?_, hv', hloc.trans hl, fun σ hσ => hsub' σ (hsub σ hσ)⟩
    exact hrelies.imp id fun ⟨⟨e, he⟩, honly⟩ =>
      ⟨⟨e, hlinks.symm ▸ he⟩, fun k hk => honly k (hlinks ▸ hk)⟩

/-- More edges from the node under expansion, and more covers. -/
theorem Evolves.grow (hnodes : x'.graph.nodes = x.graph.nodes)
    (hlinks : ∀ k ∈ x.graph.links, k ∈ x'.graph.links)
    (hnew : ∀ k ∈ x'.graph.links, k.source = n ∨ k ∈ x.graph.links)
    (hcovered : ∀ c ∈ x.covered, c ∈ x'.covered) (hwait : x'.waitlist = x.waitlist) :
    x.Evolves A arena n x' where
  links := hnew
  node m node hm _ := hnodes ▸ hm
  waits m hm _ := hwait ▸ hm
  meets := by
    rintro m - - - l σ ⟨c, v, hrelies, hc, hl, hσ⟩
    refine .inl ⟨c, v, ?_, hnodes ▸ hc, hl, hσ⟩
    exact hrelies.imp (fun ⟨e, he⟩ => ⟨e, hlinks _ he⟩) (hcovered _)
  handled := by
    rintro - - l t ⟨c, v, hrelies, hc, hl, hsub⟩
    refine ⟨c, v, ?_, hnodes ▸ hc, hl, hsub⟩
    exact hrelies.imp (hcovered _) fun ⟨⟨e, he⟩, honly⟩ =>
      ⟨⟨e, hlinks _ he⟩, fun k hk ht => (hnew k hk).elim id fun hk => honly k hk ht⟩

/-- A new node is taken down under its location. -/
theorem Valid.addReached (hx : x.Valid A arena) {g : Graph} {c : NodeId} {s : State}
    (hg : g.WellFormed) (hfresh : x.graph.nodes[c]? = none)
    (hnodes : ∀ m : NodeId, g.nodes[m]? = if m = c then some ⟨s, l⟩ else x.graph.nodes[m]?)
    (hs : s.Valid A arena l) : ({ x with graph := g }.addReached l c).Valid A arena := by
  have hold : ∀ (m : NodeId) (node : GraphNode), x.graph.nodes[m]? = some node →
      g.nodes[m]? = some node := by
    intro m node hm
    rw [hnodes, if_neg, hm]
    rintro rfl
    rw [hfresh] at hm
    cases hm
  have hnew : g.nodes[c]? = some ⟨s, l⟩ := by rw [hnodes, if_pos rfl]
  refine ⟨hg, fun m node hm => ?_, fun l' m hm => ?_, fun d hd => ?_⟩
  · change g.nodes[m]? = some node at hm
    rw [hnodes] at hm
    split at hm
    · cases hm
      exact hs
    · exact hx.states m node hm
  · unfold reachedAt Exploration.addReached at hm
    rw [Std.ExtTreeMap.getElem?_insert] at hm
    split at hm
    · next heq =>
      cases Std.LawfulEqOrd.compare_eq_iff_eq.1 heq
      rcases List.mem_append.1 hm with hm | hm
      · obtain ⟨node, hnode, hl⟩ := hx.reached l m hm
        exact ⟨node, hold m node hnode, hl⟩
      · cases List.mem_singleton.1 hm
        exact ⟨⟨s, l⟩, hnew, rfl⟩
    · obtain ⟨node, hnode, hl⟩ := hx.reached l' m hm
      exact ⟨node, hold m node hnode, hl⟩
  · obtain ⟨node, hnode⟩ := Graph.contains_iff.1 (hx.covered d hd)
    exact Graph.contains_iff.2 ⟨node, hold _ node hnode⟩

/-- A new child of the node under expansion, which waits. -/
theorem evolves_addChild (hx : x.Valid A arena) {e : EdgeId} {s : State} {g : Graph} {c : NodeId}
    (hn : x.graph.contains n = true) (hs : s.Valid A arena l)
    (h : x.graph.addChild n e s l = .ok (c, g)) :
    ({ x with graph := g }.addReached l c).Valid A arena ∧
      x.Evolves A arena n ({ x with graph := g }.addReached l c) ∧
      Handled A arena ({ x with graph := g }.addReached l c) n l s := by
  obtain ⟨hwf, hfresh, hnodes, hlinks, -⟩ := Graph.addChild_ok hx.graph hn h
  have hold : ∀ (m : NodeId) (node : GraphNode), x.graph.nodes[m]? = some node →
      g.nodes[m]? = some node := by
    intro m node hm
    rw [hnodes, if_neg, hm]
    rintro rfl
    rw [hfresh] at hm
    cases hm
  have hnew : g.nodes[c]? = some ⟨s, l⟩ := by rw [hnodes, if_pos rfl]
  have hmem : ∀ k, k ∈ g.links ↔ k = ⟨n, c, e⟩ ∨ k ∈ x.graph.links := by
    intro k
    rw [hlinks, List.mem_cons]
  -- no edge leads to a node that was not there
  have hunlinked : ∀ k ∈ x.graph.links, k.target ≠ c := by
    rintro k hk rfl
    obtain ⟨node, hnode⟩ := Graph.contains_iff.1 (hx.graph.target k hk)
    rw [hfresh] at hnode
    cases hnode
  refine ⟨hx.addReached hwf hfresh hnodes hs,
    ⟨fun k hk => ?_, fun m node hm hw => ?_, fun m hm _ => List.mem_append_left _ hm, ?_, ?_⟩,
    c, ⟨s, l⟩, .inr ⟨⟨e, (hmem _).2 (.inl rfl)⟩, fun k hk ht => ?_⟩, hnew, rfl, fun _ h => h⟩
  · rcases (hmem k).1 hk with rfl | hk
    · exact .inl rfl
    · exact .inr hk
  · change g.nodes[m]? = some node at hm
    rw [hnodes, if_neg fun heq : m = c => hw (heq ▸ List.mem_append_right _ (by simp))] at hm
    exact hm
  · rintro m - - - l' σ ⟨d, v, hrelies, hd, hl, hσ⟩
    refine .inl ⟨d, v, ?_, hold d v hd, hl, hσ⟩
    exact hrelies.imp (fun ⟨e', he⟩ => ⟨e', (hmem _).2 (.inr he)⟩) id
  · rintro - - l' t ⟨d, v, hrelies, hd, hl, hsub⟩
    refine ⟨d, v, ?_, hold d v hd, hl, hsub⟩
    refine hrelies.imp id fun ⟨⟨e', he⟩, honly⟩ => ⟨⟨e', (hmem _).2 (.inr he)⟩, fun k hk ht => ?_⟩
    rcases (hmem k).1 hk with rfl | hk
    · rfl
    · exact honly k hk ht
  · rcases (hmem k).1 hk with rfl | hk
    · rfl
    · exact absurd ht (hunlinked k hk)

end Exploration

end Cegar

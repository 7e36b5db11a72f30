import Cegar.Proofs.Exploration.Shape
import Cegar.Proofs.Exploration.Worklist
import Cegar.Proofs.LoopHeads

/-!
# Exploration changes the graph in few ways

Every operation of exploration is a sequence of changes, as long as no state is merged into the one
that it succeeds. The marks of the automaton see to that: a location with an edge to itself is a
loop head, and there blocks are completed.

* **`Problem.Unlooped`**: no state is merged into the one that it succeeds;
* **`Exploration.Expands`**: what an operation does to graph and analysis;
* **`Exploration.Takes.expands`**: a step does so, whatever its outcome;
* **`Exploration.Arises`**: the explorations that arise from a start;
* **`Exploration.Arises.changes`**: their graphs are in shape and have come about by changes.
-/

namespace Cegar

variable {p : Problem}

/-! ## Edges from a location to itself -/

namespace Automaton

/-- A location that can be reached and has an edge to itself is a loop head. -/
theorem loopHead_of_selfLoop {A : Automaton} {nodes : Array Node} {edges : Array Edge}
    {entry l : Location} (hbuild : build? nodes edges entry = some A) {edge : Edge}
    (hedge : edge ∈ A.edges) (hsource : edge.source = l) (htarget : edge.target = l)
    (hreach : l ∈ reachable (endpoints A.edges) A.entry) {node : Node}
    (hnode : A.nodes[l.idx]? = some node) : node.loopHead = true := by
  unfold build? at hbuild
  split at hbuild
  · cases hbuild
    -- every way to the source of the edge ends in the location itself
    have hhead : isLoopHead edges entry l = true :=
      isLoopHead_iff.2 ⟨edge, hedge, htarget, hsource ▸ mem_reachable_endpoints.1 hreach,
        hsource ▸ fun _ hway => hway.end_mem⟩
    dsimp only at hnode
    rw [Array.getElem?_mapIdx] at hnode
    obtain ⟨n, -, rfl⟩ := Option.map_eq_some_iff.1 hnode
    show (n.loopHead || isLoopHead edges entry ⟨l.idx⟩) = true
    rw [show (⟨l.idx⟩ : Location) = l from rfl, hhead, Bool.or_true]
  · cases hbuild

end Automaton

/-- At a loop head blocks are completed, if the policy says so. -/
theorem Policy.Completes.eq_true_of_loopHead {policy : Policy} (hheads : policy.atLoopHeads = true)
    (hor : policy.combination = .or) {A : Automaton} {l : Location} {size : Nat} {b : Bool}
    (h : policy.Completes A l size b) {node : Node} (hnode : A.nodes[l.idx]? = some node)
    (hhead : node.loopHead = true) : b = true := by
  obtain ⟨node', reached, hnode', -, rfl⟩ := h
  cases hnode.symm.trans hnode'
  simp [Policy.abstracts, Policy.structural, hheads, hor, hhead]

/-- No state is merged into the one that it succeeds: at a location with an edge to itself a block is
completed, or nothing is merged. -/
def Problem.Unlooped (p : Problem) : Prop :=
  p.options.merge = .join →
    ∀ l ∈ reachable (Automaton.endpoints p.automaton.edges) p.automaton.entry, ¬ p.OpenStep l l

/-- Options that rule out merging a state into the one it succeeds: abstraction at loop heads, since
a location with an edge to itself is one, or no merging. -/
theorem Problem.unlooped {nodes : Array Node} {edges : Array Edge} {entry : Location}
    (hbuild : Automaton.build? nodes edges entry = some p.automaton)
    (hoptions : (p.options.atLoopHeads = true ∧ p.options.combination = .or) ∨
      p.options.merge = .sep) : p.Unlooped := by
  rintro hjoin l hl ⟨edge, hedge, hsource, htarget, size, hcompletes⟩
  rcases hoptions with ⟨hheads, hor⟩ | hsep
  · obtain ⟨node, reached, hnode, -⟩ := id hcompletes
    have hhead := Automaton.loopHead_of_selfLoop hbuild hedge hsource htarget hl hnode
    cases hcompletes.eq_true_of_loopHead hheads hor hnode hhead
  · rw [hjoin] at hsep
    cases hsep

/-! ## Removing what is below a node -/

namespace Graph

variable {g g' : Graph} {n m r : NodeId}

/-- Removing several subtrees removes what their roots lead to. -/
theorem contains_removeAll (cs : List (NodeId × EdgeId)) (hg : g.WellFormed) :
    (cs.foldl (fun g (c : NodeId × EdgeId) => (g.removeSubtree c.1).2) g).contains m = true ↔
      g.contains m = true ∧ ∀ c ∈ cs, ¬ g.Reaches c.1 m := by
  induction cs generalizing g with
  | nil => simp
  | cons c cs ih =>
    have hshrinks := Shrinks.removeSubtree hg c.1
    have hfirst : (g.removeSubtree c.1).2.contains m = true ↔
        g.contains m = true ∧ ¬ g.Reaches c.1 m := by
      cases hc : g.contains c.1 with
      | true => exact contains_removeSubtree hc m
      | false =>
        have heq : g.removeSubtree c.1 = ([], g) := by simp [removeSubtree, hc]
        rw [heq]
        refine ⟨fun hm => ⟨hm, fun hreach => ?_⟩, And.left⟩
        rw [contains_source_of_reaches hg hm hreach] at hc
        cases hc
    rw [List.foldl_cons, ih (hg.removeSubtree c.1), hfirst, and_assoc, List.forall_mem_cons]
    refine and_congr_right fun hm => and_congr_right fun hfree => forall₂_congr fun d _ => ?_
    -- a node that is left is reached from where it was
    refine not_congr ⟨fun h => h.mono fun l hl => ((hshrinks.links l).1 hl).1, fun h => ?_⟩
    exact (hshrinks.reaches h (hfirst.2 ⟨hm, hfree⟩)).2

theorem links_addRoot (g : Graph) (s : State) (l : Location) : (g.addRoot s l).2.links = g.links := by
  unfold addRoot addNode
  cases g.free <;> rfl

/-- The state of one node is replaced. -/
theorem gains_replace (hg : g.WellFormed) {v : GraphNode} {s : State}
    (hr : g.nodes[r]? = some v) : g.Gains r { v with state := s } none (g.replace r s) := by
  refine ⟨hg.replace, fun m => ?_, fun k => ?_, ?_⟩
  · rw [getElem?_replace, hr]
    rfl
  · unfold replace
    split <;> simp
  · unfold replace
    split <;> rfl

/-- The node also gets an edge. -/
theorem Gains.addEdge {g'' : Graph} {v : GraphNode} {k : Link} (h : g.Gains r v none g')
    (hk : g'.addEdge k = .ok g'') : g.Gains r v (some k) g'' := by
  obtain ⟨hwf, hnodes, hroot, hlinks⟩ := addEdge_ok h.wellFormed hk
  refine ⟨hwf, fun m => ?_, fun l => ?_, hroot.trans h.root⟩
  · rw [hnodes, h.nodes]
  · rw [hlinks, h.links]
    simp [eq_comm]

/-- The locations of nodes can be reached from the entry. -/
theorem Shaped.mem_reachable {arena : Arena} (h : Shaped p arena g) {node : GraphNode}
    (hn : g.nodes[n]? = some node) :
    node.location ∈ reachable (Automaton.endpoints p.automaton.edges) p.automaton.entry := by
  obtain ⟨r, hr, hreach⟩ := h.wellFormed.rooted n (contains_iff.2 ⟨node, hn⟩)
  obtain ⟨id, s, hroot, -⟩ := h.root r hr
  rw [mem_reachable_iff]
  induction hreach generalizing node with
  | refl =>
    cases hroot.symm.trans hn
    exact .refl
  | tail _ hlink ih =>
    obtain ⟨e, he⟩ := hlink
    obtain ⟨u, hu⟩ := contains_iff.1 (h.wellFormed.source _ he)
    obtain ⟨edge, hedge, hsource, htarget⟩ := (h.leads _ he u node hu hn).edge
    refine (ih hu).tail (List.mem_map.2 ⟨edge, ?_, ?_⟩)
    · exact Array.mem_toList_iff.2 (Automaton.mem_edges_of_getElem? hedge)
    · rw [hsource, htarget]

end Graph

namespace Exploration

variable {x x' x'' : Exploration} {a a' a'' : Analysis} {n r : NodeId}

/-- What is left is what the node does not lead to, and it has no children any more. -/
theorem cutBelow_spec (hx : x.graph.WellFormed) (r : NodeId) :
    (x.cutBelow r).graph.WellFormed ∧ x.graph.Shrinks (x.cutBelow r).graph ∧
      (∀ m, x.graph.contains m = true → (x.cutBelow r).graph.contains m = false →
        Relation.TransGen x.graph.Linked r m) ∧
      ∀ k ∈ (x.cutBelow r).graph.links, k.source ≠ r := by
  obtain ⟨hremoves, -⟩ := removes_cutBelow hx r
  have hcontains (m : NodeId) : (x.cutBelow r).graph.contains m = true ↔
      x.graph.contains m = true ∧ ∀ c ∈ x.graph.children r, ¬ x.graph.Reaches c.1 m := by
    rw [← Graph.contains_removeAll _ hx]
    exact iff_of_eq (congrArg (fun g => Graph.contains g m = true) (prune_spec _).1)
  refine ⟨hremoves.graph, hremoves.shrinks, fun m hm hgone => ?_, fun k hk heq => ?_⟩
  · have hsome : ∃ c ∈ x.graph.children r, x.graph.Reaches c.1 m := by
      refine Classical.byContradiction fun hnone => ?_
      rw [(hcontains m).2 ⟨hm, fun c hc hreach => hnone ⟨c, hc, hreach⟩⟩] at hgone
      cases hgone
    obtain ⟨c, hc, hreach⟩ := hsome
    exact Relation.TransGen.head' ⟨c.2, Graph.mem_children.1 hc⟩ hreach
  · obtain ⟨hlink, ht⟩ := (hremoves.shrinks.links k).1 hk
    refine ((hcontains k.target).1 ht).2 (k.target, k.label) (Graph.mem_children.2 ?_) .refl
    rw [← heq]
    exact hlink

/-! ## What an operation does -/

/-- What holds between the operations. -/
structure Standing (p : Problem) (x : Exploration) (a : Analysis) : Prop where
  legal : a.Legal p.automaton
  anchored : a.Anchored
  policy : a.precision.policy = p.options.toPolicy
  shaped : x.graph.Shaped p a.arena

/-- The graph goes through some changes while the analysis develops. -/
structure Expands (p : Problem) (x : Exploration) (a : Analysis) (x' : Exploration)
    (a' : Analysis) : Prop where
  changes : Graph.Changes p x.graph a.arena x'.graph a'.arena
  develops : a.Develops p.automaton a'

namespace Expands

/-- The analysis may be used while the graph stays as it is. -/
theorem refl (ha : a.Legal p.automaton) (hgraph : x'.graph = x.graph) : Expands p x a x' a :=
  ⟨hgraph ▸ .refl, .refl ha⟩

theorem trans (h : Expands p x a x' a') (h' : Expands p x' a' x'' a'') : Expands p x a x'' a'' :=
  ⟨h.changes.trans h'.changes, h.develops.trans h'.develops⟩

/-- The analysis alone may develop. -/
theorem of_develops (h : a.Develops p.automaton a') (hgraph : x'.graph = x.graph) :
    Expands p x a x' a' :=
  ⟨hgraph ▸ .states .refl h.extends_arena, h⟩

/-- What holds between the operations holds after them, since every change keeps the shape of the
graph. -/
theorem standing (h : Expands p x a x' a') (hx : Standing p x a) : Standing p x' a' where
  legal := h.develops.legal
  anchored := h.develops.anchored hx.anchored
  policy := h.develops.policy.trans hx.policy
  shaped := h.changes.shaped hx.shaped

end Expands

/-! ## Merging -/

/-- The node is still there, or it was removed when one of its successors was merged into a node
above it. -/
def Hosts (p : Problem) (g : Graph) (n : NodeId) (node : GraphNode) : Prop :=
  g.nodes[n]? = some node ∨ (g.nodes[n]? = none ∧ p.OpenCycle)

/-- A successor of a node, along an edge that leaves it. -/
structure Follow (p : Problem) (arena : Arena) (node : GraphNode) (e : EdgeId) (t : State) :
    Prop where
  succeeds : node.state.Succeeds p p.options.toPolicy arena e t
  leaves : e ∈ p.automaton.leaving node.location
  legal : t.Legal p.automaton arena

/-- A successor that is inside the block of its node is at a location that an edge leads to without
completing the block. -/
theorem Follow.openStep {arena : Arena} {node : GraphNode} {e : EdgeId} {u : Inner}
    (harena : arena.Legal p.automaton) (h : Follow p arena node e (.inner u)) :
    p.OpenStep node.location u.location ∧ node.state.owner? = some u.owner := by
  obtain ⟨edge', hedge', hsource⟩ := Automaton.mem_leaving.1 h.leaves
  cases h.succeeds with
  | inner hedge hblock _ hpolicy =>
    cases hedge.symm.trans hedge'
    refine ⟨⟨_, Automaton.mem_edges_of_getElem? hedge, hsource, rfl, _, hpolicy⟩, ?_⟩
    exact hblock.owner? harena

/-- If the node of a successor is below a node of the same block at the location of the successor,
the program can go round without completing a block. -/
theorem Standing.openCycle (hx : Standing p x a) {node : GraphNode} {e : EdgeId} {u v : Inner}
    {l : Location} (hn : x.graph.nodes[n]? = some node)
    (hfollow : Follow p a.arena node e (.inner u)) (hr : x.graph.nodes[r]? = some ⟨.inner v, l⟩)
    (howner : u.owner = v.owner) (hlocation : u.location = v.location)
    (hbelow : x.graph.Reaches r n) : p.OpenCycle := by
  obtain ⟨hstep, hnode⟩ := hfollow.openStep hx.legal.arena
  have hplace : v.location = l := by
    have hplace := hx.shaped.place r _ hr
    cases hplace
    rfl
  obtain ⟨-, hsteps⟩ :=
    hx.shaped.openSteps hx.legal.arena hx.anchored.chained hbelow hr hn rfl hnode
  refine ⟨l, Relation.TransGen.tail' (hsteps howner.symm) ?_⟩
  rw [hlocation, hplace] at hstep
  exact hstep

/-- A successor of a node at its own location starts the next block. -/
theorem Standing.ne_of_follow (hx : Standing p x a) (hp : p.Unlooped)
    (hjoin : p.options.merge = .join) {node : GraphNode} {e : EdgeId} {u v : Inner} {l : Location}
    (hn : x.graph.nodes[n]? = some node) (hfollow : Follow p a.arena node e (.inner u))
    (hr : x.graph.nodes[r]? = some ⟨.inner v, l⟩) (hlocation : u.location = v.location) :
    r ≠ n := by
  rintro rfl
  cases hn.symm.trans hr
  have hplace := hx.shaped.place r _ hr
  cases hplace
  obtain ⟨hstep, -⟩ := hfollow.openStep hx.legal.arena
  rw [hlocation] at hstep
  exact hp hjoin _ (hx.shaped.mem_reachable hr) hstep

/-- The graph after `u` was merged into what is at the node `r`, and what was below it is removed. -/
def absorb (x : Exploration) (r : NodeId) (u v : Inner) : Graph :=
  (x.cutBelow r).graph.replace r (.inner (Inner.merge u.toSegment v.toSegment))

/-- A node loses its children and comes to stand for more, with an edge from the host if that is
still there. -/
theorem Standing.absorb {node : GraphNode} {e : EdgeId} {u v : Inner} {l : Location} {g : Graph}
    (hx : Standing p x a) (hp : p.Unlooped) (hjoin : p.options.merge = .join)
    (hhosts : Hosts p x.graph n node) (hfollow : Follow p a.arena node e (.inner u))
    (hr : x.graph.nodes[r]? = some ⟨.inner v, l⟩) (howner : u.owner = v.owner)
    (hlocation : u.location = v.location)
    (hg : (x.absorb r u v).contains n = false ∧ g = x.absorb r u v ∨
      (x.absorb r u v).contains n = true ∧ (x.absorb r u v).addEdge ⟨n, r, e⟩ = .ok g) :
    Graph.Changes p x.graph a.arena g a.arena ∧ Hosts p g n node := by
  obtain ⟨hwf, hshrinks, hbelow, hsink⟩ := cutBelow_spec hx.shaped.wellFormed r
  -- the node is not below itself
  have hkept : (x.cutBelow r).graph.nodes[r]? = some ⟨.inner v, l⟩ := by
    refine hshrinks.kept hr ?_
    cases hc : (x.cutBelow r).graph.contains r with
    | true => rfl
    | false =>
      exact absurd (hbelow r (Graph.contains_iff.2 ⟨_, hr⟩) hc) (hx.shaped.acyclic r)
  have hhosts' : Hosts p (x.cutBelow r).graph n node := by
    rcases hhosts with hn | ⟨hnone, hcycle⟩
    · cases hc : (x.cutBelow r).graph.contains n with
      | true => exact .inl (hshrinks.kept hn hc)
      | false =>
        have hreach := hbelow n (Graph.contains_iff.2 ⟨_, hn⟩) hc
        exact .inr ⟨Graph.contains_eq_false_iff.1 hc,
          hx.openCycle hn hfollow hr howner hlocation hreach.to_reflTransGen⟩
    · refine .inr ⟨?_, hcycle⟩
      cases hc : (x.cutBelow r).graph.nodes[n]? with
      | none => rfl
      | some node' => cases hnone.symm.trans (hshrinks.nodes n node' hc)
  have hgains := Graph.gains_replace (s := .inner (Inner.merge u.toSegment v.toSegment)) hwf hkept
  have hremove : Graph.Changes p x.graph a.arena (x.cutBelow r).graph a.arena :=
    .single (.remove hwf hshrinks)
  have hsame {k : Option Link} {g' : Graph} (hne : r ≠ n)
      (h : (x.cutBelow r).graph.Gains r ⟨.inner (Inner.merge u.toSegment v.toSegment), l⟩ k g') :
      g'.nodes[n]? = (x.cutBelow r).graph.nodes[n]? := by
    rw [h.nodes, if_neg hne.symm]
  rcases hg with ⟨hgone, rfl⟩ | ⟨hc, hedge⟩
  · -- the host went with the children of the node
    have hnone := Graph.contains_eq_false_iff.1 hgone
    have hne : r ≠ n := by
      rintro rfl
      rw [Exploration.absorb, hgains.nodes, if_pos rfl] at hnone
      cases hnone
    rw [Exploration.absorb, hsame hne hgains] at hnone
    have hcycle : p.OpenCycle := by
      rcases hhosts' with hn | ⟨-, hcycle⟩
      · cases hnone.symm.trans hn
      · exact hcycle
    exact ⟨.tail hremove (.orphan hjoin hcycle hfollow.legal hkept hsink howner hlocation hgains),
      .inr ⟨(hsame hne hgains).trans hnone, hcycle⟩⟩
  · have hn : (x.cutBelow r).graph.nodes[n]? = some node := by
      rcases hhosts' with hn | ⟨hnone, -⟩
      · exact hn
      · obtain ⟨node', hnode'⟩ := Graph.contains_iff.1 hc
        rw [Exploration.absorb, hgains.nodes] at hnode'
        split at hnode'
        · next heq =>
          subst heq
          cases hkept.symm.trans hnone
        · cases hnone.symm.trans hnode'
    have hne := hx.ne_of_follow hp hjoin (hshrinks.nodes n node hn) hfollow hr hlocation
    have hgains' := hgains.addEdge hedge
    exact ⟨.tail hremove (.merge hjoin hn hfollow.succeeds hfollow.leaves hfollow.legal hkept hne hsink
      howner hlocation hgains'), .inl ((hsame hne hgains').trans hn)⟩

/-- Merging a successor of a node into another one. -/
theorem mergeInto_expands (hp : p.Unlooped) (hjoin : p.options.merge = .join)
    (hx : Standing p x a) {node : GraphNode} (hhosts : Hosts p x.graph n node) {e : EdgeId}
    {t : State} (hfollow : Follow p a.arena node e t)
    (h : x.mergeInto p n e t r a = .ok (x', a')) :
    Expands p x a x' a' ∧ a'.arena = a.arena ∧ Hosts p x'.graph n node := by
  unfold mergeInto at h
  cases hr : x.graph.nodes[r]? with
  | none =>
    simp only [hr] at h
    cases state_pure_ok.1 h
    exact ⟨.refl hx.legal rfl, rfl, hhosts⟩
  | some w =>
    simp only [hr] at h
    obtain ⟨merged, a₁, hmerge, h₁⟩ := state_bind_ok.1 h
    obtain ⟨hdevelops, harena⟩ := Analysis.merge?_develops hx.legal hmerge
    have hidle : Expands p x a x a₁ ∧ a₁.arena = a.arena ∧ Hosts p x.graph n node :=
      ⟨.of_develops hdevelops rfl, harena, hhosts⟩
    cases merged with
    | none =>
      cases state_pure_ok.1 h₁
      exact hidle
    | some merged =>
      obtain ⟨hnone, -⟩ | ⟨u, v, -, -, rfl, hw, howner, hlocation, -, heq, -⟩ :=
        Analysis.merge?_cases hx.legal.cache hmerge
      · cases hnone
      · cases heq
        obtain ⟨state, l⟩ := w
        cases hw
        dsimp only at h₁
        split at h₁
        · cases state_pure_ok.1 h₁
          exact hidle
        -- the edge is left out if the node that it comes from was below the other one
        · have hdone {g : Graph} {y : Exploration} (hy : y.graph = g)
              (hg : (x.absorb r u v).contains n = false ∧ g = x.absorb r u v ∨
                (x.absorb r u v).contains n = true ∧
                  (x.absorb r u v).addEdge ⟨n, r, e⟩ = .ok g) :
              Expands p x a y a₁ ∧ a₁.arena = a.arena ∧ Hosts p y.graph n node := by
            obtain ⟨hchanges, hhosts'⟩ :=
              hx.absorb hp hjoin hhosts hfollow hr howner hlocation hg
            subst hy
            exact ⟨⟨by rwa [harena], hdevelops⟩, harena, hhosts'⟩
          split at h₁
          · next hgone =>
            obtain ⟨-, -, hbelow, -⟩ := cutBelow_spec hx.shaped.wellFormed r
            have hreach := hbelow r (Graph.contains_iff.2 ⟨_, hr⟩) (by simpa using hgone)
            exact absurd hreach (hx.shaped.acyclic r)
          · split at h₁
            · next hc =>
              obtain ⟨g, a₂, hlift, h₂⟩ := state_bind_ok.1 h₁
              obtain ⟨hg, rfl⟩ := state_lift_ok.1 hlift
              cases state_pure_ok.1 h₂
              exact hdone rfl (.inr ⟨hc, hg⟩)
            · next hc =>
              cases h₁
              exact hdone rfl (.inl ⟨Bool.eq_false_iff.2 hc, rfl⟩)

/-- Merging a successor into every node that was reached at its location changes the graph step by
step, and the node under expansion stays or was removed by a merge above it. -/
theorem mergeIntoAll_expands (hp : p.Unlooped) (hjoin : p.options.merge = .join)
    (hx : Standing p x a) {node : GraphNode} (hhosts : Hosts p x.graph n node) {e : EdgeId}
    {t : State} (hfollow : Follow p a.arena node e t) {rs : List NodeId}
    (h : mergeIntoAll p n e t rs x a = .ok (x', a')) :
    Expands p x a x' a' ∧ a'.arena = a.arena ∧ Hosts p x'.graph n node := by
  induction rs generalizing x a with
  | nil =>
    cases state_pure_ok.1 h
    exact ⟨.refl hx.legal rfl, rfl, hhosts⟩
  | cons r rs ih =>
    obtain ⟨x₁, a₁, hfirst, hrest⟩ := state_bind_ok.1 h
    obtain ⟨hexpands, harena, hhosts₁⟩ := mergeInto_expands hp hjoin hx hhosts hfollow hfirst
    obtain ⟨hexpands', harena', hhosts'⟩ :=
      ih (hexpands.standing hx) hhosts₁ (harena ▸ hfollow) hrest
    exact ⟨hexpands.trans hexpands', harena'.trans harena, hhosts'⟩

/-! ## Steps -/

/-- Looking for a node that covers a state asks the solver and adds no state. -/
theorem coverAmong_develops (ha : a.Legal p.automaton) {s : State} {rs : List NodeId}
    {r : Option NodeId} (h : x.coverAmong p s rs a = .ok (r, a')) :
    a.Develops p.automaton a' ∧ a'.arena = a.arena := by
  induction rs generalizing a with
  | nil =>
    cases state_pure_ok.1 h
    exact ⟨.refl ha, rfl⟩
  | cons c rs ih =>
    unfold coverAmong at h
    cases hnode : x.graph.nodes[c]? with
    | none =>
      simp only [hnode] at h
      exact ih ha h
    | some node =>
      simp only [hnode] at h
      obtain ⟨b, a₁, hb, h₁⟩ := state_bind_ok.1 h
      obtain ⟨hdevelops, harena⟩ := Analysis.covers_develops ha hb
      cases b with
      | true =>
        cases state_pure_ok.1 h₁
        exact ⟨hdevelops, harena⟩
      | false =>
        obtain ⟨hdevelops', harena'⟩ := ih hdevelops.legal h₁
        exact ⟨hdevelops.trans hdevelops', harena'.trans harena⟩

/-- Placing one successor: it is merged, covered, or becomes a new child, and each of these is a
change of the graph. -/
theorem addSuccessor_expands (hp : p.Unlooped) (hx : Standing p x a) {node : GraphNode}
    (hhosts : Hosts p x.graph n node) {e : EdgeId} {t : State}
    (hfollow : Follow p a.arena node e t) {l : Location}
    (hplace : t.location? a.arena = .ok (some l))
    (h : x.addSuccessor p n e t l a = .ok (x', a')) :
    Expands p x a x' a' ∧ a'.arena = a.arena ∧ Hosts p x'.graph n node := by
  obtain ⟨x₁, a₁, hmerge, h₁⟩ := state_bind_ok.1 h
  have hmerged : Expands p x a x₁ a₁ ∧ a₁.arena = a.arena ∧ Hosts p x₁.graph n node := by
    cases hkind : p.options.merge with
    | sep =>
      simp only [mergeSuccessor, hkind] at hmerge
      cases state_pure_ok.1 hmerge
      exact ⟨.refl hx.legal rfl, rfl, hhosts⟩
    | join =>
      simp only [mergeSuccessor, hkind] at hmerge
      exact mergeIntoAll_expands hp hkind hx hhosts hfollow hmerge
  obtain ⟨hexpands, harena, hhosts₁⟩ := hmerged
  obtain ⟨cover, a₂, hcover, h₂⟩ := state_bind_ok.1 h₁
  obtain ⟨hdevelops, harena₂⟩ := coverAmong_develops hexpands.develops.legal hcover
  have hidle {y : Exploration} (hy : y.graph = x₁.graph) : Expands p x a y a₂ :=
    hexpands.trans (.of_develops hdevelops hy)
  have harena' := harena₂.trans harena
  split at h₂
  -- the node under expansion was removed by a merge
  · cases state_pure_ok.1 h₂
    exact ⟨hidle rfl, harena', hhosts₁⟩
  · next hleft =>
    simp only [Bool.not_eq_true', Bool.not_eq_false] at hleft
    cases cover with
    | some c =>
      cases state_pure_ok.1 h₂
      exact ⟨hidle rfl, harena', hhosts₁⟩
    | none =>
      obtain ⟨⟨c, g⟩, a₃, hlift, h₃⟩ := state_bind_ok.1 h₂
      obtain ⟨hchild, rfl⟩ := state_lift_ok.1 hlift
      cases state_pure_ok.1 h₃
      have hn : x₁.graph.nodes[n]? = some node := by
        rcases hhosts₁ with hn | ⟨hnone, -⟩
        · exact hn
        · rw [Graph.contains_eq_false_iff.2 hnone] at hleft
          cases hleft
      obtain ⟨hwf, hfresh, hnodes, hlinks, hroot⟩ :=
        Graph.addChild_ok (hexpands.standing hx).shaped.wellFormed hleft hchild
      have hgains : x₁.graph.Gains c ⟨t, l⟩ (some ⟨n, c, e⟩) g := by
        refine ⟨hwf, hnodes, fun k => ?_, hroot⟩
        rw [hlinks, List.mem_cons, Option.some.injEq, eq_comm]
      have hchange : Graph.Change p a'.arena x₁.graph g := by
        rw [harena']
        exact .child hn hfollow.succeeds hfollow.leaves hfollow.legal hplace hfresh hgains
      refine ⟨⟨(hidle rfl).changes.tail hchange, (hidle (y := x₁) rfl).develops⟩, harena', .inl ?_⟩
      show g.nodes[n]? = some node
      rw [hnodes, if_neg, hn]
      rintro rfl
      cases hfresh.symm.trans hn

/-- Placing the successors of a node one after the other. The invariant is that the node is still
there, or was removed by a merge above it. -/
theorem addSuccessors_expands (hp : p.Unlooped) (hx : Standing p x a) {node : GraphNode}
    (hhosts : Hosts p x.graph n node) {rs : List (EdgeId × State)}
    (hrs : ∀ e t, (e, t) ∈ rs → Follow p a.arena node e t)
    (h : addSuccessors p n rs x a = .ok (x', a')) : Expands p x a x' a' := by
  induction rs generalizing x a with
  | nil =>
    cases state_pure_ok.1 h
    exact .refl hx.legal rfl
  | cons et rs ih =>
    obtain ⟨e, t⟩ := et
    unfold addSuccessors at h
    split at h
    · cases state_pure_ok.1 h
      exact .refl hx.legal rfl
    · obtain ⟨b, a₁, hb, h₁⟩ := state_bind_ok.1 h
      cases state_get_ok.1 hb
      obtain ⟨l?, a₁, hlift, h₂⟩ := state_bind_ok.1 h₁
      obtain ⟨hplace, rfl⟩ := state_lift_ok.1 hlift
      have hrs' := fun e' t' hmem => hrs e' t' (List.mem_cons_of_mem _ hmem)
      cases l? with
      | none => exact ih hx hhosts hrs' h₂
      | some l =>
        obtain ⟨x₁, a₂, hfirst, h₃⟩ := state_bind_ok.1 h₂
        obtain ⟨hexpands, harena, hhosts₁⟩ :=
          addSuccessor_expands hp hx hhosts (hrs e t (by simp)) hplace hfirst
        exact hexpands.trans (ih (hexpands.standing hx) hhosts₁ (harena ▸ hrs') h₃)

/-- Whether a state is at an error location is only looked up. -/
theorem isTarget_develops {s : State} {b : Bool} (h : Analysis.isTarget p s a = .ok (b, a')) :
    a' = a := by
  obtain ⟨c, a₁, hc, h₁⟩ := state_bind_ok.1 h
  cases state_get_ok.1 hc
  obtain ⟨r, a₁, hlift, h₂⟩ := state_bind_ok.1 h₁
  obtain ⟨-, rfl⟩ := state_lift_ok.1 hlift
  cases r with
  | none =>
    cases state_pure_ok.1 h₂
    rfl
  | some l =>
    obtain ⟨node, a₁, hlift, h₃⟩ := state_bind_ok.1 h₂
    obtain ⟨-, rfl⟩ := state_lift_ok.1 hlift
    cases state_pure_ok.1 h₃
    rfl

/-- What a step can do. -/
inductive Takes (p : Problem) (x : Exploration) (a : Analysis) :
    Option Outcome → Exploration → Analysis → Prop
  | complete : Takes p x a (some .complete) x a
  | gone {w : List NodeId} : Takes p x a none (x.took w) a
  | target {n : NodeId} {w : List NodeId} {node : GraphNode} (hn : x.graph.nodes[n]? = some node) :
    Takes p x a (some (.target n)) (x.took w) a
  | failed {n : NodeId} {w : List NodeId} {node : GraphNode} {e : Error} {a' : Analysis}
    (hn : x.graph.nodes[n]? = some node)
    (hr : Analysis.successors p a.precision node.state a = .ok (.error e, a')) :
    Takes p x a (some (.failed e)) (x.took w) a'
  | expanded {n : NodeId} {w : List NodeId} {node : GraphNode} {rs : List (EdgeId × State)}
    {a₁ a' : Analysis} {x' : Exploration} (hn : x.graph.nodes[n]? = some node)
    (hr : Analysis.successors p a.precision node.state a = .ok (.ok rs, a₁))
    (hadd : addSuccessors p n rs (x.took w) a₁ = .ok (x', a')) : Takes p x a none x' a'

/-- With an empty waitlist the exploration is complete. Otherwise the node that is taken is gone, a
target, fails or is expanded. -/
theorem step_takes {o : Option Outcome} (h : x.step p a = .ok ((o, x'), a')) :
    Takes p x a o x' a' := by
  unfold step at h
  cases hwait : x.waitlist with
  | nil =>
    simp only [hwait] at h
    cases state_pure_ok.1 h
    exact .complete
  | cons n w =>
    simp only [hwait] at h
    split at h
    · obtain ⟨_, a₁, hthrow, -⟩ := state_bind_ok.1 h
      exact absurd hthrow state_throw_ok
    · cases hn : x.graph.nodes[n]? with
      | none =>
        simp only [hn] at h
        cases state_pure_ok.1 h
        exact .gone
      | some node =>
        simp only [hn] at h
        obtain ⟨b, a₁, hb, h₁⟩ := state_bind_ok.1 h
        cases isTarget_develops hb
        cases b with
        | true =>
          cases state_pure_ok.1 h₁
          exact .target hn
        | false =>
          obtain ⟨c, a₁, hc, h₂⟩ := state_bind_ok.1 h₁
          cases state_get_ok.1 hc
          obtain ⟨r, a₁, hr, h₃⟩ := state_bind_ok.1 h₂
          cases r with
          | error e =>
            cases state_pure_ok.1 h₃
            exact .failed hn hr
          | ok rs =>
            obtain ⟨x₁, a₂, hadd, h₄⟩ := state_bind_ok.1 h₃
            cases state_pure_ok.1 h₄
            exact .expanded hn hr hadd

/-- A step, whatever its outcome. -/
theorem Takes.expands (hp : p.Unlooped) (hx : Standing p x a) {o : Option Outcome}
    (h : Takes p x a o x' a') : Expands p x a x' a' := by
  cases h with
  | complete | gone | target => exact .refl hx.legal rfl
  | @failed n w node e _ hn hr =>
    exact .of_develops (Analysis.successors_develops hx.legal (hx.shaped.legal n node hn) hr) rfl
  | @expanded n w node rs a₁ _ _ hn hr hadd =>
    have hs := hx.shaped.legal n node hn
    have hfirst : Expands p x a (x.took w) a₁ :=
      .of_develops (Analysis.successors_develops hx.legal hs hr) rfl
    refine hfirst.trans (addSuccessors_expands hp (hfirst.standing hx) (.inl hn)
      (fun e t hmem => ?_) hadd)
    obtain ⟨hsucceeds, l, hl, hleaves⟩ := Analysis.mem_successors hx.legal hs hr e t hmem
    rw [hx.policy] at hsucceeds
    have hplace := hx.shaped.place n node hn
    rw [hl] at hplace
    cases hplace
    exact ⟨hsucceeds, hleaves,
      (Analysis.successors_legal hx.legal hs hr).2 rs rfl t (List.mem_map_of_mem hmem)⟩

/-! ## Starting -/

/-- Making the root is the first change of an empty graph. -/
theorem addRoot_expands (hx : Standing p x a)
    (hempty : ∀ m : NodeId, x.graph.nodes[m]? = none) (h : x.addRoot p a = .ok (x', a')) :
    Expands p x a x' a' := by
  obtain ⟨s, a₁, hs, h₁⟩ := state_bind_ok.1 h
  obtain ⟨hdevelops, hinitial⟩ := Analysis.initialState_develops hx.legal hs
  obtain ⟨id, t, rfl, hget, hl, hprevious⟩ := hinitial hx.anchored
  rcases hadd : x.graph.addRoot (.abstraction id) p.automaton.entry with ⟨r, g⟩
  simp only [hadd] at h₁
  cases state_pure_ok.1 h₁
  obtain ⟨hwf, hroot, hnodes⟩ := Graph.addRoot_eq hx.shaped.wellFormed hempty hadd
  -- without nodes there are no edges
  have hlinks : g.links = [] := by
    refine List.eq_nil_iff_forall_not_mem.2 fun k hk => ?_
    have hsame := Graph.links_addRoot x.graph (.abstraction id) p.automaton.entry
    rw [hadd] at hsame
    obtain ⟨node, hnode⟩ := Graph.contains_iff.1 (hx.shaped.wellFormed.source k (hsame ▸ hk))
    cases (hempty _).symm.trans hnode
  exact ⟨.tail (.states .refl hdevelops.extends_arena)
    (.root hget hl hprevious hwf hnodes hlinks hroot), hdevelops⟩

/-- Starting again from a node removes what is below it. -/
theorem restartFrom_expands (hx : Standing p x a) (h : x.restartFrom p n a = .ok (x', a')) :
    Expands p x a x' a' := by
  have hwf := hx.shaped.wellFormed.removeSubtree n
  have hshrinks := Graph.Shrinks.removeSubtree hx.shaped.wellFormed n
  unfold restartFrom at h
  generalize x.graph.removeSubtree n = result at h hwf hshrinks
  obtain ⟨parents, g⟩ := result
  dsimp only at h hwf hshrinks
  have hremove {y : Exploration} (hy : y.graph = g) : Expands p x a y a :=
    ⟨hy ▸ .single (.remove hwf hshrinks), .refl hx.legal⟩
  have hgraph : (prune { x with graph := g }).graph = g := (prune_spec _).1
  cases hroot : g.root with
  | none =>
    simp only [hroot] at h
    have hfirst : Expands p x a { prune { x with graph := g } with covered := [] } a :=
      hremove hgraph
    refine hfirst.trans (addRoot_expands (hfirst.standing hx) (fun m => ?_) h)
    show (prune { x with graph := g }).graph.nodes[m]? = none
    rw [hgraph]
    exact hshrinks.nodes_eq_none hx.shaped.wellFormed hroot m
  | some r =>
    simp only [hroot] at h
    cases state_pure_ok.1 h
    obtain ⟨-, hsame, -, -⟩ := foldl_enqueueNew (fun m => m) parents (prune { x with graph := g })
    exact hremove (hsame.trans hgraph)

/-! ## Explorations that arise -/

/-- The explorations that arise from a start with any analysis of a session that has the policy of
the options, with numbers freed in any order. -/
inductive Arises (p : Problem) : Exploration → Analysis → Prop
  | start {freeing : Freeing} {given : List State} {a₀ a : Analysis} {x : Exploration}
    (hsession : Session p given a₀) (hpolicy : a₀.precision.policy = p.options.toPolicy)
    (hstart : start freeing p a₀ = .ok (x, a)) : Arises p x a
  | step {x x' : Exploration} {a a' : Analysis} {o : Option Outcome} (hx : Arises p x a)
    (hstep : x.step p a = .ok ((o, x'), a')) : Arises p x' a'
  | refine {x : Exploration} {a a' : Analysis} {path : Path} {r : Except Error Refinement}
    (hx : Arises p x a) (hrefine : Analysis.refine p x.graph path a = .ok (r, a')) :
    Arises p x a'
  | restart {x x' : Exploration} {a a' : Analysis} {n : NodeId} (hx : Arises p x a)
    (hrestart : x.restartFrom p n a = .ok (x', a')) : Arises p x' a'

/-- Explorations between two steps arise from a start with a new analysis. -/
theorem Reached.arises {short : NodeId → Prop} (h : Reached p x a short) : Arises p x a := by
  induction h with
  | start hnew hstart =>
    refine .start (.start hnew) ?_ hstart
    obtain ⟨solver, -, h⟩ := except_bind_ok.1 hnew
    cases h
    rfl
  | step _ hstep _ ih => exact ih.step hstep
  | refine _ hrefine ih => exact ih.refine hrefine
  | restart _ hrestart ih => exact ih.restart hrestart

/-- What arises has come about by changes. -/
theorem Arises.changes (hp : p.Unlooped) (h : Arises p x a) :
    Standing p x a ∧
      ∃ freeing arena, Graph.Changes p (Graph.empty freeing) arena x.graph a.arena := by
  have htail {x x' : Exploration} {a a' : Analysis} (hexpands : Expands p x a x' a')
      (h : Standing p x a ∧
        ∃ freeing arena, Graph.Changes p (Graph.empty freeing) arena x.graph a.arena) :
      Standing p x' a' ∧
        ∃ freeing arena, Graph.Changes p (Graph.empty freeing) arena x'.graph a'.arena := by
    obtain ⟨hx, freeing, arena, hchanges⟩ := h
    exact ⟨hexpands.standing hx, freeing, arena, hchanges.trans hexpands.changes⟩
  induction h with
  | @start freeing _ _ _ _ hsession hpolicy hstart =>
    have hempty : Standing p (empty freeing) _ :=
      ⟨hsession.legal.1, hsession.anchored, hpolicy, Graph.shaped_empty freeing⟩
    exact htail (addRoot_expands hempty (by simp [empty, Graph.empty]) hstart)
      ⟨hempty, freeing, _, .refl⟩
  | step _ hstep ih => exact htail ((step_takes hstep).expands hp ih.1) ih
  | refine _ hrefine ih =>
    exact htail (.of_develops (Analysis.refine_develops ih.1.legal hrefine).1 rfl) ih
  | restart _ hrestart ih => exact htail (restartFrom_expands ih.1 hrestart) ih

/-- The graph of every exploration that arises is in shape. -/
theorem Arises.standing (hp : p.Unlooped) (h : Arises p x a) : Standing p x a := (h.changes hp).1

end Exploration

end Cegar

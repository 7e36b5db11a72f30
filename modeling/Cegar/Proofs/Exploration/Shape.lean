import Cegar.Proofs.Analysis.Inspection
import Cegar.Proofs.Analysis.Transfer
import Cegar.Proofs.Graph

/-!
# The shape of the explored graph

The graph changes in few ways: nodes are removed with all that is below them, a root is added, and a
node gets an edge to a successor, which is a new node or has been merged into a node without
children. Every other claim about the graph is a matter of going through these changes.

* **`Graph.Change`**: one change, with the abstraction states at that time;
* **`Graph.Shaped`**: edges lead from states to their successors, up to merging, and never back;
* **`Graph.Changes.shaped`**: changes keep the graph in shape;
* **`Graph.Shaped.follows`**: along an edge a block goes on or is completed.
-/

namespace Cegar

variable {p : Problem} {arena arena' : Arena}

/-! ## Parts of merged states -/

/-- The second segment is the first one, or others have been merged with it. -/
inductive Segment.Part (A : Automaton) (arena : Arena) (s : Segment) : Segment → Prop
  | self : Part A arena s s
  | left {u v : Segment} (h : Part A arena s u) (hu : u.Legal A arena) :
    Part A arena s (Inner.merge u v).toSegment
  | right {u v : Segment} (h : Part A arena s v) (hv : v.Legal A arena)
    (howner : u.owner = v.owner) (hlocation : u.location = v.location) :
    Part A arena s (Inner.merge u v).toSegment

/-- Segments stay legal. -/
theorem Segment.Legal.mono {A : Automaton} {s : Segment} (h : s.Legal A arena)
    (hext : arena.Extends arena') : s.Legal A arena' := by
  obtain ⟨owner, hget, hpath⟩ := h
  exact ⟨owner, hext _ _ hget, hpath⟩

/-- The union of two legal segments of one block is legal. -/
theorem Segment.Legal.merge {A : Automaton} {s t : Segment} (h : s.Legal A arena)
    (howner : s.owner = t.owner) (h' : t.Legal A arena) :
    (Inner.merge s t).toSegment.Legal A arena := by
  obtain ⟨owner, hget, hs⟩ := h
  obtain ⟨owner', hget', ht⟩ := h'
  rw [← howner] at hget'
  cases hget.symm.trans hget'
  exact ⟨owner, hget, hs.or ht⟩

namespace Segment.Part

variable {A : Automaton} {s t : Segment}

/-- A part stays one when abstraction states are added. -/
theorem mono (h : s.Part A arena t) (hext : arena.Extends arena') : s.Part A arena' t := by
  induction h with
  | self => exact .self
  | left _ hu ih => exact .left ih (hu.mono hext)
  | right _ hv howner hlocation ih => exact .right ih (hv.mono hext) howner hlocation

/-- Merging stays inside a block. -/
theorem owner (h : s.Part A arena t) : t.owner = s.owner := by
  induction h with
  | self => rfl
  | left _ _ ih => exact ih
  | right _ _ howner _ ih => exact howner.trans ih

end Segment.Part

/-- The second state is the first one, or others have been merged with it. -/
def State.Part (A : Automaton) (arena : Arena) : State → State → Prop
  | .inner s, .inner t => s.toSegment.Part A arena t.toSegment
  | .abstraction i, .abstraction j => i = j
  | _, _ => False

namespace State

variable {A : Automaton} {policy : Policy} {s t u : State} {e : EdgeId} {l : Location}

theorem Part.mono (h : s.Part A arena t) (hext : arena.Extends arena') : s.Part A arena' t := by
  cases s <;> cases t <;> first | exact h | exact Segment.Part.mono h hext

/-- Every state at a location is part of itself. -/
theorem part_self (h : s.location? arena = .ok (some l)) : s.Part A arena s := by
  cases s with
  | top | bottom => cases h
  | abstraction id => rfl
  | inner s => exact .self

/-- A block in progress belongs to the abstraction state where it starts. -/
theorem InBlock.owner? {owner : AbstractionState} {path : PathFormula} {size : Nat}
    (harena : arena.Legal A) (h : s.InBlock arena owner path size) :
    s.owner? = some owner.id := by
  cases h with
  | start hget => rw [harena.id _ _ hget]; rfl
  | inside hget => rw [harena.id _ _ hget]; rfl

/-- A successor is at the target of the edge. -/
theorem Succeeds.location? (h : s.Succeeds p policy arena e t) :
    ∃ edge, p.automaton.edges[e.idx]? = some edge ∧
      t.location? arena = .ok (some edge.target) := by
  cases h with
  | inner hedge => exact ⟨_, hedge, rfl⟩
  | abstraction hedge _ _ _ hget hlocation =>
    refine ⟨_, hedge, ?_⟩
    simp only [State.location?, Arena.get, hget, ← hlocation]
    rfl

/-- An edge that leaves the location of a state leads to the location of the successor. -/
theorem Succeeds.between (h : s.Succeeds p policy arena e t) {m : Location}
    (hleaves : e ∈ p.automaton.leaving l) (ht : t.location? arena = .ok (some m)) :
    ∃ edge, p.automaton.edges[e.idx]? = some edge ∧ edge.source = l ∧ edge.target = m := by
  obtain ⟨edge, hedge, htarget⟩ := h.location?
  obtain ⟨edge', hedge', hsource⟩ := Automaton.mem_leaving.1 hleaves
  cases hedge.symm.trans hedge'
  rw [ht] at htarget
  cases htarget
  exact ⟨edge, hedge, hsource, rfl⟩

/-- A state that others were merged with comes after what the state comes after. -/
theorem Succeeds.follows (harena : arena.Legal p.automaton) (h : s.Succeeds p policy arena e t)
    (hpart : t.Part p.automaton arena u) : u.Follows arena s.owner? := by
  cases h with
  | inner _ hblock =>
    cases u with
    | top | bottom | abstraction => exact hpart.elim
    | inner u =>
      rw [hblock.owner? harena]
      exact congrArg some (Segment.Part.owner hpart)
  | abstraction _ hblock _ _ hget _ hprevious =>
    cases u with
    | top | bottom | inner => exact hpart.elim
    | abstraction j =>
      cases hpart
      rw [hblock.owner? harena]
      exact ⟨_, hget, hprevious⟩

end State

/-! ## Edges of the graph -/

/-- The first node has an edge to the second one: its successor along an edge of the program is, or
was merged into, what is at the second node. -/
structure GraphNode.Leads (p : Problem) (arena : Arena) (u : GraphNode) (e : EdgeId)
    (v : GraphNode) : Prop where
  edge : ∃ edge, p.automaton.edges[e.idx]? = some edge ∧ edge.source = u.location ∧
    edge.target = v.location
  successor : ∃ t, u.state.Succeeds p p.options.toPolicy arena e t ∧
    t.Part p.automaton arena v.state

/-- Edges stay justified when abstraction states are added. -/
theorem GraphNode.Leads.mono {u v : GraphNode} {e : EdgeId} (h : u.Leads p arena e v)
    (hext : arena.Extends arena') : u.Leads p arena' e v := by
  obtain ⟨t, hsucceeds, hpart⟩ := h.successor
  exact ⟨h.edge, t, hsucceeds.mono hext, hpart.mono hext⟩

/-- More can be merged into the second node. -/
theorem GraphNode.Leads.merge {w : GraphNode} {e : EdgeId} {u v : Inner} {l : Location}
    (h : w.Leads p arena e ⟨.inner v, l⟩) (howner : u.owner = v.owner)
    (hlocation : u.location = v.location) (hv : v.toSegment.Legal p.automaton arena) :
    w.Leads p arena e ⟨.inner (Inner.merge u.toSegment v.toSegment), l⟩ := by
  obtain ⟨t, hsucceeds, hpart⟩ := h.successor
  refine ⟨h.edge, t, hsucceeds, ?_⟩
  cases t with
  | top | bottom | abstraction => exact hpart.elim
  | inner t => exact .right hpart hv howner hlocation

/-! ## Cycles inside blocks -/

/-- An edge of the program may lead from one location to the other without completing a block. -/
def Problem.OpenStep (p : Problem) (l m : Location) : Prop :=
  ∃ edge ∈ p.automaton.edges, edge.source = l ∧ edge.target = m ∧
    ∃ size, p.options.toPolicy.Completes p.automaton m size false

/-- The program can go round without completing a block. -/
def Problem.OpenCycle (p : Problem) : Prop := ∃ l, Relation.TransGen p.OpenStep l l

namespace Graph

variable {g g' g'' : Graph}

/-! ## Changes -/

/-- The graph with another node at a number, and perhaps with one more edge. -/
structure Gains (g : Graph) (n : NodeId) (node : GraphNode) (link : Option Link) (g' : Graph) :
    Prop where
  wellFormed : g'.WellFormed
  nodes : ∀ m : NodeId, g'.nodes[m]? = if m = n then some node else g.nodes[m]?
  links : ∀ k, k ∈ g'.links ↔ link = some k ∨ k ∈ g.links
  root : g'.root = g.root

/-- What happens to the graph during exploration. -/
inductive Change (p : Problem) (arena : Arena) (g g' : Graph) : Prop
  | remove (hwf : g'.WellFormed) (hshrinks : g.Shrinks g')
  | root {r : NodeId} {id : AbstractionId} {s : AbstractionState}
    (hget : arena.get? id = some s) (hplace : s.location = p.automaton.entry)
    (hprevious : s.previous = none) (hwf : g'.WellFormed)
    (hnodes : ∀ m : NodeId, g'.nodes[m]? =
      if m = r then some ⟨.abstraction id, p.automaton.entry⟩ else none)
    (hlinks : g'.links = []) (hroot : g'.root = some r)
  /-- A successor becomes a new node. -/
  | child {n c : NodeId} {e : EdgeId} {t : State} {l : Location} {node : GraphNode}
    (hn : g.nodes[n]? = some node)
    (hsucceeds : node.state.Succeeds p p.options.toPolicy arena e t)
    (hleaves : e ∈ p.automaton.leaving node.location) (hlegal : t.Legal p.automaton arena)
    (hplace : t.location? arena = .ok (some l)) (hfresh : g.nodes[c]? = none)
    (hgains : g.Gains c ⟨t, l⟩ (some ⟨n, c, e⟩) g')
  /-- A successor is merged into another node, which has no children. -/
  | merge {n r : NodeId} {e : EdgeId} {u v : Inner} {l : Location} {node : GraphNode}
    (hjoin : p.options.merge = .join) (hn : g.nodes[n]? = some node)
    (hsucceeds : node.state.Succeeds p p.options.toPolicy arena e (.inner u))
    (hleaves : e ∈ p.automaton.leaving node.location) (hlegal : u.toSegment.Legal p.automaton arena)
    (hr : g.nodes[r]? = some ⟨.inner v, l⟩) (hne : r ≠ n) (hsink : ∀ k ∈ g.links, k.source ≠ r)
    (howner : u.owner = v.owner) (hlocation : u.location = v.location)
    (hgains : g.Gains r ⟨.inner (Inner.merge u.toSegment v.toSegment), l⟩ (some ⟨n, r, e⟩) g')
  /-- The node with the successor was removed when the node that it is merged into lost its
  children. -/
  | orphan {r : NodeId} {u v : Inner} {l : Location}
    (hjoin : p.options.merge = .join) (hcycle : p.OpenCycle) (hlegal : u.toSegment.Legal p.automaton arena)
    (hr : g.nodes[r]? = some ⟨.inner v, l⟩) (hsink : ∀ k ∈ g.links, k.source ≠ r)
    (howner : u.owner = v.owner) (hlocation : u.location = v.location)
    (hgains : g.Gains r ⟨.inner (Inner.merge u.toSegment v.toSegment), l⟩ none g')

/-- A sequence of changes, while abstraction states are added. -/
inductive Changes (p : Problem) (g : Graph) (arena : Arena) : Graph → Arena → Prop
  | refl : Changes p g arena g arena
  | states {g' : Graph} {arena' arena'' : Arena} (h : Changes p g arena g' arena')
    (hext : arena'.Extends arena'') : Changes p g arena g' arena''
  | tail {g' g'' : Graph} {arena' : Arena} (h : Changes p g arena g' arena')
    (hlast : Change p arena' g' g'') : Changes p g arena g'' arena'

theorem Changes.single (h : Change p arena g g') : Changes p g arena g' arena := .tail .refl h

theorem Changes.trans {arena'' : Arena} (h : Changes p g arena g' arena')
    (h' : Changes p g' arena' g'' arena'') : Changes p g arena g'' arena'' := by
  induction h' with
  | refl => exact h
  | states _ hext ih => exact .states ih hext
  | tail _ hlast ih => exact .tail ih hlast

/-! ## Graphs in shape -/

/-- What the changes keep up. -/
structure Shaped (p : Problem) (arena : Arena) (g : Graph) : Prop where
  wellFormed : g.WellFormed
  legal : ∀ (n : NodeId) (node : GraphNode), g.nodes[n]? = some node →
    node.state.Legal p.automaton arena
  place : ∀ (n : NodeId) (node : GraphNode), g.nodes[n]? = some node →
    node.state.location? arena = .ok (some node.location)
  leads : ∀ k ∈ g.links, ∀ u v, g.nodes[k.source]? = some u → g.nodes[k.target]? = some v →
    u.Leads p arena k.label v
  root : ∀ r, g.root = some r → ∃ id s, g.nodes[r]? = some ⟨.abstraction id, p.automaton.entry⟩ ∧
    arena.get? id = some s ∧ s.previous = none
  unentered : ∀ r, g.root = some r → ∀ k ∈ g.links, k.target ≠ r
  /-- Nodes can be numbered so that edges lead to larger numbers. -/
  ranked : ∃ rank : NodeId → Nat, ∀ k ∈ g.links, rank k.source < rank k.target

/-- The empty graph has no edge to justify. -/
theorem shaped_empty (freeing : Freeing) : Shaped p arena (empty freeing) where
  wellFormed := wellFormed_empty freeing
  legal n node h := by simp [empty] at h
  place n node h := by simp [empty] at h
  leads k hk := by cases hk
  root r hr := by cases hr
  unentered r hr := by cases hr
  ranked := ⟨fun _ => 0, fun k hk => by cases hk⟩

namespace Shaped

/-- The shape does not depend on abstraction states that are added. -/
theorem mono (h : Shaped p arena g) (hext : arena.Extends arena') : Shaped p arena' g where
  wellFormed := h.wellFormed
  legal n node hn := (h.legal n node hn).mono hext
  place n node hn := State.location?_mono (h.place n node hn) hext
  leads k hk u v hu hv := (h.leads k hk u v hu hv).mono hext
  root r hr := by
    obtain ⟨id, s, hnode, hget, hprevious⟩ := h.root r hr
    exact ⟨id, s, hnode, hext _ _ hget, hprevious⟩
  unentered := h.unentered
  ranked := h.ranked

/-- What is left of a graph after a removal has the shape of the graph: its edges and their ends are
as before. -/
theorem shrinks (h : Shaped p arena g) (hwf : g'.WellFormed) (hs : g.Shrinks g') :
    Shaped p arena g' where
  wellFormed := hwf
  legal n node hn := h.legal n node (hs.nodes n node hn)
  place n node hn := h.place n node (hs.nodes n node hn)
  leads k hk u v hu hv :=
    h.leads k ((hs.links k).1 hk).1 u v (hs.nodes _ u hu) (hs.nodes _ v hv)
  root r hr := by
    obtain ⟨hr, hc⟩ := (hs.root r).1 hr
    obtain ⟨id, s, hnode, hget, hprevious⟩ := h.root r hr
    exact ⟨id, s, hs.kept hnode hc, hget, hprevious⟩
  unentered r hr k hk := h.unentered r ((hs.root r).1 hr).1 k ((hs.links k).1 hk).1
  ranked := by
    obtain ⟨rank, hrank⟩ := h.ranked
    exact ⟨rank, fun k hk => hrank k ((hs.links k).1 hk).1⟩

/-- A node without children may change, and get an edge from another node, if all edges to it lead
to what it becomes. -/
theorem gains (h : Shaped p arena g) {c : NodeId} {w : GraphNode} {link : Option Link}
    (hgains : g.Gains c w link g') (hsink : ∀ k ∈ g.links, k.source ≠ c)
    (hlegal : w.state.Legal p.automaton arena)
    (hplace : w.state.location? arena = .ok (some w.location)) (hroot : g.root ≠ some c)
    (hold : ∀ v, g.nodes[c]? = some v → ∀ (u : GraphNode) (e : EdgeId), u.Leads p arena e v →
      u.Leads p arena e w)
    (hnew : ∀ k, link = some k → k.target = c ∧ k.source ≠ c ∧
      ∃ u, g.nodes[k.source]? = some u ∧ u.Leads p arena k.label w) : Shaped p arena g' := by
  have hnode {m : NodeId} {node : GraphNode} (hm : g'.nodes[m]? = some node) :
      (m = c ∧ node = w) ∨ (m ≠ c ∧ g.nodes[m]? = some node) := by
    rw [hgains.nodes] at hm
    split at hm
    · next heq =>
      cases hm
      exact .inl ⟨heq, rfl⟩
    · next hne => exact .inr ⟨hne, hm⟩
  refine ⟨hgains.wellFormed, fun m node hm => ?_, fun m node hm => ?_, fun k hk u v hu hv => ?_,
    fun r hr => ?_, fun r hr k hk => ?_, ?_⟩
  · obtain ⟨-, rfl⟩ | ⟨-, hm⟩ := hnode hm
    · exact hlegal
    · exact h.legal m node hm
  · obtain ⟨-, rfl⟩ | ⟨-, hm⟩ := hnode hm
    · exact hplace
    · exact h.place m node hm
  · rcases (hgains.links k).1 hk with hk | hk
    · obtain ⟨htarget, hsource, u', hu', hleads⟩ := hnew k hk
      obtain ⟨heq, -⟩ | ⟨-, hu⟩ := hnode hu
      · exact absurd heq hsource
      · obtain ⟨-, rfl⟩ | ⟨hne, -⟩ := hnode hv
        · cases hu'.symm.trans hu
          exact hleads
        · exact absurd htarget hne
    · obtain ⟨heq, -⟩ | ⟨-, hu⟩ := hnode hu
      · exact absurd heq (hsink k hk)
      · obtain ⟨heq, rfl⟩ | ⟨-, hv⟩ := hnode hv
        -- an edge to the node led to what it was
        · obtain ⟨v', hv'⟩ := contains_iff.1 (h.wellFormed.target k hk)
          exact hold v' (heq ▸ hv') u k.label (h.leads k hk u v' hu hv')
        · exact h.leads k hk u v hu hv
  · rw [hgains.root] at hr
    obtain ⟨id, s, hid, hget, hprevious⟩ := h.root r hr
    refine ⟨id, s, ?_, hget, hprevious⟩
    rw [hgains.nodes, if_neg (fun heq : r = c => hroot (heq ▸ hr)), hid]
  · rw [hgains.root] at hr
    rcases (hgains.links k).1 hk with hk | hk
    · rw [(hnew k hk).1]
      exact fun heq => hroot (heq ▸ hr)
    · exact h.unentered r hr k hk
  · obtain ⟨rank, hrank⟩ := h.ranked
    -- the node can be moved up, since no edge leads away from it
    refine ⟨fun m => if m = c then rank c + 1 + (link.elim 0 fun k => rank k.source) else rank m,
      fun k hk => ?_⟩
    dsimp only
    rcases (hgains.links k).1 hk with hk | hk
    · obtain ⟨htarget, hsource, -⟩ := hnew k hk
      rw [if_neg hsource, if_pos htarget, hk]
      show rank k.source < rank c + 1 + rank k.source
      omega
    · rw [if_neg (hsink k hk)]
      have hlt := hrank k hk
      split
      · next heq =>
        rw [heq] at hlt
        omega
      · exact hlt

end Shaped

/-- The root is an abstraction state. -/
theorem Shaped.root_ne_inner (h : Shaped p arena g) {r : NodeId} {v : Inner} {l : Location}
    (hr : g.nodes[r]? = some ⟨.inner v, l⟩) : g.root ≠ some r := by
  intro hroot
  obtain ⟨id, s, hid, -⟩ := h.root r hroot
  cases hr.symm.trans hid

/-- A node inside a block is at the location of its state. -/
theorem Shaped.location_inner (h : Shaped p arena g) {r : NodeId} {v : Inner} {l : Location}
    (hr : g.nodes[r]? = some ⟨.inner v, l⟩) : v.location = l := by
  have hplace := h.place r _ hr
  cases hplace
  rfl

/-- No edge leads from a node that is not there. -/
theorem WellFormed.source_ne (hg : g.WellFormed) {c : NodeId} (hc : g.nodes[c]? = none) :
    ∀ k ∈ g.links, k.source ≠ c := by
  rintro k hk rfl
  obtain ⟨node, hnode⟩ := contains_iff.1 (hg.source k hk)
  cases hc.symm.trans hnode

/-- Every change keeps the shape of the graph: new edges are justified by the successor that they
bring, old ones by what is left of the states at their ends. -/
theorem Change.shaped (h : Change p arena g g') (hg : Shaped p arena g) : Shaped p arena g' := by
  cases h with
  | remove hwf hshrinks => exact hg.shrinks hwf hshrinks
  | @root r id s hget hplace hprevious hwf hnodes hlinks hroot =>
    -- there is one node and no edge
    have hr : g'.nodes[r]? = some ⟨.abstraction id, p.automaton.entry⟩ := by
      rw [hnodes, if_pos rfl]
    have hnode {m : NodeId} {node : GraphNode} (hm : g'.nodes[m]? = some node) :
        node = ⟨.abstraction id, p.automaton.entry⟩ := by
      rw [hnodes] at hm
      split at hm
      · exact (Option.some.inj hm).symm
      · cases hm
    refine ⟨hwf, fun m node hm => ?_, fun m node hm => ?_, fun k hk => ?_, fun r' hr' => ?_,
      fun r' hr' k hk => ?_, ⟨fun _ => 0, fun k hk => ?_⟩⟩
    · rw [hnode hm]
      exact ⟨s, hget⟩
    · rw [hnode hm]
      simp only [State.location?, Arena.get, hget, ← hplace]
      rfl
    · rw [hlinks] at hk
      cases hk
    · cases hroot.symm.trans hr'
      exact ⟨id, s, hr, hget, hprevious⟩
    · rw [hlinks] at hk
      cases hk
    · rw [hlinks] at hk
      cases hk
  | @child n c e t l node hn hsucceeds hleaves hlegal hplace hfresh hgains =>
    -- the number was free, so no edge starts at the new node
    refine hg.gains hgains (hg.wellFormed.source_ne hfresh) hlegal hplace (fun hroot => ?_)
      (fun v hv => ?_) fun k hk => ?_
    · obtain ⟨id, s, hid, -⟩ := hg.root c hroot
      cases hfresh.symm.trans hid
    · cases hfresh.symm.trans hv
    · cases hk
      refine ⟨rfl, ?_, node, hn, ?_, t, hsucceeds, State.part_self hplace⟩
      · rintro (heq : n = c)
        rw [heq] at hn
        cases hfresh.symm.trans hn
      · exact hsucceeds.between hleaves hplace
  | @merge n r e u v l node _ hn hsucceeds hleaves hlegal hr hne hsink howner hlocation hgains =>
    have hv := hg.location_inner hr
    refine hg.gains hgains hsink (hlegal.merge howner (hg.legal r _ hr))
      (by rw [← hv, ← hlocation]; rfl) (hg.root_ne_inner hr) (fun w hw w' d hleads => ?_)
      fun k hk => ?_
    -- what edges have brought there before is part of the union
    · cases hr.symm.trans hw
      exact hleads.merge howner hlocation (hg.legal r _ hr)
    · cases hk
      refine ⟨rfl, hne.symm, node, hn, ?_, _, hsucceeds, .left .self hlegal⟩
      exact hsucceeds.between hleaves (by rw [← hv, ← hlocation]; rfl)
  | @orphan r u v l _ hcycle hlegal hr hsink howner hlocation hgains =>
    have hv := hg.location_inner hr
    refine hg.gains hgains hsink (hlegal.merge howner (hg.legal r _ hr))
      (by rw [← hv, ← hlocation]; rfl) (hg.root_ne_inner hr) (fun w hw w' d hleads => ?_)
      fun k hk => by cases hk
    cases hr.symm.trans hw
    exact hleads.merge howner hlocation (hg.legal r _ hr)

/-- Any number of changes keeps the shape. -/
theorem Changes.shaped (h : Changes p g arena g' arena') (hg : Shaped p arena g) :
    Shaped p arena' g' := by
  induction h with
  | refl => exact hg
  | states _ hext ih => exact ih.mono hext
  | tail _ hlast ih => exact hlast.shaped ih

/-! ## What the shape is good for -/

namespace Shaped

variable {n m : NodeId} {u v : GraphNode}

/-- Along an edge a block goes on or is completed. -/
theorem follows (h : Shaped p arena g) (harena : arena.Legal p.automaton) {k : Link}
    (hk : k ∈ g.links) (hu : g.nodes[k.source]? = some u) (hv : g.nodes[k.target]? = some v) :
    v.state.Follows arena u.state.owner? := by
  obtain ⟨t, hsucceeds, hpart⟩ := (h.leads k hk u v hu hv).successor
  exact hsucceeds.follows harena hpart

/-- A rank that grows along every edge grows along every path. -/
theorem rank_lt {rank : NodeId → Nat} (hrank : ∀ k ∈ g.links, rank k.source < rank k.target)
    (h : Relation.TransGen g.Linked n m) : rank n < rank m := by
  induction h with
  | single hlink =>
    obtain ⟨e, he⟩ := hlink
    exact hrank _ he
  | tail _ hlink ih =>
    obtain ⟨e, he⟩ := hlink
    exact Nat.lt_trans ih (hrank _ he)

/-- There are no cycles. -/
theorem acyclic (h : Shaped p arena g) (n : NodeId) : ¬ Relation.TransGen g.Linked n n := by
  obtain ⟨rank, hrank⟩ := h.ranked
  exact fun hcycle => Nat.lt_irrefl _ (rank_lt hrank hcycle)

/-- Every state in the graph is in a block. -/
theorem inBlock (h : Shaped p arena g) (hu : g.nodes[n]? = some u) :
    ∃ owner path size, u.state.InBlock arena owner path size := by
  have hplace := h.place n u hu
  refine (h.legal n u hu).inBlock (fun heq => ?_) fun heq => ?_
  · rw [heq] at hplace
    cases hplace
  · rw [heq] at hplace
    cases hplace

/-- Along an edge the owner does not get older. If it stays the same, the block goes on. -/
theorem owner_le (h : Shaped p arena g) (harena : arena.Legal p.automaton)
    (hchained : arena.Chained) {k : Link} (hk : k ∈ g.links) (hu : g.nodes[k.source]? = some u)
    (hv : g.nodes[k.target]? = some v) {i j : AbstractionId} (hi : u.state.owner? = some i)
    (hj : v.state.owner? = some j) :
    i.idx ≤ j.idx ∧ (i = j → p.OpenStep u.location v.location) := by
  obtain ⟨⟨edge, hedge, hsource, htarget⟩, t, hsucceeds, hpart⟩ := h.leads k hk u v hu hv
  have hfollows := h.follows harena hk hu hv
  cases hsucceeds with
  | inner hedge' _ _ hpolicy =>
    cases hedge.symm.trans hedge'
    cases hstate : v.state with
    | top | bottom | abstraction =>
      rw [hstate] at hpart
      exact hpart.elim
    | inner w =>
      rw [hstate, hi] at hfollows
      rw [hstate] at hj
      cases hj.symm.trans hfollows
      refine ⟨Nat.le_refl _, fun _ => ⟨edge, Automaton.mem_edges_of_getElem? hedge, hsource,
        htarget, _, htarget ▸ hpolicy⟩⟩
  | abstraction =>
    cases hstate : v.state with
    | top | bottom | inner =>
      rw [hstate] at hpart
      exact hpart.elim
    | abstraction id =>
      rw [hstate, hi] at hfollows
      obtain ⟨s, hget, hprevious⟩ := hfollows
      rw [hstate] at hj
      cases hj
      have hlt := hchained _ s hget i hprevious
      exact ⟨Nat.le_of_lt hlt, fun heq => absurd (heq ▸ hlt) (Nat.lt_irrefl _)⟩

/-- Between nodes of one block there are nodes of that block only. -/
theorem openSteps (h : Shaped p arena g) (harena : arena.Legal p.automaton)
    (hchained : arena.Chained) (hreach : g.Reaches n m) (hu : g.nodes[n]? = some u)
    (hv : g.nodes[m]? = some v) {i j : AbstractionId} (hi : u.state.owner? = some i)
    (hj : v.state.owner? = some j) :
    i.idx ≤ j.idx ∧ (i = j → Relation.ReflTransGen p.OpenStep u.location v.location) := by
  induction hreach generalizing v j with
  | refl =>
    cases hu.symm.trans hv
    cases hi.symm.trans hj
    exact ⟨Nat.le_refl _, fun _ => .refl⟩
  | @tail b c _ hlink ih =>
    obtain ⟨e, he⟩ := hlink
    obtain ⟨w, hw⟩ := contains_iff.1 (h.wellFormed.source _ he)
    obtain ⟨owner, path, size, hblock⟩ := h.inBlock hw
    have hk := hblock.owner? harena
    obtain ⟨hle, hsteps⟩ := ih hw hk
    obtain ⟨hle', hstep⟩ := h.owner_le harena hchained he hw hv hk hj
    refine ⟨Nat.le_trans hle hle', fun heq => ?_⟩
    -- in between, the owner is neither older nor younger
    have hsame : i = owner.id := by
      subst heq
      have : i.idx = owner.id.idx := Nat.le_antisymm hle hle'
      cases i
      cases hid : owner.id
      simp_all
    exact (hsteps hsame).tail (hstep (hsame.symm.trans heq))

end Shaped

end Graph

end Cegar

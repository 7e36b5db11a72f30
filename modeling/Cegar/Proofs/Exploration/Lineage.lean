import Cegar.Proofs.Exploration.Changes

/-!
# Where states come from

The state at a node is made of the successors that the edges to the node bring: it is one of them, or
the union of several. For this no successor may be merged without an edge, which happens only if the
program can go round without completing a block. Without merging, the edge to a node brings its
state.

* **`Graph.Explained`**: all states are made of what edges bring;
* **`Graph.Unmerged`**: every edge brings the state at its end;
* **`Exploration.Arises.explained`**, **`Exploration.Arises.unmerged`**: when this is so.
-/

namespace Cegar

variable {p : Problem} {arena arena' : Arena}

/-- The segment is one of those with a property, or the union of several. -/
inductive Segment.MadeOf (P : Segment → Prop) : Segment → Prop
  | one {s : Segment} (h : P s) : MadeOf P s
  | union {s t : Segment} (hs : MadeOf P s) (ht : MadeOf P t) (howner : s.owner = t.owner) :
    MadeOf P (Inner.merge s t).toSegment

theorem Segment.MadeOf.mono {P Q : Segment → Prop} (hPQ : ∀ s, P s → Q s) {s : Segment}
    (h : s.MadeOf P) : s.MadeOf Q := by
  induction h with
  | one h => exact .one (hPQ _ h)
  | union _ _ howner ihs iht => exact .union ihs iht howner

/-- The state is one of those with a property, or the union of several. -/
def State.MadeOf (P : State → Prop) : State → Prop
  | .inner s => s.toSegment.MadeOf fun t => P (.inner ⟨t, none⟩)
  | s => P s

theorem State.MadeOf.mono {P Q : State → Prop} (hPQ : ∀ s, P s → Q s) {s : State}
    (h : s.MadeOf P) : s.MadeOf Q := by
  cases s with
  | top | bottom | abstraction => exact hPQ _ h
  | inner s => exact Segment.MadeOf.mono (fun t => hPQ _) h

namespace Graph

variable {g g' : Graph} {n : NodeId}

/-- An edge to the node brings the state: it is the successor of the state at the other end. -/
def Brings (p : Problem) (arena : Arena) (g : Graph) (n : NodeId) (t : State) : Prop :=
  ∃ k ∈ g.links, k.target = n ∧ ∃ u, g.nodes[k.source]? = some u ∧
    u.state.Succeeds p p.options.toPolicy arena k.label t

/-- All states but the one at the root are made of what edges bring. -/
def Explained (p : Problem) (arena : Arena) (g : Graph) : Prop :=
  ∀ (n : NodeId) (node : GraphNode), g.nodes[n]? = some node → g.root ≠ some n →
    node.state.MadeOf (g.Brings p arena n)

/-- Every edge brings the state at its end. -/
def Unmerged (p : Problem) (arena : Arena) (g : Graph) : Prop :=
  ∀ k ∈ g.links, ∀ u v, g.nodes[k.source]? = some u → g.nodes[k.target]? = some v →
    u.state.Succeeds p p.options.toPolicy arena k.label v.state

/-- What an edge brings it brings in any graph that has the edge and the node at its start. -/
theorem Brings.keep {t : State} (h : g.Brings p arena n t)
    (hlinks : ∀ k ∈ g.links, k.target = n → k ∈ g'.links)
    (hnodes : ∀ k ∈ g.links, k.target = n → g'.nodes[k.source]? = g.nodes[k.source]?) :
    g'.Brings p arena n t := by
  obtain ⟨k, hk, ht, u, hu, hsucceeds⟩ := h
  exact ⟨k, hlinks k hk ht, ht, u, (hnodes k hk ht).trans hu, hsucceeds⟩

theorem Brings.mono {t : State} (h : g.Brings p arena n t) (hext : arena.Extends arena') :
    g.Brings p arena' n t := by
  obtain ⟨k, hk, ht, u, hu, hsucceeds⟩ := h
  exact ⟨k, hk, ht, u, hu, hsucceeds.mono hext⟩

/-! ## One change -/

/-- A node without children may change and get an edge, if what it becomes is made of what the edges
bring then. -/
theorem Explained.gains (h : Explained p arena g) {c : NodeId} {w : GraphNode}
    {link : Option Link} (hgains : g.Gains c w link g') (hsink : ∀ k ∈ g.links, k.source ≠ c)
    (hnew : (∀ t, g.Brings p arena c t → g'.Brings p arena c t) →
      w.state.MadeOf (g'.Brings p arena c)) : Explained p arena g' := by
  have hkeep {m : NodeId} (t : State) (hb : g.Brings p arena m t) : g'.Brings p arena m t := by
    refine hb.keep (fun k hk _ => (hgains.links k).2 (.inr hk)) fun k hk _ => ?_
    rw [hgains.nodes, if_neg (hsink k hk)]
  intro m node hm hroot
  rw [hgains.nodes] at hm
  rw [hgains.root] at hroot
  split at hm
  · next heq =>
    cases hm
    rw [heq]
    exact hnew hkeep
  · exact (h m node hm hroot).mono hkeep

/-- Every change keeps states explained. A node that is merged into gets one more edge, which brings
the other part; a removal cuts the edges to what is removed only. -/
theorem Change.explained (h : Change p arena g g') (hg : g.Shaped p arena)
    (hcycle : p.options.merge = .join → ¬ p.OpenCycle) (he : g.Explained p arena) :
    g'.Explained p arena := by
  cases h with
  | remove hwf hshrinks =>
    intro m node hm hroot
    have hc : g'.contains m = true := contains_iff.2 ⟨node, hm⟩
    have hbefore : g.root ≠ some m := fun hr => hroot ((hshrinks.root m).2 ⟨hr, hc⟩)
    -- what leads to a node that is left is left as well
    refine (he m node (hshrinks.nodes m node hm) hbefore).mono fun t hb => hb.keep ?_ ?_
    · exact fun k hk ht => (hshrinks.links k).2 ⟨hk, ht ▸ hc⟩
    · intro k hk ht
      have hs := hshrinks.source k ((hshrinks.links k).2 ⟨hk, ht ▸ hc⟩)
      obtain ⟨u, hu⟩ := contains_iff.1 hs
      rw [hu, hshrinks.nodes _ u hu]
  | @root r id s _ _ _ _ hnodes _ hroot =>
    intro m node hm hne
    rw [hnodes] at hm
    split at hm
    · next heq => exact absurd (heq ▸ hroot) hne
    · cases hm
  | @child n c e t l node hn hsucceeds _ _ _ hfresh hgains =>
    refine he.gains hgains (hg.wellFormed.source_ne hfresh) fun _ => ?_
    have hb : g'.Brings p arena c t := by
      refine ⟨_, (hgains.links _).2 (.inl rfl), rfl, node, ?_, hsucceeds⟩
      rw [hgains.nodes, if_neg, hn]
      rintro (heq : n = c)
      rw [heq] at hn
      cases hfresh.symm.trans hn
    cases hsucceeds with
    | inner => exact .one hb
    | abstraction => exact hb
  | @merge n r e u v l node _ hn hsucceeds _ _ hr hne hsink howner _ hgains =>
    refine he.gains hgains hsink fun hkeep => ?_
    refine .union (.one ?_) ?_ howner
    · refine ⟨_, (hgains.links _).2 (.inl rfl), rfl, node, ?_, ?_⟩
      · rw [hgains.nodes, if_neg hne.symm, hn]
      · cases hsucceeds with
        | inner hedge hblock hextend hpolicy => exact .inner hedge hblock hextend hpolicy
    · exact Segment.MadeOf.mono (fun t => hkeep _) (he r _ hr (hg.root_ne_inner hr))
  | orphan hjoin hopen => exact absurd hopen (hcycle hjoin)

/-- Without merging, every change leaves edges that bring the very states at their ends. -/
theorem Change.unmerged (h : Change p arena g g') (hg : g.Shaped p arena)
    (hsep : p.options.merge = .sep) (hu : g.Unmerged p arena) : g'.Unmerged p arena := by
  have hnot {P : Prop} (hjoin : p.options.merge = .join) : P := by
    rw [hsep] at hjoin
    cases hjoin
  cases h with
  | remove _ hshrinks =>
    intro k hk u v hu' hv
    exact hu k ((hshrinks.links k).1 hk).1 u v (hshrinks.nodes _ u hu') (hshrinks.nodes _ v hv)
  | root _ _ _ _ _ hlinks =>
    intro k hk
    rw [hlinks] at hk
    cases hk
  | @child n c e t l node hn hsucceeds _ _ _ hfresh hgains =>
    have hold {m : NodeId} {u w : GraphNode} (hm : g.nodes[m]? = some u)
        (hw : g'.nodes[m]? = some w) : w = u := by
      rw [hgains.nodes, if_neg (fun heq : m = c => by cases hfresh.symm.trans (heq ▸ hm)), hm] at hw
      exact (Option.some.inj hw).symm
    intro k hk u v hu' hv
    rcases (hgains.links k).1 hk with hnew | hk
    · cases hnew
      cases hold hn hu'
      have hc : g'.nodes[c]? = some ⟨t, l⟩ := by rw [hgains.nodes, if_pos rfl]
      cases hc.symm.trans hv
      exact hsucceeds
    · obtain ⟨u₀, hu₀⟩ := contains_iff.1 (hg.wellFormed.source k hk)
      obtain ⟨v₀, hv₀⟩ := contains_iff.1 (hg.wellFormed.target k hk)
      cases hold hu₀ hu'
      cases hold hv₀ hv
      exact hu k hk u v hu₀ hv₀
  | merge hjoin => exact hnot hjoin
  | orphan hjoin => exact hnot hjoin

/-! ## All changes -/

/-- States stay explained through any number of changes. -/
theorem Changes.explained (h : Changes p g arena g' arena') (hg : g.Shaped p arena)
    (hcycle : p.options.merge = .join → ¬ p.OpenCycle) (he : g.Explained p arena) :
    g'.Explained p arena' := by
  -- induction on the changes, which keep the shape that one of them needs
  induction h with
  | refl => exact he
  | states _ hext ih =>
    exact fun n node hn hroot => (ih n node hn hroot).mono fun _ hb => hb.mono hext
  | tail hchanges hlast ih => exact hlast.explained (hchanges.shaped hg) hcycle ih

/-- Edges bring the states at their ends through any number of changes. -/
theorem Changes.unmerged (h : Changes p g arena g' arena') (hg : g.Shaped p arena)
    (hsep : p.options.merge = .sep) (hu : g.Unmerged p arena) : g'.Unmerged p arena' := by
  induction h with
  | refl => exact hu
  | states _ hext ih => exact fun k hk u v hu hv => (ih k hk u v hu hv).mono hext
  | tail hchanges hlast ih => exact hlast.unmerged (hchanges.shaped hg) hsep ih

end Graph

namespace Exploration

variable {x : Exploration} {a : Analysis}

/-- If the program cannot go round without completing a block, no state is merged into the one that
it succeeds. -/
theorem unlooped_of_no_openCycle (hcycle : p.options.merge = .join → ¬ p.OpenCycle) : p.Unlooped :=
  fun hjoin l _ hstep => hcycle hjoin ⟨l, .single hstep⟩

/-- In every exploration that arises, states are made of what edges bring, unless merging can go
round a cycle inside a block. -/
theorem Arises.explained (h : Arises p x a) (hcycle : p.options.merge = .join → ¬ p.OpenCycle) :
    x.graph.Explained p a.arena := by
  obtain ⟨-, freeing, arena, hchanges⟩ := h.changes (unlooped_of_no_openCycle hcycle)
  refine hchanges.explained (Graph.shaped_empty freeing) hcycle fun n node hn => ?_
  simp [Graph.empty] at hn

/-- Without merging, in every exploration that arises edges bring the states at their ends. -/
theorem Arises.unmerged (h : Arises p x a) (hsep : p.options.merge = .sep) :
    x.graph.Unmerged p a.arena := by
  have hcycle : p.options.merge = .join → ¬ p.OpenCycle := by
    rw [hsep]
    exact nofun
  obtain ⟨-, freeing, arena, hchanges⟩ := h.changes (unlooped_of_no_openCycle hcycle)
  exact hchanges.unmerged (Graph.shaped_empty freeing) hsep fun k hk => by cases hk

end Exploration

end Cegar

import Cegar.Proofs.Exploration.Lineage
import Cegar.Proofs.Paths

/-!
# The way that a model takes through the graph

A model of all blocks up to a state takes one way through the graph to the node of the state: where
states were merged, it is a model of one of them, and so of the block before the edge that brought
it. The program can be executed along that way.

* **`Graph.Trail`**: a way through the graph that a model takes;
* **`Graph.Explained.exists_trail`**: a model of the blocks up to a state takes one to its node;
* **`Graph.Trail.executes`**: along it the program can be executed;
* **`Graph.Trail.index`**: without merging, branch variables count the assumptions on the way.
-/

namespace Cegar

variable {p : Problem} {arena : Arena} {V : Store}

/-! ## Assumptions at given edges -/

/-- The edges with the given numbers. -/
def Automaton.edgesAt (A : Automaton) (es : List EdgeId) : List Edge :=
  es.filterMap fun e => A.edges[e.idx]?

namespace Edge

variable {edge : Edge} {l : Location}

theorem length_assumptionsAt_cons (edge : Edge) (es : List Edge) (l : Location) :
    (assumptionsAt l (edge :: es)).length =
      (assumptionsAt l [edge]).length + (assumptionsAt l es).length := by
  rw [assumptionsAt, assumptionsAt]
  split
  · split
    · simp [assumptionsAt, Nat.add_comm]
    · simp [assumptionsAt]
  · simp [assumptionsAt]

theorem length_assumptionsAt_append (es ds : List Edge) (l : Location) :
    (assumptionsAt l (es ++ ds)).length =
      (assumptionsAt l es).length + (assumptionsAt l ds).length := by
  induction es with
  | nil => simp [assumptionsAt]
  | cons edge es ih =>
    rw [List.cons_append, length_assumptionsAt_cons, ih, length_assumptionsAt_cons edge es]
    omega

/-- The branch variable of a location is written by the assumptions there. -/
theorem count_branchName_written {P : Var → Prop} (hP : Plain P) (hs : edge.statement.Over P) :
    edge.written.count (Var.branchName l.idx) = (assumptionsAt l [edge]).length := by
  by_cases hassume : ∃ condition truth, edge.statement = .assume condition truth
  · obtain ⟨condition, truth, hst⟩ := hassume
    have hl : edge.source = l ↔ edge.source.idx = l.idx :=
      ⟨fun h => h ▸ rfl, fun h => congrArg Id.mk h⟩
    by_cases hsource : edge.source.idx = l.idx
    · simp [written, assumptionsAt, hst, hl, hsource]
    · have hne : ¬ Var.branchName edge.source.idx = Var.branchName l.idx :=
        fun h => hsource (Var.branchName_inj.1 h)
      simp [written, assumptionsAt, hst, hl, hsource, hne]
  · rw [List.count_eq_zero.2 (PathFormula.branchName_notMem_written hP hs
      (fun c t hst => hassume ⟨c, t, hst⟩) l.idx), assumptionsAt]
    split
    · next c t hst => exact absurd ⟨c, t, hst⟩ hassume
    · rfl

end Edge

/-! ## Models of blocks -/

/-- A model of all blocks up to an abstraction state. -/
inductive Arena.Satisfied (arena : Arena) (V : Store) : AbstractionId → Prop
  | initial {id : AbstractionId} {s : AbstractionState} (hget : arena.get? id = some s)
    (hprevious : s.previous = none) : Satisfied arena V id
  | next {id j : AbstractionId} {s : AbstractionState} (hget : arena.get? id = some s)
    (hprevious : s.previous = some j) (hblock : s.block.formula.truth V = true)
    (hj : Satisfied arena V j) : Satisfied arena V id

namespace State

variable {s t : State} {e : EdgeId} {owner : AbstractionState} {path : PathFormula} {size : Nat}

/-- A model of all blocks up to a state, the last of which may go on. -/
def Satisfied (arena : Arena) (V : Store) : State → Prop
  | .abstraction id => arena.Satisfied V id
  | .inner s => arena.Satisfied V s.owner ∧ s.path.formula.truth V = true
  | .top | .bottom => False

/-- A model of the owner and of the block since then is a model up to the state. -/
theorem InBlock.satisfied {A : Automaton} (harena : arena.Legal A)
    (h : s.InBlock arena owner path size) (howner : arena.Satisfied V owner.id)
    (hV : path.formula.truth V = true) : s.Satisfied arena V := by
  cases h with
  | start hget => exact harena.id _ _ hget ▸ howner
  | inside hget => exact ⟨harena.id _ _ hget ▸ howner, hV⟩

/-- The numbering of writes at a state. -/
def numbering (arena : Arena) : State → SsaMap
  | .abstraction id => (arena.get? id).elim .empty (·.ssa)
  | .inner s => s.path.ssa
  | .top | .bottom => .empty

/-- The numbering at a state is that of its block. -/
theorem InBlock.numbering (h : s.InBlock arena owner path size) :
    s.numbering arena = path.ssa := by
  cases h with
  | start hget =>
    rw [State.numbering, hget]
    rfl
  | inside => rfl

/-- A model takes the edge from the first state to the second one, and reads there what it reads
after the edge. -/
inductive Continues (p : Problem) (arena : Arena) (V : Store) (s : State) (e : EdgeId) (t : State) :
    Prop
  | intro {edge : Edge} {owner : AbstractionState} {path q : PathFormula} {size : Nat}
    (hedge : p.automaton.edges[e.idx]? = some edge) (hblock : s.InBlock arena owner path size)
    (hextend : path.extend edge.source e edge.statement = .ok (.ok q))
    (hV : q.formula.truth V = true)
    (hreads : ∀ σ, Env.Reads (· ∈ p.automaton.vars) V q.ssa σ →
      Env.Reads (· ∈ p.automaton.vars) V (t.numbering arena) σ)

/-- The block of a valid state is over the program. -/
theorem InBlock.over {A : Automaton} {l : Location} (harena : arena.Valid A)
    (hs : s.Valid A arena l) (h : s.InBlock arena owner path size) :
    path.Over (· ∈ A.vars) := by
  cases h with
  | start hget => exact .empty (harena.state _ _ hget).overVars.ssa
  | inside hget =>
    obtain ⟨owner', -, hdescribes⟩ := hs.1.segment
    exact hdescribes.overVars

/-- A successor has the numbering after its edge. -/
theorem Succeeds.numbering {policy : Policy} (h : s.Succeeds p policy arena e t) :
    ∃ (edge : Edge) (path q : PathFormula), p.automaton.edges[e.idx]? = some edge ∧
      s.numbering arena = path.ssa ∧ path.extend edge.source e edge.statement = .ok (.ok q) ∧
      t.numbering arena = q.ssa := by
  cases h with
  | inner hedge hblock hextend => exact ⟨_, _, _, hedge, hblock.numbering, hextend, rfl⟩
  | abstraction hedge hblock hextend _ hget =>
    refine ⟨_, _, _, hedge, hblock.numbering, hextend, ?_⟩
    rw [State.numbering, hget]
    rfl

end State

/-! ## Models of unions -/

section Unions

variable {A : Automaton} {Q : Segment → Prop} {s : Segment}

/-- What holds of the variables of the parts holds of the union. -/
theorem Segment.MadeOf.over (hQ : ∀ t, Q t → t.path.Over (· ∈ A.vars)) (h : s.MadeOf Q) :
    s.path.Over (· ∈ A.vars) := by
  induction h with
  | one h => exact hQ _ h
  | union _ _ _ ihs iht => exact ihs.or iht

/-- A model of a union is a model of one of the segments that it is made of, and reads the same
there. -/
theorem Segment.MadeOf.backward (hA : A.WellFormed) (hQ : ∀ t, Q t → t.path.Over (· ∈ A.vars))
    (h : s.MadeOf Q) (hV : s.path.formula.truth V = true) :
    ∃ t, Q t ∧ t.owner = s.owner ∧ t.path.formula.truth V = true ∧
      ∀ σ, Env.Reads (· ∈ A.vars) V t.path.ssa σ → Env.Reads (· ∈ A.vars) V s.path.ssa σ := by
  induction h with
  | one h => exact ⟨_, h, rfl, hV, fun _ => id⟩
  | @union s t hs ht howner ihs iht =>
    have hknown (v : Var) (hv : v ∈ A.vars) : v.index = none ∧ Known (· ∈ A.vars) v :=
      ⟨hA.vocabulary.unindexed v hv, hA.vocabulary.toPlain.known hv⟩
    have hso := hs.over hQ
    have hto := ht.over hQ
    rcases PathFormula.or_backward hknown hA.vocabulary.oneType_known hso.ssa hto.ssa
      ((Expr.holds_iff_truth (hso.or hto).formula).2 hV) with ⟨hVs, hread⟩ | ⟨hVt, hread⟩
    · obtain ⟨u, hu, hown, hVu, hreads⟩ := ihs ((Expr.holds_iff_truth hso.formula).1 hVs)
      exact ⟨u, hu, hown, hVu, fun σ hσ => (hread σ).1 (hreads σ hσ)⟩
    · obtain ⟨u, hu, hown, hVu, hreads⟩ := iht ((Expr.holds_iff_truth hto.formula).1 hVt)
      exact ⟨u, hu, hown.trans howner.symm, hVu, fun σ hσ => (hread σ).1 (hreads σ hσ)⟩

end Unions

namespace Graph

variable {g : Graph} {n t r : NodeId} {ks : List Link} {u w : GraphNode}

/-- The model takes the edges of the graph from one node to the other. -/
inductive Trail (p : Problem) (arena : Arena) (g : Graph) (V : Store) :
    NodeId → List Link → NodeId → Prop
  | nil {n : NodeId} : Trail p arena g V n [] n
  | cons {k : Link} {ks : List Link} {t : NodeId} {u v : GraphNode} (hk : k ∈ g.links)
    (hu : g.nodes[k.source]? = some u) (hv : g.nodes[k.target]? = some v)
    (hcontinues : u.state.Continues p arena V k.label v.state)
    (hrest : Trail p arena g V k.target ks t) : Trail p arena g V k.source (k :: ks) t

/-- Two trails one after the other. -/
theorem Trail.append {m : NodeId} {js : List Link} (h : Trail p arena g V n ks m)
    (h' : Trail p arena g V m js t) : Trail p arena g V n (ks ++ js) t := by
  induction h with
  | nil => exact h'
  | cons hk hu hv hcontinues _ ih => exact .cons hk hu hv hcontinues (ih h')

/-- A trail goes along edges of the graph. -/
theorem Trail.reaches (h : Trail p arena g V n ks t) : g.Reaches n t := by
  induction h with
  | nil => exact .refl
  | @cons k _ _ _ _ hk _ _ _ _ ih => exact .head ⟨k.label, hk⟩ ih

/-- The graph has no cycle, so a trail to where it starts is empty. -/
theorem Trail.eq_nil (hg : g.Shaped p arena) (h : Trail p arena g V n ks t) (heq : n = t) :
    ks = [] := by
  cases h with
  | nil => rfl
  | @cons k _ _ _ _ hk _ _ _ hrest =>
    have hstep : g.Linked k.source k.target := ⟨k.label, hk⟩
    have hcycle := Relation.TransGen.head' hstep hrest.reaches
    rw [heq] at hcycle
    exact absurd hcycle (hg.acyclic t)

/-! ## The way to a node -/

/-- A model of the state that is at a node takes an edge to the node from another one, of whose
state it is a model. -/
theorem Explained.exists_continues (hA : p.automaton.WellFormed) (harena : arena.Valid p.automaton)
    (hlegal : arena.Legal p.automaton) (hvalid : g.Valid p.automaton arena)
    (he : g.Explained p arena) (hw : g.nodes[n]? = some w) (hroot : g.root ≠ some n)
    (hV : w.state.Satisfied arena V) :
    ∃ k ∈ g.links, k.target = n ∧ ∃ u, g.nodes[k.source]? = some u ∧ u.state.Satisfied arena V ∧
      u.state.Continues p arena V k.label w.state := by
  have hmade := he n w hw hroot
  -- the state at the other end has a model of the block before the edge
  have hback {u : GraphNode} {e : EdgeId} {edge : Edge} {owner : AbstractionState}
      {path q : PathFormula} {size : Nat} (hedge : p.automaton.edges[e.idx]? = some edge)
      (hblock : u.state.InBlock arena owner path size)
      (hextend : path.extend edge.source e edge.statement = .ok (.ok q))
      (hq : q.formula.truth V = true) (howner : arena.Satisfied V owner.id) :
      u.state.Satisfied arena V :=
    hblock.satisfied hlegal howner (PathFormula.extend_backward hA.vocabulary
      (hA.overVars (Automaton.mem_edges_of_getElem? hedge)) hextend hq (Env.reads_after V _)).1
  cases hstate : w.state with
  | top | bottom =>
    rw [hstate] at hV
    exact hV.elim
  | inner s =>
    rw [hstate] at hmade hV
    obtain ⟨howner, hpath⟩ := hV
    have hover : ∀ t : Segment, g.Brings p arena n (.inner ⟨t, none⟩) →
        t.path.Over (· ∈ p.automaton.vars) := by
      rintro t ⟨k, hk, rfl, u, hu, hsucceeds⟩
      cases hsucceeds with
      | inner hedge hblock hextend =>
        exact (hblock.over harena (hvalid _ u hu)).extend hA.vocabulary
          (hA.overVars (Automaton.mem_edges_of_getElem? hedge)) hextend
    obtain ⟨t, ⟨k, hk, htarget, u, hu, hsucceeds⟩, hsame, hVt, hreads⟩ :=
      Segment.MadeOf.backward hA hover hmade hpath
    cases hsucceeds with
    | inner hedge hblock hextend =>
      rw [← hsame] at howner
      exact ⟨k, hk, htarget, u, hu, hback hedge hblock hextend hVt howner,
        .intro hedge hblock hextend hVt hreads⟩
  | abstraction id =>
    rw [hstate] at hmade hV
    obtain ⟨k, hk, htarget, u, hu, hsucceeds⟩ := hmade
    cases hsucceeds with
    | abstraction hedge hblock hextend _ hget _ hprevious =>
      cases hV with
      | initial hget' hnone =>
        cases hget.symm.trans hget'
        cases hprevious.symm.trans hnone
      | next hget' hsome hVblock howner =>
        cases hget.symm.trans hget'
        cases hprevious.symm.trans hsome
        refine ⟨k, hk, htarget, u, hu, hback hedge hblock hextend hVblock howner,
          .intro hedge hblock hextend hVblock fun σ hσ => ?_⟩
        rw [State.numbering, hget]
        exact hσ

/-- A model of the blocks up to a state takes a way from the root to its node. -/
theorem Explained.exists_trail (hA : p.automaton.WellFormed) (harena : arena.Valid p.automaton)
    (hlegal : arena.Legal p.automaton) (hvalid : g.Valid p.automaton arena)
    (hg : g.Shaped p arena) (he : g.Explained p arena) (hr : g.root = some r)
    (hw : g.nodes[n]? = some w) (hV : w.state.Satisfied arena V) :
    ∃ ks, Trail p arena g V r ks n := by
  obtain ⟨rank, hrank⟩ := hg.ranked
  -- the node before has a smaller rank
  induction hn : rank n using Nat.strongRecOn generalizing n w with
  | ind k ih =>
    by_cases heq : n = r
    · exact ⟨[], heq ▸ .nil⟩
    · obtain ⟨l, hl, htarget, u, hu, hsat, hcontinues⟩ :=
        he.exists_continues hA harena hlegal hvalid hw
          (fun hroot => heq (Option.some.inj (hroot.symm.trans hr))) hV
      subst htarget
      obtain ⟨ks, htrail⟩ := ih _ (hn ▸ hrank l hl) hu hsat rfl
      exact ⟨ks ++ [l], htrail.append (.cons hl hu hw hcontinues .nil)⟩

/-! ## What happens on the way -/

/-- Along the way that a model takes, the program can be executed. -/
theorem Trail.executes (hA : p.automaton.WellFormed) (hg : g.Shaped p arena)
    (h : Trail p arena g V n ks t) (hu : g.nodes[n]? = some u) {σ : Store}
    (hσ : Env.Reads (· ∈ p.automaton.vars) V (u.state.numbering arena) σ) :
    ∃ w σ', g.nodes[t]? = some w ∧
      p.automaton.ExecutesAlong (ks.map (·.label)) (u.location, σ) (w.location, σ') := by
  induction h generalizing u σ with
  | nil => exact ⟨u, σ, hu, .nil⟩
  | @cons k ks t u' v hk hu' hv hcontinues _ ih =>
    cases hu.symm.trans hu'
    obtain ⟨hedge, hblock, hextend, hVq, hreads⟩ := hcontinues
    rw [hblock.numbering] at hσ
    obtain ⟨-, τ, hstep, hτ⟩ := PathFormula.extend_backward hA.vocabulary
      (hA.overVars (Automaton.mem_edges_of_getElem? hedge)) hextend hVq hσ
    obtain ⟨w, σ', hw, hexec⟩ := ih hv (hreads τ hτ)
    obtain ⟨edge, hedge', hsource, htarget⟩ := (hg.leads k hk u' v hu' hv).edge
    cases hedge.symm.trans hedge'
    refine ⟨w, σ', hw, ?_⟩
    rw [← hsource]
    rw [← htarget] at hexec
    exact .cons hedge hstep hexec

/-- Without merging, the numbering at a node counts the assumptions on the way to it. -/
theorem Trail.index (hA : p.automaton.WellFormed) (hunmerged : g.Unmerged p arena)
    (h : Trail p arena g V n ks t) (hu : g.nodes[n]? = some u) (hw : g.nodes[t]? = some w)
    (l : Location) :
    (w.state.numbering arena).index (Var.branchName l.idx) =
      (u.state.numbering arena).index (Var.branchName l.idx) + UInt32.ofNat
        (Edge.assumptionsAt l (p.automaton.edgesAt (ks.map (·.label)))).length := by
  induction h generalizing u with
  | nil =>
    cases hu.symm.trans hw
    simp [Automaton.edgesAt, Edge.assumptionsAt]
  | @cons k ks t u' v hk hu' hv _ _ ih =>
    cases hu.symm.trans hu'
    obtain ⟨edge, path, q, hedge, hbefore, hextend, hafter⟩ := (hunmerged k hk u' v hu' hv).numbering
    have hedges : p.automaton.edgesAt ((k :: ks).map (·.label)) =
        edge :: p.automaton.edgesAt (ks.map (·.label)) := by
      simp [Automaton.edgesAt, hedge]
    rw [ih hv hw, hedges, Edge.length_assumptionsAt_cons, hafter, hbefore,
      PathFormula.extend_numbers hextend, Edge.count_branchName_written hA.vocabulary.toPlain
        (hA.overVars (Automaton.mem_edges_of_getElem? hedge)), UInt32.ofNat_add, UInt32.add_assoc]

end Graph

end Cegar

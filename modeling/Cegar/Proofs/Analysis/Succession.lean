import Cegar.Proofs.Analysis.Sessions

/-!
# Which states succeed which

A successor continues the block of its state by one edge, or completes it. The relation says how the
two states hang together, without what the solver was asked. It does not depend on the program: the
numbering, the owner and the policy alone decide.

* **`State.Succeeds`**: how a state and its successor along an edge hang together;
* **`Analysis.successor_succeeds`**: the successor that is computed is one;
* **`Analysis.mem_successors`**: so are all successors of a state.
-/

namespace Cegar

variable {p : Problem} {policy : Policy} {arena arena' : Arena}

/-! ## Blocks that go on -/

/-- The block that a state is in: where it starts, its path formula and its number of edges. -/
inductive State.InBlock (arena : Arena) : State → AbstractionState → PathFormula → Nat → Prop
  | start {id : AbstractionId} {owner : AbstractionState} (h : arena.get? id = some owner) :
    InBlock arena (.abstraction id) owner owner.fresh 0
  | inside {s : Inner} {owner : AbstractionState} (h : arena.get? s.owner = some owner) :
    InBlock arena (.inner s) owner s.path s.size

/-- Whether a block of `size` edges is completed by one more edge, which leads to `l`. -/
def Policy.Completes (policy : Policy) (A : Automaton) (l : Location) (size : Nat) (b : Bool) :
    Prop :=
  ∃ node reached, A.nodes[l.idx]? = some node ∧ policy.thresholdReached size = .ok reached ∧
    policy.abstracts node (A.isCallSite l) reached = b

/-- Blocks end at the same locations, if they have the same size or their size does not matter. -/
theorem Policy.Completes.unique {policy : Policy} {A : Automaton} {l : Location} {size size' : Nat}
    {b b' : Bool} (h : policy.Completes A l size b) (h' : policy.Completes A l size' b')
    (hsize : policy.blockSize = 0 ∨ size' = size) : b' = b := by
  obtain ⟨node, reached, hnode, hreached, rfl⟩ := h
  obtain ⟨node', reached', hnode', hreached', rfl⟩ := h'
  cases hnode.symm.trans hnode'
  have hsame : reached' = reached := by
    rcases hsize with hzero | rfl
    · simp only [thresholdReached, hzero, if_pos] at hreached hreached'
      exact (Except.ok.inj hreached').symm.trans (Except.ok.inj hreached)
    · exact Except.ok.inj (hreached'.symm.trans hreached)
  rw [hsame]

/-- The second state is a successor of the first along an edge: the block goes on, or it is
completed and the successor starts the next one. -/
inductive State.Succeeds (p : Problem) (policy : Policy) (arena : Arena) (s : State) (e : EdgeId) :
    State → Prop
  | inner {edge : Edge} {owner : AbstractionState} {path q : PathFormula} {size : Nat}
    (hedge : p.automaton.edges[e.idx]? = some edge) (hblock : s.InBlock arena owner path size)
    (hextend : path.extend edge.source e edge.statement = .ok (.ok q))
    (hpolicy : policy.Completes p.automaton edge.target size false) :
    Succeeds p policy arena s e (.inner ⟨⟨owner.id, edge.target, size + 1, q⟩, none⟩)
  | abstraction {edge : Edge} {owner t : AbstractionState} {path : PathFormula} {size : Nat}
    {id : AbstractionId} (hedge : p.automaton.edges[e.idx]? = some edge)
    (hblock : s.InBlock arena owner path size)
    (hextend : path.extend edge.source e edge.statement = .ok (.ok t.block))
    (hpolicy : policy.Completes p.automaton edge.target size true)
    (hget : arena.get? id = some t) (hlocation : t.location = edge.target)
    (hprevious : t.previous = some owner.id) : Succeeds p policy arena s e (.abstraction id)

namespace State

variable {s t : State} {e : EdgeId}

/-- A state stays in its block when abstraction states are added. -/
theorem InBlock.mono {owner : AbstractionState} {path : PathFormula} {size : Nat}
    (h : s.InBlock arena owner path size) (hext : arena.Extends arena') :
    s.InBlock arena' owner path size := by
  cases h with
  | start hget => exact .start (hext _ _ hget)
  | inside hget => exact .inside (hext _ _ hget)

/-- A successor stays one when abstraction states are added. -/
theorem Succeeds.mono (h : s.Succeeds p policy arena e t) (hext : arena.Extends arena') :
    s.Succeeds p policy arena' e t := by
  cases h with
  | inner hedge hblock hextend hpolicy => exact .inner hedge (hblock.mono hext) hextend hpolicy
  | abstraction hedge hblock hextend hpolicy hget hlocation hprevious =>
    exact .abstraction hedge (hblock.mono hext) hextend hpolicy (hext _ _ hget) hlocation hprevious

/-- The block of a state is one only. -/
theorem InBlock.unique {owner owner' : AbstractionState} {path path' : PathFormula}
    {size size' : Nat} (h : s.InBlock arena owner path size)
    (h' : s.InBlock arena owner' path' size') : owner = owner' ∧ path = path' ∧ size = size' := by
  cases h with
  | start hget =>
    cases h' with
    | start hget' =>
      cases hget.symm.trans hget'
      exact ⟨rfl, rfl, rfl⟩
  | inside hget =>
    cases h' with
    | inside hget' =>
      cases hget.symm.trans hget'
      exact ⟨rfl, rfl, rfl⟩

/-- A state does not move when abstraction states are added. -/
theorem location?_mono {l : Location} (h : s.location? arena = .ok (some l)) (hext : arena.Extends arena') :
    s.location? arena' = .ok (some l) := by
  cases s with
  | top | bottom | inner => exact h
  | abstraction id =>
    simp only [State.location?, Arena.get] at h ⊢
    cases hget : arena.get? id with
    | none => rw [hget] at h; cases h
    | some u =>
      rw [hget] at h
      rw [hext _ _ hget]
      exact h

/-- Every state of a session but the two without a location is in a block. -/
theorem Legal.inBlock {A : Automaton} (h : s.Legal A arena) (htop : s ≠ .top)
    (hbottom : s ≠ .bottom) : ∃ owner path size, s.InBlock arena owner path size := by
  cases s with
  | top => exact absurd rfl htop
  | bottom => exact absurd rfl hbottom
  | abstraction id =>
    obtain ⟨t, ht⟩ := h
    exact ⟨t, _, _, .start ht⟩
  | inner s =>
    obtain ⟨owner, howner, -⟩ := h
    exact ⟨owner, _, _, .inside howner⟩

end State

namespace Analysis

variable {precision : Precision} {a a' : Analysis}

/-! ## One successor -/

/-- A completed block has a state unless its abstraction is false. -/
theorem completeBlock_ok {owner : AbstractionState} {l : Location} {size : Nat} {q : PathFormula}
    {r : Option State} (h : completeBlock p precision owner l size q a = .ok (r, a')) :
    ∃ abstraction solver,
      abstractBlock p.options.abstraction owner.abstraction owner.ssa q (precision.predicatesAt l)
        a.solver = .ok (abstraction, solver) ∧
      ((abstraction = .bool false ∧ r = none) ∨
        (abstraction ≠ .bool false ∧ r = some (.abstraction ⟨a.arena.size⟩) ∧
          a'.arena = (a.arena.allocate l abstraction q (some owner.id)).2)) := by
  obtain ⟨e, a₁, hconsult, h₁⟩ := state_bind_ok.1 h
  obtain ⟨solver, hsolver, rfl⟩ := consult_cases hconsult
  obtain ⟨_, a₂, hcount, h₂⟩ := state_bind_ok.1 h₁
  rw [count_ok hcount] at h₂
  refine ⟨e, solver, hsolver, ?_⟩
  split at h₂
  · next hknown =>
    obtain ⟨_, a₃, hcount₃, h₃⟩ := state_bind_ok.1 h₂
    cases state_pure_ok.1 h₃
    exact .inl ⟨Expr.eq_bool_of_known hknown, rfl⟩
  · next hknown =>
    obtain ⟨id, a₃, hid, h₃⟩ := state_bind_ok.1 h₂
    cases hid
    cases state_pure_ok.1 h₃
    refine .inr ⟨?_, rfl, rfl⟩
    rintro rfl
    exact hknown rfl

/-- Whether a block ends with an edge is up to the policy. If it does, its abstraction is computed,
and there is no successor if that is false. -/
theorem extendBlock_ok_kind (hc : a.cache.Coherent p.automaton) {owner : AbstractionState}
    {path : PathFormula} {size : Nat} {e : EdgeId} {r : Option State}
    (h : extendBlock p precision owner path size e a = .ok (.ok r, a')) :
    ∃ edge q b, p.automaton.edges[e.idx]? = some edge ∧
      path.extend edge.source e edge.statement = .ok (.ok q) ∧
      precision.policy.Completes p.automaton edge.target size b ∧
      (b = false → ∀ t, r = some t → t = .inner ⟨⟨owner.id, edge.target, size + 1, q⟩, none⟩) ∧
      (b = true → ∃ abstraction solver,
        abstractBlock p.options.abstraction owner.abstraction owner.ssa q
          (precision.predicatesAt edge.target) a.solver = .ok (abstraction, solver) ∧
        ((abstraction = .bool false ∧ r = none) ∨
          (abstraction ≠ .bool false ∧ r = some (.abstraction ⟨a.arena.size⟩) ∧
            a'.arena = (a.arena.allocate edge.target abstraction q (some owner.id)).2))) := by
  obtain ⟨edge, a₁, hlift, h₁⟩ := try_bind_ok_ok.1 h
  obtain ⟨hfound, rfl⟩ := try_lift_except_ok.1 hlift
  have hedge := Automaton.edge_eq_ok.1 hfound
  obtain ⟨reached, a₁, hreached, h₂⟩ := try_bind_ok_ok.1 h₁
  obtain ⟨hthreshold, rfl⟩ := try_lift_except_ok.1 hreached
  obtain ⟨node, a₁, hnode, h₃⟩ := try_bind_ok_ok.1 h₂
  obtain ⟨hfound', rfl⟩ := try_lift_except_ok.1 hnode
  have hnode := Automaton.node_eq_ok.1 hfound'
  obtain ⟨q, a₁, hq, h₄⟩ := try_bind_ok_ok.1 h₃
  obtain ⟨hext, cache, statistics, rfl, -, -⟩ := extendPath_cases hc hedge hq
  refine ⟨edge, q, _, hedge, hext, ⟨node, reached, hnode, hthreshold, rfl⟩, fun hb t ht => ?_,
    fun hb => ?_⟩
  · rw [hb] at h₄
    subst ht
    obtain ⟨b, a₂, -, h₅⟩ := try_bind_ok_ok.1 h₄
    cases b with
    | true => cases try_pure_ok.1 h₅
    | false =>
      cases try_pure_ok.1 h₅
      rfl
  · rw [hb] at h₄
    obtain ⟨r, hcomplete, ⟨⟩⟩ := try_lift_ok.1 h₄
    have hcompleted := completeBlock_ok hcomplete
    exact hcompleted

/-- A successor continues the block that the state is in. -/
theorem successor_inBlock {s : State} {owner : AbstractionState} {path : PathFormula} {size : Nat}
    (hblock : s.InBlock a.arena owner path size) {e : EdgeId} {r : Except Error (Option State)}
    (h : successor p precision s e a = .ok (r, a')) :
    extendBlock p precision owner path size e a = .ok (r, a') := by
  obtain ⟨rfl, -⟩ | ⟨rfl, -⟩ | ⟨id, owner', rfl, hget, h⟩ | ⟨t, owner', rfl, hget, h⟩ :=
    successor_cases h
  · cases hblock
  · cases hblock
  · obtain ⟨rfl, rfl, rfl⟩ := hblock.unique (.start hget)
    exact h
  · obtain ⟨rfl, rfl, rfl⟩ := hblock.unique (.inside hget)
    exact h

/-- What is computed as a successor is one: the block goes on, or it is completed and the next one
starts. -/
theorem successor_succeeds (ha : a.Legal p.automaton) {s t : State}
    (hs : s.Legal p.automaton a.arena) {e : EdgeId}
    (h : successor p precision s e a = .ok (.ok (some t), a')) :
    s.Succeeds p precision.policy a'.arena e t := by
  obtain ⟨⟨hlegal, hext⟩, -⟩ := successor_legal ha hs h
  -- in both cases the block of the state goes on
  have hgoes {owner : AbstractionState} {path : PathFormula} {size : Nat}
      (hblock : s.InBlock a.arena owner path size)
      (h : extendBlock p precision owner path size e a = .ok (.ok (some t), a')) :
      s.Succeeds p precision.policy a'.arena e t := by
    obtain ⟨edge, q, b, hedge, hextend, hpolicy, hinner, habstraction⟩ :=
      extendBlock_ok_kind ha.cache h
    cases b with
    | false =>
      rw [hinner rfl t rfl]
      exact .inner hedge (hblock.mono hext) hextend hpolicy
    | true =>
      obtain ⟨abstraction, solver, -, ⟨-, hnone⟩ | ⟨-, hsome, harena⟩⟩ := habstraction rfl
      · cases hnone
      · cases hsome
        rw [harena] at hext ⊢
        exact .abstraction (t := ⟨_, _, _, _, _⟩) hedge (hblock.mono hext) hextend hpolicy
          (Arena.get?_allocate_self _ _ _ _ _) rfl rfl
  obtain ⟨-, hr, -⟩ | ⟨-, hr, -⟩ | ⟨id, owner, rfl, hget, h⟩ | ⟨u, owner, rfl, hget, h⟩ :=
    successor_cases h
  · cases hr
  · cases hr
  · exact hgoes (.start hget) h
  · exact hgoes (.inside hget) h

/-! ## All successors -/

/-- Successors along several edges, each with its edge. -/
theorem mem_successorsAlong (ha : a.Legal p.automaton) {s : State}
    (hs : s.Legal p.automaton a.arena) {es : List EdgeId} {rs : List (EdgeId × State)}
    (h : successorsAlong p precision s es a = .ok (.ok rs, a')) :
    ∀ e t, (e, t) ∈ rs → e ∈ es ∧ s.Succeeds p precision.policy a'.arena e t := by
  induction es generalizing a rs with
  | nil =>
    cases try_pure_ok.1 h
    simp
  | cons d es ih =>
    obtain ⟨first, a₁, hfirst, h₁⟩ := try_bind_ok_ok.1 h
    obtain ⟨rest, a₂, hrest, h₂⟩ := try_bind_ok_ok.1 h₁
    cases try_pure_ok.1 h₂
    obtain ⟨hproceeds, -⟩ := successor_legal ha hs hfirst
    obtain ⟨hproceeds', -⟩ :=
      successorsAlong_legal hproceeds.legal (hs.mono hproceeds.arena) hrest
    intro e t ht
    rcases List.mem_append.1 ht with ht | ht
    · obtain ⟨u, hu, heq⟩ := List.mem_map.1 ht
      cases heq
      cases Option.mem_toList.1 hu
      exact ⟨by simp, (successor_succeeds ha hs hfirst).mono hproceeds'.arena⟩
    · obtain ⟨he, hsucceeds⟩ := ih hproceeds.legal (hs.mono hproceeds.arena) hrest e t ht
      exact ⟨by simp [he], hsucceeds⟩

/-- All successors of a state are successors along edges that leave its location. -/
theorem mem_successors (ha : a.Legal p.automaton) {s : State} (hs : s.Legal p.automaton a.arena)
    {rs : List (EdgeId × State)} (h : successors p precision s a = .ok (.ok rs, a')) :
    ∀ e t, (e, t) ∈ rs → s.Succeeds p precision.policy a'.arena e t ∧
      ∃ l, s.location? a.arena = .ok (some l) ∧ e ∈ p.automaton.leaving l := by
  obtain ⟨b, a₁, hb, h₁⟩ := try_bind_ok_ok.1 h
  cases hb
  obtain ⟨l?, a₁, hl, h₂⟩ := try_bind_ok_ok.1 h₁
  obtain ⟨hlocation, rfl⟩ := try_lift_except_ok.1 hl
  cases l? with
  | some l =>
    intro e t ht
    obtain ⟨he, hsucceeds⟩ := mem_successorsAlong ha hs h₂ e t ht
    exact ⟨hsucceeds, l, hlocation, he⟩
  | none =>
    cases s with
    | bottom =>
      cases try_pure_ok.1 h₂
      simp
    | top | abstraction | inner => cases try_throw_ok.1 h₂

end Analysis

end Cegar

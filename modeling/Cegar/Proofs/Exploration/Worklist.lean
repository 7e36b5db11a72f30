import Cegar.Proofs.Exploration.Step

/-!
# The worklist

Between two steps every node waits, is at an error location, or stands in relation to nodes that
stand for all its successors. The exception are nodes that an edge was taken from while another node
was expanded: merging cuts off all that was explored from the merged node, also where other nodes
have edges to it, and those are not queued.

* **`Exploration.restartFrom_ok`**: starting again at a node queues all nodes that lose an edge;
* **`Exploration.Reached`**: the explorations that steps, refinements and new starts lead to, with
  the nodes that are short of a child;
* **`Exploration.Reached.successor_represented`**: a node that does not wait and is short of no
  child has all its successors in the graph.
-/

namespace Cegar

namespace Exploration

variable {p : Problem} {a a' : Analysis} {x x' : Exploration} {n m : NodeId}

/-! ## Starting -/

/-- The root stands for all stores at the entry. -/
def Rooted (A : Automaton) (arena : Arena) (x : Exploration) : Prop :=
  ∃ r node, x.graph.root = some r ∧ x.graph.nodes[r]? = some node ∧ node.location = A.entry ∧
    ∀ σ, node.state.StandsFor A arena σ

/-- The root stands for all stores at the entry, and it waits. -/
theorem addRoot_ok (ha : a.Valid p.automaton) (hx : x.Valid p.automaton a.arena)
    (hempty : ∀ m : NodeId, x.graph.nodes[m]? = none) (h : x.addRoot p a = .ok (x', a')) :
    a.Advances p.automaton a' ∧ x'.Valid p.automaton a'.arena ∧
      x'.Rooted p.automaton a'.arena ∧ ∀ m, x'.graph.contains m = true → m ∈ x'.waitlist := by
  obtain ⟨s, a₁, hs, h₁⟩ := state_bind_ok.1 h
  obtain ⟨hadv, id, t, rfl, ht, hl, htrue⟩ := Analysis.initialState_ok ha hs
  rcases hadd : x.graph.addRoot (.abstraction id) p.automaton.entry with ⟨r, g⟩
  simp only [hadd] at h₁
  cases state_pure_ok.1 h₁
  obtain ⟨hwf, hroot, hnodes⟩ := Graph.addRoot_eq hx.graph hempty hadd
  have hr : g.nodes[r]? = some ⟨.abstraction id, p.automaton.entry⟩ := by rw [hnodes, if_pos rfl]
  -- there is no state that could depend on the abstraction states
  have hx' : x.Valid p.automaton a'.arena := by
    refine ⟨hx.graph, fun m node hm => ?_, hx.reached, hx.covered⟩
    cases (hempty m).symm.trans hm
  have hnodes' : ∀ m : NodeId, g.nodes[m]? =
      if m = r then some ⟨.abstraction id, p.automaton.entry⟩ else x.graph.nodes[m]? := by
    intro m
    rw [hnodes, hempty]
  refine ⟨hadv, hx'.addReached hwf (hempty r) hnodes' ⟨t, ht, hl⟩,
    ⟨r, _, hroot, hr, rfl, fun σ => ⟨t, ht, by rw [htrue]; rfl⟩⟩, fun m hm => ?_⟩
  obtain ⟨node, hnode⟩ := Graph.contains_iff.1 hm
  change g.nodes[m]? = some node at hnode
  rw [hnodes] at hnode
  split at hnode
  · next heq => exact List.mem_append_right _ (by simp [heq])
  · cases hnode

/-- Exploration starts with a root that waits. -/
theorem start_ok {freeing : Freeing} (ha : a.Valid p.automaton)
    (h : start freeing p a = .ok (x, a')) :
    a.Advances p.automaton a' ∧ x.Valid p.automaton a'.arena ∧
      x.Rooted p.automaton a'.arena ∧ ∀ m, x.graph.contains m = true → m ∈ x.waitlist := by
  refine addRoot_ok ha
    ⟨Graph.wellFormed_empty freeing, fun n node hn => ?_, fun l n hn => ?_, ?_⟩ ?_ h
  · simp [empty, Graph.empty] at hn
  · simp [reachedAt, empty] at hn
  · simp [empty]
  · simp [empty, Graph.empty]

/-! ## Starting again -/

/-- A removal that queues all nodes that lose an edge. -/
theorem Removes.attended {A : Automaton} {arena : Arena} (h : x.Removes x')
    (hlost : ∀ k ∈ x.graph.links, x'.graph.contains k.source = true →
      x'.graph.contains k.target = false → k.source ∈ x'.waitlist)
    (hc : x'.graph.contains m = true) (hm : Attended A arena x m) : Attended A arena x' m := by
  by_cases hw : m ∈ x'.waitlist
  · exact .inl hw
  · obtain ⟨node, hnode⟩ := Graph.contains_iff.1 hc
    have hsame := h.shrinks.nodes m node hnode
    rcases hm with hwait | ⟨v, hv, herror⟩ | hclosed
    · exact absurd (h.waits m hwait hc) hw
    · cases hsame.symm.trans hv
      exact .inr (.inl ⟨node, hnode, herror⟩)
    · refine .inr (.inr fun v hv edge hedge hl σ σ' hσ hstep => ?_)
      cases hnode.symm.trans hv
      refine (h.meets hc hw (hclosed node hsame edge hedge hl σ σ' hσ hstep)).resolve_right ?_
      rintro ⟨k, hk, rfl, ht⟩
      exact hw (hlost k hk hc ht)

/-- After a new start, a node that does not wait is what it was, and it has lost no edge. -/
theorem restartFrom_ok (ha : a.Valid p.automaton) (hx : x.Valid p.automaton a.arena)
    (h : x.restartFrom p n a = .ok (x', a')) :
    a.Advances p.automaton a' ∧ x'.Valid p.automaton a'.arena ∧
      (x.Rooted p.automaton a.arena → x'.Rooted p.automaton a'.arena) ∧
      (∀ (m : NodeId) (node : GraphNode), x'.graph.nodes[m]? = some node → m ∉ x'.waitlist →
        x.graph.nodes[m]? = some node ∧ m ∉ x.waitlist ∧
          (x.graph.contains n = true → ¬ x.graph.Reaches n m)) ∧
      ∀ m, x'.graph.contains m = true → Attended p.automaton a.arena x m →
        Attended p.automaton a'.arena x' m := by
  have hshrinks := Graph.Shrinks.removeSubtree hx.graph n
  have hlinks := fun l => Graph.mem_removeSubtree hx.graph (n := n) (l := l)
  have hgone := Graph.contains_removeSubtree (g := x.graph) (n := n)
  have hremoves := removes_prune (hx.graph.removeSubtree n) hshrinks
  unfold restartFrom at h
  generalize x.graph.removeSubtree n = result at h hshrinks hlinks hgone hremoves
  obtain ⟨parents, g⟩ := result
  dsimp only at h hshrinks hlinks hgone hremoves
  have hgraph : (prune { x with graph := g }).graph = g := (prune_spec _).1
  generalize prune { x with graph := g } = y at h hremoves hgraph
  subst hgraph
  have hvalid := hremoves.valid hx
  cases hroot : y.graph.root with
  | none =>
    -- the root is gone with everything else, and there is a new one
    simp only [hroot] at h
    obtain ⟨hadv, hx', hrooted, hwait⟩ := addRoot_ok (x := { y with covered := [] }) ha
      ⟨hvalid.graph, hvalid.states, hvalid.reached, fun c hc => by cases hc⟩
      (hshrinks.nodes_eq_none hx.graph hroot) h
    refine ⟨hadv, hx', fun _ => hrooted, fun m node hm hw => ?_, fun m hc _ => .inl (hwait m hc)⟩
    exact absurd (hwait m (Graph.contains_iff.2 ⟨node, hm⟩)) hw
  | some r =>
    -- the parents of what was removed are queued, so nobody loses an edge unnoticed
    simp only [hroot] at h
    cases state_pure_ok.1 h
    obtain ⟨hwait, hgraph, hreached, hcovered⟩ :=
      foldl_enqueueNew (fun m => m) parents y
    have hremoves' : x.Removes (parents.foldl enqueueNew y) :=
      hremoves.queue hgraph hreached hcovered fun m hm => (hwait m).2 (.inr hm)
    refine ⟨.refl ha, hremoves'.valid hx, ?_,
      fun m node hm hw => ⟨hremoves'.shrinks.nodes m node hm,
      fun hwx => hw (hremoves'.waits m hwx (Graph.contains_iff.2 ⟨node, hm⟩)), fun hn => ?_⟩,
      fun m hc hm => hremoves'.attended (fun k hk hs ht => ?_) hc hm⟩
    · rintro ⟨r', node, hr', hnode, hl, hall⟩
      obtain ⟨hrx, hc⟩ := (hshrinks.root r).1 hroot
      cases hr'.symm.trans hrx
      refine ⟨r, node, ?_, ?_, hl, hall⟩
      · rw [hgraph, hroot]
      · rw [hgraph]
        exact hshrinks.kept hnode hc
    · rw [hgraph] at hm
      exact ((hgone hn m).1 (Graph.contains_iff.2 ⟨node, hm⟩)).2
    · rw [hgraph] at hs ht
      exact (hwait _).2 (.inl ⟨k.source, hlinks k hk hs ht, rfl⟩)

/-! ## Explorations between steps -/

/-- The explorations between two steps, with the analysis at that time and the nodes that are short
of a child: an edge from such a node was lost since it was last taken from the waitlist, while
another node was expanded. Numbers of removed nodes are freed in any order. -/
inductive Reached (p : Problem) : Exploration → Analysis → (NodeId → Prop) → Prop where
  | start {freeing : Freeing} {a₀ a : Analysis} {x : Exploration}
    (hnew : Analysis.new p.options = .ok a₀) (hstart : start freeing p a₀ = .ok (x, a)) :
    Reached p x a fun _ => False
  | step {x x' : Exploration} {a a' : Analysis} {short : NodeId → Prop} {o : Option Outcome}
    (hx : Reached p x a short) (hstep : x.step p a = .ok ((o, x'), a'))
    (ho : ∀ e, o ≠ some (.failed e)) :
    Reached p x' a' fun m => x.waitlist.head? ≠ some m ∧ (short m ∨ x.LosesChild x' m)
  | refine {x : Exploration} {a a' : Analysis} {short : NodeId → Prop} {path : Path}
    {r : Except Error Refinement} (hx : Reached p x a short)
    (hrefine : Analysis.refine p x.graph path a = .ok (r, a')) : Reached p x a' short
  | restart {x x' : Exploration} {a a' : Analysis} {short : NodeId → Prop} {n : NodeId}
    (hx : Reached p x a short) (hrestart : x.restartFrom p n a = .ok (x', a')) :
    Reached p x' a' short

/-- Every node is taken care of or short of a child. -/
theorem Reached.attended (hA : p.automaton.WellFormed) {short : NodeId → Prop}
    (h : Reached p x a short) :
    a.Valid p.automaton ∧ x.Valid p.automaton a.arena ∧ (a.Truthful →
      ∀ m, x.graph.contains m = true → Attended p.automaton a.arena x m ∨ short m) := by
  induction h with
  | start hnew hstart =>
    obtain ⟨hadv, hx, -, hwait⟩ := start_ok (Analysis.valid_new hnew).1 hstart
    exact ⟨hadv.valid, hx, fun _ m hm => .inl (.inl (hwait m hm))⟩
  | @step x x' a a' short o _ hstep ho ih =>
    obtain ⟨ha, hx, hall⟩ := ih
    have hresult := step_ok hA ha hx hstep
    obtain ⟨hadv, hx'⟩ := hresult.valid hA ha hx ho
    refine ⟨hadv.valid, hx', fun ht m hm => ?_⟩
    obtain ⟨htaken, hothers⟩ := hresult.attended hA hx ho ht hm
    by_cases hhead : x.waitlist.head? = some m
    · exact .inl (htaken hhead)
    · have hbefore : Attended p.automaton a.arena x m ∨ short m := by
        cases hc : x.graph.contains m with
        | true => exact hall (hadv.truthful ht) m hc
        | false =>
          -- nothing is asked of a node that was not there
          refine .inl (.inr (.inr fun node hnode => ?_))
          cases (Graph.contains_eq_false_iff.1 hc).symm.trans hnode
      rcases hbefore with hbefore | hshort
      · exact (hothers hbefore).imp id fun hlost => ⟨hhead, .inr hlost⟩
      · exact .inr ⟨hhead, .inl hshort⟩
  | @refine x a a' short path r _ hrefine ih =>
    obtain ⟨ha, hx, hall⟩ := ih
    obtain ⟨hadv, harena, -⟩ := Analysis.refine_ok ha hx.states hrefine
    rw [harena]
    exact ⟨hadv.valid, hx, fun ht => hall (hadv.truthful ht)⟩
  | @restart x x' a a' short n _ hrestart ih =>
    obtain ⟨ha, hx, hall⟩ := ih
    obtain ⟨hadv, hx', -, hkept, hattended⟩ := restartFrom_ok ha hx hrestart
    refine ⟨hadv.valid, hx', fun ht m hm => ?_⟩
    by_cases hw : m ∈ x'.waitlist
    · exact .inl (.inl hw)
    · obtain ⟨node, hnode⟩ := Graph.contains_iff.1 hm
      have hc := Graph.contains_iff.2 ⟨node, (hkept m node hnode hw).1⟩
      exact (hall (hadv.truthful ht) m hc).imp (hattended m hm) id

/-- Without merging, no node is ever short of a child. -/
theorem Reached.not_short (hA : p.automaton.WellFormed) (hsep : p.options.merge = .sep)
    {short : NodeId → Prop} (h : Reached p x a short) (m : NodeId) : ¬ short m := by
  induction h with
  | start => exact id
  | @step x x' a a' short o hreached hstep ho ih =>
    rintro ⟨-, hshort | ⟨k, hk, -, hlost⟩⟩
    · exact ih hshort
    · obtain ⟨ha, hx, -⟩ := hreached.attended hA
      exact hlost (((step_ok hA ha hx hstep).grows hsep hx.graph ho).links k hk)
  | refine _ _ ih => exact ih
  | restart _ _ ih => exact ih

/-- A node that does not wait and is not at an error location has all its successors in the graph.
If states are merged, this is so for nodes that are short of no child. -/
theorem Reached.successor_represented (hA : p.automaton.WellFormed) {short : NodeId → Prop}
    (hx : Reached p x a short) (htruthful : a.Truthful) {node : GraphNode}
    (hnode : x.graph.nodes[n]? = some node) (hwait : n ∉ x.waitlist)
    (herror : ¬ p.automaton.IsError node.location) (hshort : p.options.merge = .join → ¬ short n)
    {edge : Edge}
    (hedge : edge ∈ p.automaton.edges) (hsource : edge.source = node.location) {σ σ' : Store}
    (hσ : node.state.StandsFor p.automaton a.arena σ) (hstep : edge.statement.Step σ σ') :
    ∃ (m : NodeId) (successor : GraphNode), x.graph.nodes[m]? = some successor ∧
      successor.location = edge.target ∧ successor.state.StandsFor p.automaton a.arena σ' := by
  obtain ⟨-, -, hall⟩ := hx.attended hA
  have hclosed : Closed p.automaton a.arena x n := by
    rcases hall htruthful n (Graph.contains_iff.2 ⟨node, hnode⟩) with (hw | ⟨v, hv, he⟩ | hc) | hs
    · exact absurd hw hwait
    · cases hnode.symm.trans hv
      exact absurd he herror
    · exact hc
    · cases hmerge : p.options.merge with
      | sep => exact absurd hs (hx.not_short hA hmerge n)
      | join => exact absurd hs (hshort hmerge)
  obtain ⟨m, successor, -, hm, hl, hσ'⟩ := hclosed node hnode edge hedge hsource σ σ' hσ hstep
  exact ⟨m, successor, hm, hl, hσ'⟩

/-! ## A program where merging takes a child away

The locations `1` and `2` lead to `4`, and `3` leads to `2`. When the state at `3` is expanded, its
successor is merged into the state at `2`. This removes the state at `4`, of which the state at `1`
is a parent as well. -/

def crossing : Problem where
  automaton := {
    nodes := #[.entryOf "main", .plain "main", .plain "main", .plain "main", .plain "main",
      .errorOf "main"]
    edges :=
      #[⟨⟨0⟩, ⟨1⟩, .assume (.eq varX (.num 1)) true⟩, ⟨⟨0⟩, ⟨2⟩, .assume (.eq varX (.num 2)) true⟩,
        ⟨⟨0⟩, ⟨3⟩, .assume (.eq varX (.num 3)) true⟩, ⟨⟨1⟩, ⟨4⟩, .blank⟩, ⟨⟨2⟩, ⟨4⟩, .blank⟩,
        ⟨⟨3⟩, ⟨2⟩, .blank⟩, ⟨⟨4⟩, ⟨5⟩, .assume (.eq varX (.num 1)) true⟩]
    entry := ⟨0⟩
    joins := by decide }
  options := {}

/-- A number of steps without outcome. -/
def steps? (p : Problem) : Nat → Exploration → Analysis → Option (Exploration × Analysis)
  | 0, x, a => some (x, a)
  | k + 1, x, a => match x.step p a with
    | .ok ((none, x'), a') => steps? p k x' a'
    | _ => none

/-- A number of steps from the start. -/
def after? (p : Problem) (k : Nat) : Option (Exploration × Analysis) :=
  match Analysis.new p.options with
  | .ok a₀ => match start .descending p a₀ with
    | .ok (x, a) => steps? p k x a
    | .error _ => none
  | .error _ => none

/-- Steps without outcome lead from what is reached to what is reached. -/
theorem Reached.steps {k : Nat} {short : NodeId → Prop} (hx : Reached p x a short)
    (h : steps? p k x a = some (x', a')) : ∃ short', Reached p x' a' short' := by
  induction k generalizing x a short with
  | zero =>
    cases h
    exact ⟨short, hx⟩
  | succ k ih =>
    unfold steps? at h
    split at h
    · next hstep => exact ih (hx.step hstep fun e he => by cases he) h
    · cases h

/-- Every number of steps from the start leads to an exploration that is reached. -/
theorem reached_after {k : Nat} (h : after? p k = some (x, a)) :
    ∃ short, Reached p x a short := by
  unfold after? at h
  split at h
  · next hnew =>
    split at h
    · next hstart => exact (Reached.start hnew hstart).steps h
    · cases h
  · cases h

/-- Whether the node is inside the block of the initial state, at location `l` with this path. -/
def isAt (x : Exploration) (a : Analysis) (n : NodeId) (l : Location) (path : Expr) : Bool :=
  match x.graph.nodes[n]? with
  | some ⟨.inner s, k⟩ => k = l && s.path.formula = path &&
    (a.arena.get? s.owner).any fun owner => owner.formula = .bool true
  | _ => false

/-- A model of the path gives a store that the node stands for. -/
theorem isAt_eq_true {l : Location} {path : Expr} (h : x.isAt a n l path = true) {V : Store}
    (hV : path.truth V = true) {A : Automaton} :
    ∃ s σ, x.graph.nodes[n]? = some ⟨.inner s, l⟩ ∧
      (State.inner s).StandsFor A a.arena σ := by
  unfold isAt at h
  split at h
  · next s k hnode =>
    simp only [Bool.and_eq_true, decide_eq_true_eq] at h
    obtain ⟨⟨rfl, hpath⟩, howner⟩ := h
    obtain ⟨owner, howner, htrue⟩ := (Option.any_eq_true _ _).1 howner
    refine ⟨s, V.after s.path.ssa, hnode, owner, howner, V, ?_, hpath ▸ hV, Env.reads_after V _⟩
    rw [of_decide_eq_true htrue]
    rfl
  · cases h

/-- What is known at location `l` after the assumption that leads there. -/
def crossingPath (c : Int128) : Expr :=
  .logic .and (.eq (.var ⟨"x", .int, some 0⟩) (.num c)) (.var (Var.branch 0 1))

/-- The fourth step, which expands the state at `3`. -/
theorem crossing_fourth_step : ∃ x a short x' a', Reached crossing x a short ∧
    x.step crossing a = .ok ((none, x'), a') ∧ x.waitlist.head? = some ⟨3⟩ ∧
    x'.waitlist = [⟨2⟩, ⟨2⟩] ∧ a'.solver.transcript = [] ∧
    x'.isAt a' ⟨1⟩ ⟨1⟩ (crossingPath 1) = true ∧ x'.isAt a' ⟨3⟩ ⟨3⟩ (crossingPath 3) = true ∧
    ∀ (m : NodeId) (node : GraphNode), x'.graph.nodes[m]? = some node → node.location ≠ ⟨4⟩ := by
  have hrun : ((after? crossing 3).any fun (x, a) => match x.step crossing a with
      | .ok ((none, x'), a') => x.waitlist.head? = some ⟨3⟩ && x'.waitlist = [⟨2⟩, ⟨2⟩] &&
        a'.solver.transcript.isEmpty && x'.isAt a' ⟨1⟩ ⟨1⟩ (crossingPath 1) &&
        x'.isAt a' ⟨3⟩ ⟨3⟩ (crossingPath 3) &&
        x'.graph.nodes.toList.all fun (_, node) => node.location ≠ ⟨4⟩
      | _ => false) = true := by decide +kernel
  obtain ⟨⟨x, a⟩, hafter, hstep⟩ := (Option.any_eq_true _ _).1 hrun
  obtain ⟨short, hx⟩ := reached_after hafter
  dsimp only at hstep
  split at hstep
  · next x' a' hok =>
    simp only [Bool.and_eq_true, decide_eq_true_eq, List.isEmpty_iff] at hstep
    obtain ⟨⟨⟨⟨⟨hhead, hwait⟩, htranscript⟩, hone⟩, hthree⟩, hnone⟩ := hstep
    refine ⟨x, a, short, x', a', hx, hok, hhead, hwait, htranscript, hone, hthree, ?_⟩
    intro m node hm
    have hmem := Std.ExtTreeMap.mem_toList_iff_getElem?_eq_some.2 hm
    exact of_decide_eq_true (List.all_eq_true.1 hnone _ hmem)
  · cases hstep

theorem wellFormed_crossing : crossing.automaton.WellFormed := by decide +kernel

/-- The successors of the state at `3`, which is short of no child, are in the graph. -/
theorem successor_represented_crossing : ∃ (x : Exploration) (a : Analysis)
    (short : NodeId → Prop) (s : Inner) (σ : Store), Reached crossing x a short ∧ a.Truthful ∧
    ¬ short ⟨3⟩ ∧ x.graph.nodes[(⟨3⟩ : NodeId)]? = some ⟨.inner s, ⟨3⟩⟩ ∧
    (State.inner s).StandsFor crossing.automaton a.arena σ ∧
    ∃ (m : NodeId) (successor : GraphNode), x.graph.nodes[m]? = some successor ∧
      successor.location = ⟨2⟩ ∧ successor.state.StandsFor crossing.automaton a.arena σ := by
  obtain ⟨x, a, short, x', a', hx, hstep, hhead, hwait, htranscript, -, hthree, -⟩ :=
    crossing_fourth_step
  have hx' := hx.step hstep fun e he => by cases he
  have htruthful : a'.Truthful := fun q hq => by simp [htranscript] at hq
  have hshort : ¬ (x.waitlist.head? ≠ some ⟨3⟩ ∧ (short ⟨3⟩ ∨ x.LosesChild x' ⟨3⟩)) :=
    fun h => h.1 hhead
  obtain ⟨s, σ, hnode, hσ⟩ := isAt_eq_true hthree (V := uniform 3) (by decide +kernel)
    (A := crossing.automaton)
  refine ⟨x', a', _, s, σ, hx', htruthful, hshort, hnode, hσ, ?_⟩
  have hedge : (⟨⟨3⟩, ⟨2⟩, .blank⟩ : Edge) ∈ crossing.automaton.edges := by decide +kernel
  refine hx'.successor_represented wellFormed_crossing htruthful hnode (by simp [hwait]) ?_
    (fun _ => hshort) hedge rfl hσ rfl
  rintro ⟨v, hv, herror⟩
  cases hv
  cases herror

/-- The state at `1` is short of a child: it does not wait and is not at an error location, but no
node is left at `4`, where it has a successor. -/
theorem successor_missing_crossing : ∃ (x : Exploration) (a : Analysis) (short : NodeId → Prop)
    (s : Inner) (σ : Store) (edge : Edge), Reached crossing x a short ∧ a.Truthful ∧
    x.graph.nodes[(⟨1⟩ : NodeId)]? = some ⟨.inner s, ⟨1⟩⟩ ∧ ⟨1⟩ ∉ x.waitlist ∧
    ¬ crossing.automaton.IsError ⟨1⟩ ∧ edge ∈ crossing.automaton.edges ∧ edge.source = ⟨1⟩ ∧
    (State.inner s).StandsFor crossing.automaton a.arena σ ∧ edge.statement.Step σ σ ∧
    ¬ ∃ (m : NodeId) (successor : GraphNode), x.graph.nodes[m]? = some successor ∧
      successor.location = edge.target ∧
      successor.state.StandsFor crossing.automaton a.arena σ := by
  obtain ⟨x, a, short, x', a', hx, hstep, -, hwait, htranscript, hone, -, hnone⟩ :=
    crossing_fourth_step
  have hx' := hx.step hstep fun e he => by cases he
  have htruthful : a'.Truthful := fun q hq => by simp [htranscript] at hq
  have hedge : (⟨⟨1⟩, ⟨4⟩, .blank⟩ : Edge) ∈ crossing.automaton.edges := by decide +kernel
  obtain ⟨s, σ, hnode, hσ⟩ := isAt_eq_true hone (V := uniform 1) (by decide +kernel)
    (A := crossing.automaton)
  refine ⟨x', a', _, s, σ, _, hx', htruthful, hnode, by simp [hwait], ?_, hedge, rfl, hσ, rfl, ?_⟩
  · rintro ⟨v, hv, herror⟩
    cases hv
    cases herror
  · rintro ⟨m, successor, hm, hl, -⟩
    exact hnone m successor hm hl

end Exploration

end Cegar

import Cegar.Proofs.Exploration.Trails
import Cegar.Proofs.Failures

/-!
# Paths that are told by branch variables

The walk to an error location takes the branches that the branch variables tell. It takes the way of
the model if they do tell it: where there are two children, their edges have to be assumptions of
opposite truth, and the number of assumptions on the way has to be the index of the variable that the
formula uses. Without merging the numbers agree.

* **`TargetPath.Walk.step?_follows`**: one step takes the edge that the model takes;
* **`TargetPath.find_follows`**: so does the whole walk;
* **`Report.executesAlong_of_precise`**: the path can be executed then.
-/

namespace Cegar

variable {p : Problem} {arena : Arena} {V : Store}

/-! ## Values of branch variables -/

/-- The values that are looked up are those in the model. -/
theorem Solver.truth?_of_branches {s : Solver} {e : Expr} {v : Var} {b : Bool}
    (h : (s.branches e)[v]? = some b) : s.truth? (.var v) = some b := by
  unfold branches at h
  rw [Std.ExtTreeSet.foldl_eq_foldl_toList] at h
  have hempty {v : Var} {b : Bool} (h : (∅ : Std.ExtTreeMap Var Bool)[v]? = some b) :
      s.truth? (.var v) = some b := by simp at h
  revert v b
  refine List.foldlRecOn (motive := fun m : Std.ExtTreeMap Var Bool =>
    ∀ {v b}, m[v]? = some b → s.truth? (.var v) = some b) _ _ hempty fun m hm u _ v b h => ?_
  split at h
  · split at h
    · next c hc =>
      rw [Std.ExtTreeMap.getElem?_insert] at h
      split at h
      · next heq =>
        rw [Std.LawfulEqOrd.compare_eq_iff_eq] at heq
        cases h
        exact heq ▸ hc
      · exact hm h
    · exact hm h
  · exact hm h

/-- A feasible trace has a model of all blocks, and the branches are those of the model. -/
theorem Trace.feasible_model {P : Var → Prop} {blocks : List PathFormula} {s s' : Solver}
    {branches : Std.ExtTreeMap Var Bool} (hs : s.scopes = [[]])
    (hblocks : ∀ b ∈ blocks, b.formula.IsFormula P)
    (h : ofBlocks blocks s = .ok (.ok (.feasible branches), s')) :
    ∃ V : Store, (∀ b ∈ blocks, b.formula.truth V = true) ∧
      ∀ v b, branches[v]? = some b → V.val v = .bool b := by
  obtain ⟨answer, t, hsolve, ⟨rfl, -, heq⟩ | ⟨-, -, heq⟩ | ⟨-, _, -, heq⟩⟩ := ofBlocks_cases hs h
  · cases heq
    have hformulas : ∀ e ∈ blocks.map (·.formula), e.IsFormula P := by
      intro e he
      obtain ⟨b, hb, rfl⟩ := List.mem_map.1 he
      exact hblocks b hb
    obtain ⟨m, hm, hmodel, hmodels⟩ := Solver.models_of_sat
      (by simpa [Solver.withBlocks, Solver.assertions] using Expr.IsFormula.conj hformulas) hsolve
    refine ⟨m.env hm, fun b hb => ?_, fun v b hvb => ?_⟩
    · have hwhole := hmodels (Expr.conj (blocks.map (·.formula)))
        (by simp [Solver.withBlocks, Solver.assertions])
      rw [Expr.truth_conj, List.all_eq_true] at hwhole
      exact hwhole _ (List.mem_map.2 ⟨b, hb, rfl⟩)
    · have hpop : t.pop.model = some m := by
        unfold Solver.pop
        split <;> exact hmodel
      have hvalue := Solver.truth?_of_branches hvb
      have hcomplete := Expr.eval_complete hm (e := .var v) trivial
      simp only [Solver.truth?, hpop, Option.bind_eq_bind, Option.bind_some, hcomplete] at hvalue
      cases hdatum : (m.env hm).val v <;> simp_all [Expr.valueIn, Datum.bool?]
  · cases heq
  · cases heq

/-! ## Assumptions -/

/-- The truth value that an edge assumes of its condition, if it is an assumption. -/
def Edge.assumed? (edge : Edge) : Option Bool :=
  match edge.statement with
  | .assume _ truth => some truth
  | _ => none

/-- An edge counts where it starts, if it is an assumption. -/
theorem Edge.assumptionsAt_singleton (edge : Edge) (l : Location) :
    assumptionsAt l [edge] = if edge.source = l then edge.assumed?.toList else [] := by
  unfold assumptionsAt assumed?
  split <;> split <;> simp_all [assumptionsAt]

/-- The truth value that the edge with the given number assumes of its condition. -/
def Automaton.assumed? (A : Automaton) (e : EdgeId) : Option Bool :=
  A.edges[e.idx]?.bind (·.assumed?)

/-- The truth value that is looked up is the one that the edge assumes. -/
theorem TargetPath.assumption?_ok {A : Automaton} {e : EdgeId} {o : Option Bool}
    (h : assumption? A e = .ok o) :
    A.assumed? e = o ∧ ∃ edge, A.edges[e.idx]? = some edge ∧ edge.assumed? = o := by
  obtain ⟨edge, hedge, h⟩ := except_bind_ok.1 h
  have hget := Automaton.edge_eq_ok.1 hedge
  have hassumed : edge.assumed? = o := by
    unfold Edge.assumed?
    split at h <;> cases h <;> simp_all
  exact ⟨by simp [Automaton.assumed?, hget, hassumed], edge, hget, hassumed⟩

/-- A model that takes an assumption tells so by the next branch variable. -/
theorem State.Continues.val_branch (hA : p.automaton.WellFormed) {s t : State} {e : EdgeId}
    (h : s.Continues p arena V e t) {edge : Edge} (hedge : p.automaton.edges[e.idx]? = some edge)
    {b : Bool} (hb : edge.assumed? = some b) :
    V.val (Var.branch edge.source.idx ((s.numbering arena).index
      (Var.branchName edge.source.idx) + 1)) = .bool b := by
  obtain ⟨hedge', hblock, hextend, hV, -⟩ := h
  cases hedge.symm.trans hedge'
  have halong : PathFormula.along _ [(e, edge)] = .ok (.ok _) :=
    PathFormula.along_cons_ok.2 ⟨_, hextend, rfl⟩
  have hassumptions : (Edge.assumptionsAt edge.source ([(e, edge)].map (·.2)))[0]? = some b := by
    simp [Edge.assumptionsAt_singleton, hb]
  have hover : ∀ d ∈ [(e, edge)], d.2.statement.Over (· ∈ p.automaton.vars) := by
    simpa using hA.overVars (Automaton.mem_edges_of_getElem? hedge)
  have hval := PathFormula.val_branch_along hA.vocabulary hover halong hV hassumptions
  rw [hblock.numbering]
  exact hval

namespace TargetPath

variable {A : Automaton} {g : Graph} {path : Path} {branches : Std.ExtTreeMap Var Bool}
  {t : TargetPath}

/-! ## One step -/

/-- Two edges that assume opposite truth values. -/
def Opposite (A : Automaton) (c d : EdgeId) : Prop :=
  ∃ b, A.assumed? c = some b ∧ A.assumed? d = some (!b)

instance (c d : EdgeId) : Decidable (Opposite A c d) :=
  inferInstanceAs (Decidable (∃ _ : Bool, _))

/-- A child that is chosen by a truth value assumes it. -/
theorem childTaking_ok {truth : Bool} {cs : List (NodeId × EdgeId)} {c : NodeId × EdgeId}
    (h : childTaking A truth cs = .ok (some c)) : c ∈ cs ∧ A.assumed? c.2 = some truth := by
  induction cs with
  | nil => cases h
  | cons d cs ih =>
    obtain ⟨o, ho, h⟩ := except_bind_ok.1 h
    split at h
    · next heq =>
      cases h
      exact ⟨List.mem_cons_self, heq ▸ (assumption?_ok ho).1⟩
    · obtain ⟨hmem, hassumed⟩ := ih h
      exact ⟨List.mem_cons_of_mem _ hmem, hassumed⟩

/-- What is chosen is one of the children. -/
theorem mem_of_resolve {l : Location} {visit : Nat} {children : List (NodeId × EdgeId)}
    {c : NodeId × EdgeId} (h : resolve A branches l visit children = .ok (some c)) :
    c ∈ children := by
  unfold resolve at h
  split at h
  · cases h
    exact List.mem_singleton_self _
  · split at h
    · exact (childTaking_ok h).1
    · cases h
  · cases h

/-- Where the walk goes is a child, resolved or guessed. -/
theorem mem_of_choice {l : Location} {visit : Nat} {children : List (NodeId × EdgeId)}
    {choice : Option (NodeId × EdgeId)} {c : NodeId × EdgeId} {f : NodeId × EdgeId → Bool}
    (hchoice : resolve A branches l visit children = .ok choice)
    (h : choice.or ((children.find? f).or children.head?) = some c) : c ∈ children := by
  rcases Option.or_eq_some_iff.1 h with rfl | ⟨-, hguess⟩
  · exact mem_of_resolve hchoice
  · rcases Option.or_eq_some_iff.1 hguess with hfind | ⟨-, hhead⟩
    · exact List.mem_of_find?_eq_some hfind
    · exact List.mem_of_head? hhead

/-- The child that is resolved is the one that the branch variable tells. -/
theorem resolve_eq {l : Location} {visit : Nat} {children : List (NodeId × EdgeId)}
    {c d : NodeId × EdgeId} (hopposed : children.length = 2 →
      children.Pairwise fun c d => Opposite A c.2 d.2) (hd : d ∈ children)
    (htold : children.length = 2 → ∀ truth, branches[Var.branch l.idx visit.toUInt32]? = some truth →
      ∀ b, A.assumed? d.2 = some b → truth = b)
    (h : resolve A branches l visit children = .ok (some c)) : c = d := by
  unfold resolve at h
  split at h
  · cases h
    exact (List.mem_singleton.1 hd).symm
  · next x y =>
    split at h
    · next truth hlookup =>
      obtain ⟨hmem, hassumed⟩ := childTaking_ok h
      obtain ⟨b, hx, hy⟩ : Opposite A x.2 y.2 := by simpa using hopposed rfl
      -- of the two children only one assumes what the variable tells
      simp only [List.mem_cons, List.not_mem_nil, or_false] at hd hmem
      rcases hd with rfl | rfl <;> rcases hmem with rfl | rfl
      · rfl
      · have := htold rfl truth hlookup b hx
        simp_all
      · have := htold rfl truth hlookup (!b) hy
        simp_all
      · rfl
    · cases h
  · cases h

/-- The walk has counted the assumptions on its way. -/
def Walk.Counts (A : Automaton) (w : Walk) : Prop :=
  ∀ l, w.visits[l]?.getD 0 = (Edge.assumptionsAt l (A.edgesAt w.soFar.edges)).length

/-- One more edge of the path keeps the count: assumptions are counted where they start. -/
theorem Walk.counts_extend {w : Walk} (hw : w.Counts A) {n : NodeId} {e : EdgeId} {edge : Edge}
    (hedge : A.edges[e.idx]? = some edge) :
    Counts A ⟨n, if edge.assumed?.isSome then
      w.visits.insert edge.source (w.visits[edge.source]?.getD 0 + 1) else w.visits,
      w.soFar.extend n e false⟩ := by
  intro l
  have hedges : A.edgesAt (w.soFar.edges ++ [e]) = A.edgesAt w.soFar.edges ++ [edge] := by
    simp [Automaton.edgesAt, hedge]
  rw [extend, hedges, Edge.length_assumptionsAt_append, ← hw l, Edge.assumptionsAt_singleton]
  cases edge.assumed? with
  | none => simp
  | some b =>
    simp only [Option.isSome_some, if_true, Std.ExtTreeMap.getElem?_insert,
      Std.LawfulEqOrd.compare_eq_iff_eq]
    split
    · next heq => simp [heq]
    · simp

/-- A step goes to a child: where the branches are resolved to, or one that is guessed. -/
theorem Walk.step?_cases {w w' : Walk} (h : w.step? A g path branches = .ok (some w')) :
    ∃ node choice c edge, g.nodes[w.current]? = some node ∧
      resolve A branches node.location (w.visits[node.location]?.getD 0 + 1)
        (g.children w.current) = .ok choice ∧
      c ∈ g.children w.current ∧ (∀ d, choice = some d → c = d) ∧ A.edges[c.2.idx]? = some edge ∧
      w' = ⟨c.1, if edge.assumed?.isSome then
        w.visits.insert node.location (w.visits[node.location]?.getD 0 + 1) else w.visits,
        w.soFar.extend c.1 c.2 choice.isNone⟩ := by
  unfold Walk.step? at h
  split at h
  · cases h
  · next node hnode =>
    obtain ⟨choice, hchoice, h⟩ := except_bind_ok.1 h
    dsimp only at h
    split at h
    · cases h
    · next n e hgo =>
      obtain ⟨o, ho, h⟩ := except_bind_ok.1 h
      obtain ⟨-, edge, hedge, rfl⟩ := assumption?_ok ho
      refine ⟨node, choice, (n, e), edge, hnode, hchoice, mem_of_choice hchoice hgo, ?_, hedge, ?_⟩
      · rintro d rfl
        exact (Option.some.inj hgo).symm
      · split at h
        · next hsome =>
          cases h
          rw [if_pos hsome]
        · next hnone =>
          cases h
          rw [if_neg hnone]

/-- A step that is not guessed goes where the branches are resolved to. -/
theorem Walk.step?_resolved {w w' : Walk} (h : w.step? A g path branches = .ok (some w'))
    (hprecise : w'.soFar.imprecise = false) :
    ∃ node c edge, g.nodes[w.current]? = some node ∧
      resolve A branches node.location (w.visits[node.location]?.getD 0 + 1)
        (g.children w.current) = .ok (some c) ∧
      A.edges[c.2.idx]? = some edge ∧
      w' = ⟨c.1, if edge.assumed?.isSome then
        w.visits.insert node.location (w.visits[node.location]?.getD 0 + 1) else w.visits,
        w.soFar.extend c.1 c.2 false⟩ := by
  obtain ⟨node, choice, c, edge, hnode, hchoice, -, hc, hedge, rfl⟩ := step?_cases h
  simp only [extend, Bool.or_eq_false_iff] at hprecise
  cases choice with
  | none => cases hprecise.2
  | some d =>
    cases hc d rfl
    exact ⟨node, c, edge, hnode, hchoice, hedge, rfl⟩

/-- A step takes the edge that the model takes, if the branch variable there tells it. -/
theorem Walk.step?_follows (hA : p.automaton.WellFormed) (hg : g.Shaped p arena)
    (hbranches : ∀ v b, branches[v]? = some b → V.val v = .bool b) {w w' : Walk}
    (hw : w.Counts p.automaton) {k : Link} (hk : k ∈ g.links) (hcurrent : k.source = w.current)
    {u v : GraphNode} (hu : g.nodes[k.source]? = some u) (hv : g.nodes[k.target]? = some v)
    (hcontinues : u.state.Continues p arena V k.label v.state)
    (hopposed : (g.children w.current).length = 2 →
      (g.children w.current).Pairwise fun c d => Opposite p.automaton c.2 d.2)
    (hindex : (g.children w.current).length = 2 →
      (u.state.numbering arena).index (Var.branchName u.location.idx) = UInt32.ofNat
        (Edge.assumptionsAt u.location (p.automaton.edgesAt w.soFar.edges)).length)
    (h : w.step? p.automaton g path branches = .ok (some w'))
    (hprecise : w'.soFar.imprecise = false) :
    w'.current = k.target ∧ w'.soFar = w.soFar.extend k.target k.label false ∧
      w'.Counts p.automaton := by
  obtain ⟨node, c, edge, hnode, hresolve, hedge, rfl⟩ := step?_resolved h hprecise
  rw [← hcurrent] at hnode hresolve hopposed hindex
  cases hu.symm.trans hnode
  obtain ⟨edge', hedge', hsource, -⟩ := (hg.leads k hk u v hu hv).edge
  -- the branch variable that is looked up is the one that the edge has set
  have htold (hlength : (g.children k.source).length = 2) (truth : Bool)
      (hlookup : branches[Var.branch u.location.idx
        (w.visits[u.location]?.getD 0 + 1).toUInt32]? = some truth) (b : Bool)
      (hb : p.automaton.assumed? k.label = some b) : truth = b := by
    have hassumed : edge'.assumed? = some b := by simpa [Automaton.assumed?, hedge'] using hb
    have hval := hcontinues.val_branch hA hedge' hassumed
    rw [hsource, hindex hlength, ← hw] at hval
    have hsame := hbranches _ _ hlookup
    rw [show (w.visits[u.location]?.getD 0 + 1).toUInt32 =
      UInt32.ofNat (w.visits[u.location]?.getD 0) + 1 from UInt32.ofNat_add _ 1, hval] at hsame
    exact (Datum.bool.inj hsame).symm
  have hchild : (k.target, k.label) ∈ g.children k.source := Graph.mem_children.2 hk
  cases resolve_eq hopposed hchild htold hresolve
  cases hedge.symm.trans hedge'
  refine ⟨rfl, rfl, ?_⟩
  rw [← hsource]
  exact Walk.counts_extend hw hedge

/-! ## The whole walk -/

/-- What is found begins with the path so far, and it is imprecise if that is. -/
theorem Walk.run?_extends {target : NodeId} {k : Nat} {w : Walk}
    (h : w.run? A g path branches target k = .ok (some t)) :
    w.soFar.nodes <+: t.nodes ∧ w.soFar.edges <+: t.edges ∧
      (t.imprecise = false → w.soFar.imprecise = false) := by
  induction k generalizing w with
  | zero =>
    unfold Walk.run? at h
    split at h <;> cases h
    exact ⟨List.prefix_rfl, List.prefix_rfl, id⟩
  | succ k ih =>
    unfold Walk.run? at h
    split at h
    · cases h
      exact ⟨List.prefix_rfl, List.prefix_rfl, id⟩
    · obtain ⟨next, hnext, h⟩ := except_bind_ok.1 h
      cases next with
      | none => cases h
      | some w' =>
        obtain ⟨hnodes, hedges, himprecise⟩ := ih h
        obtain ⟨node, choice, c, edge, -, -, -, -, -, rfl⟩ := step?_cases hnext
        refine ⟨(List.prefix_append _ _).trans hnodes, (List.prefix_append _ _).trans hedges,
          fun hprecise => ?_⟩
        have hextended := himprecise hprecise
        simp only [extend, Bool.or_eq_false_iff] at hextended
        exact hextended.1

/-- Where a node on the path has two children, the edges to them assume opposite truth values. -/
def Opposed (A : Automaton) (g : Graph) (t : TargetPath) : Prop :=
  ∀ n ∈ t.nodes, (g.children n).length = 2 →
    (g.children n).Pairwise fun c d => Opposite A c.2 d.2

instance : Decidable (t.Opposed A g) := inferInstanceAs (Decidable (∀ _ ∈ _, _))

/-- Where a node on the path has two children, the index of the branch variable is the number of
assumptions on the path before. -/
def Numbered (A : Automaton) (arena : Arena) (g : Graph) (t : TargetPath) : Prop :=
  ∀ ni ∈ t.nodes.zipIdx, ∀ node ∈ g.nodes[ni.1]?, (g.children ni.1).length = 2 →
    (node.state.numbering arena).index (Var.branchName node.location.idx) = UInt32.ofNat
      (Edge.assumptionsAt node.location (A.edgesAt (t.edges.take ni.2))).length

instance : Decidable (t.Numbered A arena g) := inferInstanceAs (Decidable (∀ _ ∈ _, _))

/-- Before a node with two children that the model comes to on the path, there are as many
assumptions as the index of the branch variable says. -/
def Agrees (p : Problem) (arena : Arena) (g : Graph) (V : Store) (r : NodeId) (t : TargetPath) :
    Prop :=
  ∀ (js : List Link) (n : NodeId) (node : GraphNode), Graph.Trail p arena g V r js n →
    js.map (·.label) <+: t.edges → t.nodes[js.length]? = some n → g.nodes[n]? = some node →
    (g.children n).length = 2 →
    (node.state.numbering arena).index (Var.branchName node.location.idx) = UInt32.ofNat
      (Edge.assumptionsAt node.location (p.automaton.edgesAt (js.map (·.label)))).length

/-- If all indices are the numbers of assumptions, they are so where the model comes to. -/
theorem Numbered.agrees (h : t.Numbered p.automaton arena g) (r : NodeId) :
    t.Agrees p arena g V r := by
  intro js n node _ hedges hn hnode htwo
  have hmem : (n, js.length) ∈ t.nodes.zipIdx := List.mem_zipIdx_iff_getElem?.2 hn
  rw [h _ hmem node hnode htwo]
  obtain ⟨rest, hrest⟩ := hedges
  simp [← hrest]

/-- Without merging, the numbers agree. -/
theorem agrees_of_unmerged (hA : p.automaton.WellFormed) (harena : arena.Valid p.automaton)
    (hg : g.Shaped p arena) (hunmerged : g.Unmerged p arena) {r : NodeId} (hr : g.root = some r) :
    t.Agrees p arena g V r := by
  intro js n node htrail _ _ hnode _
  obtain ⟨id, s, hroot, hget, hprevious⟩ := hg.root r hr
  obtain ⟨-, hblock, -⟩ := (harena.state id s hget).initial hprevious
  -- nothing has been written at the root
  have hempty : State.numbering arena (.abstraction id) = .empty := by
    rw [State.numbering, hget, Option.elim, AbstractionState.ssa, hblock]
    rfl
  rw [htrail.index hA hunmerged hroot hnode node.location, hempty]
  simp [SsaMap.index, SsaMap.empty]

/-- The walk takes the way of the model to the end. -/
theorem Walk.run?_follows (hA : p.automaton.WellFormed) (hg : g.Shaped p arena)
    (hbranches : ∀ v b, branches[v]? = some b → V.val v = .bool b) {r target : NodeId}
    (hopposed : t.Opposed p.automaton g) (hagrees : t.Agrees p arena g V r)
    (hprecise : t.imprecise = false) {k : Nat} {w : Walk} {js ks : List Link}
    (hdone : Graph.Trail p arena g V r js w.current)
    (hrest : Graph.Trail p arena g V w.current ks target) (hw : w.Counts p.automaton)
    (hnodes : w.soFar.nodes.length = js.length + 1)
    (hlast : w.soFar.nodes.getLast? = some w.current) (hedges : w.soFar.edges = js.map (·.label))
    (h : w.run? p.automaton g path branches target k = .ok (some t)) :
    t.edges = (js ++ ks).map (·.label) := by
  induction k generalizing w js ks with
  | zero =>
    unfold Walk.run? at h
    split at h
    · next heq =>
      cases h
      rw [hedges, (hrest.eq_nil hg heq)]
      simp
    · cases h
  | succ k ih =>
    obtain ⟨hbegins, hbegins', -⟩ := run?_extends h
    unfold Walk.run? at h
    split at h
    · next heq =>
      cases h
      rw [hedges, (hrest.eq_nil hg heq)]
      simp
    · next hne =>
      obtain ⟨next, hnext, h⟩ := except_bind_ok.1 h
      cases next with
      | none => cases h
      | some w' =>
        obtain ⟨-, -, himprecise⟩ := run?_extends h
        generalize hcurrent : w.current = n at hrest
        cases hrest with
        | nil => exact absurd hcurrent hne
        | @cons l ks _ u v hl hu hv hcontinues hrest =>
          -- the walk is at a node of the path that is found
          have hat : t.nodes[js.length]? = some w.current := by
            rw [List.getLast?_eq_getElem?, hnodes, Nat.add_sub_cancel] at hlast
            obtain ⟨rest, heq⟩ := hbegins
            rw [← heq, List.getElem?_append_left (by omega), hlast]
          have hindex := hagrees js w.current u hdone (hedges ▸ hbegins') hat
            (by rw [hcurrent, hu])
          rw [← hedges] at hindex
          obtain ⟨hw', hsoFar, hcounts⟩ := step?_follows hA hg hbranches hw hl hcurrent.symm hu hv
            hcontinues (hopposed _ (List.mem_of_getElem? hat)) hindex hnext (himprecise hprecise)
          have hdone' : Graph.Trail p arena g V r (js ++ [l]) w'.current := by
            rw [hw']
            exact hdone.append (hcurrent ▸ .cons hl hu hv hcontinues .nil)
          have hfollows := ih hdone' (hw' ▸ hrest) hcounts (by simp [hsoFar, extend, hnodes])
            (by simp [hsoFar, extend, hw']) (by simp [hsoFar, extend, hedges]) h
          simpa using hfollows

/-- A precise path is the way that the model takes. -/
theorem find_follows (hA : p.automaton.WellFormed) (hg : g.Shaped p arena)
    (hbranches : ∀ v b, branches[v]? = some b → V.val v = .bool b) {r : NodeId} {hop : Hop}
    (hr : g.root = some r) (hhop : path.getLast? = some hop) {ks : List Link}
    (htrail : Graph.Trail p arena g V r ks hop.node) (hopposed : t.Opposed p.automaton g)
    (hagrees : t.Agrees p arena g V r) (hprecise : t.imprecise = false)
    (h : find p.automaton g path branches = .ok (.ok t)) : t.edges = ks.map (·.label) := by
  unfold find at h
  simp only [hr, hhop] at h
  obtain ⟨found, hfound, h⟩ := attempt_bind_ok.1 h
  rw [attempt_lift_ok] at hfound
  cases attempt_pure_ok.1 h
  cases found with
  | none => cases hprecise
  | some t =>
    have hcounts : Walk.Counts p.automaton ⟨r, ∅, ⟨[r], [], false⟩⟩ := fun l => by
      simp [Automaton.edgesAt, Edge.assumptionsAt]
    exact Walk.run?_follows hA hg hbranches hopposed hagrees hprecise .nil htrail hcounts rfl rfl rfl
      hfound

end TargetPath

/-! ## Models of paths -/

namespace Refinement

variable {A : Automaton} {g : Graph}

/-- A model of the blocks after a stop is one of the blocks up to the last stop. -/
theorem satisfied_of_chain (harena : arena.Valid A) {s u : Stop} {ss : List Stop}
    (hss : ∀ t ∈ ss, ∃ id, arena.get? id = some t.state) (hs : arena.Satisfied V s.state.id)
    (hchain : Chained (some s.state.id) ss) (hV : ∀ t ∈ ss, t.state.block.formula.truth V = true)
    (hu : (s :: ss).getLast? = some u) : arena.Satisfied V u.state.id := by
  induction ss generalizing s with
  | nil =>
    cases hu
    exact hs
  | cons t ss ih =>
    obtain ⟨hprevious, hchain⟩ := hchain
    obtain ⟨id, hget⟩ := hss t (by simp)
    rw [List.getLast?_cons_cons] at hu
    have hnext : arena.Satisfied V t.state.id := by
      rw [harena.id id t.state hget]
      exact .next hget hprevious (hV t (by simp)) hs
    exact ih (fun v hv => hss v (List.mem_cons_of_mem _ hv)) hnext hchain
      (fun v hv => hV v (List.mem_cons_of_mem _ hv)) hu

/-- A model of all blocks on a path is a model up to its last stop. -/
theorem satisfied_of_stops (harena : arena.Valid A) {path : Path} {ss : List Stop}
    (h : stops arena g none path = .ok (.ok ss))
    (hV : ∀ t ∈ ss, t.state.block.formula.truth V = true) {u : Stop}
    (hu : ss.getLast? = some u) : arena.Satisfied V u.state.id := by
  cases ss with
  | nil => cases hu
  | cons s ss =>
    have hchain := chained_stops harena h
    obtain ⟨id, hget⟩ := (mem_stops h s (by simp)).2
    have hfirst : arena.Satisfied V s.state.id := by
      rw [harena.id id s.state hget]
      exact .initial hget hchain.1
    exact satisfied_of_chain harena (fun t ht => (mem_stops h t (by simp [ht])).2) hfirst hchain.2
      (fun t ht => hV t (by simp [ht])) hu

/-- A model of all blocks of a path is one of all blocks up to the state at its end. -/
theorem satisfied_of_split (harena : arena.Valid A) (hg : g.Valid A arena) {path : Path}
    {ss : List Stop} {blocks : List PathFormula}
    (h : split arena g path = .ok (.ok (ss, blocks)))
    (hV : ∀ b ∈ blocks, b.formula.truth V = true) {hop : Hop} (hhop : path.getLast? = some hop)
    {node : GraphNode} (hnode : g.nodes[hop.node]? = some node) :
    node.state.Satisfied arena V := by
  obtain ⟨hss, hop', node', rest, hhop', hnode', rfl, hcases⟩ := split_ok h
  cases hhop.symm.trans hhop'
  cases hnode.symm.trans hnode'
  have hvalid := hg hop.node node hnode
  have hstops : ∀ t ∈ ss, t.state.block.formula.truth V = true := fun t ht =>
    hV _ (List.mem_append_left _ (List.mem_map.2 ⟨t, ht, rfl⟩))
  rcases hcases with ⟨-, hne⟩ | ⟨s, hs, rfl, howner⟩
  · cases hstate : node.state with
    | top | bottom =>
      rw [hstate] at hvalid
      cases hvalid
    | inner s => exact absurd hstate (hne s)
    | abstraction id =>
      obtain ⟨t, ht, hlast⟩ := getLast?_stops hss hhop hnode hstate
      have hsat := satisfied_of_stops harena hss hstops hlast
      rwa [harena.id id t ht] at hsat
  · obtain ⟨u, hu, hid⟩ := Option.map_eq_some_iff.1 howner
    rw [hs]
    refine ⟨hid ▸ satisfied_of_stops harena hss hstops hu, ?_⟩
    exact hV _ (List.mem_append_right _ (by simp))

end Refinement

/-! ## Precise paths -/

/-- Whether the verdict has a path with some property. -/
def Verdict.hasPath (P : TargetPath → Bool) : Verdict → Bool
  | .unsafePath path => P path
  | _ => false

/-- The verdict has a path with the property. -/
theorem Verdict.hasPath_eq_true {P : TargetPath → Bool} {v : Verdict} (h : v.hasPath P = true) :
    ∃ path, v = .unsafePath path ∧ P path = true := by
  cases v with
  | unsafePath path => exact ⟨path, rfl, h⟩
  | safe | undecided | failed => cases h

/-- If all edges lead to larger numbers, the program does not go round. -/
theorem Problem.not_openCycle_of_lt
    (h : ∀ edge ∈ p.automaton.edges, edge.source.idx < edge.target.idx) : ¬ p.OpenCycle := by
  have hlt {l m : Location} (hsteps : Relation.TransGen p.OpenStep l m) : l.idx < m.idx := by
    induction hsteps with
    | single hstep =>
      obtain ⟨edge, hedge, rfl, rfl, -⟩ := hstep
      exact h edge hedge
    | tail _ hstep ih =>
      obtain ⟨edge, hedge, rfl, rfl, -⟩ := hstep
      exact Nat.lt_trans ih (h edge hedge)
  rintro ⟨l, hcycle⟩
  exact absurd (hlt hcycle) (Nat.lt_irrefl _)

namespace Report

/-- A path that is returned comes from a refinement of the path to a node at an error location. -/
theorem Ends.found (hA : p.automaton.WellFormed) {x x' : Exploration} {a a' : Analysis}
    {short : NodeId → Prop} (hx : Exploration.Reached p x a short) {target : TargetPath}
    (h : Ends p x a (.unsafePath target) x' a') :
    ∃ a₁ short' n path node, Exploration.Reached p x' a₁ short' ∧
      x'.graph.nodes[n]? = some node ∧ p.automaton.IsError node.location ∧
      x'.graph.pathTo n = .ok path ∧
      Analysis.refine p x'.graph path a₁ = .ok (.ok (.real target), a') := by
  generalize hv : Verdict.unsafePath target = v at h
  induction h generalizing short with
  | safe | undecided | failed => cases hv
  | real hrun hpath hrefine =>
    cases hv
    obtain ⟨⟨short', hx'⟩, htarget⟩ := Exploration.run_reached hA hx (fun e he => by cases he) hrun
    obtain ⟨node, hnode, herror⟩ := htarget _ rfl
    exact ⟨_, short', _, _, node, hx', hnode, herror, hpath, hrefine⟩
  | spurious hrun _ hrefine hrestart _ ih =>
    obtain ⟨⟨short', hx'⟩, -⟩ := Exploration.run_reached hA hx (fun e he => by cases he) hrun
    exact ih ((hx'.refine hrefine).restart hrestart) hv

/-- A path that is returned and not marked as imprecise can be executed, if branch variables tell
the ways apart: where a node on the path has two children, the edges to them assume opposite truth
values. If states are merged, moreover the program must not go round inside a block, and the indices
of the branch variables have to be the numbers of assumptions on the path. The order in which numbers
of nodes are freed does not matter. -/
theorem executesAlong_of_precise (hA : p.automaton.WellFormed) {freeing : Freeing} {max : Nat}
    {a₀ a : Analysis} {r : Report} (hnew : Analysis.new p.options = .ok a₀)
    (hrun : checkWith freeing p max a₀ = .ok (r, a))
    {path : TargetPath} (hverdict : r.verdict = .unsafePath path)
    (hprecise : path.imprecise = false)
    (hopposed : path.Opposed p.automaton r.exploration.graph)
    (hmerge : p.options.merge = .join → ¬ p.OpenCycle ∧
      path.Numbered p.automaton a.arena r.exploration.graph) :
    ∃ σ c, p.automaton.ExecutesAlong path.edges (p.automaton.entry, σ) c ∧
      p.automaton.IsError c.1 := by
  obtain ⟨x, a₁, -, hx, hends⟩ := checkWith_ends hnew hrun
  rw [hverdict] at hends
  obtain ⟨a₂, short, n, route, node, hreached, hnode, herror, hroute, hrefine⟩ := hends.found hA hx
  obtain ⟨ha₂, hvalid, -⟩ := hreached.attended hA
  have hcycle : p.options.merge = .join → ¬ p.OpenCycle := fun hjoin => (hmerge hjoin).1
  have hshaped :=
    (hreached.arises.standing (Exploration.unlooped_of_no_openCycle hcycle)).shaped
  obtain ⟨-, harena, -⟩ := Analysis.refine_ok ha₂ hvalid.states hrefine
  obtain ⟨root, hroot, hto⟩ := Graph.pathTo_route hroute
  obtain ⟨a₃, -, hinspection, -⟩ := Analysis.refine_inspection hrefine
  cases hinspection with
  | real hsplit htrace hfind =>
    -- a model of the blocks takes a way to the target
    obtain ⟨V, hV, hbranches⟩ := Trace.feasible_model ha₂.rest
      (Refinement.isFormula_blocks ha₂.arena hvalid.states hsplit) htrace
    have hsatisfied :=
      Refinement.satisfied_of_split ha₂.arena hvalid.states hsplit hV hto.getLast? hnode
    obtain ⟨ks, htrail⟩ := (hreached.arises.explained hcycle).exists_trail hA ha₂.arena
      (hreached.arises.standing (Exploration.unlooped_of_no_openCycle hcycle)).legal.arena
      hvalid.states hshaped hroot hnode hsatisfied
    -- and the walk is on that way
    have hagrees : path.Agrees p a₂.arena r.exploration.graph V root := by
      cases hkind : p.options.merge with
      | sep =>
        exact TargetPath.agrees_of_unmerged hA ha₂.arena hshaped (hreached.arises.unmerged hkind)
          hroot
      | join => exact (harena ▸ (hmerge hkind).2).agrees root
    have hedges := TargetPath.find_follows hA hshaped hbranches hroot hto.getLast? htrail hopposed
      hagrees hprecise hfind
    obtain ⟨id, s, hentry, -⟩ := hshaped.root root hroot
    obtain ⟨node', σ', hnode', hexec⟩ := htrail.executes hA hshaped hentry (Env.reads_after V _)
    cases hnode.symm.trans hnode'
    rw [hedges]
    exact ⟨_, _, hexec, herror⟩

/-- Two ways meet before the error location, and only the second one leads on to it. -/
def rejoined : Problem where
  automaton := {
    nodes := #[.entryOf "main", .plain "main", .plain "main", .plain "main", .errorOf "main"]
    edges :=
      #[⟨⟨0⟩, ⟨1⟩, .assume (.cmp .lt varX (.num 0)) true⟩,
        ⟨⟨0⟩, ⟨2⟩, .assume (.cmp .lt varX (.num 0)) false⟩, ⟨⟨1⟩, ⟨3⟩, .assign varY (.num 0)⟩,
        ⟨⟨2⟩, ⟨3⟩, .assign varY (.num 1)⟩, ⟨⟨3⟩, ⟨4⟩, .assume (.eq varY (.num 1)) true⟩]
    entry := ⟨0⟩
    joins := by decide }
  options := {}

/-- The target was found along the first way, the path that is returned takes the second one. -/
theorem executesAlong_of_precise_rejoined : ∃ (a₀ a : Analysis) (r : Report) (path : TargetPath),
    Analysis.new rejoined.options = .ok a₀ ∧ check rejoined 5 a₀ = .ok (r, a) ∧
    r.verdict = .unsafePath path ∧ path.imprecise = false ∧ path.edges = [⟨1⟩, ⟨3⟩, ⟨4⟩] ∧
    ∃ σ c, rejoined.automaton.ExecutesAlong path.edges (rejoined.automaton.entry, σ) c ∧
      rejoined.automaton.IsError c.1 := by
  have hrun : endsWith rejoined 5 (fun r a => r.verdict.hasPath fun path =>
      !path.imprecise && path.edges = [⟨1⟩, ⟨3⟩, ⟨4⟩] &&
        path.Opposed rejoined.automaton r.exploration.graph &&
        path.Numbered rejoined.automaton a.arena r.exploration.graph) = true := by
    decide +kernel
  obtain ⟨a₀, r, a, hnew, hcheck, hend⟩ := endsWith_eq_true hrun
  obtain ⟨path, hverdict, hpath⟩ := Verdict.hasPath_eq_true hend
  simp only [Bool.and_eq_true, Bool.not_eq_true', decide_eq_true_eq] at hpath
  obtain ⟨⟨⟨hprecise, hedges⟩, hopposed⟩, hnumbered⟩ := hpath
  have hA : rejoined.automaton.WellFormed := by decide +kernel
  have hcycle : ¬ rejoined.OpenCycle := Problem.not_openCycle_of_lt (by decide +kernel)
  exact ⟨a₀, a, r, path, hnew, hcheck, hverdict, hprecise, hedges,
    executesAlong_of_precise hA hnew hcheck hverdict hprecise hopposed fun _ => ⟨hcycle, hnumbered⟩⟩

/-- Two assumptions with the same truth value leave the entry. -/
def forked : Problem where
  automaton := {
    nodes := #[.entryOf "main", .plain "main", .plain "main", .plain "main", .errorOf "main"]
    edges :=
      #[⟨⟨0⟩, ⟨1⟩, .assume (.eq varX (.num 1)) true⟩, ⟨⟨0⟩, ⟨2⟩, .assume (.eq varX (.num 2)) true⟩,
        ⟨⟨1⟩, ⟨3⟩, .blank⟩, ⟨⟨2⟩, ⟨3⟩, .blank⟩, ⟨⟨3⟩, ⟨4⟩, .assume (.eq varX (.num 2)) true⟩]
    entry := ⟨0⟩
    joins := by decide }
  options := {}

/-- The path that is returned is said to be precise. It assumes that `x` is one, and then that it is
two. -/
theorem not_executesAlong_forked : forked.automaton.WellFormed ∧
    ∃ (a₀ a : Analysis) (r : Report) (path : TargetPath),
      Analysis.new forked.options = .ok a₀ ∧ check forked 5 a₀ = .ok (r, a) ∧
      r.verdict = .unsafePath path ∧ path.imprecise = false ∧
      ¬ ∃ σ c, forked.automaton.ExecutesAlong path.edges (forked.automaton.entry, σ) c := by
  have hrun : endsWith forked 5 (fun r _ => r.verdict.hasPath fun path =>
      !path.imprecise && path.edges = [⟨0⟩, ⟨2⟩, ⟨4⟩]) = true := by
    decide +kernel
  obtain ⟨a₀, r, a, hnew, hcheck, hend⟩ := endsWith_eq_true hrun
  obtain ⟨path, hverdict, hpath⟩ := Verdict.hasPath_eq_true hend
  simp only [Bool.and_eq_true, Bool.not_eq_true', decide_eq_true_eq] at hpath
  refine ⟨by decide +kernel, a₀, a, r, path, hnew, hcheck, hverdict, hpath.1, ?_⟩
  rintro ⟨σ, c, hexec⟩
  rw [hpath.2] at hexec
  obtain ⟨_, τ, hedge, -, hone, hexec⟩ := Automaton.executesAlong_cons.1 hexec
  cases hedge
  obtain ⟨_, υ, hedge, -, hblank, hexec⟩ := Automaton.executesAlong_cons.1 hexec
  cases hedge
  obtain ⟨_, ω, hedge, -, htwo, -⟩ := Automaton.executesAlong_cons.1 hexec
  cases hedge
  obtain ⟨hone, rfl⟩ := hone
  cases hblank
  have hx := (Expr.truth_eq (l := varX) (r := .num 1) rfl).1 hone
  have hx' := (Expr.truth_eq (l := varX) (r := .num 2) rfl).1 htwo.1
  cases hx.symm.trans hx'

end Report

end Cegar

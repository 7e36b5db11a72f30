import Cegar.Proofs.Exploration.TargetPaths

/-!
# Paths to the target

The walk to the target follows the values of the branch variables where it can and guesses
elsewhere. It may get stuck, or go round until its moves are used up; then the path along which the
target was found is taken instead. Whatever the values are, and whether or not they fit the graph,
the result is a path along edges that ends in the target.

* **`TargetPath.Connects`**: a path along the edges of the graph, from one node to another;
* **`TargetPath.Walk.step?_connects`**, **`TargetPath.Walk.run?_connects`**: the walk is one;
* **`TargetPath.connects_ofPath`**: so is the path that it falls back on;
* **`TargetPath.find_connects`**: a path to the target is always found.
-/

namespace Cegar

/-- The labels of the edges are edges of the automaton. -/
def Graph.LabelledBy (g : Graph) (A : Automaton) : Prop :=
  ∀ l ∈ g.links, ∃ edge, A.edges[l.label.idx]? = some edge

instance (g : Graph) (A : Automaton) : Decidable (g.LabelledBy A) :=
  decidable_of_iff (∀ l ∈ g.links, A.edges[l.label.idx]?.isSome)
    (forall₂_congr fun _ _ => Option.isSome_iff_exists)

namespace TargetPath

variable {A : Automaton} {g : Graph} {path : Path} {branches : Std.ExtTreeMap Var Bool}
  {t : TargetPath} {n m root target : NodeId} {e : EdgeId}

/-- The path goes from `n` to `m` along edges of the graph. -/
structure Connects (g : Graph) (t : TargetPath) (n m : NodeId) : Prop where
  head : t.nodes.head? = some n
  last : t.nodes.getLast? = some m
  length : t.nodes.length = t.edges.length + 1
  linked : ∀ (i : Nat) (a b : NodeId) (e : EdgeId), t.nodes[i]? = some a →
    t.nodes[i + 1]? = some b → t.edges[i]? = some e → ⟨a, b, e⟩ ∈ g.links

theorem connects_single (n : NodeId) (imprecise : Bool) :
    Connects g ⟨[n], [], imprecise⟩ n n where
  head := rfl
  last := rfl
  length := rfl
  linked i a b e _ _ he := by simp at he

/-- One more move keeps the path connected. -/
theorem Connects.extend (h : t.Connects g root n) (hlink : ⟨n, m, e⟩ ∈ g.links)
    (guessed : Bool) : (t.extend m e guessed).Connects g root m where
  head := by simp [TargetPath.extend, h.head]
  last := by simp [TargetPath.extend]
  length := by simp [TargetPath.extend, h.length]
  linked := by
    intro i a b e' ha hb he
    have hlength := h.length
    have hlast := h.last
    rw [List.getLast?_eq_getElem?, hlength, Nat.add_sub_cancel] at hlast
    simp only [TargetPath.extend, List.getElem?_append, hlength] at ha hb he
    rcases Nat.lt_trichotomy i t.edges.length with hlt | rfl | hgt
    · rw [if_pos (by omega)] at ha hb he
      exact h.linked i a b e' ha hb he
    · -- the new edge leaves the node where the path has ended so far
      rw [if_pos (Nat.lt_succ_self _), hlast] at ha
      rw [if_neg (Nat.lt_irrefl _), Nat.sub_self] at hb he
      cases ha
      cases hb
      cases he
      exact hlink
    · rw [if_neg (by omega), List.getElem?_eq_none (by simp; omega)] at he
      cases he

/-- A path may be continued backwards along an edge. -/
theorem Connects.cons {nodes : List NodeId} {edges : List EdgeId} {imprecise : Bool}
    (h : Connects g ⟨nodes, edges, imprecise⟩ m target) (hlink : ⟨n, m, e⟩ ∈ g.links) :
    Connects g ⟨n :: nodes, e :: edges, imprecise⟩ n target := by
  obtain ⟨hhead, hlast, hlength, hlinked⟩ := h
  cases nodes with
  | nil => cases hhead
  | cons k nodes =>
    cases hhead
    refine ⟨rfl, by rw [List.getLast?_cons_cons]; exact hlast, congrArg (· + 1) hlength, ?_⟩
    intro i a b e' ha hb he
    cases i with
    | zero =>
      cases ha
      cases hb
      cases he
      exact hlink
    | succ i => exact hlinked i a b e' ha hb he

/-- The path that the walk falls back on. -/
theorem connects_ofPath (h : g.Route n path target) : (ofPath path).Connects g n target := by
  induction h with
  | last => exact connects_single _ _
  | step hlink _ ih => exact ih.cons hlink

/-! ## One step -/

/-- An edge of the automaton can be looked up. -/
theorem assumption?_total {edge : Edge} (h : A.edges[e.idx]? = some edge) :
    assumption? A e = .ok edge.assumed? := by
  refine except_bind_ok.2 ⟨edge, Automaton.edge_eq_ok.2 h, ?_⟩
  unfold Edge.assumed?
  cases edge.statement <;> rfl

/-- With labels from the automaton, the search for a child that assumes a truth value ends without a
failure. -/
theorem childTaking_total {truth : Bool} {cs : List (NodeId × EdgeId)}
    (h : ∀ c ∈ cs, ∃ edge, A.edges[c.2.idx]? = some edge) :
    ∃ o, childTaking A truth cs = .ok o := by
  induction cs with
  | nil => exact ⟨none, rfl⟩
  | cons c cs ih =>
    obtain ⟨edge, hedge⟩ := h c List.mem_cons_self
    obtain ⟨o, ho⟩ := ih fun d hd => h d (List.mem_cons_of_mem _ hd)
    unfold childTaking
    rw [assumption?_total hedge]
    by_cases heq : edge.assumed? = some truth
    · exact ⟨some c, if_pos heq⟩
    · exact ⟨o, (if_neg heq).trans ho⟩

/-- With labels from the automaton, a branch is resolved without a failure. -/
theorem resolve_total {cs : List (NodeId × EdgeId)}
    (h : ∀ c ∈ cs, ∃ edge, A.edges[c.2.idx]? = some edge)
    (branches : Std.ExtTreeMap Var Bool) (l : Location) (visit : Nat) :
    ∃ o, resolve A branches l visit cs = .ok o := by
  unfold resolve
  split
  · exact ⟨_, rfl⟩
  · split
    · exact childTaking_total h
    · exact ⟨none, rfl⟩
  · exact ⟨none, rfl⟩

/-- With labels from the automaton, a move is made without a failure. -/
theorem Walk.step?_total (hg : g.LabelledBy A) (w : Walk) :
    ∃ o, w.step? A g path branches = .ok o := by
  have hedges {n : NodeId} : ∀ c ∈ g.children n, ∃ edge, A.edges[c.2.idx]? = some edge :=
    fun c hc => hg _ (Graph.mem_children.1 hc)
  unfold Walk.step?
  split
  · exact ⟨none, rfl⟩
  · next node _ =>
    obtain ⟨choice, hchoice⟩ := resolve_total (hedges (n := w.current)) branches node.location
      (w.visits[node.location]?.getD 0 + 1)
    dsimp only
    rw [hchoice]
    dsimp only [bind, Except.bind]
    split
    · exact ⟨none, rfl⟩
    · next n e hgo =>
      obtain ⟨edge, hedge⟩ := hedges _ (mem_of_choice hchoice hgo)
      rw [assumption?_total hedge]
      dsimp only
      split <;> exact ⟨_, rfl⟩

/-- A step goes along an edge of the graph. -/
theorem Walk.step?_connects {w w' : Walk} (hw : w.soFar.Connects g root w.current)
    (h : w.step? A g path branches = .ok (some w')) :
    w'.soFar.Connects g root w'.current ∧
      w'.soFar.edges.length = w.soFar.edges.length + 1 := by
  obtain ⟨node, choice, c, edge, -, -, hc, -, -, rfl⟩ := step?_cases h
  exact ⟨hw.extend (Graph.mem_children.1 hc) _, by simp [TargetPath.extend]⟩

/-! ## The whole walk -/

/-- The walk ends, and a path that it finds connects the root with the target. -/
theorem Walk.run?_connects (hg : g.LabelledBy A) {k : Nat} {w : Walk}
    (hw : w.soFar.Connects g root w.current) :
    ∃ o, w.run? A g path branches target k = .ok o ∧
      ∀ t, o = some t → t.Connects g root target ∧
        t.edges.length ≤ w.soFar.edges.length + k := by
  induction k generalizing w with
  | zero =>
    unfold Walk.run?
    split
    · next heq =>
      refine ⟨_, rfl, ?_⟩
      rintro t ⟨⟩
      exact ⟨heq ▸ hw, Nat.le_refl _⟩
    · exact ⟨none, rfl, by simp⟩
  | succ k ih =>
    unfold Walk.run?
    split
    · next heq =>
      refine ⟨_, rfl, ?_⟩
      rintro t ⟨⟩
      exact ⟨heq ▸ hw, Nat.le_add_right _ _⟩
    · obtain ⟨next, hnext⟩ := Walk.step?_total hg w
      dsimp only
      rw [hnext]
      cases next with
      | none => exact ⟨none, rfl, by simp⟩
      | some w' =>
        obtain ⟨hw', hlength⟩ := step?_connects hw hnext
        obtain ⟨o, hrun, hfound⟩ := ih hw'
        refine ⟨o, hrun, fun t ht => ⟨(hfound t ht).1, ?_⟩⟩
        have hle := (hfound t ht).2
        omega

/-- Whatever the values of the branch variables are, a path from the root to the target is found. It
goes along edges of the graph, and has at most as many of them as there are nodes. -/
theorem find_connects (hg : g.LabelledBy A) (hroot : g.root = some root)
    (hpath : g.pathTo target = .ok path) (branches : Std.ExtTreeMap Var Bool) :
    ∃ t, find A g path branches = .ok (.ok t) ∧ t.Connects g root target ∧
      t.edges.length ≤ g.nodes.size := by
  obtain ⟨r, hr, hroute⟩ := Graph.pathTo_route hpath
  cases hroot.symm.trans hr
  let walk : Walk := ⟨root, ∅, ⟨[root], [], false⟩⟩
  obtain ⟨found, hrun, hfound⟩ : ∃ o, walk.run? A g path branches target g.nodes.size = .ok o ∧
      ∀ t, o = some t → t.Connects g root target ∧ t.edges.length ≤ 0 + g.nodes.size :=
    Walk.run?_connects hg (connects_single root false)
  refine ⟨found.getD (ofPath path), ?_, ?_⟩
  · unfold find
    simp only [hroot, hroute.getLast?]
    refine attempt_bind_ok.2 ⟨found, attempt_lift_ok.2 hrun, rfl⟩
  · cases found with
    | some t =>
      obtain ⟨hconnects, hlength⟩ := hfound t rfl
      exact ⟨hconnects, by simpa using hlength⟩
    | none =>
      have hconnects := connects_ofPath hroute
      obtain ⟨i, hi, hhalts⟩ := Graph.pathTo_halts (t := target) hroot
      rw [hpath] at hhalts
      cases hhalts with
      | arrived _ hlength =>
        have hedges := hconnects.length
        rw [ofPath, List.length_map, hlength, List.length_singleton] at hedges
        refine ⟨hconnects, ?_⟩
        rw [Option.getD_none, ofPath]
        omega

/-- A loop: the body leads back to the head or out. -/
def round : Automaton where
  nodes := #[.entryOf "main", .plain "main", .plain "main", .plain "main"]
  edges :=
    #[⟨⟨0⟩, ⟨1⟩, .blank⟩, ⟨⟨1⟩, ⟨0⟩, .assume (.cmp .lt varX (.num 0)) true⟩,
      ⟨⟨1⟩, ⟨2⟩, .assume (.cmp .lt varX (.num 0)) false⟩, ⟨⟨2⟩, ⟨3⟩, .blank⟩]
  entry := ⟨0⟩
  joins := by decide

/-- The graph of the loop, in which the second node leads back to the root. -/
def unrolled : List Graph.Edit :=
  [.addRoot .top ⟨0⟩, .addChild ⟨0⟩ ⟨0⟩ .top ⟨1⟩, .addEdge ⟨⟨1⟩, ⟨0⟩, ⟨1⟩⟩,
    .addChild ⟨1⟩ ⟨2⟩ .top ⟨2⟩, .addChild ⟨2⟩ ⟨3⟩ .top ⟨3⟩]

/-- The branch at the end of the body leads back on the first visit. -/
def turns (second : Bool) : Std.ExtTreeMap Var Bool :=
  ((∅ : Std.ExtTreeMap Var Bool).insert (Var.branch 1 1) true).insert (Var.branch 1 2) second

/-- If the loop is left on the second visit, the walk makes as many moves as there are nodes. If it
is not, the walk goes round until they are used up. -/
theorem find_connects_unrolled : ∃ (g : Graph) (path : Path), g.LabelledBy round ∧
    g.root = some ⟨0⟩ ∧ g.pathTo ⟨2⟩ = .ok path ∧ g.nodes.size = 4 ∧
    ∀ second, ∃ t, find round g path (turns second) = .ok (.ok t) ∧
      t.nodes = (if second then [⟨0⟩, ⟨1⟩, ⟨2⟩] else [⟨0⟩, ⟨1⟩, ⟨0⟩, ⟨1⟩, ⟨2⟩]) ∧
      t.Connects g ⟨0⟩ ⟨2⟩ ∧ t.edges.length ≤ g.nodes.size := by
  let path : Path := [⟨⟨0⟩, some ⟨0⟩⟩, ⟨⟨1⟩, some ⟨2⟩⟩, ⟨⟨2⟩, none⟩]
  have hbuilds : Graph.builds unrolled (fun g _ => g.LabelledBy round && g.root = some ⟨0⟩ &&
      (g.pathTo ⟨2⟩).toOption = some path && g.nodes.size = 4 &&
      decide (∀ second, ((find round g path (turns second)).run.toOption.bind
        Except.toOption).map TargetPath.nodes =
          some (if second then [⟨0⟩, ⟨1⟩, ⟨2⟩] else [⟨0⟩, ⟨1⟩, ⟨0⟩, ⟨1⟩, ⟨2⟩]))) = true := by
    decide +kernel
  obtain ⟨g, given, -, hP⟩ := Graph.exists_history_of_builds hbuilds
  simp only [Bool.and_eq_true, decide_eq_true_eq] at hP
  obtain ⟨⟨⟨⟨hg, hroot⟩, hpath⟩, hsize⟩, hnodes⟩ := hP
  have hpath := except_toOption_eq_some.1 hpath
  refine ⟨g, path, hg, hroot, hpath, hsize, fun second => ?_⟩
  obtain ⟨t, ht, hconnects⟩ := find_connects hg hroot hpath (turns second)
  have hnodes := hnodes second
  rw [ExceptT.run, ht] at hnodes
  exact ⟨t, ht, Option.some.inj hnodes, hconnects⟩

end TargetPath

end Cegar

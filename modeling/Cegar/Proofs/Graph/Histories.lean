import Cegar.Proofs.Graph
import Mathlib.Data.List.Basic

/-!
# Graphs that operations build

Any sequence of operations may build a graph: there may be several nodes without parents, edges back
to the root, and parts that nothing leads to. What is left after a removal is the same for all of
them.

* **`Graph.History`**: the graphs that operations build, with the numbers that nodes were given;
* **`Graph.History.intact`**: their edges join nodes, and their root is a node;
* **`Graph.History.removeSubtree_exact`**: what a removal leaves, and which nodes it returns.
-/

namespace Cegar

namespace Graph

variable {g g' : Graph} {given : List NodeId}

/-- An operation on a graph. Removal frees numbers in an order of its own, which is left open: they
may be put into any other order. -/
inductive Edit where
  | addRoot (s : State) (l : Location)
  | addChild (parent : NodeId) (e : EdgeId) (s : State) (l : Location)
  | addEdge (l : Link)
  | replace (n : NodeId) (s : State)
  | removeSubtree (n : NodeId)
  | reorder (free : List NodeId)

/-- Performs an operation on a graph, and puts the number of a new node before those that were given
out earlier. -/
def Edit.apply (g : Graph) (given : List NodeId) : Edit → Except Abort (Graph × List NodeId)
  | .addRoot s l =>
    let (n, g) := g.addRoot s l
    return (g, n :: given)
  | .addChild parent e s l => do
    let (n, g) ← g.addChild parent e s l
    return (g, n :: given)
  | .addEdge l => return (← g.addEdge l, given)
  | .replace n s => return (g.replace n s, given)
  | .removeSubtree n => return ((g.removeSubtree n).2, given)
  | .reorder free => return (if free.isPerm g.free then { g with free } else g, given)

/-- Performs operations one after the other. -/
def perform (g : Graph) (given : List NodeId) : List Edit → Except Abort (Graph × List NodeId)
  | [] => return (g, given)
  | edit :: edits => do
    let (g, given) ← edit.apply g given
    perform g given edits

/-- A graph that operations have built, and the numbers that nodes were given on the way, the latest
first. -/
def History (g : Graph) (given : List NodeId) : Prop :=
  ∃ freeing edits, perform (.empty freeing) [] edits = .ok (g, given)

/-- The one node was made before the other: more nodes have been made since. -/
def Older (given : List NodeId) (a b : NodeId) : Prop := given.idxOf b < given.idxOf a

instance (a b : NodeId) : Decidable (Older given a b) := inferInstanceAs (Decidable (_ < _))

/-! ## One operation -/

/-- What the numbers given out so far say about a graph. -/
structure Recorded (g : Graph) (given : List NodeId) : Prop where
  intact : g.Intact
  /-- The numbers given out are the first few, and each of them is in use or free. -/
  numbers : ∃ k, g.numbers.Perm ((List.range k).map Id.mk) ∧ ∀ n : NodeId, n ∈ given ↔ n.idx < k
  /-- A number that was given out only once was given out before all larger ones. -/
  ascending : ∀ a b : NodeId, b ∈ given → a.idx < b.idx → given.count a = 1 → Older given a b

theorem mem_ids {k : Nat} {n : NodeId} : n ∈ (List.range k).map Id.mk ↔ n.idx < k := by
  rw [List.mem_map]
  constructor
  · rintro ⟨i, hi, rfl⟩
    exact List.mem_range.1 hi
  · exact fun h => ⟨n.idx, List.mem_range.2 h, rfl⟩

namespace Recorded

/-- Changes that give out no number. -/
theorem keep (h : g.Recorded given) (hintact : g'.Intact) (hnumbers : g'.numbers.Perm g.numbers) :
    g'.Recorded given := by
  obtain ⟨k, hk, hgiven⟩ := h.numbers
  exact ⟨hintact, ⟨k, hnumbers.trans hk, hgiven⟩, h.ascending⟩

/-- Whether it is new or was given out before, the number of a new node comes after all others. -/
theorem addNode (h : g.Recorded given) {s : State} {l : Location} {n : NodeId}
    (hadd : g.addNode s l = (n, g')) : g'.Recorded (n :: given) := by
  obtain ⟨k, hk, hgiven⟩ := h.numbers
  have hnumbers : ∃ k', g'.numbers.Perm ((List.range k').map Id.mk) ∧
      ∀ m : NodeId, m ∈ n :: given ↔ m.idx < k' := by
    rcases (addNode_numbers hk hadd).2 with ⟨hfree, hperm⟩ | ⟨rfl, hperm⟩
    · have hn : n.idx < k := mem_ids.1 (hk.mem_iff.1 (List.mem_append_right _ hfree))
      refine ⟨k, hperm.trans hk, fun m => ?_⟩
      rw [List.mem_cons, hgiven]
      exact ⟨fun hm => hm.elim (· ▸ hn) id, .inr⟩
    · refine ⟨k + 1, hperm, fun m => ?_⟩
      rw [List.mem_cons, hgiven, Nat.lt_succ_iff_lt_or_eq, or_comm]
      exact or_congr_right ⟨fun hm => hm ▸ rfl, fun hm => congrArg Id.mk hm⟩
  refine ⟨(h.intact.addNode hadd).1, hnumbers, fun a b hb hlt honce => ?_⟩
  unfold Older
  by_cases hbn : b = n
  · have han : n ≠ a := by
      rintro rfl
      exact absurd hlt (by rw [hbn]; exact Nat.lt_irrefl _)
    rw [hbn, List.idxOf_cons_self, List.idxOf_cons_ne _ han]
    exact Nat.succ_pos _
  have hb : b ∈ given := (List.mem_cons.1 hb).resolve_left hbn
  by_cases han : a = n
  · -- a number that was not given out before is larger than all that were
    rw [han, List.count_cons_self, Nat.add_eq_right, List.count_eq_zero, hgiven] at honce
    have hbk := (hgiven b).1 hb
    rw [han] at hlt
    omega
  · rw [List.count_cons_of_ne (Ne.symm han)] at honce
    rw [List.idxOf_cons_ne _ (Ne.symm han), List.idxOf_cons_ne _ (Ne.symm hbn)]
    exact Nat.succ_lt_succ (h.ascending a b hb hlt honce)

/-- Any node may become the root. -/
theorem setRoot (h : g.Recorded given) {n : NodeId} (hn : g.contains n = true) :
    Recorded { g with root := some n } given where
  intact := ⟨h.intact.source, h.intact.target, fun _ hr => Option.some.inj hr ▸ hn⟩
  numbers := h.numbers
  ascending := h.ascending

/-- An edge leaves the record of numbers as it is. -/
theorem link (h : g.Recorded given) {l : Link} (hlink : g.link l = .ok g') :
    g'.Recorded given := by
  have hintact := h.intact.link hlink
  obtain ⟨-, -, rfl⟩ := link_ok hlink
  exact h.keep hintact (.refl _)

/-- Every operation keeps the record. -/
theorem apply (h : g.Recorded given) {edit : Edit} {given' : List NodeId}
    (hedit : edit.apply g given = .ok (g', given')) : g'.Recorded given' := by
  cases edit with
  | addRoot s l =>
    simp only [Edit.apply, Graph.addRoot] at hedit
    rcases hnode : g.addNode s l with ⟨n, g₁⟩
    rw [hnode] at hedit
    cases hedit
    exact (h.addNode hnode).setRoot (h.intact.addNode hnode).2
  | addChild parent e s l =>
    obtain ⟨⟨n, g₂⟩, hadd, hedit⟩ := except_bind_ok.1 hedit
    cases hedit
    unfold Graph.addChild at hadd
    rcases hnode : g.addNode s l with ⟨m, g₁⟩
    simp only [hnode] at hadd
    obtain ⟨g₃, hlink, hadd⟩ := except_bind_ok.1 hadd
    cases hadd
    exact (h.addNode hnode).link hlink
  | addEdge l =>
    obtain ⟨g₁, hadd, hedit⟩ := except_bind_ok.1 hedit
    cases hedit
    unfold Graph.addEdge at hadd
    split at hadd
    · cases hadd
      exact h
    · exact h.link hadd
  | replace n s =>
    cases hedit
    obtain ⟨-, hlinks, hroot⟩ := replace_rest (g := g) (n := n) (s := s)
    exact h.keep (h.intact.mono hlinks hroot fun m hm => contains_replace.trans hm)
      perm_numbers_replace
  | removeSubtree n =>
    cases hedit
    exact h.keep (h.intact.shrinks_removeSubtree n).intact h.intact.perm_numbers_removeSubtree
  | reorder free =>
    cases hedit
    split
    · next hperm =>
      refine h.keep (h.intact.mono rfl rfl fun m hm => hm) ?_
      exact (List.isPerm_iff.1 hperm).append_left _
    · exact h

/-- The numbers given out stay a record of the graph through any operations. -/
theorem perform (h : g.Recorded given) {edits : List Edit} {given' : List NodeId}
    (hedits : g.perform given edits = .ok (g', given')) : g'.Recorded given' := by
  induction edits generalizing g given with
  | nil =>
    cases hedits
    exact h
  | cons edit edits ih =>
    obtain ⟨⟨g₁, given₁⟩, hedit, hedits⟩ := except_bind_ok.1 hedits
    exact ih (h.apply hedit) hedits

end Recorded

/-! ## All operations -/

/-- Nothing was given out for the empty graph. -/
theorem recorded_empty (freeing : Freeing) : (empty freeing).Recorded [] where
  intact := (wellFormed_empty freeing).intact
  numbers := ⟨0, by simp [numbers, empty], by simp⟩
  ascending a b hb := by cases hb

/-- Every graph that operations build has a record of its numbers. -/
theorem History.recorded (h : g.History given) : g.Recorded given := by
  obtain ⟨freeing, edits, hedits⟩ := h
  exact (recorded_empty freeing).perform hedits

theorem History.intact (h : g.History given) : g.Intact := h.recorded.intact

/-- A node of the graph was given its number. -/
theorem History.mem_given (h : g.History given) {n : NodeId} (hn : g.contains n = true) :
    n ∈ given := by
  obtain ⟨k, hk, hgiven⟩ := h.recorded.numbers
  exact (hgiven n).2 (mem_ids.1 (hk.mem_iff.1 (List.mem_append_left _ (mem_keys_iff.2 hn))))

/-- Whether operations build a graph with some property. -/
def builds (edits : List Edit) (P : Graph → List NodeId → Bool) : Bool :=
  match perform .empty [] edits with
  | .ok (g, given) => P g given
  | .error _ => false

/-- The operations build a graph with the property. -/
theorem exists_history_of_builds {edits : List Edit} {P : Graph → List NodeId → Bool}
    (h : builds edits P = true) :
    ∃ (g : Graph) (given : List NodeId), g.History given ∧ P g given = true := by
  unfold builds at h
  split at h
  · next g given hedits => exact ⟨g, given, ⟨_, edits, hedits⟩, h⟩
  · cases h

/-! ## Removal -/

/-- Removing a node that is not there changes nothing. Otherwise exactly the nodes that it leads to
go, with their edges and the root if it is one of them, and the nodes that are returned, in
ascending order, are those left that had an edge to a node that goes. -/
theorem History.removeSubtree_exact (h : g.History given) (n : NodeId) :
    (g.contains n = false → g.removeSubtree n = ([], g)) ∧
    (g.contains n = true →
      (∀ m : NodeId, (g.removeSubtree n).2.nodes[m]? =
        if g.Reaches n m then none else g.nodes[m]?) ∧
      (g.removeSubtree n).2.links =
        g.links.filter (fun l => ¬ g.Reaches n l.source ∧ ¬ g.Reaches n l.target) ∧
      (g.removeSubtree n).2.root = g.root.filter (fun r => ¬ g.Reaches n r) ∧
      (∀ r, g.root = some r → ((g.removeSubtree n).2.root = none ↔ g.Reaches n r)) ∧
      (g.removeSubtree n).1.Pairwise (·.idx < ·.idx) ∧
      ∀ m, m ∈ (g.removeSubtree n).1 ↔
        (g.removeSubtree n).2.contains m = true ∧ ∃ k, g.Linked m k ∧ g.Reaches n k) := by
  refine ⟨removeSubtree_of_not_contains, fun hn => ⟨getElem?_removeSubtree hn,
    links_removeSubtree hn, root_removeSubtree hn, fun r hr => ?_, ascending_removeSubtree n,
    fun m => ?_⟩⟩
  · rw [root_removeSubtree hn, hr, Option.filter_some]
    split <;> simp_all
  · rw [mem_removeSubtree_iff hn, contains_removeSubtree hn]
    refine ⟨fun ⟨hm, k, ⟨e, he⟩, hk⟩ => ⟨⟨h.intact.source _ he, hm⟩, k, ⟨e, he⟩, hk⟩,
      fun ⟨⟨_, hm⟩, hlost⟩ => ⟨hm, hlost⟩⟩

/-- Nodes 3 and 4 lead to each other. Node 3 is a child of node 1, and of node 2 by two edges. -/
def crossed : List Edit :=
  [.addRoot .top ⟨0⟩, .addChild ⟨0⟩ ⟨0⟩ .top ⟨1⟩, .addChild ⟨0⟩ ⟨1⟩ .top ⟨2⟩,
    .addChild ⟨1⟩ ⟨2⟩ .top ⟨3⟩, .addEdge ⟨⟨2⟩, ⟨3⟩, ⟨3⟩⟩, .addEdge ⟨⟨2⟩, ⟨3⟩, ⟨4⟩⟩,
    .addChild ⟨3⟩ ⟨5⟩ .top ⟨4⟩, .addEdge ⟨⟨4⟩, ⟨3⟩, ⟨6⟩⟩]

theorem removeSubtree_exact_crossed : ∃ (g : Graph) (given : List NodeId), g.History given ∧
    g.contains ⟨7⟩ = false ∧ g.removeSubtree ⟨7⟩ = ([], g) ∧
    g.contains ⟨1⟩ = true ∧ (g.removeSubtree ⟨1⟩).1 = [⟨0⟩, ⟨2⟩] ∧
    (g.removeSubtree ⟨1⟩).2.links = [⟨⟨0⟩, ⟨2⟩, ⟨1⟩⟩] ∧
    (∀ m : NodeId, (g.removeSubtree ⟨1⟩).2.nodes[m]? =
      if g.Reaches ⟨1⟩ m then none else g.nodes[m]?) ∧
    ((g.removeSubtree ⟨1⟩).2.root = none ↔ g.Reaches ⟨1⟩ ⟨0⟩) ∧
    ∀ m, m ∈ (g.removeSubtree ⟨1⟩).1 ↔
      (g.removeSubtree ⟨1⟩).2.contains m = true ∧ ∃ k, g.Linked m k ∧ g.Reaches ⟨1⟩ k := by
  have hbuilds : builds crossed (fun g _ => !g.contains ⟨7⟩ && g.contains ⟨1⟩ &&
      (g.removeSubtree ⟨1⟩).1 = [⟨0⟩, ⟨2⟩] &&
      (g.removeSubtree ⟨1⟩).2.links = [⟨⟨0⟩, ⟨2⟩, ⟨1⟩⟩] && g.root = some ⟨0⟩) = true := by
    decide +kernel
  obtain ⟨g, given, h, hP⟩ := exists_history_of_builds hbuilds
  simp only [Bool.and_eq_true, Bool.not_eq_true', decide_eq_true_eq] at hP
  obtain ⟨⟨⟨⟨hseven, hone⟩, hlost⟩, hlinks⟩, hroot⟩ := hP
  obtain ⟨hnodes, -, -, hroots, -, hmem⟩ := (h.removeSubtree_exact ⟨1⟩).2 hone
  exact ⟨g, given, h, hseven, (h.removeSubtree_exact ⟨7⟩).1 hseven, hone, hlost, hlinks, hnodes,
    hroots ⟨0⟩ hroot, hmem⟩

end Graph

end Cegar

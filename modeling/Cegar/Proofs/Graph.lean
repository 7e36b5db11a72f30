import Cegar.Graph.Path
import Cegar.Proofs.Inversion
import Cegar.Proofs.Reachability

/-!
# The explored graph

Numbers of nodes are given out once: those in use and those that are free are together the first few
numbers, without repetition. Everything in the graph can be reached from the root, also after a node
has been removed with all that is reachable from it.

* **`Graph.Intact`**, **`Graph.WellFormed`**: kept by all operations that grow and shrink the graph;
* **`Graph.addNode_numbers`**, **`Graph.addChild_ok`**: the number of a new node was not in use;
* **`Graph.getElem?_removeSubtree`**, **`Graph.Shrinks`**: what is left after a removal;
* **`Graph.reaches_of_pathTo`**: the end of a path can be reached from every node on it.
-/

namespace Cegar

namespace Graph

variable {g g' : Graph}

/-- There is an edge from one node to the other. -/
def Linked (g : Graph) (n m : NodeId) : Prop := ∃ e, ⟨n, m, e⟩ ∈ g.links

/-- There is a path from one node to the other. -/
def Reaches (g : Graph) : NodeId → NodeId → Prop := Relation.ReflTransGen g.Linked

theorem contains_iff {n : NodeId} : g.contains n = true ↔ ∃ node, g.nodes[n]? = some node := by
  unfold contains
  rw [Std.ExtTreeMap.contains_eq_isSome_getElem?, Option.isSome_iff_exists]

theorem contains_eq_false_iff {n : NodeId} : g.contains n = false ↔ g.nodes[n]? = none := by
  unfold contains
  rw [Std.ExtTreeMap.contains_eq_isSome_getElem?, Option.isSome_eq_false_iff,
    Option.isNone_iff_eq_none]

/-- The numbers in use and the free ones. -/
def numbers (g : Graph) : List NodeId := g.nodes.keys ++ g.free

/-- Edges join nodes of the graph, and the root is one of them. -/
structure Intact (g : Graph) : Prop where
  source : ∀ l ∈ g.links, g.contains l.source = true
  target : ∀ l ∈ g.links, g.contains l.target = true
  root : ∀ r, g.root = some r → g.contains r = true

/-- What holds of every graph that exploration builds. -/
structure WellFormed (g : Graph) : Prop where
  /-- No number is used twice, and none is left out. -/
  numbers : ∃ k, g.numbers.Perm ((List.range k).map Id.mk)
  source : ∀ l ∈ g.links, g.contains l.source = true
  target : ∀ l ∈ g.links, g.contains l.target = true
  rooted : ∀ n, g.contains n = true → ∃ r, g.root = some r ∧ g.Reaches r n
  root : ∀ r, g.root = some r → g.contains r = true

theorem WellFormed.intact (hg : g.WellFormed) : g.Intact := ⟨hg.source, hg.target, hg.root⟩

/-- The empty graph has used no number. -/
theorem wellFormed_empty (freeing : Freeing) : (empty freeing).WellFormed where
  numbers := ⟨0, by simp [Graph.numbers, empty]⟩
  source l hl := by cases hl
  target l hl := by cases hl
  rooted n hn := by simp [contains, empty] at hn
  root r hr := by cases hr

theorem mem_keys_iff {n : NodeId} : n ∈ g.nodes.keys ↔ g.contains n = true := by
  rw [Std.ExtTreeMap.mem_keys]
  exact Std.ExtTreeMap.mem_iff_contains

theorem nodup_ids (k : Nat) : ((List.range k).map (Id.mk : Nat → NodeId)).Nodup :=
  List.pairwise_map.2 (List.nodup_range.imp fun hne heq => hne (congrArg Id.idx heq))

/-! ## Neighbours -/

section neighbours

variable {n m : NodeId} {e : EdgeId}

/-- The children of a node are the ends of its edges. -/
theorem mem_children : (m, e) ∈ g.children n ↔ ⟨n, m, e⟩ ∈ g.links := by
  unfold children
  rw [mem_sortBy, List.mem_map]
  constructor
  · rintro ⟨k, hk, heq⟩
    obtain ⟨hk, hs⟩ := List.mem_filter.1 hk
    cases heq
    exact of_decide_eq_true hs ▸ hk
  · exact fun h => ⟨_, List.mem_filter.2 ⟨h, decide_eq_true rfl⟩, rfl⟩

/-- The incoming edges of a node are those that end there. -/
theorem mem_incoming : (m, e) ∈ g.incoming n ↔ ⟨m, n, e⟩ ∈ g.links := by
  unfold incoming
  rw [mem_sortBy, List.mem_map]
  constructor
  · rintro ⟨k, hk, heq⟩
    obtain ⟨hk, ht⟩ := List.mem_filter.1 hk
    cases heq
    exact of_decide_eq_true ht ▸ hk
  · exact fun h => ⟨_, List.mem_filter.2 ⟨h, decide_eq_true rfl⟩, rfl⟩

theorem mem_parents : m ∈ g.parents n ↔ g.Linked m n := by
  unfold parents
  rw [Std.ExtTreeSet.mem_toList, Std.ExtTreeSet.mem_ofList, List.contains_iff_mem, List.mem_map]
  constructor
  · rintro ⟨k, hk, rfl⟩
    obtain ⟨hk, ht⟩ := List.mem_filter.1 hk
    exact ⟨k.label, of_decide_eq_true ht ▸ hk⟩
  · exact fun ⟨e, he⟩ => ⟨_, List.mem_filter.2 ⟨he, decide_eq_true rfl⟩, rfl⟩

/-- A set of numbers is listed in ascending order. -/
theorem ascending_toList (ns : Std.ExtTreeSet NodeId) : ns.toList.Pairwise (·.idx < ·.idx) := by
  have hordered := Std.ExtTreeSet.ordered_toList (t := ns)
  exact hordered.imp fun h => Nat.compare_eq_lt.1 h

/-- Neighbours are listed by number, and by edge only if their numbers are the same. -/
theorem before_iff {a b : NodeId × EdgeId} : before a b = true ↔
    a.1.idx < b.1.idx ∨ (a.1.idx = b.1.idx ∧ a.2.idx ≤ b.2.idx) := by
  have hfirst : compare a.1 b.1 = compare a.1.idx b.1.idx := rfl
  have hsecond : compare a.2 b.2 = compare a.2.idx b.2.idx := rfl
  unfold before
  rw [Ordering.isLE_then_iff_or, hfirst, hsecond, Nat.compare_eq_lt, Nat.compare_eq_eq,
    Nat.isLE_compare]

/-- Sorting by parent and edge sorts by parent. -/
theorem ascending_sortBy_before (l : List (NodeId × EdgeId)) :
    ((sortBy before l).map Prod.fst).Pairwise (·.idx ≤ ·.idx) := by
  refine List.pairwise_map.2 (pairwise_sortBy (fun a b h => ?_) (fun a b h => ?_) l)
  · have := before_iff.1 h
    omega
  · have := mt before_iff.2 (Bool.eq_false_iff.1 h)
    omega

end neighbours

/-! ## Growing -/

/-- Another node at a number. -/
theorem getElem?_insert_node {n m : NodeId} {node : GraphNode} :
    (g.nodes.insert n node)[m]? = if m = n then some node else g.nodes[m]? := by
  rw [Std.ExtTreeMap.getElem?_insert]
  by_cases h : m = n
  · subst h
    rw [if_pos Std.ReflCmp.compare_self, if_pos rfl]
  · rw [if_neg fun hc => h (Std.LawfulEqOrd.compare_eq_iff_eq.1 hc).symm, if_neg h]

/-- One more number is in use. -/
theorem perm_keys_insert {n : NodeId} (node : GraphNode) (hn : n ∉ g.nodes.keys) :
    (g.nodes.insert n node).keys.Perm (n :: g.nodes.keys) := by
  refine (List.perm_ext_iff_of_nodup Std.ExtTreeMap.nodup_keys
    (List.nodup_cons.2 ⟨hn, Std.ExtTreeMap.nodup_keys⟩)).2 fun m => ?_
  rw [List.mem_cons, Std.ExtTreeMap.mem_keys, Std.ExtTreeMap.mem_keys, Std.ExtTreeMap.mem_insert,
    Std.LawfulEqOrd.compare_eq_iff_eq, eq_comm]

theorem getElem?_of_notMem_keys {n : NodeId} (hn : n ∉ g.nodes.keys) : g.nodes[n]? = none := by
  rw [← contains_eq_false_iff, Bool.eq_false_iff]
  exact fun hc => hn (mem_keys_iff.2 hc)

/-- A new node is put at its number, and no edge changes. -/
theorem addNode_grows {s : State} {l : Location} {n : NodeId} (h : g.addNode s l = (n, g')) :
    g'.nodes = g.nodes.insert n ⟨s, l⟩ ∧ g'.links = g.links ∧ g'.root = g.root := by
  unfold addNode at h
  split at h <;> cases h <;> exact ⟨rfl, rfl, rfl⟩

/-- The new node gets a number that was not in use: a free one, or else the next one. -/
theorem addNode_numbers {k : Nat} (hk : g.numbers.Perm ((List.range k).map Id.mk)) {s : State}
    {l : Location} {n : NodeId} (h : g.addNode s l = (n, g')) :
    n ∉ g.nodes.keys ∧ ((n ∈ g.free ∧ g'.numbers.Perm g.numbers) ∨
      (n = ⟨k⟩ ∧ g'.numbers.Perm ((List.range (k + 1)).map Id.mk))) := by
  have hnodup : g.numbers.Nodup := hk.nodup_iff.2 (nodup_ids k)
  unfold addNode at h
  split at h
  · next n free hfree =>
    cases h
    have hn : n ∉ g.nodes.keys := by
      unfold Graph.numbers at hnodup
      rw [hfree] at hnodup
      exact fun hmem => (List.nodup_append.1 hnodup).2.2 n hmem n (by simp) rfl
    refine ⟨hn, .inl ⟨by simp [hfree], ?_⟩⟩
    unfold Graph.numbers
    rw [hfree]
    -- the number moves from the free ones to those in use
    exact ((perm_keys_insert _ hn).append_right free).trans List.perm_middle.symm
  · next hfree =>
    cases h
    -- without free numbers, those in use are the first ones
    have hkeys : g.nodes.keys.Perm ((List.range k).map Id.mk) := by
      unfold Graph.numbers at hk
      rwa [hfree, List.append_nil] at hk
    have hsize : g.nodes.size = k := by
      rw [← Std.ExtTreeMap.length_keys, hkeys.length_eq]
      simp
    have hn : (⟨g.nodes.size⟩ : NodeId) ∉ g.nodes.keys := by
      rw [hkeys.mem_iff, hsize]
      simp
    refine ⟨hn, .inr ⟨by rw [hsize], ?_⟩⟩
    unfold Graph.numbers
    dsimp only
    rw [hfree, List.append_nil, List.range_succ, List.map_append]
    refine (perm_keys_insert _ hn).trans ?_
    rw [hsize]
    exact (List.perm_append_singleton _ _).symm.trans (hkeys.append_right _)

/-- A new node gets a number that is not in use, and numbers stay consecutive. -/
theorem addNode_eq (hg : ∃ k, g.numbers.Perm ((List.range k).map Id.mk)) {s : State}
    {l : Location} {n : NodeId} (h : g.addNode s l = (n, g')) :
    g.nodes[n]? = none ∧
      (∀ m : NodeId, g'.nodes[m]? = if m = n then some ⟨s, l⟩ else g.nodes[m]?) ∧
      g'.links = g.links ∧ g'.root = g.root ∧
      ∃ k, g'.numbers.Perm ((List.range k).map Id.mk) := by
  obtain ⟨k, hk⟩ := hg
  obtain ⟨hnodes, hlinks, hroot⟩ := addNode_grows h
  obtain ⟨hn, hnumbers⟩ := addNode_numbers hk h
  refine ⟨getElem?_of_notMem_keys hn, fun m => ?_, hlinks, hroot, ?_⟩
  · rw [hnodes]
    exact getElem?_insert_node
  · rcases hnumbers with ⟨-, hperm⟩ | ⟨-, hperm⟩
    · exact ⟨k, hperm.trans hk⟩
    · exact ⟨k + 1, hperm⟩

/-- More edges lead to more nodes. -/
theorem Reaches.mono (h : ∀ l ∈ g.links, l ∈ g'.links) {n m : NodeId} (hr : g.Reaches n m) :
    g'.Reaches n m :=
  Relation.ReflTransGen.mono (r := g.Linked) (fun _ _ ⟨e, he⟩ => ⟨e, h _ he⟩) n m hr

/-- An edge joins two nodes of the graph. -/
theorem link_ok {l : Link} (h : g.link l = .ok g') :
    g.contains l.source = true ∧ g.contains l.target = true ∧
      g' = { g with links := l :: g.links } := by
  unfold link at h
  split at h
  · cases h
  · next hs =>
    split at h
    · cases h
    · next ht =>
      cases h
      simp only [Bool.not_eq_true', Bool.not_eq_false] at hs ht
      exact ⟨hs, ht, rfl⟩

namespace Intact

/-- More nodes do no harm. -/
theorem mono (hg : g.Intact) (hlinks : g'.links = g.links) (hroot : g'.root = g.root)
    (hcontains : ∀ m, g.contains m = true → g'.contains m = true) : g'.Intact where
  source l hl := hcontains _ (hg.source l (hlinks ▸ hl))
  target l hl := hcontains _ (hg.target l (hlinks ▸ hl))
  root r hr := hcontains r (hg.root r (hroot ▸ hr))

theorem addNode (hg : g.Intact) {s : State} {l : Location} {n : NodeId}
    (h : g.addNode s l = (n, g')) : g'.Intact ∧ g'.contains n = true := by
  obtain ⟨hnodes, hlinks, hroot⟩ := addNode_grows h
  have hcontains (m : NodeId) : g'.contains m = true ↔ m = n ∨ g.contains m = true := by
    rw [← mem_keys_iff, ← mem_keys_iff, hnodes, Std.ExtTreeMap.mem_keys, Std.ExtTreeMap.mem_keys,
      Std.ExtTreeMap.mem_insert, Std.LawfulEqOrd.compare_eq_iff_eq, eq_comm]
  exact ⟨hg.mono hlinks hroot fun m hm => (hcontains m).2 (.inr hm), (hcontains n).2 (.inl rfl)⟩

theorem link (hg : g.Intact) {l : Link} (h : g.link l = .ok g') : g'.Intact := by
  obtain ⟨hs, ht, rfl⟩ := link_ok h
  exact ⟨List.forall_mem_cons.2 ⟨hs, hg.source⟩, List.forall_mem_cons.2 ⟨ht, hg.target⟩, hg.root⟩

end Intact

/-- The new node is the only one that changes, and its edge the only one that is added. -/
theorem addChild_ok (hg : g.WellFormed) {parent n : NodeId} {e : EdgeId} {s : State}
    {l : Location} (hparent : g.contains parent = true)
    (h : g.addChild parent e s l = .ok (n, g')) :
    g'.WellFormed ∧ g.nodes[n]? = none ∧
      (∀ m : NodeId, g'.nodes[m]? = if m = n then some ⟨s, l⟩ else g.nodes[m]?) ∧
      g'.links = ⟨parent, n, e⟩ :: g.links ∧ g'.root = g.root := by
  unfold addChild at h
  rcases hadd : g.addNode s l with ⟨n₁, g₁⟩
  simp only [hadd] at h
  obtain ⟨g₂, hg₂, h⟩ := except_bind_ok.1 h
  cases h
  have hintact := (hg.intact.addNode hadd).1.link hg₂
  obtain ⟨-, -, rfl⟩ := link_ok hg₂
  obtain ⟨hfresh, hnodes, hlinks, hroot, hnumbers⟩ := addNode_eq hg.numbers hadd
  have hlinks' : ∀ k ∈ g.links, k ∈ ⟨parent, n, e⟩ :: g₁.links :=
    fun k hk => List.mem_cons_of_mem _ (hlinks ▸ hk)
  refine ⟨⟨hnumbers, hintact.source, hintact.target, fun m hm => ?_, hintact.root⟩, hfresh,
    hnodes, by rw [hlinks], hroot⟩
  obtain ⟨node, hnode⟩ := contains_iff.1 hm
  rw [hnodes] at hnode
  split at hnode
  · next heq =>
    obtain ⟨r, hr, hreach⟩ := hg.rooted parent hparent
    refine ⟨r, hroot.trans hr, (hreach.mono hlinks').tail ?_⟩
    exact ⟨e, heq ▸ List.mem_cons_self⟩
  · obtain ⟨r, hr, hreach⟩ := hg.rooted m (contains_iff.2 ⟨node, hnode⟩)
    exact ⟨r, hroot.trans hr, hreach.mono hlinks'⟩

/-- The root of an empty graph. -/
theorem addRoot_eq (hg : g.WellFormed) (hempty : ∀ m : NodeId, g.nodes[m]? = none) {s : State}
    {l : Location} {n : NodeId} (h : g.addRoot s l = (n, g')) :
    g'.WellFormed ∧ g'.root = some n ∧
      ∀ m : NodeId, g'.nodes[m]? = if m = n then some ⟨s, l⟩ else none := by
  unfold addRoot at h
  rcases hadd : g.addNode s l with ⟨n₁, g₁⟩
  simp only [hadd] at h
  cases h
  obtain ⟨-, hnodes, hlinks, -, hnumbers⟩ := addNode_eq hg.numbers hadd
  have hnodes' : ∀ m : NodeId, g₁.nodes[m]? = if m = n then some ⟨s, l⟩ else none :=
    fun m => (hnodes m).trans (by rw [hempty m])
  have hnolinks : ∀ k, k ∉ g₁.links := by
    intro k hk
    obtain ⟨node, hnode⟩ := contains_iff.1 (hg.source k (hlinks ▸ hk))
    rw [hempty] at hnode
    cases hnode
  refine ⟨⟨hnumbers, fun k hk => absurd hk (hnolinks k), fun k hk => absurd hk (hnolinks k),
    fun m hm => ?_, fun r hr => ?_⟩, rfl, hnodes'⟩
  · obtain ⟨node, hnode⟩ := contains_iff.1 hm
    rw [hnodes'] at hnode
    split at hnode
    · next heq => exact ⟨m, heq ▸ rfl, .refl⟩
    · cases hnode
  · cases hr
    exact contains_iff.2 ⟨⟨s, l⟩, by rw [hnodes', if_pos rfl]⟩

/-- A new edge joins nodes of the graph. -/
theorem Intact.addEdge (hg : g.Intact) {l : Link} (h : g.addEdge l = .ok g') : g'.Intact := by
  unfold Graph.addEdge at h
  split at h
  · cases h
    exact hg
  · exact hg.link h

/-- The same edge is not added twice. -/
theorem addEdge_ok (hg : g.WellFormed) {l : Link} (h : g.addEdge l = .ok g') :
    g'.WellFormed ∧ g'.nodes = g.nodes ∧ g'.root = g.root ∧
      ∀ k, k ∈ g'.links ↔ k = l ∨ k ∈ g.links := by
  have hintact := hg.intact.addEdge h
  unfold addEdge at h
  split at h
  · next hmem =>
    cases h
    exact ⟨hg, rfl, rfl, fun k => ⟨.inr, fun hk => hk.elim (· ▸ hmem) id⟩⟩
  · obtain ⟨-, -, rfl⟩ := link_ok h
    refine ⟨⟨hg.numbers, hintact.source, hintact.target, fun n hn => ?_, hg.root⟩, rfl, rfl,
      fun k => List.mem_cons⟩
    obtain ⟨r, hr, hreach⟩ := hg.rooted n hn
    exact ⟨r, hr, hreach.mono fun k hk => List.mem_cons_of_mem _ hk⟩

/-- At most one edge is added, and it leaves its source. -/
theorem addsEdge_ok (hg : g.WellFormed) {l : Link} (h : g' = g ∨ g.addEdge l = .ok g') :
    g'.WellFormed ∧ g'.nodes = g.nodes ∧ (∀ k ∈ g.links, k ∈ g'.links) ∧
      ∀ k ∈ g'.links, k.source = l.source ∨ k ∈ g.links := by
  rcases h with rfl | h
  · exact ⟨hg, rfl, fun _ hk => hk, fun _ hk => .inr hk⟩
  · obtain ⟨hwf, hnodes, -, hmem⟩ := addEdge_ok hg h
    refine ⟨hwf, hnodes, fun k hk => (hmem k).2 (.inr hk), fun k hk => ?_⟩
    rcases (hmem k).1 hk with rfl | hk
    · exact .inl rfl
    · exact .inr hk

/-- Replacing the state at a node changes nothing at others. -/
theorem getElem?_replace {n m : NodeId} {s : State} : (g.replace n s).nodes[m]? =
    if m = n then g.nodes[n]?.map fun node => { node with state := s } else g.nodes[m]? := by
  unfold replace
  split
  · next node hnode =>
    rw [getElem?_insert_node, hnode]
    rfl
  · next hnone =>
    split
    · next heq =>
      rw [heq, hnone]
      rfl
    · rfl

/-- Replacing the state at a node removes none. -/
theorem contains_replace {n m : NodeId} {s : State} :
    (g.replace n s).contains m = g.contains m := by
  unfold contains
  rw [Std.ExtTreeMap.contains_eq_isSome_getElem?, Std.ExtTreeMap.contains_eq_isSome_getElem?,
    getElem?_replace]
  split
  · next heq =>
    rw [heq]
    cases g.nodes[n]? <;> rfl
  · rfl

theorem replace_rest {n : NodeId} {s : State} : (g.replace n s).free = g.free ∧
    (g.replace n s).links = g.links ∧ (g.replace n s).root = g.root := by
  unfold replace
  split <;> exact ⟨rfl, rfl, rfl⟩

/-- Replacing the state at a node leaves all numbers in use. -/
theorem perm_numbers_replace {n : NodeId} {s : State} :
    (g.replace n s).numbers.Perm g.numbers := by
  unfold numbers
  rw [replace_rest.1]
  refine List.Perm.append_right _ ?_
  refine (List.perm_ext_iff_of_nodup Std.ExtTreeMap.nodup_keys
    Std.ExtTreeMap.nodup_keys).2 fun m => ?_
  rw [mem_keys_iff, mem_keys_iff, contains_replace]

/-- Replacing a state changes neither nodes nor edges. -/
theorem WellFormed.replace (hg : g.WellFormed) {n : NodeId} {s : State} :
    (g.replace n s).WellFormed := by
  obtain ⟨-, hlinks, hroot⟩ := replace_rest (g := g) (n := n) (s := s)
  have hintact := hg.intact.mono hlinks hroot fun m hm => contains_replace.trans hm
  obtain ⟨k, hk⟩ := hg.numbers
  refine ⟨⟨k, perm_numbers_replace.trans hk⟩, hintact.source, hintact.target, fun m hm => ?_,
    hintact.root⟩
  rw [contains_replace] at hm
  obtain ⟨r, hr, hreach⟩ := hg.rooted m hm
  exact ⟨r, hroot.trans hr, hreach.mono fun l hl => hlinks ▸ hl⟩

/-! ## Shrinking -/

/-- The subtree of a node is what can be reached from it. -/
theorem mem_subtree_iff {n m : NodeId} : m ∈ g.subtree n ↔ g.Reaches n m := by
  unfold subtree Reaches
  rw [mem_reachable_iff]
  have hlinked : (fun x y => (x, y) ∈ g.links.map fun l => (l.source, l.target)) = g.Linked := by
    funext x y
    refine propext ⟨fun h => ?_, fun ⟨e, he⟩ => List.mem_map.2 ⟨_, he, rfl⟩⟩
    obtain ⟨l, hl, heq⟩ := List.mem_map.1 h
    cases heq
    exact ⟨l.label, hl⟩
  rw [hlinked]

instance (n m : NodeId) : Decidable (g.Reaches n m) :=
  decidable_of_iff (m ∈ g.subtree n) mem_subtree_iff

theorem contains_subtree {n m : NodeId} : (g.subtree n).contains m = decide (g.Reaches n m) := by
  rw [Bool.eq_iff_iff, decide_eq_true_eq, ← mem_subtree_iff, Std.ExtTreeSet.mem_iff_contains]

/-! ### What a removal leaves -/

section removal

variable {n : NodeId}

/-- Without the node there is nothing to remove. -/
theorem removeSubtree_of_not_contains (hn : g.contains n = false) :
    g.removeSubtree n = ([], g) := by
  simp [removeSubtree, hn]

/-- What can be reached from the node is gone, and all else is as it was. -/
theorem getElem?_removeSubtree (hn : g.contains n = true) (m : NodeId) :
    (g.removeSubtree n).2.nodes[m]? = if g.Reaches n m then none else g.nodes[m]? := by
  have hnodes : (g.removeSubtree n).2.nodes =
      g.nodes.filter fun m _ => !(g.subtree n).contains m := by
    simp [removeSubtree, hn]
  rw [hnodes, Std.ExtTreeMap.getElem?_filter', contains_subtree]
  split <;> cases g.nodes[m]? <;> simp_all

/-- The edges with an end in the subtree are gone. -/
theorem links_removeSubtree (hn : g.contains n = true) : (g.removeSubtree n).2.links =
    g.links.filter fun l => ¬ g.Reaches n l.source ∧ ¬ g.Reaches n l.target := by
  simp [removeSubtree, hn, contains_subtree]

/-- The root is gone if it is in the subtree. -/
theorem root_removeSubtree (hn : g.contains n = true) :
    (g.removeSubtree n).2.root = g.root.filter fun r => ¬ g.Reaches n r := by
  simp [removeSubtree, hn, contains_subtree]

/-- The nodes that are returned are those that lose a child. -/
theorem mem_removeSubtree_iff (hn : g.contains n = true) {m : NodeId} :
    m ∈ (g.removeSubtree n).1 ↔ ¬ g.Reaches n m ∧ ∃ k, g.Linked m k ∧ g.Reaches n k := by
  simp only [removeSubtree, hn, Bool.not_true, Bool.false_eq_true, if_false, contains_subtree]
  rw [Std.ExtTreeSet.mem_toList, Std.ExtTreeSet.mem_ofList, List.contains_iff_mem, List.mem_map]
  constructor
  · rintro ⟨l, hl, rfl⟩
    obtain ⟨hl, hends⟩ := List.mem_filter.1 hl
    simp only [Bool.and_eq_true, decide_eq_true_eq, Bool.not_eq_true', decide_eq_false_iff_not]
      at hends
    exact ⟨hends.2, l.target, ⟨l.label, hl⟩, hends.1⟩
  · rintro ⟨hm, k, ⟨e, he⟩, hk⟩
    exact ⟨_, List.mem_filter.2 ⟨he, by simp [hm, hk]⟩, rfl⟩

/-- The parents that are left are listed in ascending order. -/
theorem ascending_removeSubtree (n : NodeId) : (g.removeSubtree n).1.Pairwise (·.idx < ·.idx) := by
  unfold removeSubtree
  split
  · exact .nil
  · dsimp only
    exact ascending_toList _

/-- The nodes that are left. -/
theorem contains_removeSubtree (hn : g.contains n = true) (m : NodeId) :
    (g.removeSubtree n).2.contains m = true ↔ g.contains m = true ∧ ¬ g.Reaches n m := by
  rw [contains_iff, contains_iff, getElem?_removeSubtree hn]
  split <;> simp_all

/-- Paths stay inside the graph. -/
theorem Intact.contains_of_reaches (hg : g.Intact) {m : NodeId} (hn : g.contains n = true)
    (hr : g.Reaches n m) : g.contains m = true := by
  cases hr with
  | refl => exact hn
  | tail _ hlink => exact hg.target _ hlink.choose_spec

/-- The numbers of removed nodes become free. -/
theorem Intact.perm_numbers_removeSubtree (hg : g.Intact) :
    (g.removeSubtree n).2.numbers.Perm g.numbers := by
  cases hn : g.contains n with
  | false => rw [removeSubtree_of_not_contains hn]
  | true =>
    have hnodup : (g.subtree n).toList.Nodup :=
      Std.ExtTreeSet.distinct_toList.imp fun hne (heq : _ = _) => by
        subst heq
        exact hne Std.ReflCmp.compare_self
    have hremoved : (g.nodes.keys.filter (g.subtree n).contains).Perm (g.subtree n).toList := by
      refine (List.perm_ext_iff_of_nodup (Std.ExtTreeMap.nodup_keys.filter _) hnodup).2 fun m => ?_
      rw [List.mem_filter, mem_keys_iff, Std.ExtTreeSet.mem_toList, Std.ExtTreeSet.mem_iff_contains]
      refine ⟨And.right, fun h => ⟨hg.contains_of_reaches hn ?_, h⟩⟩
      exact mem_subtree_iff.1 (Std.ExtTreeSet.mem_iff_contains.2 h)
    have hnumbers : (g.removeSubtree n).2.numbers =
        (g.nodes.filter fun m _ => !(g.subtree n).contains m).keys ++
          (g.freeing.arrange g.removals (g.subtree n).toList ++ g.free) := by
      simp [removeSubtree, numbers, hn]
    rw [hnumbers, Std.ExtTreeMap.keys_filter_key, ← List.append_assoc]
    refine List.Perm.append_right g.free ?_
    calc g.nodes.keys.filter (fun m => !(g.subtree n).contains m) ++
          g.freeing.arrange g.removals (g.subtree n).toList
      _ |>.Perm (g.nodes.keys.filter (fun m => !(g.subtree n).contains m) ++
            g.nodes.keys.filter (g.subtree n).contains) :=
          ((g.freeing.perm _ _).trans hremoved.symm).append_left _
      _ |>.Perm (g.nodes.keys.filter (g.subtree n).contains ++
            g.nodes.keys.filter fun m => !(g.subtree n).contains m) := List.perm_append_comm
      _ |>.Perm g.nodes.keys := List.filter_append_perm _ _

end removal

/-! ### Graphs that are left -/

/-- The second graph is what is left of the first: with a node all that it leads to is gone, and an
edge is left if its ends are. -/
structure Shrinks (g g' : Graph) : Prop where
  nodes : ∀ (m : NodeId) (node : GraphNode), g'.nodes[m]? = some node → g.nodes[m]? = some node
  links : ∀ l, l ∈ g'.links ↔ l ∈ g.links ∧ g'.contains l.target = true
  source : ∀ l ∈ g'.links, g'.contains l.source = true
  root : ∀ r, g'.root = some r ↔ g.root = some r ∧ g'.contains r = true

namespace Shrinks

theorem refl (hg : g.Intact) : g.Shrinks g where
  nodes _ _ h := h
  links l := ⟨fun hl => ⟨hl, hg.target l hl⟩, And.left⟩
  source := hg.source
  root r := ⟨fun hr => ⟨hr, hg.root r hr⟩, And.left⟩

theorem contains (h : g.Shrinks g') {m : NodeId} (hm : g'.contains m = true) :
    g.contains m = true := by
  obtain ⟨node, hnode⟩ := contains_iff.1 hm
  exact contains_iff.2 ⟨node, h.nodes m node hnode⟩

/-- One removal after another. -/
theorem trans {g'' : Graph} (h : g.Shrinks g') (h' : g'.Shrinks g'') : g.Shrinks g'' where
  nodes m node hm := h.nodes m node (h'.nodes m node hm)
  links l := by
    rw [h'.links, h.links]
    exact ⟨fun ⟨⟨hl, _⟩, ht⟩ => ⟨hl, ht⟩, fun ⟨hl, ht⟩ => ⟨⟨hl, h'.contains ht⟩, ht⟩⟩
  source := h'.source
  root r := by
    rw [h'.root, h.root]
    exact ⟨fun ⟨⟨hr, _⟩, hc⟩ => ⟨hr, hc⟩, fun ⟨hr, hc⟩ => ⟨⟨hr, h'.contains hc⟩, hc⟩⟩

/-- A node that is left has not changed. -/
theorem kept (h : g.Shrinks g') {m : NodeId} {node : GraphNode} (hnode : g.nodes[m]? = some node)
    (hm : g'.contains m = true) : g'.nodes[m]? = some node := by
  obtain ⟨node', hnode'⟩ := contains_iff.1 hm
  cases hnode.symm.trans (h.nodes m node' hnode')
  exact hnode'

/-- A node that is left was reached through nodes that are left. -/
theorem reaches (h : g.Shrinks g') {n m : NodeId} (hr : g.Reaches n m)
    (hm : g'.contains m = true) : g'.contains n = true ∧ g'.Reaches n m := by
  induction hr with
  | refl => exact ⟨hm, .refl⟩
  | tail _ hlink ih =>
    obtain ⟨e, he⟩ := hlink
    have hleft := (h.links _).2 ⟨he, hm⟩
    obtain ⟨hn, hreach⟩ := ih (h.source _ hleft)
    exact ⟨hn, hreach.tail ⟨e, hleft⟩⟩

/-- Without its root nothing is left of a graph. -/
theorem nodes_eq_none (h : g.Shrinks g') (hg : g.WellFormed) (hroot : g'.root = none)
    (m : NodeId) : g'.nodes[m]? = none := by
  cases hm : g'.nodes[m]? with
  | none => rfl
  | some node =>
    have hcontains : g'.contains m = true := contains_iff.2 ⟨node, hm⟩
    obtain ⟨r, hr, hreach⟩ := hg.rooted m (h.contains hcontains)
    have := (h.root r).2 ⟨hr, (h.reaches hreach hcontains).1⟩
    rw [hroot] at this
    cases this

end Shrinks

/-- What leads to a node of the graph is in the graph. -/
theorem contains_source_of_reaches (hg : g.WellFormed) {n m : NodeId} (hm : g.contains m = true)
    (hr : g.Reaches n m) : g.contains n = true := by
  rcases Relation.ReflTransGen.cases_head hr with rfl | ⟨b, ⟨e, he⟩, -⟩
  · exact hm
  · exact hg.source _ he

/-- Removing a subtree leaves no part of it. -/
theorem Intact.shrinks_removeSubtree (hg : g.Intact) (n : NodeId) :
    g.Shrinks (g.removeSubtree n).2 := by
  cases hn : g.contains n with
  | false =>
    rw [removeSubtree_of_not_contains hn]
    exact .refl hg
  | true =>
    have hcontains := contains_removeSubtree hn
    have hmem (l : Link) : l ∈ (g.removeSubtree n).2.links ↔
        l ∈ g.links ∧ ¬ g.Reaches n l.source ∧ ¬ g.Reaches n l.target := by
      rw [links_removeSubtree hn, List.mem_filter, decide_eq_true_eq]
    refine ⟨fun m node hm => ?_, fun l => ?_, fun l hl => ?_, fun r => ?_⟩
    · rw [getElem?_removeSubtree hn] at hm
      split at hm
      · cases hm
      · exact hm
    · rw [hmem, hcontains]
      refine ⟨fun ⟨hl, _, ht⟩ => ⟨hl, hg.target l hl, ht⟩, fun ⟨hl, _, ht⟩ => ⟨hl, ?_, ht⟩⟩
      exact fun hs => ht (hs.tail ⟨l.label, hl⟩)
    · obtain ⟨hl, hs, -⟩ := (hmem l).1 hl
      exact (hcontains _).2 ⟨hg.source l hl, hs⟩
    · rw [root_removeSubtree hn, Option.filter_eq_some_iff, decide_eq_true_eq, hcontains]
      exact ⟨fun ⟨hr, hc⟩ => ⟨hr, hg.root r hr, hc⟩, fun ⟨hr, _, hc⟩ => ⟨hr, hc⟩⟩

theorem Shrinks.intact (h : g.Shrinks g') : g'.Intact :=
  ⟨h.source, fun l hl => ((h.links l).1 hl).2, fun r hr => ((h.root r).1 hr).2⟩

theorem Shrinks.removeSubtree (hg : g.WellFormed) (n : NodeId) :
    g.Shrinks (g.removeSubtree n).2 := hg.intact.shrinks_removeSubtree n

/-- Removal keeps the graph well-formed: the numbers that it frees, in whatever order, are those
that were in use. -/
theorem WellFormed.removeSubtree (hg : g.WellFormed) (n : NodeId) :
    (g.removeSubtree n).2.WellFormed := by
  have hshrinks := Shrinks.removeSubtree hg n
  obtain ⟨k, hk⟩ := hg.numbers
  refine ⟨⟨k, hg.intact.perm_numbers_removeSubtree.trans hk⟩, hshrinks.source,
    hshrinks.intact.target, fun m hm => ?_, hshrinks.intact.root⟩
  obtain ⟨r, hr, hreach⟩ := hg.rooted m (hshrinks.contains hm)
  obtain ⟨hrc, hreach'⟩ := hshrinks.reaches hreach hm
  exact ⟨r, (hshrinks.root r).2 ⟨hr, hrc⟩, hreach'⟩

/-- Nodes that lose a child are returned. -/
theorem mem_removeSubtree (hg : g.WellFormed) {n : NodeId} {l : Link} (hl : l ∈ g.links)
    (hs : (g.removeSubtree n).2.contains l.source = true)
    (ht : (g.removeSubtree n).2.contains l.target = false) : l.source ∈ (g.removeSubtree n).1 := by
  cases hn : g.contains n with
  | false =>
    rw [removeSubtree_of_not_contains hn, hg.target l hl] at ht
    cases ht
  | true =>
    have hs := ((contains_removeSubtree hn _).1 hs).2
    have ht : g.Reaches n l.target := by
      refine Classical.byContradiction fun hne => ?_
      rw [(contains_removeSubtree hn _).2 ⟨hg.target l hl, hne⟩] at ht
      cases ht
    exact (mem_removeSubtree_iff hn).2 ⟨hs, l.target, ⟨l.label, hl⟩, ht⟩

/-! ## Paths -/

/-- The oldest incoming edge is one that ends at the node. -/
theorem oldestIncoming_eq_some {n : NodeId} {l : Link} (h : g.oldestIncoming n = some l) :
    l ∈ g.links ∧ l.target = n := by
  -- the best edge so far is always one of those into `n`
  revert l
  unfold oldestIncoming
  refine List.foldlRecOn (motive := fun best => ∀ {b}, best = some b → b ∈ g.links ∧ b.target = n)
    _ _ (fun hb => by cases hb) fun best hbest k hk b hb => ?_
  obtain ⟨hk, ht⟩ := List.mem_filter.1 hk
  have hkn : k ∈ g.links ∧ k.target = n := ⟨hk, of_decide_eq_true ht⟩
  cases best with
  | none =>
    cases hb
    exact hkn
  | some b' =>
    dsimp only at hb
    split at hb
    · cases hb
      exact hkn
    · exact hbest hb

/-- All nodes on the way back lead to the target. -/
theorem walkBack_ok {root target : NodeId} {k : Nat} {n : NodeId} {path path' : Path}
    (hn : g.Reaches n target) (hpath : ∀ hop ∈ path, g.Reaches hop.node target)
    (hlast : path.getLast?.map Hop.node = some target)
    (h : g.walkBack root target k n path = .ok path') :
    (∀ hop ∈ path', g.Reaches hop.node target) ∧ path'.getLast?.map Hop.node = some target := by
  induction k generalizing n path with
  | zero =>
    unfold walkBack at h
    split at h
    · cases h
      exact ⟨hpath, hlast⟩
    · cases h
  | succ k ih =>
    unfold walkBack at h
    split at h
    · cases h
      exact ⟨hpath, hlast⟩
    · dsimp only at h
      split at h
      · next l hl =>
        obtain ⟨hmem, htarget⟩ := oldestIncoming_eq_some hl
        have hsource : g.Reaches l.source target :=
          Relation.ReflTransGen.head ⟨l.label, htarget ▸ hmem⟩ hn
        refine ih hsource (fun hop hhop => ?_) ?_ h
        · rcases List.mem_cons.1 hhop with rfl | hhop
          · exact hsource
          · exact hpath hop hhop
        · cases path with
          | nil => cases hlast
          | cons hop path => rwa [List.getLast?_cons_cons]
      · cases h

/-- The end of a path can be reached from every node on it. -/
theorem reaches_of_pathTo {target : NodeId} {path : Path} (h : g.pathTo target = .ok path) :
    (∀ hop ∈ path, g.Reaches hop.node target) ∧ path.getLast?.map Hop.node = some target := by
  unfold pathTo at h
  split at h
  · exact walkBack_ok .refl (fun hop hhop => by cases List.mem_singleton.1 hhop; exact .refl) rfl h
  · cases h

end Graph

end Cegar

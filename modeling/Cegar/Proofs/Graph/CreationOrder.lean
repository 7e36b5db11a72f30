import Cegar.Proofs.Graph.Ascent
import Cegar.Proofs.Graph.Histories
import Mathlib.Data.List.Nodup

/-!
# Numbers and the order of creation

Neighbours are listed by their numbers, and paths come from the parent with the smallest number.
That is the order in which nodes were made as long as no number is given out again. A node that gets
the number of a removed one comes before older nodes with larger numbers.

* **`Graph.InOrder`**, **`Graph.EldestParent`**: the order in which nodes were made;
* **`Graph.Reused`**: the number of a node was given out before;
* **`Graph.History.older`**: other nodes were made before those with larger numbers;
* **`Graph.History.creation_order`**: what follows for lists of neighbours and for paths.
-/

namespace Cegar

namespace Graph

variable {g : Graph} {given ns : List NodeId} {a b n m : NodeId}

/-- Listed in the order in which they were made. -/
def InOrder (given ns : List NodeId) : Prop := ns.Pairwise fun a b => a = b ∨ Older given a b

instance : Decidable (InOrder given ns) := inferInstanceAs (Decidable (ns.Pairwise _))

/-- The parent of `n` that was made first is `m`. -/
def EldestParent (g : Graph) (given : List NodeId) (n m : NodeId) : Prop :=
  g.Linked m n ∧ ∀ p, g.Linked p n → p = m ∨ Older given m p

/-- The number was given out more than once. -/
def Reused (given : List NodeId) (n : NodeId) : Prop := 2 ≤ given.count n

instance : Decidable (Reused given n) := inferInstanceAs (Decidable (_ ≤ _))

/-- A node with a number that was given out more than once is older than those with larger
numbers. -/
def Settled (given ns : List NodeId) : Prop :=
  ∀ a ∈ ns, Reused given a → ∀ b ∈ ns, a.idx < b.idx → Older given a b

instance : Decidable (Settled given ns) := inferInstanceAs (Decidable (∀ _ ∈ ns, _))

/-- The lists of the neighbours of a node. -/
def neighbourLists (g : Graph) (n : NodeId) : List (List NodeId) :=
  [(g.children n).map Prod.fst, g.parents n, (g.incoming n).map Prod.fst]

/-- Where all numbers differ, none was given out twice. -/
theorem not_reused (h : given.Nodup) (n : NodeId) : ¬ Reused given n :=
  Nat.not_le.2 (Nat.lt_succ_of_le (List.nodup_iff_count_le_one.1 h n))

/-! ## Lists of neighbours -/

/-- A node whose number was not given out before is older than those with larger numbers. -/
theorem History.older (h : g.History given) (ha : g.contains a = true) (hb : g.contains b = true)
    (honce : ¬ Reused given a) (hlt : a.idx < b.idx) : Older given a b := by
  have hcount := List.count_pos_iff.2 (h.mem_given ha)
  unfold Reused at honce
  exact h.recorded.ascending a b (h.mem_given hb) hlt (by omega)

/-- A list by numbers is in order exactly if it is in order as far as reused numbers go. -/
theorem History.inOrder_iff (h : g.History given) (hns : ∀ n ∈ ns, g.contains n = true)
    (hsorted : ns.Pairwise (·.idx ≤ ·.idx)) : InOrder given ns ↔ Settled given ns := by
  constructor
  · intro horder a ha _ b hb hlt
    obtain ⟨i, hi, rfl⟩ := List.mem_iff_getElem.1 ha
    obtain ⟨j, hj, rfl⟩ := List.mem_iff_getElem.1 hb
    -- the node with the smaller number is listed first
    have hij : i < j := by
      refine Nat.lt_of_not_le fun hle => ?_
      rcases Nat.eq_or_lt_of_le hle with rfl | hji
      · exact Nat.lt_irrefl _ hlt
      · exact absurd (List.pairwise_iff_getElem.1 hsorted j i hj hi hji) (Nat.not_le.2 hlt)
    rcases List.pairwise_iff_getElem.1 horder i j hi hj hij with heq | holder
    · exact absurd hlt (by rw [heq]; exact Nat.lt_irrefl _)
    · exact holder
  · intro hsettled
    refine hsorted.imp_of_mem fun {a b} ha hb hle => ?_
    rcases Nat.eq_or_lt_of_le hle with heq | hlt
    · exact .inl (congrArg Id.mk heq)
    · by_cases hreused : Reused given a
      · exact .inr (hsettled a ha hreused b hb hlt)
      · exact .inr (h.older (hns a ha) (hns b hb) hreused hlt)

/-- Neighbours are nodes of the graph. -/
theorem Intact.contains_neighbour (hg : g.Intact) (hns : ns ∈ g.neighbourLists n) :
    ∀ m ∈ ns, g.contains m = true := by
  intro m hm
  simp only [neighbourLists, List.mem_cons, List.not_mem_nil, or_false] at hns
  rcases hns with rfl | rfl | rfl
  · obtain ⟨c, hc, rfl⟩ := List.mem_map.1 hm
    exact hg.target _ (mem_children.1 hc)
  · obtain ⟨e, he⟩ := mem_parents.1 hm
    exact hg.source _ he
  · obtain ⟨c, hc, rfl⟩ := List.mem_map.1 hm
    exact hg.source _ (mem_incoming.1 hc)

/-- Neighbours are listed in the order of their numbers. -/
theorem ascending_neighbours (hns : ns ∈ g.neighbourLists n) : ns.Pairwise (·.idx ≤ ·.idx) := by
  simp only [neighbourLists, List.mem_cons, List.not_mem_nil, or_false] at hns
  rcases hns with rfl | rfl | rfl
  · exact ascending_sortBy_before _
  · exact (ascending_toList _).imp Nat.le_of_lt
  · exact ascending_sortBy_before _

/-! ## Paths -/

/-- The parent with the smallest number was made first exactly if this is so as far as reused
numbers go. -/
theorem History.eldestParent_iff (h : g.History given) (hleast : g.LeastParent n m) :
    g.EldestParent given n m ↔
      (Reused given m → ∀ p, g.Linked p n → m.idx < p.idx → Older given m p) := by
  constructor
  · rintro ⟨-, holder⟩ _ p hp hlt
    rcases holder p hp with rfl | holder
    · exact absurd hlt (Nat.lt_irrefl _)
    · exact holder
  · intro hreused
    refine ⟨hleast.1, fun p hp => ?_⟩
    rcases Nat.eq_or_lt_of_le (hleast.2 p hp) with heq | hlt
    · exact .inl (congrArg Id.mk heq.symm)
    · by_cases hm : Reused given m
      · exact .inr (hreused hm p hp hlt)
      · obtain ⟨e, he⟩ := hleast.1
        obtain ⟨f, hf⟩ := hp
        exact .inr (h.older (h.intact.source _ he) (h.intact.source _ hf) hm hlt)

/-- Two properties of neighbours on a chain that agree where the chain has a third one. -/
theorem isChain_congr {P Q R : Hop → Hop → Prop} {path : Path} (hR : path.IsChain R)
    (h : ∀ a b, R a b → (P a b ↔ Q a b)) : path.IsChain P ↔ path.IsChain Q := by
  simp only [List.isChain_iff_getElem] at hR ⊢
  exact forall₂_congr fun i hi => h _ _ (hR i hi)

/-! ## The order of creation -/

/-- The neighbours of a node are listed by their numbers. This is the order in which they were made
exactly if each of them that has a reused number is older than those with larger numbers. Likewise a
path comes from the parents with the smallest numbers, and these were made first exactly if each of
them that has a reused number is older than the other parents. In particular all is in order if no
number was given out twice. -/
theorem History.creation_order (h : g.History given) :
    (∀ n m e, ((m, e) ∈ g.children n ↔ ⟨n, m, e⟩ ∈ g.links) ∧
      (m ∈ g.parents n ↔ g.Linked m n) ∧ ((m, e) ∈ g.incoming n ↔ ⟨m, n, e⟩ ∈ g.links)) ∧
    (∀ n, ∀ ns ∈ g.neighbourLists n,
      ns.Pairwise (·.idx ≤ ·.idx) ∧ (InOrder given ns ↔ Settled given ns)) ∧
    (∀ target path, g.pathTo target = .ok path →
      path.IsChain (fun a b => g.LeastParent b.node a.node) ∧
      (path.IsChain (fun a b => g.EldestParent given b.node a.node) ↔
        path.IsChain fun a b => Reused given a.node →
          ∀ p, g.Linked p b.node → a.node.idx < p.idx → Older given a.node p)) ∧
    (given.Nodup → (∀ n, ∀ ns ∈ g.neighbourLists n, InOrder given ns) ∧
      ∀ target path, g.pathTo target = .ok path →
        path.IsChain fun a b => g.EldestParent given b.node a.node) := by
  have hlists {n : NodeId} {ns : List NodeId} (hns : ns ∈ g.neighbourLists n) :
      InOrder given ns ↔ Settled given ns :=
    h.inOrder_iff (h.intact.contains_neighbour hns) (ascending_neighbours hns)
  have hleast {target : NodeId} {path : Path} (hpath : g.pathTo target = .ok path) :
      path.IsChain fun a b => g.LeastParent b.node a.node := by
    obtain ⟨root, hroot, -⟩ := pathTo_route hpath
    exact (pathTo_passed hroot hpath).least
  refine ⟨fun n m e => ⟨mem_children, mem_parents, mem_incoming⟩,
    fun n ns hns => ⟨ascending_neighbours hns, hlists hns⟩, fun target path hpath => ?_,
    fun hnodup => ⟨fun n ns hns => ?_, fun target path hpath => ?_⟩⟩
  · exact ⟨hleast hpath, isChain_congr (hleast hpath) fun a b => h.eldestParent_iff⟩
  · exact (hlists hns).2 fun a _ hreused => absurd hreused (not_reused hnodup a)
  · exact (hleast hpath).imp fun a b hab =>
      (h.eldestParent_iff hab).2 fun hreused => absurd hreused (not_reused hnodup _)

/-- Node 1 is removed and made again before node 2, which is another parent of node 3. -/
def remade : List Edit :=
  [.addRoot .top ⟨0⟩, .addChild ⟨0⟩ ⟨0⟩ .top ⟨1⟩, .removeSubtree ⟨1⟩,
    .addChild ⟨0⟩ ⟨1⟩ .top ⟨2⟩, .addChild ⟨0⟩ ⟨2⟩ .top ⟨3⟩, .addChild ⟨2⟩ ⟨3⟩ .top ⟨4⟩,
    .addEdge ⟨⟨1⟩, ⟨3⟩, ⟨4⟩⟩]

theorem creation_order_remade : ∃ (g : Graph) (given : List NodeId), g.History given ∧
    Reused given ⟨1⟩ ∧ (g.children ⟨0⟩).map Prod.fst = [⟨1⟩, ⟨2⟩] ∧ g.parents ⟨3⟩ = [⟨1⟩, ⟨2⟩] ∧
    InOrder given [⟨1⟩, ⟨2⟩] ∧
    ∃ path, g.pathTo ⟨3⟩ = .ok path ∧ path.map Hop.node = [⟨0⟩, ⟨1⟩, ⟨3⟩] ∧
      path.IsChain fun a b => g.EldestParent given b.node a.node := by
  have hbuilds : builds remade (fun g given => Reused given ⟨1⟩ &&
      (g.children ⟨0⟩).map Prod.fst = [⟨1⟩, ⟨2⟩] && g.parents ⟨3⟩ = [⟨1⟩, ⟨2⟩] &&
      g.parents ⟨1⟩ = [⟨0⟩] && Settled given [⟨1⟩, ⟨2⟩] &&
      (g.pathTo ⟨3⟩).toOption = some [⟨⟨0⟩, some ⟨1⟩⟩, ⟨⟨1⟩, some ⟨4⟩⟩, ⟨⟨3⟩, none⟩]) = true := by
    decide +kernel
  obtain ⟨g, given, h, hP⟩ := exists_history_of_builds hbuilds
  simp only [Bool.and_eq_true, decide_eq_true_eq] at hP
  obtain ⟨⟨⟨⟨⟨hreused, hchildren⟩, hparents⟩, hparents'⟩, hsettled⟩, hpath⟩ := hP
  have hpath := except_toOption_eq_some.1 hpath
  obtain ⟨hmem, hlists, hpaths, -⟩ := h.creation_order
  refine ⟨g, given, h, hreused, hchildren, hparents, ?_, _, hpath, rfl, ?_⟩
  · exact (hlists ⟨3⟩ _ (by rw [← hparents]; simp [neighbourLists])).2.2 hsettled
  · refine (hpaths ⟨3⟩ _ hpath).2.2 (.cons_cons ?_ (.cons_cons ?_ (.singleton _)))
    · intro _ p hp hlt
      have hp := (hmem ⟨1⟩ p ⟨0⟩).2.1.2 hp
      rw [hparents', List.mem_singleton] at hp
      rw [hp] at hlt
      exact absurd hlt (Nat.lt_irrefl _)
    · intro hagain p hp hlt
      have hp := (hmem ⟨3⟩ p ⟨0⟩).2.1.2 hp
      rw [hparents] at hp
      exact hsettled ⟨1⟩ (by simp) hagain p hp hlt

/-- Node 1 is removed and made again after node 2, which is another parent of node 3. -/
def replaced : List Edit :=
  [.addRoot .top ⟨0⟩, .addChild ⟨0⟩ ⟨0⟩ .top ⟨1⟩, .addChild ⟨0⟩ ⟨1⟩ .top ⟨2⟩, .removeSubtree ⟨1⟩,
    .addChild ⟨0⟩ ⟨2⟩ .top ⟨3⟩, .addChild ⟨2⟩ ⟨3⟩ .top ⟨4⟩, .addEdge ⟨⟨1⟩, ⟨3⟩, ⟨4⟩⟩]

/-- A later node with the number of a removed one is listed before an older node, and the path comes
from it. -/
theorem exists_not_inOrder : ∃ (g : Graph) (given : List NodeId), g.History given ∧
    ¬ InOrder given ((g.children ⟨0⟩).map Prod.fst) ∧ ¬ InOrder given (g.parents ⟨3⟩) ∧
    ¬ InOrder given ((g.incoming ⟨3⟩).map Prod.fst) ∧
    ∃ path, g.pathTo ⟨3⟩ = .ok path ∧
      ¬ path.IsChain fun a b => g.EldestParent given b.node a.node := by
  have hbuilds : builds replaced (fun g given =>
      !InOrder given ((g.children ⟨0⟩).map Prod.fst) && !InOrder given (g.parents ⟨3⟩) &&
      !InOrder given ((g.incoming ⟨3⟩).map Prod.fst) && Older given ⟨2⟩ ⟨1⟩ &&
      ⟨2⟩ ∈ g.parents ⟨3⟩ &&
      (g.pathTo ⟨3⟩).toOption = some [⟨⟨0⟩, some ⟨2⟩⟩, ⟨⟨1⟩, some ⟨4⟩⟩, ⟨⟨3⟩, none⟩]) = true := by
    decide +kernel
  obtain ⟨g, given, h, hP⟩ := exists_history_of_builds hbuilds
  simp only [Bool.and_eq_true, Bool.not_eq_true', decide_eq_true_eq, decide_eq_false_iff_not] at hP
  obtain ⟨⟨⟨⟨⟨hchildren, hparents⟩, hincoming⟩, holder⟩, hmem⟩, hpath⟩ := hP
  refine ⟨g, given, h, hchildren, hparents, hincoming, _, except_toOption_eq_some.1 hpath, ?_⟩
  intro hchain
  rcases (List.isChain_cons_cons.1 (List.isChain_cons_cons.1 hchain).2).1.2 ⟨2⟩ (mem_parents.1 hmem)
    with heq | hlater
  · cases heq
  · exact Nat.lt_asymm holder hlater

end Graph

end Cegar

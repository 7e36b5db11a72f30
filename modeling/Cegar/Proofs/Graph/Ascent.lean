import Cegar.Proofs.Graph.Histories
import Mathlib.Data.List.Perm.Subperm

/-!
# The walk back to the root

The path to a node is found backwards, by moving to the parent with the smallest number until the
root is there. No choice is left on the way. So a node that is passed twice is passed for ever, and
a walk that comes to the root at all passes each node at most once: as many moves as there are nodes
are enough.

* **`Graph.Route`**: a path along the edges of the graph;
* **`Graph.Climbs`**: a number of moves, none of them from the root;
* **`Graph.Climbs.lt_size`**: fewer moves than nodes lead to the root, if any do;
* **`Graph.walkBack_halts`**: how the walk ends, and after how many moves;
* **`Graph.Intact.pathTo_decides`**: there is a path exactly if moves lead to the root.
-/

namespace Cegar

namespace Graph

variable {g : Graph} {n m t r root : NodeId} {path path' : Path} {i j k : Nat}

/-- A path along the edges of the graph, from `n` to `t`. -/
inductive Route (g : Graph) : NodeId → Path → NodeId → Prop
  | last {n : NodeId} : Route g n [⟨n, none⟩] n
  | step {n m t : NodeId} {e : EdgeId} {path : Path} (hlink : ⟨n, m, e⟩ ∈ g.links)
    (hrest : Route g m path t) : Route g n (⟨n, some e⟩ :: path) t

/-- A path ends at its last node. -/
theorem Route.getLast? (h : g.Route n path t) : path.getLast? = some ⟨t, none⟩ := by
  induction h with
  | last => rfl
  | @step n m t e path hlink hrest ih =>
    cases path with
    | nil => cases ih
    | cons hop path => rw [List.getLast?_cons_cons, ih]

/-- What every move of the walk back preserves holds when it is at the root. -/
theorem walkBack_preserves {P : NodeId → Path → Prop}
    (hmove : ∀ n path l, P n path → n ≠ r → g.oldestIncoming n = some l →
      P l.source (⟨l.source, some l.label⟩ :: path))
    (hn : P n path) (h : g.walkBack r t k n path = .ok path') : P r path' := by
  induction k generalizing n path with
  | zero =>
    unfold walkBack at h
    split at h
    · next heq =>
      cases h
      exact heq ▸ hn
    · cases h
  | succ k ih =>
    unfold walkBack at h
    split at h
    · next heq =>
      cases h
      exact heq ▸ hn
    · next hne =>
      dsimp only at h
      split at h
      · next l hl => exact ih (hmove n path l hn hne hl) h
      · cases h

/-- Every move back puts an edge before the path, so the walk returns a path from the root. -/
theorem walkBack_route (hn : g.Route n path t) (h : g.walkBack r t k n path = .ok path') :
    g.Route r path' t := by
  refine walkBack_preserves (P := fun n path => g.Route n path t) (fun n path l hn _ hl => ?_) hn h
  obtain ⟨hmem, rfl⟩ := oldestIncoming_eq_some hl
  exact .step hmem hn

/-- The path to a node is a path of the graph from its root. -/
theorem pathTo_route (h : g.pathTo t = .ok path) : ∃ r, g.root = some r ∧ g.Route r path t := by
  unfold pathTo at h
  split at h
  · next r hr => exact ⟨r, hr, walkBack_route .last h⟩
  · cases h

/-! ## Least parents -/

/-- The parent of `n` with the smallest number is `m`. -/
def LeastParent (g : Graph) (n m : NodeId) : Prop :=
  g.Linked m n ∧ ∀ p, g.Linked p n → m.idx ≤ p.idx

/-- Moving from node to least parent, again and again, one comes from `n` to `m`. -/
def Ascends (g : Graph) : NodeId → NodeId → Prop := Relation.ReflTransGen g.LeastParent

theorem LeastParent.unique (h : g.LeastParent n m) (h' : g.LeastParent n r) : m = r :=
  congrArg Id.mk (Nat.le_antisymm (h.2 r h'.1) (h'.2 m h.1))

/-- A fold that never prefers the larger source ends with the smallest. -/
theorem foldl_least {f : Option Link → Link → Option Link}
    (hf : ∀ b l, ∃ c, f (some b) l = some c ∧ c.source.idx ≤ b.source.idx ∧
      c.source.idx ≤ l.source.idx) (ls : List Link) (b : Link) :
    ∃ c, ls.foldl f (some b) = some c ∧ ∀ l ∈ b :: ls, c.source.idx ≤ l.source.idx := by
  induction ls generalizing b with
  | nil => exact ⟨b, rfl, by simp⟩
  | cons l ls ih =>
    obtain ⟨c, hc, hb, hl⟩ := hf b l
    obtain ⟨d, hd, hleast⟩ := ih c
    have hdc := hleast c (by simp)
    refine ⟨d, by rw [List.foldl_cons, hc, hd], fun x hx => ?_⟩
    rcases List.mem_cons.1 hx with rfl | hx
    · omega
    · rcases List.mem_cons.1 hx with rfl | hx
      · omega
      · exact hleast x (List.mem_cons_of_mem _ hx)

/-- A node with incoming edges has one from its least parent. -/
theorem exists_oldestIncoming {k : Link} (hk : k ∈ g.links) :
    ∃ l, g.oldestIncoming k.target = some l ∧
      ∀ j ∈ g.links, j.target = k.target → l.source.idx ≤ j.source.idx := by
  have hmem : k ∈ g.links.filter (·.target = k.target) := List.mem_filter.2 ⟨hk, by simp⟩
  have hincoming {j : Link} (hj : j ∈ g.links) (ht : j.target = k.target) :
      j ∈ g.links.filter (·.target = k.target) := List.mem_filter.2 ⟨hj, by simp [ht]⟩
  unfold oldestIncoming
  cases hlinks : g.links.filter (·.target = k.target) with
  | nil =>
    rw [hlinks] at hmem
    cases hmem
  | cons l ls =>
    rw [hlinks] at hincoming
    rw [List.foldl_cons]
    refine Exists.imp (fun c hc => ⟨hc.1, fun j hj ht => hc.2 j (hincoming hj ht)⟩)
      (foldl_least (fun b l => ?_) ls l)
    dsimp only
    split
    · exact ⟨l, rfl, by omega, Nat.le_refl _⟩
    · exact ⟨b, rfl, Nat.le_refl _, by omega⟩

/-- The oldest incoming edge comes from the least parent. -/
theorem leastParent_of_oldestIncoming {l : Link} (h : g.oldestIncoming n = some l) :
    g.LeastParent n l.source := by
  obtain ⟨hmem, rfl⟩ := oldestIncoming_eq_some h
  obtain ⟨l', hl', hleast⟩ := exists_oldestIncoming hmem
  cases h.symm.trans hl'
  exact ⟨⟨l.label, hmem⟩, fun p ⟨_, he⟩ => hleast _ he rfl⟩

/-- A node without an oldest incoming edge has no incoming edge. -/
theorem not_linked_of_oldestIncoming (h : g.oldestIncoming n = none) (m : NodeId) :
    ¬ g.Linked m n := by
  rintro ⟨e, he⟩
  obtain ⟨l, hl, -⟩ := exists_oldestIncoming he
  cases h.symm.trans hl

/-! ## Climbing -/

/-- From `n` one comes to `m` by `i` moves to the least parent, none of them from the root. -/
inductive Climbs (g : Graph) (root : NodeId) : Nat → NodeId → NodeId → Prop
  | stay {n : NodeId} : Climbs g root 0 n n
  | move {n p m : NodeId} {i : Nat} (hne : n ≠ root) (hparent : g.LeastParent n p)
    (hrest : Climbs g root i p m) : Climbs g root (i + 1) n m

namespace Climbs

/-- Moves to the least parent are an ascent. -/
theorem ascends (h : g.Climbs root i n m) : g.Ascends n m := by
  induction h with
  | stay => exact .refl
  | move _ hparent _ ih => exact .head hparent ih

/-- Who comes to the root at all comes there for a first time. -/
theorem exists_of_ascends (h : g.Ascends n root) : ∃ i, g.Climbs root i n root := by
  induction h using Relation.ReflTransGen.head_induction_on with
  | refl => exact ⟨0, .stay⟩
  | @head n p hparent _ ih =>
    by_cases hne : n = root
    · exact ⟨0, hne ▸ .stay⟩
    · obtain ⟨i, hi⟩ := ih
      exact ⟨i + 1, .move hne hparent hi⟩

/-- There is no other way: whatever moves are made, the rest of them leads on to the root. -/
theorem split (h : g.Climbs root j n m) (hroot : g.Climbs root i n root) :
    ∃ d, i = j + d ∧ g.Climbs root d m root := by
  induction h generalizing i with
  | stay => exact ⟨i, (Nat.zero_add i).symm, hroot⟩
  | move hne hparent _ ih =>
    cases hroot with
    | stay => exact absurd rfl hne
    | move _ hparent' hrest =>
      cases hparent.unique hparent'
      obtain ⟨d, rfl, hd⟩ := ih hrest
      exact ⟨d, by omega, hd⟩

/-- There is one number of moves to the root, since each move is determined and none starts at the
root. -/
theorem unique (h : g.Climbs root i n root) (h' : g.Climbs root j n root) : i = j := by
  obtain ⟨d, rfl, hd⟩ := h'.split h
  cases hd with
  | stay => rfl
  | move hne => exact absurd rfl hne

/-- The nodes on the way to the root, which are told apart by the number of moves that are left. -/
theorem exists_nodes (h : g.Climbs root i n m) (hm : m = root) :
    ∃ ns : List NodeId, ns.length = i ∧ ns.Nodup ∧
      ∀ q ∈ ns, (∃ p, g.Linked p q) ∧ ∃ j, 0 < j ∧ j ≤ i ∧ g.Climbs root j q root := by
  induction h with
  | stay => exact ⟨[], rfl, .nil, by simp⟩
  | @move n p m i hne hparent hrest ih =>
    obtain ⟨ns, hlength, hnodup, hns⟩ := ih hm
    subst hm
    refine ⟨n :: ns, by simp [hlength], List.nodup_cons.2 ⟨fun hn => ?_, hnodup⟩, ?_⟩
    · obtain ⟨-, j, -, hj, hclimb⟩ := hns n hn
      have := hclimb.unique (.move hne hparent hrest)
      omega
    · refine List.forall_mem_cons.2 ⟨⟨⟨p, hparent.1⟩, i + 1, by omega, Nat.le_refl _,
        .move hne hparent hrest⟩, fun q hq => ?_⟩
      obtain ⟨hparents, j, hpos, hj, hclimb⟩ := hns q hq
      exact ⟨hparents, j, hpos, by omega, hclimb⟩

/-- With the root, the nodes on the way are nodes of the graph, so there are not more of them. -/
theorem lt_size (hg : g.Intact) (hroot : g.contains root = true)
    (h : g.Climbs root i n root) : i < g.nodes.size := by
  obtain ⟨ns, rfl, hnodup, hns⟩ := h.exists_nodes rfl
  have hnew : root ∉ ns := by
    intro hmem
    obtain ⟨-, j, hpos, -, hclimb⟩ := hns root hmem
    have := hclimb.unique .stay
    omega
  have hsub : root :: ns ⊆ g.nodes.keys := by
    intro m hm
    rw [mem_keys_iff]
    rcases List.mem_cons.1 hm with rfl | hm
    · exact hroot
    · obtain ⟨⟨p, e, he⟩, -⟩ := hns m hm
      exact hg.target _ he
  have hle := (List.subperm_of_subset (List.nodup_cons.2 ⟨hnew, hnodup⟩) hsub).length_le
  rw [Std.ExtTreeMap.length_keys, List.length_cons] at hle
  exact hle

end Climbs

/-! ## The end of the walk -/

/-- How a walk back from `n` ends that may make `k` moves, and after how many. -/
inductive Halts (g : Graph) (root target : NodeId) (k : Nat) (n : NodeId) (path : Path) :
    Nat → Except PathDefect Path → Prop
  | arrived {i : Nat} {path' : Path} (hclimb : g.Climbs root i n root)
    (hlength : path'.length = path.length + i) : Halts g root target k n path i (.ok path')
  | stuck {i : Nat} {m : NodeId} (hclimb : g.Climbs root i n m) (hne : m ≠ root)
    (hnone : ∀ p, ¬ g.Linked p m) : Halts g root target k n path i (.error (.unreachable target))
  | stopped {m : NodeId} (hclimb : g.Climbs root k n m) (hne : m ≠ root) :
    Halts g root target k n path k (.error (.cycle target))

/-- Every walk back ends: at the root, at a node without parents, or when its moves are used up. -/
theorem walkBack_halts (k : Nat) (n : NodeId) (path : Path) :
    ∃ i ≤ k, g.Halts root t k n path i (g.walkBack root t k n path) := by
  induction k generalizing n path with
  | zero =>
    unfold walkBack
    by_cases heq : n = root
    · rw [if_pos heq]
      exact ⟨0, Nat.le_refl 0, .arrived (heq ▸ .stay) rfl⟩
    · rw [if_neg heq]
      exact ⟨0, Nat.le_refl 0, .stopped .stay heq⟩
  | succ k ih =>
    unfold walkBack
    by_cases heq : n = root
    · rw [if_pos heq]
      exact ⟨0, Nat.zero_le _, .arrived (heq ▸ .stay) rfl⟩
    · rw [if_neg heq]
      dsimp only
      split
      · next l hl =>
        have hparent := leastParent_of_oldestIncoming hl
        obtain ⟨i, hi, hhalts⟩ := ih l.source (⟨l.source, some l.label⟩ :: path)
        refine ⟨i + 1, Nat.succ_le_succ hi, ?_⟩
        generalize g.walkBack root t k l.source (⟨l.source, some l.label⟩ :: path) = result
          at hhalts
        cases hhalts with
        | arrived hclimb hlength =>
          refine .arrived (.move heq hparent hclimb) ?_
          rw [hlength, List.length_cons]
          omega
        | stuck hclimb hne hnone => exact .stuck (.move heq hparent hclimb) hne hnone
        | stopped hclimb hne => exact .stopped (.move heq hparent hclimb) hne
      · next hnone =>
        exact ⟨0, Nat.zero_le _, .stuck .stay heq (not_linked_of_oldestIncoming hnone)⟩

/-! ## The path that is found -/

/-- What the walk back has passed when it is at `n`: each node is the least parent of the next one,
and none after the first is the root. -/
structure Passed (g : Graph) (root n : NodeId) (path : Path) : Prop where
  head : path.head?.map Hop.node = some n
  least : path.IsChain fun a b => g.LeastParent b.node a.node
  below : ∀ hop ∈ path.tail, hop.node ≠ root

/-- One more move passes one more node. -/
theorem Passed.step (h : g.Passed root n path) (hne : n ≠ root) {l : Link}
    (hl : g.oldestIncoming n = some l) :
    g.Passed root l.source (⟨l.source, some l.label⟩ :: path) := by
  obtain ⟨hhead, hleast, hbelow⟩ := h
  cases path with
  | nil => cases hhead
  | cons hop path =>
    have hhop : hop.node = n := Option.some.inj hhead
    refine ⟨rfl, .cons_cons ?_ hleast, List.forall_mem_cons.2 ⟨hhop ▸ hne, hbelow⟩⟩
    rw [hhop]
    exact leastParent_of_oldestIncoming hl

/-- A walk that comes to the root has passed each node on its path. -/
theorem walkBack_passed (hn : g.Passed root n path)
    (h : g.walkBack root t k n path = .ok path') : g.Passed root root path' :=
  walkBack_preserves (fun _ _ _ hn hne hl => hn.step hne hl) hn h

/-- The place on the path is the number of moves to the root. -/
theorem Passed.climbs (h : g.Passed root root path) {hop : Hop} (hhop : path[i]? = some hop) :
    g.Climbs root i hop.node root := by
  induction i generalizing hop with
  | zero =>
    have hhead := h.head
    rw [List.head?_eq_getElem?, hhop] at hhead
    exact (Option.some.inj hhead) ▸ .stay
  | succ i ih =>
    obtain ⟨hlt, rfl⟩ := List.getElem?_eq_some_iff.1 hhop
    have hbefore : path[i]? = some path[i] := List.getElem?_eq_getElem (by omega)
    refine .move (h.below _ ?_) (List.isChain_iff_getElem.1 h.least i hlt) (ih hbefore)
    refine List.mem_of_getElem? (i := i) ?_
    rw [List.getElem?_tail, hhop]

/-- A walk that comes to the root passes no node twice, since the number of moves from a node to the
root is determined. -/
theorem Passed.nodup (h : g.Passed root root path) : (path.map Hop.node).Nodup := by
  refine List.pairwise_iff_getElem.2 fun i j hi hj hlt heq => ?_
  rw [List.length_map] at hi hj
  rw [List.getElem_map, List.getElem_map] at heq
  have hfirst := h.climbs (List.getElem?_eq_getElem hi)
  have hsecond := h.climbs (List.getElem?_eq_getElem hj)
  rw [heq] at hfirst
  have := hfirst.unique hsecond
  omega

/-- The path to a node consists of moves to the least parent. -/
theorem pathTo_passed (hroot : g.root = some root) (h : g.pathTo t = .ok path) :
    g.Passed root root path := by
  unfold pathTo at h
  simp only [hroot] at h
  exact walkBack_passed ⟨rfl, .singleton _, by simp⟩ h

/-- The search for a path makes at most as many moves as there are nodes. -/
theorem pathTo_halts (hroot : g.root = some root) :
    ∃ i ≤ g.nodes.size, g.Halts root t g.nodes.size t [⟨t, none⟩] i (g.pathTo t) := by
  unfold pathTo
  simp only [hroot]
  exact walkBack_halts _ _ _

/-- There is a path to a node exactly if the moves to the least parent lead from it to the root. -/
theorem Intact.exists_path_iff (hg : g.Intact) (hroot : g.root = some root) :
    (∃ path, g.pathTo t = .ok path) ↔ g.Ascends t root := by
  obtain ⟨i, -, hhalts⟩ := pathTo_halts (t := t) hroot
  constructor
  · rintro ⟨path, hpath⟩
    rw [hpath] at hhalts
    cases hhalts with
    | arrived hclimb => exact hclimb.ascends
  · intro hascends
    obtain ⟨j, hj⟩ := Climbs.exists_of_ascends hascends
    generalize g.pathTo t = result at hhalts ⊢
    cases hhalts with
    | arrived => exact ⟨_, rfl⟩
    | stuck hclimb hne hnone =>
      -- moves from a node without parents cannot lead on to the root
      obtain ⟨d, -, hd⟩ := hclimb.split hj
      cases hd with
      | stay => exact absurd rfl hne
      | move _ hparent => exact absurd hparent.1 (hnone _)
    | stopped hclimb hne =>
      -- the root would have been there before the moves were used up
      obtain ⟨d, rfl, -⟩ := hclimb.split hj
      have hlt := hj.lt_size hg (hg.root root hroot)
      omega

/-- There is a path to a node exactly if moving to the parent with the smallest number, again and
again, leads from it to the root. The path goes along these parents from the root to the node and
passes no node twice. Otherwise it is an error that says that the node cannot be reached or that the
walk goes round; and the walk ends after at most as many moves as there are nodes. -/
theorem Intact.pathTo_decides (hg : g.Intact) (hroot : g.root = some root) (target : NodeId) :
    ((∃ path, g.pathTo target = .ok path) ↔ g.Ascends target root) ∧
    (∀ path, g.pathTo target = .ok path → g.Route root path target ∧
      path.IsChain (fun a b => g.LeastParent b.node a.node) ∧ (path.map Hop.node).Nodup) ∧
    (¬ g.Ascends target root → g.pathTo target = .error (.unreachable target) ∨
      g.pathTo target = .error (.cycle target)) ∧
    ∃ i ≤ g.nodes.size,
      g.Halts root target g.nodes.size target [⟨target, none⟩] i (g.pathTo target) := by
  refine ⟨hg.exists_path_iff hroot, fun path hpath => ?_, fun hnot => ?_, pathTo_halts hroot⟩
  · obtain ⟨r, hr, hroute⟩ := pathTo_route hpath
    cases hroot.symm.trans hr
    have hpassed := pathTo_passed hroot hpath
    exact ⟨hroute, hpassed.least, hpassed.nodup⟩
  · obtain ⟨i, -, hhalts⟩ := pathTo_halts (t := target) hroot
    generalize g.pathTo target = result at hhalts ⊢
    cases hhalts with
    | arrived hclimb => exact absurd hclimb.ascends hnot
    | stuck => exact .inl rfl
    | stopped => exact .inr rfl

/-- Nodes 0 and 1 lead to each other, and nothing else leads to them. The root is node 2, with node
3 below it and node 4 below that. Node 4 leads back to the two above and to itself. -/
def detached : List Edit :=
  [.addRoot .top ⟨0⟩, .addChild ⟨0⟩ ⟨0⟩ .top ⟨1⟩, .addEdge ⟨⟨1⟩, ⟨0⟩, ⟨1⟩⟩, .addRoot .top ⟨2⟩,
    .addChild ⟨2⟩ ⟨2⟩ .top ⟨3⟩, .addChild ⟨3⟩ ⟨3⟩ .top ⟨4⟩, .addEdge ⟨⟨4⟩, ⟨2⟩, ⟨4⟩⟩,
    .addEdge ⟨⟨4⟩, ⟨3⟩, ⟨5⟩⟩, .addEdge ⟨⟨4⟩, ⟨4⟩, ⟨6⟩⟩]

theorem pathTo_decides_detached : ∃ g : Graph, g.Intact ∧ g.root = some ⟨2⟩ ∧
    (∃ path, g.pathTo ⟨4⟩ = .ok path ∧ path.map Hop.node = [⟨2⟩, ⟨3⟩, ⟨4⟩] ∧
      g.Ascends ⟨4⟩ ⟨2⟩ ∧ g.Route ⟨2⟩ path ⟨4⟩ ∧
      path.IsChain fun a b => g.LeastParent b.node a.node) ∧
    ∀ target ∈ [(⟨1⟩ : NodeId), ⟨7⟩], ¬ g.Ascends target ⟨2⟩ ∧
      (g.pathTo target = .error (.unreachable target) ∨
        g.pathTo target = .error (.cycle target)) := by
  have hbuilds : builds detached (fun g _ => g.root = some ⟨2⟩ &&
      (g.pathTo ⟨4⟩).toOption = some [⟨⟨2⟩, some ⟨2⟩⟩, ⟨⟨3⟩, some ⟨3⟩⟩, ⟨⟨4⟩, none⟩] &&
      [(⟨1⟩ : NodeId), ⟨7⟩].all fun target => (g.pathTo target).toOption = none) = true := by
    decide +kernel
  obtain ⟨g, given, h, hP⟩ := exists_history_of_builds hbuilds
  simp only [Bool.and_eq_true, decide_eq_true_eq, List.all_eq_true] at hP
  obtain ⟨⟨hroot, hpath⟩, hnone⟩ := hP
  have hpath := except_toOption_eq_some.1 hpath
  obtain ⟨hiff, hfound, -, -⟩ := h.intact.pathTo_decides hroot ⟨4⟩
  obtain ⟨hroute, hleast, -⟩ := hfound _ hpath
  refine ⟨g, h.intact, hroot, ⟨_, hpath, rfl, hiff.1 ⟨_, hpath⟩, hroute, hleast⟩, ?_⟩
  intro target htarget
  obtain ⟨hiff, -, hlost, -⟩ := h.intact.pathTo_decides hroot target
  have hnot : ¬ g.Ascends target ⟨2⟩ := by
    intro hascends
    obtain ⟨path, hok⟩ := hiff.2 hascends
    exact absurd (hnone target htarget) (by rw [hok]; exact nofun)
  exact ⟨hnot, hlost hnot⟩

end Graph

end Cegar

import Cegar.Proofs.Exploration.Changes
import Cegar.Proofs.Graph.Ascent

/-!
# Paths to the nodes of a graph in shape

Least parents go up the ranks, so they lead from every node to the root. On the path that is found,
each abstraction state is the predecessor of the next one, because edges go on with a block or
complete it.

* **`Graph.Shaped.pathTo_total`**: every node has a path from the root;
* **`Refinement.split_route`**: such a path consists of blocks.
-/

namespace Cegar

variable {p : Problem} {arena : Arena}

namespace Graph

variable {g : Graph} {n m t r : NodeId} {path : Path}

/-- A node that is not the root has a parent. -/
theorem WellFormed.exists_incoming (hg : g.WellFormed) (hr : g.root = some r)
    (hn : g.contains n = true) (hne : n ≠ r) : ∃ k ∈ g.links, k.target = n := by
  obtain ⟨r', hr', hreach⟩ := hg.rooted n hn
  cases hr.symm.trans hr'
  rcases Relation.ReflTransGen.cases_tail hreach with rfl | ⟨b, -, e, he⟩
  · exact absurd rfl hne
  · exact ⟨_, he, rfl⟩

/-- Least parents lead up the ranks to the root. -/
theorem WellFormed.ascends (hg : g.WellFormed) {rank : NodeId → Nat}
    (hrank : ∀ k ∈ g.links, rank k.source < rank k.target) (hr : g.root = some r)
    (hn : g.contains n = true) : g.Ascends n r := by
  induction hd : rank n using Nat.strongRecOn generalizing n with
  | _ d ih =>
    subst hd
    by_cases heq : n = r
    · exact heq ▸ .refl
    · obtain ⟨k, hk, rfl⟩ := hg.exists_incoming hr hn heq
      obtain ⟨l, hl, -⟩ := exists_oldestIncoming hk
      obtain ⟨hmem, htarget⟩ := oldestIncoming_eq_some hl
      have hlt := hrank l hmem
      rw [htarget] at hlt
      exact .head (leastParent_of_oldestIncoming hl) (ih _ hlt (hg.source l hmem) rfl)

/-- Every node has a path from the root. -/
theorem Shaped.pathTo_total (h : Shaped p arena g) (hn : g.contains n = true) :
    ∃ path, g.pathTo n = .ok path := by
  obtain ⟨rank, hrank⟩ := h.ranked
  obtain ⟨r, hr, -⟩ := h.wellFormed.rooted n hn
  exact (h.wellFormed.intact.exists_path_iff hr).2 (h.wellFormed.ascends hrank hr hn)

end Graph

/-! ## Blocks -/

namespace Refinement

open Cegar.Graph

variable {g : Graph} {n t : NodeId} {path : Path} {u : GraphNode} {last : Option AbstractionId}

/-- An abstraction state on a path is a stop, if it continues the one before it. -/
theorem stops_abstraction {e : Option EdgeId} {id : AbstractionId} {s : AbstractionState}
    {ss : List Stop} (hn : g.nodes[n]? = some u) (hstate : u.state = .abstraction id)
    (hget : arena.get? id = some s) (hprevious : s.previous = last)
    (hrest : stops arena g (some id) path = .ok (.ok ss)) :
    stops arena g last (⟨n, e⟩ :: path) = .ok (.ok (⟨n, s⟩ :: ss)) := by
  unfold stops
  simp only [hn, hstate, Arena.get, hget]
  refine attempt_bind_ok.2 ⟨s, rfl, ?_⟩
  rw [if_neg (fun hne => hne hprevious)]
  exact attempt_bind_ok.2 ⟨ss, hrest, rfl⟩

/-- A state inside a block is no stop. -/
theorem stops_inner {e : Option EdgeId} {s : Inner} (hn : g.nodes[n]? = some u)
    (hstate : u.state = .inner s) :
    stops arena g last (⟨n, e⟩ :: path) = stops arena g last path := by
  conv => lhs; unfold stops
  simp only [hn, hstate]

/-- The owner of the state at the end of a path is the last abstraction state on it. -/
theorem stops_route (hg : g.Shaped p arena) (harena : arena.Legal p.automaton)
    (hroute : g.Route n path t) (hn : g.nodes[n]? = some u) (hfollows : u.state.Follows arena last) :
    ∃ ss w, stops arena g last path = .ok (.ok ss) ∧ g.nodes[t]? = some w ∧
      (ss.getLast?.map (·.state.id)).or last = w.state.owner? := by
  -- induction on the path: what comes after `last` inside its block is no stop, and the end of the
  -- block takes its place
  induction hroute generalizing u last with
  | last =>
    cases hstate : u.state with
    | top | bottom =>
      rw [hstate] at hfollows
      exact hfollows.elim
    | inner s =>
      rw [hstate] at hfollows
      refine ⟨[], u, (stops_inner hn hstate).trans rfl, hn, ?_⟩
      rw [hstate]
      exact hfollows.symm
    | abstraction id =>
      rw [hstate] at hfollows
      obtain ⟨s, hget, hprevious⟩ := hfollows
      refine ⟨[⟨_, s⟩], u, stops_abstraction hn hstate hget hprevious rfl, hn, ?_⟩
      rw [hstate]
      exact congrArg some (harena.id id s hget)
  | @step n m t e path hlink _ ih =>
    obtain ⟨v, hv⟩ := contains_iff.1 (hg.wellFormed.target _ hlink)
    have hnext := hg.follows harena hlink hn hv
    cases hstate : u.state with
    | top | bottom =>
      rw [hstate] at hfollows
      exact hfollows.elim
    | inner s =>
      rw [hstate] at hfollows hnext
      rw [stops_inner hn hstate, ← hfollows]
      exact ih hv hnext
    | abstraction id =>
      rw [hstate] at hfollows hnext
      obtain ⟨s, hget, hprevious⟩ := hfollows
      obtain ⟨ss, w, hss, hw, howner⟩ := ih hv hnext
      refine ⟨⟨n, s⟩ :: ss, w, stops_abstraction hn hstate hget hprevious hss, hw, ?_⟩
      rw [← howner]
      cases ss with
      | nil => exact congrArg some (harena.id id s hget)
      | cons s' ss =>
        rw [List.getLast?_cons_cons]
        cases hlast : (s' :: ss).getLast? with
        | none => cases List.getLast?_eq_none_iff.1 hlast
        | some last => rfl

/-- A path from the root consists of blocks. -/
theorem split_route (hg : g.Shaped p arena) (harena : arena.Legal p.automaton) {r : NodeId}
    (hr : g.root = some r) (hroute : g.Route r path t) :
    ∃ ss blocks, split arena g path = .ok (.ok (ss, blocks)) := by
  obtain ⟨id, s, hid, hget, hprevious⟩ := hg.root r hr
  have hfollows : (State.abstraction id).Follows arena none := ⟨s, hget, hprevious⟩
  obtain ⟨ss, w, hss, hw, howner⟩ := stops_route hg harena hroute hid hfollows
  rw [Option.or_none] at howner
  -- the root is a stop
  have hne : ss.isEmpty = false := by
    cases ss with
    | cons => rfl
    | nil =>
      obtain ⟨owner, path, size, hblock⟩ := hg.inBlock hw
      rw [hblock.owner? harena] at howner
      cases howner
  obtain ⟨rest, hrest⟩ : ∃ rest, openBlock g path ss = .ok rest := by
    unfold openBlock
    rw [hroute.getLast?]
    simp only [Option.bind_some, hw]
    cases hstate : w.state with
    | top | bottom | abstraction => exact ⟨[], rfl⟩
    | inner v =>
      rw [hstate] at howner
      refine ⟨[v.path], ?_⟩
      dsimp only
      rw [if_neg (fun hne => hne howner)]
      rfl
  refine ⟨ss, ss.map (·.state.block) ++ rest, attempt_bind_ok.2 ⟨ss, hss, ?_⟩⟩
  rw [hne]
  refine attempt_bind_ok.2 ⟨rest, ?_, rfl⟩
  rw [hrest]
  rfl

end Refinement

end Cegar

import Cegar.Analysis.Refinement
import Cegar.Proofs.Analysis.States
import Cegar.Proofs.Interpolation
import Cegar.Proofs.Precision

/-!
# Refinement

The abstraction states on a path are each the predecessor of the next, so a model of all blocks is
an execution through all of them. A path that is found real is therefore executable. A spurious path
makes the precision grow by formulas over the program, and exploration starts again at a node of the
path.

* **`Refinement.executes_of_stops`**: the execution through a chain of abstraction states;
* **`Refinement.executes_of_split`**: the execution to the end of a path, which may lie inside a
  block;
* **`Analysis.refine_spares`**: whatever the graph is, no state is lost or changed;
* **`Analysis.refine_ok`**: what either outcome of a refinement means.
-/

namespace Cegar

variable {A : Automaton}

/-- All states of the graph are valid at their locations. -/
def Graph.Valid (A : Automaton) (arena : Arena) (g : Graph) : Prop :=
  ∀ (n : NodeId) (node : GraphNode), g.nodes[n]? = some node →
    node.state.Valid A arena node.location

namespace Refinement

variable {arena : Arena} {g : Graph}

/-! ## Chains of abstraction states -/

/-- Each state is the predecessor of the next one, and `last` that of the first. -/
def Chained : Option AbstractionId → List Stop → Prop
  | _, [] => True
  | last, s :: ss => s.state.previous = last ∧ Chained (some s.state.id) ss

/-- The next node of a path is a stop, or it lies inside a block. -/
theorem stops_cons_ok {last : Option AbstractionId} {hop : Hop} {path : Path} {ss : List Stop}
    (h : stops arena g last (hop :: path) = .ok (.ok ss)) :
    ∃ node, g.nodes[hop.node]? = some node ∧
      ((∃ id s rest, node.state = .abstraction id ∧ arena.get? id = some s ∧ s.previous = last ∧
        stops arena g (some id) path = .ok (.ok rest) ∧ ss = ⟨hop.node, s⟩ :: rest) ∨
      (node.state.isAbstraction = false ∧ stops arena g last path = .ok (.ok ss))) := by
  unfold stops at h
  cases hnode : g.nodes[hop.node]? with
  | none =>
    rw [hnode] at h
    exact absurd h attempt_throw_ok
  | some node =>
    simp only [hnode] at h
    refine ⟨node, rfl, ?_⟩
    cases hstate : node.state with
    | abstraction id =>
      simp only [hstate] at h
      obtain ⟨s, hs, h₁⟩ := attempt_bind_ok.1 h
      rw [attempt_lift_ok] at hs
      have hget : arena.get? id = some s := by
        unfold Arena.get at hs
        split at hs <;> simp_all
      split at h₁
      · exact absurd h₁ (fun h => by cases h)
      · next hprev =>
        obtain ⟨rest, hrest, h₂⟩ := attempt_bind_ok.1 h₁
        cases attempt_pure_ok.1 h₂
        exact .inl ⟨id, s, rest, rfl, hget, Decidable.not_not.1 hprev, hrest, rfl⟩
    | top | bottom | inner =>
      simp only [hstate] at h
      exact .inr ⟨rfl, h⟩

/-- Each stop continues the one before it. -/
theorem chained_stops (harena : arena.Valid A) {last : Option AbstractionId} {path : Path}
    {ss : List Stop} (h : stops arena g last path = .ok (.ok ss)) : Chained last ss := by
  induction path generalizing last ss with
  | nil =>
    cases attempt_pure_ok.1 h
    trivial
  | cons hop path ih =>
    obtain ⟨node, -, ⟨id, s, rest, -, hget, hprev, hrest, rfl⟩ | ⟨-, h⟩⟩ := stops_cons_ok h
    · refine ⟨hprev, ?_⟩
      rw [harena.id id s hget]
      exact ih hrest
    · exact ih h

/-- Stops are nodes of the path, and their states are in the arena. -/
theorem mem_stops {last : Option AbstractionId} {path : Path} {ss : List Stop}
    (h : stops arena g last path = .ok (.ok ss)) :
    ∀ s ∈ ss, (∃ hop ∈ path, hop.node = s.node) ∧ ∃ id, arena.get? id = some s.state := by
  induction path generalizing last ss with
  | nil =>
    cases attempt_pure_ok.1 h
    simp
  | cons hop path ih =>
    obtain ⟨node, -, ⟨id, s, rest, -, hget, -, hrest, rfl⟩ | ⟨-, h⟩⟩ := stops_cons_ok h
    · intro t ht
      rcases List.mem_cons.1 ht with rfl | ht
      · exact ⟨⟨hop, by simp, rfl⟩, id, hget⟩
      · obtain ⟨⟨hop', hmem, hn⟩, hid⟩ := ih hrest t ht
        exact ⟨⟨hop', by simp [hmem], hn⟩, hid⟩
    · intro t ht
      obtain ⟨⟨hop', hmem, hn⟩, hid⟩ := ih h t ht
      exact ⟨⟨hop', by simp [hmem], hn⟩, hid⟩

/-- If a path ends at an abstraction state, that state is the last stop. -/
theorem getLast?_stops {last : Option AbstractionId} {path : Path} {ss : List Stop}
    (h : stops arena g last path = .ok (.ok ss)) {hop : Hop} (hlast : path.getLast? = some hop)
    {node : GraphNode} (hnode : g.nodes[hop.node]? = some node) {id : AbstractionId}
    (hid : node.state = .abstraction id) :
    ∃ s, arena.get? id = some s ∧ ss.getLast? = some ⟨hop.node, s⟩ := by
  induction path generalizing last ss with
  | nil => cases hlast
  | cons hop' path ih =>
    obtain ⟨node', hnode', hcases⟩ := stops_cons_ok h
    cases path with
    | nil =>
      cases hlast
      cases hnode.symm.trans hnode'
      rcases hcases with ⟨id', s, rest, hstate, hget, -, hrest, rfl⟩ | ⟨hstate, -⟩
      · cases hid.symm.trans hstate
        cases attempt_pure_ok.1 hrest
        exact ⟨s, hget, rfl⟩
      · rw [hid] at hstate
        cases hstate
    | cons hop'' path =>
      rw [List.getLast?_cons_cons] at hlast
      rcases hcases with ⟨id', s, rest, -, hget, -, hrest, rfl⟩ | ⟨-, h⟩
      · obtain ⟨t, ht, hl⟩ := ih hrest hlast
        refine ⟨t, ht, ?_⟩
        cases rest with
        | nil => cases hl
        | cons u rest => rwa [List.getLast?_cons_cons]
      · exact ih h hlast

/-! ## Executions through a path -/

/-- A model of the blocks executes them from the state before the first one to the last one. -/
theorem executes_of_chain (harena : arena.Valid A) {V : Store} {s : Stop} {ss : List Stop}
    (hss : ∀ t ∈ s :: ss, ∃ id, arena.get? id = some t.state)
    (hchain : Chained (some s.state.id) ss) (hV : ∀ t ∈ ss, t.state.block.formula.truth V = true)
    {σ : Store} (hσ : Env.Reads (· ∈ A.vars) V s.state.ssa σ) {u : Stop}
    (hu : (s :: ss).getLast? = some u) :
    ∃ σ', A.Executes (s.state.location, σ) (u.state.location, σ') ∧
      Env.Reads (· ∈ A.vars) V u.state.ssa σ' := by
  induction ss generalizing s σ with
  | nil =>
    cases hu
    exact ⟨σ, .refl _, hσ⟩
  | cons t ss ih =>
    obtain ⟨hprev, hchain⟩ := hchain
    obtain ⟨i, hi⟩ := hss s (by simp)
    obtain ⟨j, hj⟩ := hss t (by simp)
    obtain ⟨s', hs', hblock⟩ := (harena.state j t.state hj).block _ hprev
    rw [harena.id i s.state hi] at hs'
    cases hi.symm.trans hs'
    -- one block, from its start to its end
    obtain ⟨τ, hexec, hτ⟩ := hblock.runs V σ (hV t (by simp)) hσ
    rw [List.getLast?_cons_cons] at hu
    obtain ⟨σ', hexec', hσ'⟩ := ih (fun v hv => hss v (List.mem_cons_of_mem _ hv)) hchain
      (fun v hv => hV v (by simp [hv])) hτ hu
    exact ⟨σ', hexec.trans hexec', hσ'⟩

/-- A model of the blocks of all stops executes from the entry to the last stop. -/
theorem executes_of_stops (harena : arena.Valid A) {V : Store} {path : Path} {ss : List Stop}
    (h : stops arena g none path = .ok (.ok ss))
    (hV : ∀ t ∈ ss, t.state.block.formula.truth V = true) {u : Stop}
    (hu : ss.getLast? = some u) :
    ∃ σ σ', A.Executes (A.entry, σ) (u.state.location, σ') ∧
      Env.Reads (· ∈ A.vars) V u.state.ssa σ' := by
  cases ss with
  | nil => cases hu
  | cons s ss =>
    have hchain := chained_stops harena h
    obtain ⟨id, hid⟩ := (mem_stops h s (by simp)).2
    obtain ⟨hentry, -⟩ := (harena.state id s.state hid).initial hchain.1
    obtain ⟨σ', hexec, hσ'⟩ := executes_of_chain harena (fun t ht => (mem_stops h t ht).2) hchain.2
      (fun t ht => hV t (by simp [ht])) (Env.reads_after V s.state.ssa) hu
    exact ⟨_, σ', hentry ▸ hexec, hσ'⟩

/-- The parts of a path: its stops, and the block that it ends inside of. -/
theorem split_ok {path : Path} {ss : List Stop} {blocks : List PathFormula}
    (h : split arena g path = .ok (.ok (ss, blocks))) :
    stops arena g none path = .ok (.ok ss) ∧ ∃ hop node rest, path.getLast? = some hop ∧
      g.nodes[hop.node]? = some node ∧ blocks = ss.map (·.state.block) ++ rest ∧
      ((rest = [] ∧ ∀ s, node.state ≠ .inner s) ∨ ∃ s, node.state = .inner s ∧ rest = [s.path] ∧
        ss.getLast?.map (·.state.id) = some s.owner) := by
  obtain ⟨ss', hss, h₁⟩ := attempt_bind_ok.1 h
  split at h₁
  · exact absurd h₁ (fun h => by cases h)
  · obtain ⟨rest, hrest, h₂⟩ := attempt_bind_ok.1 h₁
    cases attempt_pure_ok.1 h₂
    have hrest : openBlock g path ss = .ok rest := by
      cases hopen : openBlock g path ss with
      | error d =>
        rw [hopen] at hrest
        exact absurd hrest attempt_throw_ok
      | ok r =>
        rw [hopen] at hrest
        cases attempt_pure_ok.1 hrest
        rfl
    refine ⟨hss, ?_⟩
    unfold openBlock at hrest
    split at hrest
    · cases hrest
    · next node hnode =>
      obtain ⟨hop, hhop, hnode⟩ := Option.bind_eq_some_iff.1 hnode
      refine ⟨hop, node, rest, hhop, hnode, rfl, ?_⟩
      split at hrest
      · next s hs =>
        split at hrest
        · cases hrest
        · next howner =>
          cases hrest
          exact .inr ⟨s, hs, rfl, Decidable.not_not.1 howner⟩
      · next hne =>
        cases hrest
        exact .inl ⟨rfl, hne⟩

/-- A model of all blocks of a path executes from the entry to the location of the last node. -/
theorem executes_of_split (harena : arena.Valid A) (hg : g.Valid A arena) {path : Path}
    {ss : List Stop} {blocks : List PathFormula}
    (h : split arena g path = .ok (.ok (ss, blocks))) {V : Store}
    (hV : ∀ b ∈ blocks, b.formula.truth V = true) {hop : Hop} (hhop : path.getLast? = some hop)
    {node : GraphNode} (hnode : g.nodes[hop.node]? = some node) :
    ∃ σ σ', A.Executes (A.entry, σ) (node.location, σ') := by
  obtain ⟨hss, hop', node', rest, hhop', hnode', rfl, hcases⟩ := split_ok h
  cases hhop.symm.trans hhop'
  cases hnode.symm.trans hnode'
  have hvalid := hg hop.node node hnode
  have hstops : ∀ t ∈ ss, t.state.block.formula.truth V = true := fun t ht =>
    hV _ (List.mem_append_left _ (List.mem_map.2 ⟨t, ht, rfl⟩))
  rcases hcases with ⟨-, hne⟩ | ⟨s, hs, rfl, howner⟩
  -- the path ends with a block, or inside one that goes on from the last stop
  · cases hstate : node.state with
    | top | bottom =>
      rw [hstate] at hvalid
      cases hvalid
    | inner s => exact absurd hstate (hne s)
    | abstraction id =>
      obtain ⟨t, ht, hlast⟩ := getLast?_stops hss hhop hnode hstate
      obtain ⟨σ, σ', hexec, -⟩ := executes_of_stops harena hss hstops hlast
      rw [hstate] at hvalid
      obtain ⟨t', ht', hl⟩ := hvalid
      cases ht.symm.trans ht'
      exact ⟨σ, σ', hl ▸ hexec⟩
  · obtain ⟨u, hu, hid⟩ := Option.map_eq_some_iff.1 howner
    obtain ⟨σ, τ, hexec, hτ⟩ := executes_of_stops harena hss hstops hu
    rw [hs] at hvalid
    obtain ⟨owner, howner', hdescribes⟩ := hvalid.1.segment
    obtain ⟨i, hi⟩ := (mem_stops hss u (List.mem_of_getLast? hu)).2
    rw [← hid, harena.id i u.state hi] at howner'
    cases hi.symm.trans howner'
    obtain ⟨σ', hexec', -⟩ := hdescribes.runs V τ (hV _ (List.mem_append_right _ (by simp))) hτ
    exact ⟨σ, σ', hexec.trans (hvalid.2 ▸ hexec')⟩

/-- The blocks of a path are formulas over the program. -/
theorem isFormula_blocks (harena : arena.Valid A) (hg : g.Valid A arena) {path : Path}
    {ss : List Stop} {blocks : List PathFormula}
    (h : split arena g path = .ok (.ok (ss, blocks))) :
    ∀ b ∈ blocks, b.formula.IsFormula (Known (· ∈ A.vars)) := by
  obtain ⟨hss, hop, node, rest, -, hnode, rfl, hcases⟩ := split_ok h
  intro b hb
  have hover : b.Over (· ∈ A.vars) := by
    rcases List.mem_append.1 hb with hb | hb
    · obtain ⟨s, hs, rfl⟩ := List.mem_map.1 hb
      obtain ⟨id, hid⟩ := (mem_stops hss s hs).2
      exact (harena.state id s.state hid).overVars
    · rcases hcases with ⟨rfl, -⟩ | ⟨s, hs, rfl, -⟩
      · cases hb
      · cases List.mem_singleton.1 hb
        have hvalid := hg hop.node node hnode
        rw [hs] at hvalid
        obtain ⟨owner, -, hdescribes⟩ := hvalid.1.segment
        exact hdescribes.overVars
  exact hover.formula.mono fun v _ hv => hv.1

/-- Exploration starts again at a stop. -/
theorem restartPoint?_eq_some {precision : Precision} {lastPath : Option (List Location)}
    {ss : List Stop} {predicates : List (List Predicate)} {n : NodeId}
    (h : restartPoint? precision lastPath ss (suggestions ss predicates) = some n) :
    ∃ s ∈ ss, s.node = n := by
  unfold restartPoint? at h
  split at h
  · next s q hfind =>
    cases h
    have hmem := List.mem_of_find?_eq_some hfind
    obtain ⟨⟨t, ps⟩, ht, hs⟩ := List.mem_flatMap.1 hmem
    obtain ⟨r, -, heq⟩ := List.mem_map.1 hs
    cases heq
    exact ⟨s, (List.of_mem_zip ht).1, rfl⟩
  · split at h
    · cases h
    · obtain ⟨s, hs, rfl⟩ := Option.map_eq_some_iff.1 h
      rcases Option.or_eq_some_iff.1 hs with hs | ⟨-, hs⟩
      · exact ⟨s, List.mem_of_getElem? hs, rfl⟩
      · exact ⟨s, List.mem_of_head? hs, rfl⟩

end Refinement

/-! ## The path of a feasible counterexample -/

namespace TargetPath

/-- A move leads to the last node of the path so far. -/
theorem Walk.step?_ok {g : Graph} {path : Path} {branches : Std.ExtTreeMap Var Bool} {w w' : Walk}
    (h : w.step? A g path branches = .ok (some w')) :
    w'.soFar.nodes.getLast? = some w'.current := by
  unfold Walk.step? at h
  split at h
  · cases h
  · obtain ⟨choice, -, h₁⟩ := except_bind_ok.1 h
    dsimp only at h₁
    split at h₁
    · cases h₁
    · obtain ⟨assumption, -, h₂⟩ := except_bind_ok.1 h₁
      split at h₂ <;> cases h₂ <;> simp [extend]

/-- The walk ends at the target. -/
theorem Walk.getLast?_run? {g : Graph} {path : Path} {branches : Std.ExtTreeMap Var Bool}
    {target : NodeId} {k : Nat} {w : Walk} {t : TargetPath}
    (hw : w.soFar.nodes.getLast? = some w.current)
    (h : w.run? A g path branches target k = .ok (some t)) : t.nodes.getLast? = some target := by
  induction k generalizing w with
  | zero =>
    unfold Walk.run? at h
    split at h
    · next heq =>
      cases h
      exact heq ▸ hw
    · cases h
  | succ k ih =>
    unfold Walk.run? at h
    split at h
    · next heq =>
      cases h
      exact heq ▸ hw
    · obtain ⟨next, hnext, h₁⟩ := except_bind_ok.1 h
      cases next with
      | none => cases h₁
      | some w' => exact ih (Walk.step?_ok hnext) h₁

/-- The path that is found ends where the given one does. -/
theorem getLast?_find {g : Graph} {path : Path} {branches : Std.ExtTreeMap Var Bool}
    {t : TargetPath} (h : find A g path branches = .ok (.ok t)) {hop : Hop}
    (hhop : path.getLast? = some hop) : t.nodes.getLast? = some hop.node := by
  unfold find at h
  split at h
  · next root last hroot hlast =>
    cases hhop.symm.trans hlast
    obtain ⟨found, hfound, h₁⟩ := attempt_bind_ok.1 h
    rw [attempt_lift_ok] at hfound
    cases attempt_pure_ok.1 h₁
    cases found with
    | none => simp [ofPath, List.getLast?_map, hhop]
    | some t => exact Walk.getLast?_run? rfl hfound
  · exact absurd h attempt_throw_ok

end TargetPath

/-! ## Refinements -/

/-- What the outcome of a refinement has to mean: a real path can be executed, and a spurious one
goes through the node where exploration starts again. -/
def Refinement.Sound (A : Automaton) (g : Graph) (path : Path) : Refinement → Prop
  | .real target => ∃ hop node, path.getLast? = some hop ∧ g.nodes[hop.node]? = some node ∧
      target.nodes.getLast? = some hop.node ∧
      ∃ σ σ', A.Executes (A.entry, σ) (node.location, σ')
  | .spurious precision root => precision.Valid A ∧ ∃ hop ∈ path, hop.node = root

/-- Refinement with formulas over the program keeps the precision valid. -/
theorem Precision.Valid.refine {p : Precision} (hp : p.Valid A) {qs : List (Location × Predicate)}
    (hqs : ∀ lq ∈ qs, lq.2.expr.IsFormula (· ∈ A.vars)) : (p.refine qs).1.Valid A := by
  intro l q hq
  rcases mem_setAt_refine.1 hq with hq | hq
  · exact hp l q hq
  · exact hqs _ hq

/-- What two valid precisions track together is valid. -/
theorem Precision.Valid.join {p r : Precision} (hp : p.Valid A) (hr : r.Valid A) :
    (p.join r).Valid A := by
  intro l q hq
  rcases mem_setAt_join hq with hq | hq
  · exact hp l q hq
  · exact hr l q hq

/-! ### Computations that keep all states -/

/-- The solver was asked, and the states and what is kept for later are as before. -/
structure Analysis.Spares (a a' : Analysis) : Prop where
  rests : ∃ new, SolverM.Rests a.solver new a'.solver
  arena : a'.arena = a.arena
  cache : a'.cache = a.cache

namespace Analysis.Spares

variable {a a' a'' : Analysis}

theorem refl (ha : a.solver.scopes = [[]]) : a.Spares a := ⟨⟨[], .refl ha⟩, rfl, rfl⟩

theorem trans (h : a.Spares a') (h' : a'.Spares a'') : a.Spares a'' := by
  obtain ⟨⟨new, hrests⟩, harena, hcache⟩ := h
  obtain ⟨⟨new', hrests'⟩, harena', hcache'⟩ := h'
  exact ⟨⟨_, hrests.trans hrests'⟩, harena'.trans harena, hcache'.trans hcache⟩

/-- Nothing is left asserted. -/
theorem scopes (h : a.Spares a') : a'.solver.scopes = [[]] := by
  obtain ⟨⟨new, hrests⟩, -, -⟩ := h
  exact hrests.scopes

end Analysis.Spares

/-- Run at rest, the computation spares the states. If moreover `C` holds and the precision is
valid, the precision stays valid, and a result satisfies `R`. -/
def TryM.Keeps {α : Type} (A : Automaton) (C : Prop) (arena : Arena) (act : TryM α)
    (R : α → Prop) : Prop :=
  ∀ a r a', a.solver.scopes = [[]] → a.arena = arena → act a = .ok (r, a') →
    a.Spares a' ∧ (C → a.precision.Valid A → a'.precision.Valid A ∧ ∀ x, r = .ok x → R x)

namespace TryM

variable {C : Prop} {α β : Type} {arena : Arena} {R : α → Prop} {S : β → Prop}

theorem keeps_pure {x : α} (h : C → R x) : Keeps A C arena (pure x) R := by
  intro a r a' ha harena hr
  cases try_pure_ok.1 hr
  exact ⟨.refl ha, fun hC hp => ⟨hp, fun y hy => by cases hy; exact h hC⟩⟩

/-- An error leaves no result to speak about. -/
theorem keeps_throw {e : Error} : Keeps A C arena (throw e) R := by
  intro a r a' ha harena hr
  cases try_throw_ok.1 hr
  exact ⟨.refl ha, fun _ hp => ⟨hp, fun y hy => by cases hy⟩⟩

/-- What comes next spares the states whatever the result was; that the result satisfies `R` is one
more condition for what it means. -/
theorem Keeps.bind {act : TryM α} {f : α → TryM β} (h : Keeps A C arena act R)
    (hf : ∀ x, Keeps A (C ∧ R x) arena (f x) S) : Keeps A C arena (act >>= f) S := by
  intro a r a' ha harena hr
  rcases try_bind_ok.1 hr with ⟨x, t, hx, hy⟩ | ⟨e, he, rfl⟩
  · obtain ⟨hspares, hR⟩ := h a (.ok x) t ha harena hx
    obtain ⟨hspares', hS⟩ := hf x t r a' hspares.scopes (hspares.arena.trans harena) hy
    refine ⟨hspares.trans hspares', fun hC hp => ?_⟩
    obtain ⟨hp', hRx⟩ := hR hC hp
    exact hS ⟨hC, hRx x rfl⟩ hp'
  · obtain ⟨hspares, hR⟩ := h a (.error e) a' ha harena he
    exact ⟨hspares, fun hC hp => ⟨(hR hC hp).1, fun y hy => by cases hy⟩⟩

theorem keeps_get : Keeps A C arena get fun a => a.arena = arena := by
  intro a r a' ha harena h
  cases h
  exact ⟨.refl ha, fun _ hp => ⟨hp, fun x hx => by cases hx; exact harena⟩⟩

/-- Counters concern nothing else. -/
theorem keeps_count {f : Statistics → Statistics} :
    Keeps A C arena (liftM (Analysis.count f)) fun _ => True := by
  intro a r a' ha harena h
  cases h
  exact ⟨⟨⟨[], .refl ha⟩, rfl, rfl⟩, fun _ hp => ⟨hp, fun _ _ => trivial⟩⟩

/-- A computation with its error as a value. -/
theorem Keeps.lift {act : TryM α} (h : Keeps A C arena act R) :
    Keeps A C arena (ExceptT.lift act.run) fun r => ∀ x, r = .ok x → R x := by
  intro a r a' ha harena hr
  obtain ⟨y, hy, rfl⟩ := try_lift_ok.1 hr
  obtain ⟨hspares, hR⟩ := h a y a' ha harena hy
  exact ⟨hspares, fun hC hp => ⟨(hR hC hp).1, fun z hz => by cases hz; exact (hR hC hp).2⟩⟩

/-- What is read off the graph is the result. -/
theorem keeps_onPath {act : ExceptT PathDefect (Except Abort) α} :
    Keeps A C arena (Analysis.onPath act) fun x => act = .ok (.ok x) := by
  refine Keeps.bind (R := fun r => act.run = .ok r) ?_ fun r => ?_
  · intro a r a' ha harena h
    obtain ⟨y, hy, rfl⟩ := try_lift_ok.1 h
    obtain ⟨hact, rfl⟩ := state_lift_ok.1 hy
    exact ⟨.refl ha, fun _ hp => ⟨hp, fun x hx => by cases hx; exact hact⟩⟩
  · cases r with
    | ok x => exact keeps_pure And.right
    | error d => exact keeps_throw

/-- Asking the solver spares the states, and its result has what the trace promises. -/
theorem keeps_consult {act : TraceM α} (h : TraceM.Traces act R) :
    Keeps A C arena (ExceptT.mk (Analysis.consult act)) R := by
  intro a r a' ha harena hr
  obtain ⟨solver, hsolver, rfl⟩ := Analysis.consult_cases hr
  obtain ⟨new, hrests, hR, -⟩ := h a.solver r solver ha hsolver
  exact ⟨⟨⟨new, hrests⟩, rfl, rfl⟩, fun _ hp => ⟨hp, hR⟩⟩

end TryM

/-! ### Paths to error locations -/

namespace Analysis

open TryM

variable {p : Problem} {arena : Arena} {g : Graph} {path : Path}

/-- Predicates that are suggested are predicates of the trace. -/
theorem isFormula_suggestions {ss : List Refinement.Stop} {pss : List (List Predicate)}
    (h : ∀ ps ∈ pss, ∀ q ∈ ps, q.expr.IsFormula (· ∈ A.vars)) :
    ∀ sq ∈ Refinement.suggestions ss pss, sq.2.expr.IsFormula (· ∈ A.vars) := by
  intro sq hsq
  obtain ⟨⟨s, ps⟩, hmem, hsq⟩ := List.mem_flatMap.1 hsq
  obtain ⟨q, hq, rfl⟩ := List.mem_map.1 hsq
  exact h ps (List.of_mem_zip hmem).2 q hq

/-- What is done about a spurious trace. -/
theorem spurious_keeps {C : Prop} {ss : List Refinement.Stop} {predicates : List (List Predicate)}
    (hstops : C → Refinement.stops arena g none path = .ok (.ok ss))
    (hpredicates : C → ∀ ps ∈ predicates, ∀ q ∈ ps, q.expr.IsFormula (· ∈ A.vars)) :
    Keeps A C arena (do
      let a ← get
      let new := Refinement.suggestions ss predicates
      let locations := ss.map (·.state.location)
      match Refinement.restartPoint? a.precision a.lastPath ss new with
      | none => throw (.noProgress locations)
      | some root =>
        set { a with lastPath := some locations }
        let (precision, _) := a.precision.refine (new.map fun (s, q) => (s.state.location, q))
        return .spurious precision root) (Refinement.Sound A g path) := by
  intro a r a' ha harena h
  obtain ⟨b, t, hb, h⟩ | ⟨e, he, -⟩ := try_bind_ok.1 h
  · cases hb
    cases hroot : Refinement.restartPoint? a.precision a.lastPath ss
        (Refinement.suggestions ss predicates) with
    | none =>
      simp only [hroot] at h
      exact keeps_throw a r a' ha harena h
    | some root =>
      simp only [hroot] at h
      cases h
      refine ⟨⟨⟨[], .refl ha⟩, rfl, rfl⟩, fun hC hp => ⟨hp, fun result hresult => ?_⟩⟩
      cases hresult
      refine ⟨hp.refine fun lq hlq => ?_, ?_⟩
      · obtain ⟨sq, hsq, rfl⟩ := List.mem_map.1 hlq
        exact isFormula_suggestions (hpredicates hC) sq hsq
      · obtain ⟨s, hs, rfl⟩ := Refinement.restartPoint?_eq_some hroot
        exact (Refinement.mem_stops (hstops hC) s hs).1
  · cases he

/-- Looking at a path spares the states. In a valid graph, a real path can be executed and a
spurious one goes through the node to restart from. -/
theorem analysePath_keeps {C : Prop}
    (hC : C → arena.Valid p.automaton ∧ g.Valid p.automaton arena) :
    Keeps p.automaton C arena (analysePath p g path) (Refinement.Sound p.automaton g path) := by
  refine keeps_get.bind fun a => keeps_onPath.bind fun (ss, blocks) => ?_
  refine (keeps_consult (Trace.ofBlocks_traces blocks)).bind fun trace => ?_
  cases trace with
  | feasible branches =>
    refine keeps_onPath.bind fun t => keeps_pure ?_
    rintro ⟨⟨⟨⟨hc, rfl⟩, hsplit⟩, htrace⟩, ht⟩
    obtain ⟨harena, hg⟩ := hC hc
    obtain ⟨-, hop, node, -, hhop, hnode, -, -⟩ := Refinement.split_ok hsplit
    obtain ⟨V, hV⟩ := htrace _ (Refinement.isFormula_blocks harena hg hsplit)
    exact ⟨hop, node, hhop, hnode, TargetPath.getLast?_find ht hhop,
      Refinement.executes_of_split harena hg hsplit hV hhop hnode⟩
  | spurious predicates =>
    refine spurious_keeps ?_ ?_
    · rintro ⟨⟨⟨-, rfl⟩, hsplit⟩, -⟩
      exact (Refinement.split_ok hsplit).1
    · rintro ⟨⟨⟨hc, rfl⟩, hsplit⟩, htrace⟩
      obtain ⟨harena, hg⟩ := hC hc
      exact htrace _ (Refinement.isFormula_blocks harena hg hsplit)

/-- The refined precision joins the one that exploration starts from. -/
theorem join_keeps {C : Prop} {precision : Precision} (hC : C → precision.Valid A) :
    Keeps A C arena (modify fun a => { a with precision := a.precision.join precision })
      fun _ => True := by
  intro a r a' ha harena h
  cases h
  exact ⟨⟨⟨[], .refl ha⟩, rfl, rfl⟩, fun hc hp => ⟨hp.join (hC hc), fun _ _ => trivial⟩⟩

/-- Refinement spares the states, and keeps the precision valid if the graph is. -/
theorem refine_keeps {C : Prop}
    (hC : C → arena.Valid p.automaton ∧ g.Valid p.automaton arena) :
    Keeps p.automaton C arena (refine p g path) (Refinement.Sound p.automaton g path) := by
  refine (analysePath_keeps hC).lift.bind fun result => keeps_count.bind fun _ => ?_
  cases result with
  | error e => exact keeps_throw
  | ok result =>
    cases result with
    | real target => exact keeps_count.bind fun _ => keeps_pure fun h => h.1.1.2 _ rfl
    | spurious precision root =>
      exact keeps_count.bind fun _ =>
        (join_keeps fun h => (h.1.1.2 _ rfl).1).bind fun _ => keeps_pure fun h => h.1.1.1.2 _ rfl

/-- Refining spares all states. -/
theorem refine_spares {a a' : Analysis} (ha : a.solver.scopes = [[]])
    {r : Except Error Refinement} (h : refine p g path a = .ok (r, a')) : a.Spares a' :=
  (refine_keeps (C := False) (fun h => h.elim) a r a' ha rfl h).1

/-- Refining keeps an analysis valid, and its outcome means what it says. -/
theorem refine_ok {a a' : Analysis} (ha : a.Valid p.automaton)
    (hg : g.Valid p.automaton a.arena) {r : Except Error Refinement}
    (h : refine p g path a = .ok (r, a')) :
    a.Advances p.automaton a' ∧ a'.arena = a.arena ∧
      ∀ x, r = .ok x → Refinement.Sound p.automaton g path x := by
  obtain ⟨⟨⟨new, hrests⟩, harena, hcache⟩, hsound⟩ :=
    refine_keeps (C := True) (fun _ => ⟨ha.arena, hg⟩) a r a' ha.rest rfl h
  obtain ⟨hprecision, hresult⟩ := hsound trivial ha.precision
  have hvalid : a'.Valid p.automaton :=
    ⟨hrests.scopes, harena ▸ ha.arena, by rw [hcache, harena]; exact ha.cache, hprecision⟩
  exact ⟨⟨hvalid, harena ▸ .refl _, hrests.suffix⟩, harena, hresult⟩

end Analysis

end Cegar

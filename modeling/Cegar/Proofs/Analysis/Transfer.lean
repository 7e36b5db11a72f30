import Cegar.Proofs.Analysis.Sessions

/-!
# The transfer relation

A state is carried along an edge by a formula, a check and an abstraction, with results of earlier
calls looked up on the way. No execution of the edge gets lost in this, whatever calls came before
and whatever precisions those were made with.

* **`Analysis.extendBlock_transfers`**: the state after an edge denotes where the edge leads from a
  block;
* **`Analysis.successor_transfers`**: the same of any state that a session has given.
-/

namespace Cegar

/-- How a state comes after one that depends on `owner?`: inside the same block, or at the end of
it. -/
def State.Follows (arena : Arena) (owner? : Option AbstractionId) : State → Prop
  | .inner t => some t.owner = owner?
  | .abstraction id => ∃ t, arena.get? id = some t ∧ t.previous = owner?
  | .top | .bottom => False

namespace Analysis

variable {P : Var → Prop} {p : Problem} {a a' : Analysis} {precision : Precision}
  {owner : AbstractionState} {path q : PathFormula} {l : Location} {size : Nat} {e : EdgeId}
  {edge : Edge} {r : Option State}

/-- The state at the end of a block comes after the owner of the block. -/
theorem Outcome.follows (ha : a.Legal p.automaton) {solver : Solver} {arena : Arena}
    (h : Outcome p precision owner l size q a r solver arena) {t : State} (ht : r = some t) :
    t.location? arena = .ok (some l) ∧ t.Follows arena (some owner.id) := by
  rcases h.arena_cases ha.rest with ⟨-, hinner⟩ | ⟨abstraction, -, rfl, rfl⟩
  · rw [hinner t ht]
    exact ⟨rfl, rfl⟩
  · cases ht
    have hget := Arena.get?_allocate_self a.arena l abstraction q (some owner.id)
    refine ⟨?_, _, hget, rfl⟩
    simp only [State.location?, Arena.get, hget]
    rfl

/-- Where the edge leads from what a path reaches, the state after it denotes. -/
theorem extendBlock_transfers (hP : Plain P) (hA : ∀ d ∈ p.automaton.edges, d.statement.Over P)
    (ha : a.Legal p.automaton) (howner : a.arena.get? owner.id = some owner)
    (hpath : path.Grown p.automaton owner.ssa) (hedge : p.automaton.edges[e.idx]? = some edge)
    (h : extendBlock p precision owner path size e a = .ok (.ok r, a')) :
    (∀ t, r = some t →
      t.location? a'.arena = .ok (some edge.target) ∧ t.Follows a'.arena (some owner.id)) ∧
    ∃ new, a'.solver.transcript = new ++ a.solver.transcript ∧
      (Cegar.Truthful new → (∀ d ∈ precision.predicatesAt edge.target, d.expr.WellSorted) →
        ∀ σ σ', owner.Reaches P path σ → edge.statement.Step σ σ' →
          ∃ t, r = some t ∧ t.Denotes P a'.arena σ') := by
  obtain ⟨edge', hedge', cache, statistics, -, -, hcases⟩ := extendBlock_cases ha.cache h
  cases hedge.symm.trans hedge'
  obtain ⟨x, -, hx, -⟩ | ⟨q, s, solver, arena, hextend, hs, houtcome, rfl⟩ := hcases
  · cases hx
  · cases hs
    obtain ⟨new, hrests, hsound⟩ := houtcome.sound ha.rest howner
    refine ⟨fun t ht => houtcome.follows ha ht, new, hrests.transcript, ?_⟩
    intro htruthful hprecision σ σ' hσ hstep
    have hunindexed := (ha.arena.state _ _ howner).unindexed
    have hvars : p.automaton.Within fun _ => True :=
      ⟨fun d hd c hc v hv => ⟨hP.unindexed v ((hA d hd).vars c hc v hv), trivial⟩,
        fun _ _ _ _ _ _ => trivial⟩
    have hsorted : path.Sorted := hpath.sorted fun d hd => (hA d hd).sorted
    have hover := hA edge (Automaton.mem_edges_of_getElem? hedge)
    -- the longer path reaches the store, and no outcome of the block loses what the path reaches
    have hreaches : owner.Reaches P q σ' :=
      hσ.extend hP hunindexed hpath.le (hpath.seen hvars) hsorted hover hextend hstep
    exact hsound htruthful hprecision P σ' hreaches

/-- The successor of a state along an edge is at the target of the edge, in the block of the state
or at the end of it. If the solver was right whenever it answered `unsat` in the call, the successor
denotes every store that the edge leads to from one that the state denotes. -/
theorem successor_transfers (hP : Plain P) (hA : ∀ d ∈ p.automaton.edges, d.statement.Over P)
    {given : List State} (hsession : Session p given a) {s : State} (hs : s ∈ given)
    (hprecision : ∀ l, ∀ d ∈ precision.predicatesAt l, d.expr.WellSorted)
    (hedge : p.automaton.edges[e.idx]? = some edge)
    (h : successor p precision s e a = .ok (.ok r, a')) :
    (∀ t, r = some t →
      t.location? a'.arena = .ok (some edge.target) ∧ t.Follows a'.arena s.owner?) ∧
    ∃ new, a'.solver.transcript = new ++ a.solver.transcript ∧
      (Cegar.Truthful new → ∀ σ σ', s.Denotes P a.arena σ → edge.statement.Step σ σ' →
        ∃ t, r = some t ∧ t.Denotes P a'.arena σ') := by
  obtain ⟨ha, hgiven⟩ := hsession.legal
  obtain ⟨-, hr, -⟩ | ⟨rfl, hr, rfl⟩ | ⟨id, owner, rfl, hget, h⟩ | ⟨u, owner, rfl, hget, h⟩ :=
    successor_cases h
  · cases hr
  · cases hr
    -- bottom has no successor, and denotes nothing
    refine ⟨fun t ht => ?_, [], rfl, fun _ σ σ' hσ => hσ.elim⟩
    cases ht
  · have hid : owner.id = id := ha.arena.id id owner hget
    obtain ⟨hfollows, new, hnew, hsound⟩ :=
      extendBlock_transfers hP hA ha (ha.owner hget) .empty hedge h
    rw [hid] at hfollows
    refine ⟨hfollows, new, hnew, ?_⟩
    rintro htruthful σ σ' ⟨owner', hget', hσ⟩ hstep
    cases hget.symm.trans hget'
    -- at the start of a block the path is empty
    exact hsound htruthful (hprecision _) σ σ' (AbstractionState.reaches_fresh.2 hσ) hstep
  · have hid : owner.id = u.owner := ha.arena.id u.owner owner hget
    obtain ⟨owner', hget', hpath⟩ := hgiven _ hs
    cases hget.symm.trans hget'
    obtain ⟨hfollows, new, hnew, hsound⟩ :=
      extendBlock_transfers hP hA ha (ha.owner hget) hpath hedge h
    rw [hid] at hfollows
    refine ⟨hfollows, new, hnew, ?_⟩
    rintro htruthful σ σ' ⟨owner', hget', hσ⟩ hstep
    cases hget.symm.trans hget'
    exact hsound htruthful (hprecision _) σ σ' hσ hstep

/-! ## A block of two assignments -/

/-- Assigns `1` to `x` and then counts it up. Blocks have two edges. -/
def counting : Problem where
  automaton := {
    nodes := #[.entryOf "main", .plain "main", .plain "main"]
    edges :=
      #[⟨⟨0⟩, ⟨1⟩, .assign varX (.num 1)⟩, ⟨⟨1⟩, ⟨2⟩, .assign varX (.arith .add varX (.num 1))⟩]
    entry := ⟨0⟩
    joins := by decide }
  options := { blockSize := 2 }

/-- Whether `x` is `2`. -/
def isTwo : Predicate := ⟨.eq varX (.num 2), by decide⟩

def countingPrecision : Precision := .ofGlobal counting.options.toPolicy [isTwo]

/-- What the first edge says. -/
def countingFirst : Expr := .eq (.var ⟨"x", .int, some 1⟩) (.num 1)

/-- What both edges say. -/
def countingBlock : Expr :=
  .logic .and countingFirst
    (.eq (.var ⟨"x", .int, some 2⟩) (.arith .add (.var ⟨"x", .int, some 1⟩) (.num 1)))

/-- That the predicate is false after both edges. -/
def countingMiss : Expr := .not (.eq (.var ⟨"x", .int, some 2⟩) (.num 2))

/-- After both edges `x` is `2`. -/
theorem not_models_counting {m : Assignment} (hm : m.Typed) :
    ¬ m.Models [countingBlock, countingMiss] := by
  have hsorted : ∀ c ∈ [countingBlock, countingMiss], c.WellSorted ∧ c.ty = .bool := by decide
  have hformula : ∀ c ∈ [countingBlock, countingMiss], c.IsFormula fun _ => True :=
    fun c hc => ⟨(hsorted c hc).1, (hsorted c hc).2, fun _ _ => trivial⟩
  rw [Assignment.models_iff hm hformula]
  intro hmodels
  have hblock := hmodels countingBlock (by simp)
  have hmiss := hmodels countingMiss (by simp)
  rw [countingBlock, Expr.truth_logic] at hblock
  obtain ⟨hone, hstep⟩ := Bool.and_eq_true_iff.1 hblock
  have hone : (m.env hm).val ⟨"x", .int, some 1⟩ = .int 1 :=
    (Expr.truth_eq (l := .var ⟨"x", .int, some 1⟩) (r := .num 1) rfl).1 hone
  have hstep : (m.env hm).val ⟨"x", .int, some 2⟩ =
      .int (((m.env hm).val ⟨"x", .int, some 1⟩).toInt + 1) := (Expr.truth_eq (by rfl)).1 hstep
  have htwo : (m.env hm).val ⟨"x", .int, some 2⟩ = .int 2 := by
    rw [hstep, hone]
    decide
  rw [countingMiss, Expr.truth_not, Bool.not_eq_true', ← Bool.not_eq_true] at hmiss
  exact hmiss ((Expr.truth_eq (by rfl)).2 htwo)

theorem wellSorted_countingPrecision (l : Location) :
    ∀ d ∈ countingPrecision.predicatesAt l, d.expr.WellSorted := by
  intro d hd
  obtain rfl : d = isTwo := List.mem_singleton.1 (Precision.mem_predicatesAt_ofGlobal.1 hd)
  decide

/-- The second edge ends the block, and the solver is right about the predicate. -/
theorem counting_second_edge : ∃ (given : List State) (a a' : Analysis) (s t : State),
    Session counting given a ∧ s ∈ given ∧ s.hasPath a.arena countingFirst = true ∧
    a.solver.transcript = [] ∧
    successor counting countingPrecision s ⟨1⟩ a = .ok (.ok (some t), a') ∧
    Cegar.Truthful a'.solver.transcript := by
  have hrun : ((Session.begin? counting ⟨0⟩).any fun b =>
      (Session.walk? counting countingPrecision [⟨0⟩] b.1 b.2).any fun c =>
        (Session.walk? counting countingPrecision [⟨1⟩] c.1 c.2).any fun d =>
          c.1.hasPath c.2.arena countingFirst && c.2.solver.transcript.isEmpty &&
          (d.2.solver.transcript.filter (·.answer = .unsat)).map (·.assertions) =
            [[countingBlock, countingMiss]]) = true := by
    decide +kernel
  obtain ⟨⟨s₀, a₀⟩, hbegin, hrun⟩ := (Option.any_eq_true _ _).1 hrun
  obtain ⟨⟨s, a⟩, hwalk, hrun⟩ := (Option.any_eq_true _ _).1 hrun
  obtain ⟨⟨t, a'⟩, hlast, hrun⟩ := (Option.any_eq_true _ _).1 hrun
  obtain ⟨given₀, hsession₀, hs₀⟩ := Session.of_begin? hbegin
  obtain ⟨given, hsession, hs, -⟩ := hsession₀.of_walk? hs₀ hwalk
  obtain ⟨_, _, hstep, hend⟩ := Session.walk?_cons_eq_some hlast
  cases hend
  simp only [Bool.and_eq_true, List.isEmpty_iff, decide_eq_true_eq] at hrun
  obtain ⟨⟨hpath, hempty⟩, hquestions⟩ := hrun
  refine ⟨given, a, a', s, t, hsession, hs, hpath, hempty, hstep, ?_⟩
  intro q hq hunsat m hm
  have hmem : q.assertions ∈ [[countingBlock, countingMiss]] := by
    rw [← hquestions]
    exact List.mem_map.2 ⟨q, List.mem_filter.2 ⟨hq, by simp [hunsat]⟩, rfl⟩
  rw [List.mem_singleton.1 hmem]
  exact not_models_counting hm

/-- After both edges `x` is `2`, and the state there denotes a store with this value. -/
theorem successor_transfers_counting :
    ∃ (given : List State) (a a' : Analysis) (s t : State) (σ σ' : Store),
      Session counting given a ∧ s ∈ given ∧ s.Denotes (· ∈ counting.automaton.vars) a.arena σ ∧
      successor counting countingPrecision s ⟨1⟩ a = .ok (.ok (some t), a') ∧
      a.solver.transcript = [] ∧ Cegar.Truthful a'.solver.transcript ∧
      t.location? a'.arena = .ok (some ⟨2⟩) ∧ t.Follows a'.arena s.owner? ∧
      σ'.val varX = .int 2 ∧ t.Denotes (· ∈ counting.automaton.vars) a'.arena σ' := by
  obtain ⟨given, a, a', s, t, hsession, hs, hpath, hempty, hstep, htruthful⟩ := counting_second_edge
  have hA : counting.automaton.WellFormed := by decide +kernel
  have hP := hA.vocabulary.toPlain
  have hσ : s.Denotes (· ∈ counting.automaton.vars) a.arena (uniform 1) :=
    State.denotes_of_hasPath hP hpath (by decide +kernel)
  obtain ⟨hplace, new, hnew, hsound⟩ := successor_transfers hP (fun d hd => hA.overVars hd)
    hsession hs wellSorted_countingPrecision rfl hstep
  rw [hempty, List.append_nil] at hnew
  obtain ⟨hlocation, hfollows⟩ := hplace t rfl
  obtain ⟨t', ht', hdenotes⟩ := hsound (hnew ▸ htruthful) (uniform 1) _ hσ rfl
  cases ht'
  exact ⟨given, a, a', s, t, uniform 1, _, hsession, hs, hσ, hstep, hempty, htruthful, hlocation,
    hfollows, by decide +kernel, hdenotes⟩

end Analysis

end Cegar

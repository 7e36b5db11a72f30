import Cegar.Proofs.Analysis.Concretisation

/-!
# What states of an analysis stand for

A path formula describes executions: every model of it is an execution from the start of its block
to its end. A state is valid if its path formula does so, and it stands for the stores that the
abstraction of its owner and its path formula allow.

* **`PathFormula.Describes`**: kept by the extension along an edge and by disjunction;
* **`State.StandsFor`**: the stores that a state stands for. Of a valid state they are those that
  it denotes (`State.Valid.denotes_iff`);
* **`Analysis.Valid`**: what holds of an analysis between its operations. All states in the arena
  are valid, what is kept in the cache is what would be computed anew, and the solver is at rest;
* **`Analysis.Advances`**: how one valid analysis comes from another. States stay what they are, and
  the transcript grows.
-/

namespace Cegar

variable {A : Automaton}

/-! ## Path formulas of blocks -/

/-- Read from the numbering `m` at `start`, a model of the formula is an execution to `l`. -/
structure PathFormula.Describes (A : Automaton) (start : Location) (m : SsaMap) (l : Location)
    (p : PathFormula) : Prop where
  overVars : p.Over (· ∈ A.vars)
  le : m ≤ p.ssa
  runs : ∀ V σ, p.formula.truth V = true → Env.Reads (· ∈ A.vars) V m σ →
    ∃ σ', A.Executes (start, σ) (l, σ') ∧ Env.Reads (· ∈ A.vars) V p.ssa σ'

namespace PathFormula.Describes

variable {start l : Location} {m : SsaMap} {p q : PathFormula}

/-- With no edges taken, the execution is where it starts. -/
theorem empty (hm : m.Over (· ∈ A.vars)) : (PathFormula.empty m).Describes A start m start :=
  ⟨.empty hm, SsaMap.le_refl m, fun _ σ _ hr => ⟨σ, .refl _, hr⟩⟩

/-- One more edge of the program: a model of the longer formula executes it after the others. -/
theorem extend (hA : A.WellFormed) (hp : p.Describes A start m l) {edge : Edge}
    (hedge : edge ∈ A.edges) (hl : edge.source = l) {e : EdgeId}
    (h : p.extend edge.source e edge.statement = .ok (.ok q)) :
    q.Describes A start m edge.target := by
  refine ⟨hp.overVars.extend hA.vocabulary (hA.overVars hedge) h,
    SsaMap.le_trans hp.le (le_of_extend h), fun V σ hV hr => ?_⟩
  -- the model satisfies the shorter path, which tells the store before the edge
  obtain ⟨hVp, -⟩ :=
    extend_backward hA.vocabulary (hA.overVars hedge) h hV (Env.reads_after V p.ssa)
  obtain ⟨τ, hexec, hτ⟩ := hp.runs V σ hVp hr
  obtain ⟨-, σ', hstep, hσ'⟩ := extend_backward hA.vocabulary (hA.overVars hedge) h hV hτ
  exact ⟨σ', .tail hedge (hl ▸ hexec) hstep, hσ'⟩

/-- A model of a disjunction is a model of one side, and so an execution along it. -/
theorem or (hA : A.WellFormed) (hp : p.Describes A start m l) (hq : q.Describes A start m l) :
    (p.or q).Describes A start m l := by
  have hor := hp.overVars.or hq.overVars
  refine ⟨hor, SsaMap.le_trans hp.le (SsaMap.le_merge_left p.ssa q.ssa), fun V σ hV hr => ?_⟩
  have hknown (v : Var) (hv : v ∈ A.vars) : v.index = none ∧ Known (· ∈ A.vars) v :=
    ⟨hA.vocabulary.unindexed v hv, hA.vocabulary.toPlain.known hv⟩
  rcases or_backward hknown hA.vocabulary.oneType_known hp.overVars.ssa hq.overVars.ssa
    ((Expr.holds_iff_truth hor.formula).2 hV) with ⟨hVp, hread⟩ | ⟨hVq, hread⟩
  · obtain ⟨σ', hexec, hσ'⟩ := hp.runs V σ ((Expr.holds_iff_truth hp.overVars.formula).1 hVp) hr
    exact ⟨σ', hexec, (hread σ').1 hσ'⟩
  · obtain ⟨σ', hexec, hσ'⟩ := hq.runs V σ ((Expr.holds_iff_truth hq.overVars.formula).1 hVq) hr
    exact ⟨σ', hexec, (hread σ').1 hσ'⟩

end PathFormula.Describes

/-! ## Valid states -/

/-- The block of an abstraction state starts in its predecessor. A state without predecessor is at
the entry, where nothing is known. -/
structure AbstractionState.Valid (A : Automaton) (arena : Arena) (s : AbstractionState) : Prop where
  formula : s.abstraction.IsFormula (· ∈ A.vars)
  initial : s.previous = none →
    s.location = A.entry ∧ s.block = .empty .empty ∧ s.abstraction = .bool true
  block : ∀ q, s.previous = some q → ∃ t, arena.get? q = some t ∧
    s.block.Describes A t.location t.ssa s.location

/-- Blocks are about variables of the program. -/
theorem AbstractionState.Valid.overVars {arena : Arena} {s : AbstractionState}
    (h : s.Valid A arena) :
    s.block.Over (· ∈ A.vars) := by
  cases hp : s.previous with
  | none =>
    rw [(h.initial hp).2.1]
    exact .empty SsaMap.over_empty
  | some q =>
    obtain ⟨t, -, hd⟩ := h.block q hp
    exact hd.overVars

/-- States are found under their numbers. -/
structure Arena.Valid (A : Automaton) (arena : Arena) : Prop where
  id : ∀ i s, arena.get? i = some s → s.id = i
  state : ∀ i s, arena.get? i = some s → s.Valid A arena

/-- The path formula of a segment describes executions from its owner. -/
def Segment.Valid (A : Automaton) (arena : Arena) (s : Segment) : Prop :=
  ∃ owner, arena.get? s.owner = some owner ∧
    s.path.Describes A owner.location owner.ssa s.location

/-- A state that was merged is the union of its inputs. -/
structure Inner.Valid (A : Automaton) (arena : Arena) (s : Inner) : Prop where
  segment : s.toSegment.Valid A arena
  inputs : ∀ a b, s.inputs = some (a, b) → a.Valid A arena ∧ b.Valid A arena ∧
    a.owner = b.owner ∧ a.location = b.location ∧ s.toSegment = (Inner.merge a b).toSegment

/-- A valid state at a location. -/
def State.Valid (A : Automaton) (arena : Arena) (l : Location) : State → Prop
  | .abstraction id => ∃ a, arena.get? id = some a ∧ a.location = l
  | .inner s => s.Valid A arena ∧ s.location = l
  | .top | .bottom => False

/-- The stores that a segment stands for: those read in models of the abstraction of its owner and
of its path formula. -/
def Segment.StandsFor (A : Automaton) (arena : Arena) (s : Segment) (σ : Store) : Prop :=
  ∃ owner, arena.get? s.owner = some owner ∧ ∃ V, owner.formula.truth V = true ∧
    s.path.formula.truth V = true ∧ Env.Reads (· ∈ A.vars) V s.path.ssa σ

/-- The stores that a state stands for. -/
def State.StandsFor (A : Automaton) (arena : Arena) (σ : Store) : State → Prop
  | .top => True
  | .bottom => False
  | .abstraction id => ∃ a, arena.get? id = some a ∧ a.abstraction.truth σ = true
  | .inner s => s.toSegment.StandsFor A arena σ

/-! ## Valid states denote what they stand for -/

section Denotes

variable {arena : Arena}

/-- Abstractions are about variables as such. -/
theorem AbstractionState.Valid.unindexed (hA : A.WellFormed) {s : AbstractionState}
    (hs : s.Valid A arena) : s.Unindexed :=
  fun v hv => hA.vocabulary.unindexed v (hs.formula.vars v hv)

/-- Over the variables at the state, the abstraction is a formula. -/
theorem AbstractionState.Valid.holds_iff (hA : A.WellFormed) {s : AbstractionState}
    (hs : s.Valid A arena) {V : Store} : s.formula.Holds V ↔ s.formula.truth V = true :=
  Expr.holds_iff_truth (hs.formula.indexed hA.vocabulary.toPlain s.ssa)

/-- The stores that a segment stands for are those that its path reaches from its owner. -/
theorem Segment.Valid.denotes_iff (hA : A.WellFormed) (harena : arena.Valid A) {s : Segment}
    (hs : s.Valid A arena) {σ : Store} :
    s.Denotes (· ∈ A.vars) arena σ ↔ s.StandsFor A arena σ := by
  obtain ⟨owner, howner, hd⟩ := hs
  have ho := harena.state _ _ howner
  have hpath (V : Store) : s.path.formula.Holds V ↔ s.path.formula.truth V = true :=
    Expr.holds_iff_truth hd.overVars.formula
  constructor
  · rintro ⟨owner', howner', V, hVo, hVs, hr⟩
    cases howner.symm.trans howner'
    exact ⟨owner, howner, V, (ho.holds_iff hA).1 hVo, (hpath V).1 hVs, hr⟩
  · rintro ⟨owner', howner', V, hVo, hVs, hr⟩
    cases howner.symm.trans howner'
    exact ⟨owner, howner, V, (ho.holds_iff hA).2 hVo, (hpath V).2 hVs, hr⟩

/-- What a valid state stands for is what it denotes, told by the variables of the program. -/
theorem State.Valid.denotes_iff (hA : A.WellFormed) (harena : arena.Valid A) {s : State}
    {l : Location} (hs : s.Valid A arena l) {σ : Store} :
    s.Denotes (· ∈ A.vars) arena σ ↔ s.StandsFor A arena σ := by
  cases s with
  | top | bottom => cases hs
  | inner s => exact hs.1.segment.denotes_iff hA harena
  | abstraction id =>
    refine exists_congr fun s => and_congr_right fun hget => ?_
    have hvalid := harena.state _ _ hget
    constructor
    · rintro ⟨V, hV, hr⟩
      rw [← Expr.truth_indexed hvalid.formula.vars hr]
      exact (hvalid.holds_iff hA).1 hV
    · intro hσ
      have hr := Env.reads_spread hA.vocabulary.toPlain σ s.ssa
      refine ⟨σ.spread, (hvalid.holds_iff hA).2 ?_, hr⟩
      rw [AbstractionState.formula, Expr.truth_indexed hvalid.formula.vars hr]
      exact hσ

end Denotes

/-! ## Growing arenas -/

section Growing

variable {arena arena' : Arena}

theorem AbstractionState.Valid.mono {s : AbstractionState} (hs : s.Valid A arena)
    (h : arena.Extends arena') : s.Valid A arena' :=
  ⟨hs.formula, hs.initial, fun q hq => by
    obtain ⟨t, ht, hd⟩ := hs.block q hq
    exact ⟨t, h q t ht, hd⟩⟩

theorem Segment.Valid.mono {s : Segment} (hs : s.Valid A arena) (h : arena.Extends arena') :
    s.Valid A arena' := by
  obtain ⟨owner, howner, hd⟩ := hs
  exact ⟨owner, h _ _ howner, hd⟩

theorem Inner.Valid.mono {s : Inner} (hs : s.Valid A arena) (h : arena.Extends arena') :
    s.Valid A arena' :=
  ⟨hs.segment.mono h, fun a b hab => by
    obtain ⟨ha, hb, hrest⟩ := hs.inputs a b hab
    exact ⟨ha.mono h, hb.mono h, hrest⟩⟩

/-- A valid state stays so when abstraction states are added. -/
theorem State.Valid.mono {s : State} {l : Location} (hs : s.Valid A arena l)
    (h : arena.Extends arena') : s.Valid A arena' l := by
  cases s with
  | top | bottom => exact hs
  | abstraction id =>
    obtain ⟨a, ha, hl⟩ := hs
    exact ⟨a, h _ _ ha, hl⟩
  | inner s => exact ⟨hs.1.mono h, hs.2⟩

theorem Segment.StandsFor.mono {s : Segment} {σ : Store} (hs : s.StandsFor A arena σ)
    (h : arena.Extends arena') : s.StandsFor A arena' σ := by
  obtain ⟨owner, howner, hV⟩ := hs
  exact ⟨owner, h _ _ howner, hV⟩

/-- A state stands for the same stores when abstraction states are added. -/
theorem State.StandsFor.mono {s : State} {σ : Store} (hs : s.StandsFor A arena σ)
    (h : arena.Extends arena') : s.StandsFor A arena' σ := by
  cases s with
  | top | bottom => exact hs
  | abstraction id =>
    obtain ⟨a, ha, hσ⟩ := hs
    exact ⟨a, h _ _ ha, hσ⟩
  | inner s => exact Segment.StandsFor.mono hs h

/-- A valid state stands for the same stores when the arena grows. -/
theorem State.Valid.standsFor_iff {s : State} {l : Location} (hs : s.Valid A arena l)
    (h : arena.Extends arena') {σ : Store} :
    s.StandsFor A arena' σ ↔ s.StandsFor A arena σ := by
  refine ⟨fun hσ => ?_, fun hσ => hσ.mono h⟩
  cases s with
  | top | bottom => cases hs
  | abstraction id =>
    obtain ⟨a, ha, -⟩ := hs
    obtain ⟨b, hb, hσ⟩ := hσ
    cases (h _ _ ha).symm.trans hb
    exact ⟨a, ha, hσ⟩
  | inner s =>
    obtain ⟨owner, howner, -⟩ := hs.1.segment
    obtain ⟨owner', howner', hV⟩ := hσ
    cases (h _ _ howner).symm.trans howner'
    exact ⟨owner, howner, hV⟩

end Growing

/-- Adding a state keeps the arena valid. -/
theorem Arena.Valid.allocate {arena : Arena} (h : arena.Valid A) {l : Location} {e : Expr}
    {block : PathFormula} {previous : Option AbstractionId}
    (hs : (⟨⟨arena.size⟩, l, e, block, previous⟩ : AbstractionState).Valid A arena) :
    (arena.allocate l e block previous).2.Valid A := by
  have hext := arena.extends_allocate l e block previous
  exact ⟨Arena.forall_allocate h.id rfl,
    Arena.forall_allocate (fun i s hi => (h.state i s hi).mono hext) (hs.mono hext)⟩

/-! ## Valid analyses -/

/-- Tracked predicates are formulas over the program. -/
def Precision.Valid (A : Automaton) (p : Precision) : Prop :=
  ∀ l, ∀ q ∈ p.setAt l, q.expr.IsFormula (· ∈ A.vars)

/-- What is kept is what would be computed anew. -/
structure Cache.Valid (A : Automaton) (arena : Arena) (c : Cache) : Prop extends c.Coherent A where
  initial : ∀ l id, c.initial[l]? = some id →
    ∃ s, arena.get? id = some s ∧ s.location = l ∧ s.abstraction = .bool true

/-- What holds of an analysis between its operations. -/
structure Analysis.Valid (A : Automaton) (a : Analysis) : Prop where
  rest : a.solver.scopes = [[]]
  arena : a.arena.Valid A
  cache : a.cache.Valid A a.arena
  precision : a.precision.Valid A

/-- The answers that the solver has given are correct. -/
def Analysis.Truthful (a : Analysis) : Prop := Cegar.Truthful a.solver.transcript

/-- A later analysis. -/
structure Analysis.Advances (A : Automaton) (a a' : Analysis) : Prop where
  valid : a'.Valid A
  arena : a.arena.Extends a'.arena
  transcript : a.solver.transcript <:+ a'.solver.transcript

namespace Analysis

variable {a a' : Analysis}

theorem Advances.refl (h : a.Valid A) : a.Advances A a := ⟨h, .refl _, List.suffix_refl _⟩

theorem Advances.trans {a'' : Analysis} (h : a.Advances A a') (h' : a'.Advances A a'') :
    a.Advances A a'' :=
  ⟨h'.valid, h.arena.trans h'.arena, h.transcript.trans h'.transcript⟩

/-- If all answers so far are correct, those before are. -/
theorem Advances.truthful (h : a.Advances A a') (ht : a'.Truthful) : a.Truthful :=
  ht.of_suffix h.transcript

/-- The solver was asked, states were added, and what is kept for later has changed. -/
theorem Advances.of_update (ha : a.Valid A) {solver : Solver} {new : List Exchange}
    (hsolver : SolverM.Rests a.solver new solver) {arena : Arena} (harena : arena.Valid A)
    (hext : a.arena.Extends arena) {cache : Cache} (hcache : cache.Coherent A)
    (hinitial : cache.initial = a.cache.initial) {statistics : Statistics} :
    a.Advances A { a with solver := solver, arena := arena, cache := cache,
                          statistics := statistics } := by
  refine ⟨⟨hsolver.scopes, harena, ⟨hcache, fun l id h => ?_⟩, ha.precision⟩, hext, hsolver.suffix⟩
  obtain ⟨s, hs, hrest⟩ := ha.cache.initial l id (hinitial ▸ h)
  exact ⟨s, hext _ _ hs, hrest⟩

/-- A question leaves all but the solver alone. -/
theorem consult_ok {α : Type} {act : SolverM α} {R Q : α → Prop} (hact : SolverM.Asks act R Q)
    (ha : a.Valid A) {x : α} (h : consult act a = .ok (x, a')) :
    a.Advances A a' ∧ a'.arena = a.arena ∧ R x ∧ (a'.Truthful → Q x) := by
  obtain ⟨solver, hsolver, rfl⟩ := consult_cases h
  obtain ⟨new, hrest, hR, hQ⟩ := hact a.solver x solver ha.rest hsolver
  refine ⟨⟨⟨hrest.scopes, ha.arena, ha.cache, ha.precision⟩, .refl _, hrest.suffix⟩, rfl, hR,
    fun ht => hQ ?_⟩
  rw [Truthful, hrest.transcript] at ht
  exact ht.of_append.1

/-- The initial state at the entry: nothing is known there. -/
theorem initialState_ok (ha : a.Valid A) {s : State}
    (h : initialState A.entry a = .ok (s, a')) :
    a.Advances A a' ∧ ∃ id t, s = .abstraction id ∧ a'.arena.get? id = some t ∧
      t.location = A.entry ∧ t.abstraction = .bool true := by
  obtain ⟨id, hid, rfl, rfl⟩ | ⟨-, rfl, rfl⟩ := initialState_cases h
  · obtain ⟨t, ht, hl, he⟩ := ha.cache.initial _ _ hid
    exact ⟨.refl ha, id, t, rfl, ht, hl, he⟩
  · have hvalid : (⟨⟨a.arena.size⟩, A.entry, .bool true, .empty .empty, none⟩ :
        AbstractionState).Valid A a.arena :=
      ⟨.const true, fun _ => ⟨rfl, rfl, rfl⟩, fun q hq => by cases hq⟩
    have hext := a.arena.extends_allocate A.entry (.bool true) (.empty .empty) none
    have hget := Arena.get?_allocate_self a.arena A.entry (.bool true) (.empty .empty) none
    refine ⟨⟨⟨ha.rest, ha.arena.allocate hvalid, ⟨⟨ha.cache.paths, ha.cache.merges⟩,
      fun k i hi => ?_⟩, ha.precision⟩, hext, List.suffix_refl _⟩, _, _, rfl, hget, rfl, rfl⟩
    rw [Std.ExtTreeMap.getElem?_insert] at hi
    split at hi
    · next heq =>
      cases Std.LawfulEqOrd.compare_eq_iff_eq.1 heq
      cases hi
      exact ⟨_, hget, rfl, rfl⟩
    · obtain ⟨s, hs, hrest⟩ := ha.cache.initial k i hi
      exact ⟨s, hext _ _ hs, hrest⟩

/-- A new analysis is valid, and the solver has not been asked. -/
theorem valid_new {options : Options} (h : Analysis.new options = .ok a) :
    a.Valid A ∧ a.solver.transcript = [] := by
  obtain ⟨solver, hsolver, h⟩ := except_bind_ok.1 h
  cases h
  obtain ⟨range, -, hs⟩ := except_bind_ok.1 hsolver
  cases hs
  refine ⟨⟨rfl, ⟨fun i s h => ?_, fun i s h => ?_⟩, ⟨.empty, ?_⟩, ?_⟩, rfl⟩
  · simp [Arena.get?, Arena.empty] at h
  · simp [Arena.get?, Arena.empty] at h
  · intro l id h
    simp [Cache.empty] at h
  · intro l q hq
    simp [Precision.setAt, Precision.empty] at hq

end Analysis

end Cegar

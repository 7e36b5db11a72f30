import Cegar.Proofs.Exploration.Trails
import Cegar.Proofs.Strength

/-!
# Going along a path once more

The edges of a path through the graph can be taken once more, with another precision and without
merging. Blocks are completed at the same nodes then, and each of them can do no more than the block
on the path, because nothing was merged into it. With conclusive answers the new abstractions are at
least as strong as the Cartesian abstractions of the blocks on the path.

* **`PathFormula.Refines`**: one block can do no more than another one;
* **`Precision.Refutes`**: the Cartesian abstractions along some blocks come to nothing;
* **`Analysis.successor_rehearses`**: one edge keeps step with the path.
-/

namespace Cegar

variable {P : Var → Prop} {σ τ : Store}

/-! ## Blocks as relations -/

namespace PathFormula

variable {m m' : SsaMap} {p p' q q' : PathFormula}

/-- A block that starts with the numbering `m` can be executed from one store to another, as far as
the variables in `P` go. -/
def Relates (P : Var → Prop) (m : SsaMap) (p : PathFormula) (σ τ : Store) : Prop :=
  ∃ V : Store, p.formula.Holds V ∧ Env.Reads P V m σ ∧ Env.Reads P V p.ssa τ

/-- The first block can do no more than the second one. -/
def Refines (P : Var → Prop) (m' : SsaMap) (p' : PathFormula) (m : SsaMap) (p : PathFormula) :
    Prop :=
  ∀ σ τ, p'.Relates P m' σ τ → p.Relates P m σ τ

/-- Blocks without edges do the same, whatever the numbering is. -/
theorem refines_empty (hP : Plain P) : (empty m').Refines P m' m (empty m) := by
  rintro σ τ ⟨V, -, hσ, hτ⟩
  have hsame (v : Var) (hv : P v) : τ.val v = σ.val v := (hτ v hv).symm.trans (hσ v hv)
  refine ⟨σ.spread, Expr.holds_bool.2 rfl, Env.reads_spread hP σ m, fun v hv => ?_⟩
  exact (Env.reads_spread hP σ m v hv).trans (hsame v hv).symm

/-- One more edge keeps a block below the other one. -/
theorem Refines.extend (hP : Vocabulary P) {s : Statement} (hs : s.Over P) (hp : p.Over P)
    (hm : m ≤ p.ssa) (hp' : p'.Over P) (h : p'.Refines P m' m p) {l : Location} {e : EdgeId}
    (hq : p.extend l e s = .ok (.ok q)) (hq' : p'.extend l e s = .ok (.ok q')) :
    q'.Refines P m' m q := by
  rintro σ τ ⟨V, hV, hσ, hτ⟩
  -- the last step of the first block
  rw [Expr.holds_iff_truth (hp'.extend hP hs hq').formula] at hV
  obtain ⟨hV', τ', hstep, hτ'⟩ := extend_backward hP hs hq' hV (Env.reads_after V p'.ssa)
  -- is taken by the second one
  obtain ⟨W, hW, hWσ, hWτ⟩ :=
    h σ (V.after p'.ssa) ⟨V, (Expr.holds_iff_truth hp'.formula).2 hV', hσ, Env.reads_after V _⟩
  obtain ⟨W', hagrees, hW', hWτ'⟩ := extend_forward hP.toPlain hp.seen hs hq
    ((Expr.holds_iff_truth hp.formula).1 hW) hWτ hstep
  have hsame : W.AgreesUpTo m W' := fun v hv => hagrees v (hv.mono hm)
  refine ⟨W', (Expr.holds_iff_truth (hp.extend hP hs hq).formula).2 hW',
    hsame.reads hP.unindexed hWσ, fun v hv => ?_⟩
  rw [hWτ' v hv, ← hτ' v hv, hτ v hv]

/-- What the left block can do, the disjunction can. -/
theorem relates_or_left (hP : ∀ v, P v → v.index = none) (hp : p.Bounded) (hm : m ≤ p.ssa)
    (h : p.Relates P m σ τ) : (p.or q).Relates P m σ τ := by
  obtain ⟨V, hV, hσ, hτ⟩ := h
  obtain ⟨V', hagrees, hV', hτ'⟩ := leadsTo_or_left (q := q) hP hp hm ⟨V, .refl V m, hV, hτ⟩
  exact ⟨V', hV', hagrees.reads hP hσ, hτ'⟩

/-- What the right block can do, the disjunction can. -/
theorem relates_or_right (hP : ∀ v, P v → v.index = none) (hq : q.Bounded) (hm : m ≤ q.ssa)
    (h : q.Relates P m σ τ) : (p.or q).Relates P m σ τ := by
  obtain ⟨V, hV, hσ, hτ⟩ := h
  obtain ⟨V', hagrees, hV', hτ'⟩ := leadsTo_or_right (p := p) hP hq hm ⟨V, .refl V m, hV, hτ⟩
  exact ⟨V', hV', hagrees.reads hP hσ, hτ'⟩

/-! ## Statements without meaning -/

/-- Writing to a variable never fails. -/
theorem write_no_error {v : Var} {value : Option Expr} {x : Error} :
    p.write (.var v) value ≠ .ok (.error x) := by
  intro h
  rcases attempt_bind_error.1 h with ⟨w, -, h⟩ | h
  · rcases attempt_bind_error.1 h with ⟨_, -, h⟩ | h
    · cases value <;> cases h
    · exact absurd h attempt_lift_error
  · cases h

/-- Whether bindings can be written depends on what they are written to only. -/
theorem bind_no_error {bs : List (Expr × Expr)} {read read' : SsaMap} {x : Error}
    (h : bind read p bs = .ok (.ok q)) : bind read' p' bs ≠ .ok (.error x) := by
  induction bs generalizing p p' with
  | nil => exact nofun
  | cons b bs ih =>
    obtain ⟨v, _, hv, -, h⟩ := bind_cons_ok h
    intro herror
    rcases attempt_bind_error.1 herror with ⟨_, -, herror⟩ | herror
    · exact ih h herror
    · rw [hv] at herror
      exact write_no_error herror

/-- A statement that can be appended to one block is no error after another one. -/
theorem extend_no_error {s : Statement} {l : Location} {e : EdgeId} {x : Error}
    (h : p.extend l e s = .ok (.ok q)) : p'.extend l e s ≠ .ok (.error x) := by
  obtain ⟨bs, hbs, hq⟩ | ⟨v, rfl, -⟩ | ⟨condition, truth, rfl, -⟩ := extend_ok h
  · rw [extend_of_bindings? hbs]
    exact bind_no_error hq
  · exact fun herror => write_no_error (show p'.write (.var v) none = _ from herror)
  · intro herror
    rcases attempt_bind_error.1 herror with ⟨_, -, herror⟩ | herror
    · cases truth <;> cases herror
    · exact absurd herror attempt_lift_error

end PathFormula

/-- What others were merged with can do no more than the result. -/
theorem Segment.Part.refines {A : Automaton} {arena : Arena} (hA : A.Within fun _ => True)
    (hP : ∀ v, P v → v.index = none) {s t : Segment} (h : s.Part A arena t)
    {owner : AbstractionState} (howner : arena.get? s.owner = some owner) :
    s.path.Refines P owner.ssa owner.ssa t.path := by
  -- a legal segment of the block starts with the numbering of the owner
  have hlegal {u : Segment} (hpart : s.Part A arena u) (hu : u.Legal A arena) :
      u.path.Bounded ∧ owner.ssa ≤ u.path.ssa := by
    obtain ⟨owner', howner', hgrown⟩ := hu
    rw [hpart.owner, howner] at howner'
    cases howner'
    exact ⟨(hgrown.seen hA).bounded, hgrown.le⟩
  induction h with
  | self => exact fun _ _ => id
  | left hpart hu ih =>
    obtain ⟨hbounded, hle⟩ := hlegal hpart hu
    exact fun σ τ hrelates => PathFormula.relates_or_left hP hbounded hle (ih σ τ hrelates)
  | right hpart hv _ _ ih =>
    obtain ⟨hbounded, hle⟩ := hlegal hpart hv
    exact fun σ τ hrelates => PathFormula.relates_or_right hP hbounded hle (ih σ τ hrelates)

/-! ## Cartesian abstractions of blocks -/

/-- The block before the state cannot be executed from the given stores. -/
def AbstractionState.Blocked (A : Automaton) (m : SsaMap) (before : Store → Prop)
    (s : AbstractionState) : Prop :=
  ∀ σ τ, before σ → ¬ s.block.Relates (· ∈ A.vars) m σ τ

namespace Precision

/-- The stores in which all tracked predicates have the truth values that they have whenever the
block before the state is executed from the given stores. -/
def Admits (A : Automaton) (precision : Precision) (m : SsaMap) (before : Store → Prop)
    (s : AbstractionState) (τ : Store) : Prop :=
  ∀ q, precision.tracks s.location q = true → ∀ b,
    (∀ σ τ', before σ → s.block.Relates (· ∈ A.vars) m σ τ' → q.expr.truth τ' = b) →
      q.expr.truth τ = b

/-- Block after block, each taken from what the predicates tell about the one before it, one of the
blocks cannot be executed. -/
def Refutes (A : Automaton) (precision : Precision) :
    SsaMap → (Store → Prop) → List AbstractionState → Prop
  | _, _, [] => False
  | m, before, s :: ss =>
    s.Blocked A m before ∨ precision.Refutes A s.ssa (precision.Admits A m before s) ss

end Precision

/-! ## Where blocks end -/

/-- The number of edges since the last abstraction state. -/
def State.size : State → Nat
  | .inner s => s.size
  | .top | .bottom | .abstraction _ => 0

/-- One edge leads from the first state to the second one, as far as the size of the block goes. -/
def State.Counts (s t : State) : Prop := t.isAbstraction = false → t.size = s.size + 1

instance (s t : State) : Decidable (s.Counts t) := inferInstanceAs (Decidable (_ → _))

/-- The size of a state is the number of edges of its block. -/
theorem State.InBlock.size_eq {arena : Arena} {s : State} {owner : AbstractionState}
    {path : PathFormula} {size : Nat} (h : s.InBlock arena owner path size) : s.size = size := by
  cases h <;> rfl

/-- Where nothing was merged, the size is counted. -/
theorem State.Succeeds.counts {p : Problem} {policy : Policy} {arena : Arena} {s t : State}
    {e : EdgeId} (h : s.Succeeds p policy arena e t) : s.Counts t := by
  cases h with
  | inner _ hblock => exact fun _ => congrArg (· + 1) hblock.size_eq.symm
  | abstraction => exact nofun

/-! ## One edge -/

/-- The statements of a well-formed program have no indices. -/
theorem Automaton.WellFormed.unindexed {A : Automaton} (hA : A.WellFormed) :
    A.Within fun _ => True where
  vars _ hedge e he v hv :=
    ⟨hA.vocabulary.unindexed v ((hA.overVars hedge).vars e he v hv), trivial⟩
  branch _ _ _ _ _ _ := trivial

/-- A state that keeps step with one on the path: its block can do no more, and starts from stores
in `before` only. -/
inductive State.Rehearses (p : Problem) (arena arena' : Arena) (owner : AbstractionState)
    (before : Store → Prop) (s s' : State) : Prop
  | intro {owner' : AbstractionState} {path path' : PathFormula} {size size' : Nat}
    (hblock : s.InBlock arena owner path size) (hblock' : s'.InBlock arena' owner' path' size')
    (hbefore : ∀ σ, owner'.abstraction.truth σ = true → before σ)
    (hrefines : path'.Refines (· ∈ p.automaton.vars) owner'.ssa owner.ssa path)
    (hsize : p.options.blockSize = 0 ∨ size' = size)

/-- Two abstraction states keep step if the second one knows as much. -/
theorem State.rehearses_start {p : Problem} (hA : p.automaton.WellFormed) {arena arena' : Arena}
    {id id' : AbstractionId} {s s' : AbstractionState} (hget : arena.get? id = some s)
    (hget' : arena'.get? id' = some s') {before : Store → Prop}
    (hbefore : ∀ σ, s'.abstraction.truth σ = true → before σ) :
    Rehearses p arena arena' s before (.abstraction id) (.abstraction id') :=
  .intro (.start hget) (.start hget') hbefore (PathFormula.refines_empty hA.vocabulary.toPlain)
    (.inr rfl)

/-- A block goes on: it keeps step with whatever the block on the path was merged into. -/
theorem State.rehearses_inner {p : Problem} (hA : p.automaton.WellFormed) {arena arena' : Arena}
    {owner owner' : AbstractionState} (howner : arena.get? owner.id = some owner)
    (howner' : arena'.get? owner'.id = some owner') {before : Store → Prop}
    (hbefore : ∀ σ, owner'.abstraction.truth σ = true → before σ) {q q' : PathFormula}
    (hrefines : q'.Refines (· ∈ p.automaton.vars) owner'.ssa owner.ssa q) {l l' : Location}
    {size size' : Nat} {w : Inner}
    (hpart : Segment.Part p.automaton arena ⟨owner.id, l, size, q⟩ w.toSegment)
    (hsize : p.options.blockSize = 0 ∨ size' = w.size) :
    Rehearses p arena arena' owner before (.inner w)
      (.inner ⟨⟨owner'.id, l', size', q'⟩, none⟩) := by
  refine .intro (.inside (hpart.owner ▸ howner)) (.inside howner') hbefore (fun σ τ hrelates => ?_)
    hsize
  exact hpart.refines hA.unindexed hA.vocabulary.unindexed howner σ τ (hrefines σ τ hrelates)

/-- The numbering goes on from the start of the block. -/
theorem State.InBlock.le {A : Automaton} {arena : Arena} {s : State} {l : Location}
    (hs : s.Valid A arena l) {owner : AbstractionState} {path : PathFormula} {size : Nat}
    (h : s.InBlock arena owner path size) : owner.ssa ≤ path.ssa := by
  cases h with
  | start => exact SsaMap.le_refl _
  | inside hget =>
    obtain ⟨owner', hget', hdescribes⟩ := hs.1.segment
    cases hget.symm.trans hget'
    exact hdescribes.le

/-- The owner of a block has the number of the owner. -/
theorem State.InBlock.get?_owner {A : Automaton} {arena : Arena} (harena : arena.Valid A)
    {s : State} {owner : AbstractionState} {path : PathFormula} {size : Nat}
    (h : s.InBlock arena owner path size) : arena.get? owner.id = some owner := by
  cases h with
  | start hget | inside hget =>
    rw [harena.id _ _ hget]
    exact hget

/-- What a successor has to do with the block of the state. -/
theorem State.Succeeds.ofBlock {p : Problem} {policy : Policy} {arena : Arena} {s t : State}
    {e : EdgeId} (h : s.Succeeds p policy arena e t) {owner : AbstractionState} {path : PathFormula}
    {size : Nat} (hblock : s.InBlock arena owner path size) :
    ∃ edge q, p.automaton.edges[e.idx]? = some edge ∧
      path.extend edge.source e edge.statement = .ok (.ok q) ∧
      policy.Completes p.automaton edge.target size t.isAbstraction ∧
      (t = .inner ⟨⟨owner.id, edge.target, size + 1, q⟩, none⟩ ∨
        ∃ id u, t = .abstraction id ∧ arena.get? id = some u ∧ u.block = q ∧
          u.location = edge.target ∧ u.previous = some owner.id) := by
  cases h with
  | inner hedge hblock' hextend hpolicy =>
    obtain ⟨rfl, rfl, rfl⟩ := hblock.unique hblock'
    exact ⟨_, _, hedge, hextend, hpolicy, .inl rfl⟩
  | abstraction hedge hblock' hextend hpolicy hget hlocation hprevious =>
    obtain ⟨rfl, rfl, rfl⟩ := hblock.unique hblock'
    exact ⟨_, _, hedge, hextend, hpolicy, .inr ⟨_, _, rfl, hget, rfl, hlocation, hprevious⟩⟩

namespace Analysis

variable {p : Problem} {precision : Precision} {a a' : Analysis} {arena : Arena}

/-- Successors only add to the transcript. -/
theorem successor_rests (hrest : a.solver.scopes = [[]]) (hc : a.cache.Coherent p.automaton)
    {s : State} {e : EdgeId} {r : Except Error (Option State)}
    (h : successor p precision s e a = .ok (r, a')) :
    (∃ new, SolverM.Rests a.solver new a'.solver) ∧ a'.cache.Coherent p.automaton := by
  have hextend {owner : AbstractionState} {path : PathFormula} {size : Nat}
      (h : extendBlock p precision owner path size e a = .ok (r, a')) :
      (∃ new, SolverM.Rests a.solver new a'.solver) ∧ a'.cache.Coherent p.automaton := by
    obtain ⟨edge, -, cache, statistics, hc', -, ⟨x, -, -, rfl⟩ |
      ⟨q, s, solver, arena, -, -, houtcome, rfl⟩⟩ := extendBlock_cases hc h
    · exact ⟨⟨[], .refl hrest⟩, hc'⟩
    · refine ⟨?_, hc'⟩
      cases houtcome with
      | infeasible asked | completed asked =>
        obtain ⟨new, hrests, -⟩ := abstractBlock_asks _ _ _ _ _ _ _ _ hrest asked
        exact ⟨new, hrests⟩
      | pruned asked =>
        obtain ⟨new, hrests, -⟩ := blockInfeasible_asks _ _ _ _ _ _ hrest asked
        exact ⟨new, hrests⟩
      | carriedOn asked =>
        rcases asked with rfl | asked
        · exact ⟨[], .refl hrest⟩
        · obtain ⟨new, hrests, -⟩ := blockInfeasible_asks _ _ _ _ _ _ hrest asked
          exact ⟨new, hrests⟩
  obtain ⟨-, -, rfl⟩ | ⟨-, -, rfl⟩ | ⟨id, owner, -, -, h⟩ | ⟨t, owner, -, -, h⟩ := successor_cases h
  · exact ⟨⟨[], .refl hrest⟩, hc⟩
  · exact ⟨⟨[], .refl hrest⟩, hc⟩
  · exact hextend h
  · exact hextend h

/-- With conclusive answers, a block that can do no more than the block before an abstraction state,
and starts from stores in `before` only, has an abstraction that admits no more. -/
theorem abstractBlock_admits (hprecision : precision.Valid p.automaton)
    (kind : AbstractionKind) {s owner' : AbstractionState} {m : SsaMap} {before : Store → Prop}
    (howner' : owner'.abstraction.IsFormula (· ∈ p.automaton.vars))
    (hbefore : ∀ σ, owner'.abstraction.truth σ = true → before σ) {q' : PathFormula}
    (hq' : q'.Over (· ∈ p.automaton.vars))
    (hrefines : q'.Refines (· ∈ p.automaton.vars) owner'.ssa m s.block) :
    SolverM.Settles (abstractBlock kind owner'.abstraction owner'.ssa q'
      (precision.predicatesAt s.location)) fun r =>
        (s.Blocked p.automaton m before → r = .bool false) ∧
        ∀ τ, r.truth τ = true → precision.Admits p.automaton m before s τ := by
  -- a model of the new block is an execution of the block on the path
  have hmodel {V : Store} (hV : (blockFormula owner'.abstraction owner'.ssa q').truth V = true) :
      before (V.after owner'.ssa) ∧
        s.block.Relates (· ∈ p.automaton.vars) m (V.after owner'.ssa) (V.after q'.ssa) := by
    rw [blockFormula, Expr.truth_and, Bool.and_eq_true,
      Expr.truth_indexed howner'.vars (Env.reads_after V owner'.ssa)] at hV
    exact ⟨hbefore _ hV.1, hrefines _ _ ⟨V, (Expr.holds_iff_truth hq'.formula).2 hV.2,
      Env.reads_after V _, Env.reads_after V _⟩⟩
  refine (abstractBlock_settles kind howner'.sorted howner'.bool owner'.ssa hq'.sorted
    (hprecision.wellSorted s.location)).mono fun r hr => ⟨fun hblocked => hr.1 fun V => ?_, ?_⟩
  · refine Bool.eq_false_iff.2 fun hV => ?_
    exact hblocked _ _ (hmodel hV).1 (hmodel hV).2
  · intro τ hτ q hq b hb
    have hmem : q ∈ precision.setAt s.location := Std.ExtTreeSet.contains_iff_mem.1 hq
    refine hr.2 q (Std.ExtTreeSet.mem_toList.2 hmem) b (fun V hV => ?_) τ hτ
    rw [Expr.truth_indexed (hprecision s.location q hmem).vars (Env.reads_after V q'.ssa)]
    exact hb _ _ (hmodel hV).1 (hmodel hV).2

/-- The edge that leads from one state of a path to the next is taken once more, with conclusive
answers. If there is a successor, it keeps step with the next state of the path. That is an
abstraction state only if its block can be executed from the stores before it. -/
theorem successor_rehearses (hA : p.automaton.WellFormed) (harena : arena.Valid p.automaton)
    (ha : a.Valid p.automaton) (hprecision : precision.Valid p.automaton)
    (hpolicy : precision.policy = p.options.toPolicy) {u v t s' : State} {l l' : Location}
    (hu : u.Valid p.automaton arena l) (hs' : s'.Valid p.automaton a.arena l')
    {owner : AbstractionState} {before : Store → Prop}
    (hrehearses : u.Rehearses p arena a.arena owner before s') {e : EdgeId}
    (hsucceeds : u.Succeeds p p.options.toPolicy arena e t) (hpart : t.Part p.automaton arena v)
    (hcounts : p.options.blockSize = 0 ∨ u.Counts v) {r : Except Error (Option State)}
    (h : successor p precision s' e a = .ok (r, a')) {new : List Exchange}
    (hnew : a'.solver.transcript = new ++ a.solver.transcript) (hconclusive : Conclusive new) :
    ∃ o, r = .ok o ∧ ∀ t', o = some t' →
      (v.isAbstraction = false ∧ v.Rehearses p arena a'.arena owner before t') ∨
      ∃ id s, v = .abstraction id ∧ arena.get? id = some s ∧
        ¬ s.Blocked p.automaton owner.ssa before ∧
        v.Rehearses p arena a'.arena s (precision.Admits p.automaton owner.ssa before s) t' := by
  obtain ⟨hblock, hblock', hbefore, hrefines, hsize⟩ := hrehearses
  rename_i owner' path path' size size'
  have hextendBlock := successor_inBlock hblock' h
  have hover := hblock.over harena hu
  have hover' := hblock'.over ha.arena hs'
  obtain ⟨edge, q, hedge, hq, hcompletes, ht⟩ := hsucceeds.ofBlock hblock
  have hstatement := hA.overVars (Automaton.mem_edges_of_getElem? hedge)
  obtain ⟨edge', hedge', cache, statistics, -, -, ⟨x, herror, -⟩ |
    ⟨q', o, solver, arena', hq', rfl, houtcome, rfl⟩⟩ :=
      extendBlock_cases ha.cache.toCoherent hextendBlock
  · -- the path was extended by the edge, so its statement has a meaning
    cases hedge.symm.trans hedge'
    exact absurd herror (PathFormula.extend_no_error hq)
  cases hedge.symm.trans hedge'
  refine ⟨o, rfl, fun t' ht' => ?_⟩
  subst ht'
  have hrefines' : q'.Refines (· ∈ p.automaton.vars) owner'.ssa owner.ssa q :=
    hrefines.extend hA.vocabulary hstatement hover (hblock.le hu) hover' hq hq'
  -- blocks end with the same edges
  obtain ⟨edge'', q'', b, hedge'', hq'', hcompletes', hinner, habstraction⟩ :=
    extendBlock_ok_kind ha.cache.toCoherent hextendBlock
  cases hedge.symm.trans hedge''
  cases hq'.symm.trans hq''
  rw [hpolicy] at hcompletes'
  have hb : b = t.isAbstraction := hcompletes.unique hcompletes' hsize
  rcases ht with rfl | ⟨id, s, rfl, hget, rfl, hlocation, -⟩
  · -- the block goes on
    cases v with
    | top | bottom | abstraction => exact hpart.elim
    | inner w =>
      obtain rfl := hinner hb t' rfl
      have hsize' : p.options.blockSize = 0 ∨ size' + 1 = w.size := by
        rcases hcounts with hzero | hcounts
        · exact .inl hzero
        · have hw : w.size = u.size + 1 := hcounts rfl
          rw [hw, hblock.size_eq]
          exact hsize.imp_right (congrArg (· + 1))
      refine .inl ⟨rfl, ?_⟩
      cases houtcome with
      | carriedOn =>
        exact State.rehearses_inner hA (hblock.get?_owner harena) (hblock'.get?_owner ha.arena)
          hbefore hrefines' hpart hsize'
  · -- the block is complete
    cases v with
    | top | bottom | inner => exact hpart.elim
    | abstraction id' =>
      cases hpart
      obtain ⟨abstraction, solver', hasked, ⟨-, hnone⟩ | ⟨hne, hsome, harena'⟩⟩ := habstraction hb
      · cases hnone
      · cases hsome
        cases houtcome with
        | @completed abstraction' _ asked =>
          rw [asked] at hasked
          cases hasked
          have hsettles := abstractBlock_admits hprecision p.options.abstraction
            (ha.arena.state _ _ (hblock'.get?_owner ha.arena)).formula hbefore
            (hover'.extend hA.vocabulary hstatement hq') hrefines'
          rw [hlocation] at hsettles
          obtain ⟨new', hrests, hsettled⟩ := hsettles _ _ _ ha.rest asked
          obtain rfl : new' = new :=
            List.append_cancel_right (hrests.transcript.symm.trans hnew)
          obtain ⟨hblocked, hadmits⟩ := hsettled hconclusive
          exact .inr ⟨id, s, rfl, hget, fun hs => hne (hblocked hs),
            State.rehearses_start hA hget (Arena.get?_allocate_self _ _ _ _ _) hadmits⟩

end Analysis

end Cegar

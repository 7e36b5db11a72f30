import Cegar.Proofs.Abstraction
import Cegar.Proofs.Analysis.Operations
import Cegar.Proofs.Disjunction

/-!
# The stores that states denote

A state denotes the stores that are read at its numbering in models of its formula: of its
abstraction, or of the abstraction of its owner and its path formula. Models are those of
evaluation, so that a state denotes something also if predicates that went into it are not
well-sorted. Variables that the program does not have may have any values.

* **`Analysis.Outcome.sound`**: what a block leads to, the state at its end denotes, if the solver
  was right when it was asked about the block;
* **`Inner.denotes_merge`**: the union of two states of one block denotes what the two denote.
-/

namespace Cegar

variable {P K : Var → Prop} {arena : Arena} {σ : Store}

/-- The store is read at the end of the path, in a model of the abstraction and of the path. -/
def AbstractionState.Reaches (P : Var → Prop) (owner : AbstractionState) (path : PathFormula)
    (σ : Store) : Prop :=
  ∃ V, owner.formula.Holds V ∧ path.formula.Holds V ∧ Env.Reads P V path.ssa σ

/-- The stores that the path reaches from the owner. -/
def Segment.Denotes (P : Var → Prop) (arena : Arena) (s : Segment) (σ : Store) : Prop :=
  ∃ owner, arena.get? s.owner = some owner ∧ owner.Reaches P s.path σ

/-- The stores that a state denotes, told by the variables of `P`. -/
def State.Denotes (P : Var → Prop) (arena : Arena) (σ : Store) : State → Prop
  | .top => True
  | .bottom => False
  | .abstraction id => ∃ s, arena.get? id = some s ∧ ∃ V, s.formula.Holds V ∧ Env.Reads P V s.ssa σ
  | .inner s => s.toSegment.Denotes P arena σ

namespace AbstractionState

variable {s : AbstractionState}

/-- The abstraction is about variables as such. -/
def Unindexed (s : AbstractionState) : Prop := ∀ v ∈ s.abstraction.vars, v.index = none

/-- The abstraction speaks about writes that the state has seen. -/
theorem Unindexed.holds_iff (hs : s.Unindexed) {V V' : Store} {m : SsaMap} (hle : s.ssa ≤ m)
    (h : V.AgreesUpTo m V') : s.formula.Holds V' ↔ s.formula.Holds V := by
  refine Expr.holds_congr fun v hv => h v ?_
  have hseen := Expr.vars_indexed versioned_true (fun w hw => ⟨hs w hw, trivial⟩) v hv
  exact hseen.2.mono hle

/-- Where a block starts, the stores are those of the abstraction. -/
theorem reaches_fresh : s.Reaches P s.fresh σ ↔ ∃ V, s.formula.Holds V ∧ Env.Reads P V s.ssa σ := by
  simp [Reaches, fresh, PathFormula.empty]

/-- What a path reaches and a statement leads on from, the path with that statement reaches. -/
theorem Reaches.extend (hP : Plain P) (hu : s.Unindexed) {path q : PathFormula}
    (hle : s.ssa ≤ path.ssa) (hseen : path.Seen) (hsorted : path.Sorted) {statement : Statement}
    (hs : statement.Over P) {l : Location} {e : EdgeId}
    (hextend : path.extend l e statement = .ok (.ok q)) {σ' : Store} (hσ : s.Reaches P path σ)
    (hstep : statement.Step σ σ') : s.Reaches P q σ' := by
  obtain ⟨V, hVs, hVp, hr⟩ := hσ
  obtain ⟨V', hagree, hVq, hr'⟩ := PathFormula.extend_forward hP hseen hs hextend
    ((Expr.holds_iff_truth hsorted).1 hVp) hr hstep
  have hsorted' : q.Sorted := hsorted.extend hs.sorted hextend
  exact ⟨V', (hu.holds_iff hle hagree).2 hVs, (Expr.holds_iff_truth hsorted').2 hVq, hr'⟩

end AbstractionState

/-- Whether the state is in the block of one about which nothing is known, with this path. -/
def State.hasPath (arena : Arena) (path : Expr) : State → Bool
  | .inner s => s.path.formula = path &&
    (arena.get? s.owner).any fun owner => owner.formula = .bool true
  | _ => false

/-- A store is denoted if the path holds with each variable as it is in the store. -/
theorem State.denotes_of_hasPath (hP : Plain P) {path : Expr} {s : State}
    (h : s.hasPath arena path = true) (hσ : path.Holds σ.spread) : s.Denotes P arena σ := by
  cases s with
  | top | bottom | abstraction => cases h
  | inner s =>
    obtain ⟨hpath, howner⟩ := Bool.and_eq_true_iff.1 h
    obtain ⟨owner, hget, htrue⟩ := (Option.any_eq_true _ _).1 howner
    have hformula : owner.formula = .bool true := of_decide_eq_true htrue
    refine ⟨owner, hget, σ.spread, ?_, ?_, Env.reads_spread hP σ _⟩
    · rw [hformula]
      exact Expr.holds_bool.2 rfl
    · rw [of_decide_eq_true hpath]
      exact hσ

/-! ## Unions -/

/-- A segment denotes where its path leads from models of the owner's abstraction. -/
theorem Segment.denotes_iff {s : Segment} {owner : AbstractionState}
    (howner : arena.get? s.owner = some owner) (hu : owner.Unindexed) :
    s.Denotes P arena σ ↔
      ∃ W, owner.formula.Holds W ∧ s.path.LeadsTo P owner.ssa W σ := by
  constructor
  · rintro ⟨owner', howner', V, hVo, hVs, hr⟩
    cases howner.symm.trans howner'
    exact ⟨V, hVo, V, .refl V _, hVs, hr⟩
  · rintro ⟨W, hW, V, hagree, hVs, hr⟩
    exact ⟨owner, howner, V, (hu.holds_iff (SsaMap.le_refl _) hagree).2 hW, hVs, hr⟩

namespace Inner

/-- What the segments of one block have to be for their union to be exact. -/
structure Joinable (K : Var → Prop) (arena : Arena) (owner : AbstractionState) (s : Segment) :
    Prop where
  get : arena.get? s.owner = some owner
  fits : s.path.Fits K
  le : owner.ssa ≤ s.path.ssa

/-- The union denotes what the two segments denote, and nothing else. -/
theorem denotes_merge (hP : ∀ v, P v → v.index = none ∧ K v) (hK : OneType K)
    {owner : AbstractionState} (hu : owner.Unindexed) {s t : Segment}
    (hs : Joinable K arena owner s) (ht : Joinable K arena owner t) :
    (merge s t).toSegment.Denotes P arena σ ↔ s.Denotes P arena σ ∨ t.Denotes P arena σ := by
  have hget : arena.get? (merge s t).toSegment.owner = some owner := hs.get
  have hor (W : Store) : (merge s t).path.LeadsTo P owner.ssa W σ ↔
      s.path.LeadsTo P owner.ssa W σ ∨ t.path.LeadsTo P owner.ssa W σ :=
    PathFormula.leadsTo_or hP hK hs.fits ht.fits hs.le ht.le
  rw [Segment.denotes_iff hget hu, Segment.denotes_iff hs.get hu, Segment.denotes_iff ht.get hu,
    ← exists_or]
  exact exists_congr fun W => by rw [hor W, and_or_left]

end Inner

/-! ## Outcomes of a block -/

/-- A test of all members, told by the list of members. -/
theorem VarSet.all_eq (vs : VarSet) (p : Var → Bool) : vs.all p = vs.toList.all p := by
  obtain ⟨⟨⟨t⟩⟩⟩ := vs
  induction t using Quotient.ind with
  | _ t =>
    show t.inner.all (fun v _ => p v) = t.inner.keys.all p
    rw [Std.DTreeMap.Internal.Impl.all_eq_all_toListModel, Std.DTreeMap.Internal.Impl.keys_eq_keys,
      Std.Internal.List.keys_eq_map, List.all_map]
    rfl

namespace Predicate

/-- Predicates are about variables as such. -/
theorem unindexed (q : Predicate) : ∀ v ∈ q.expr.vars, v.index = none := by
  have hall := q.isPredicate.2.2
  rw [VarSet.all_eq, List.all_eq_true] at hall
  exact fun v hv => Option.isNone_iff_eq_none.1 (hall v (Std.ExtTreeSet.mem_toList.2 hv))

/-- A well-sorted predicate is a formula. -/
theorem isFormula {q : Predicate} (h : q.expr.WellSorted) :
    q.expr.IsFormula fun v => v.index = none :=
  ⟨h, q.isPredicate.1, q.unindexed⟩

end Predicate

namespace Analysis

variable {p : Problem} {precision : Precision} {owner : AbstractionState} {l : Location}
  {size : Nat} {q : PathFormula} {a : Analysis} {r : Option State} {solver : Solver}

/-- A state that was added has an abstraction made of predicates; otherwise no state was added. -/
theorem Outcome.arena_cases (hrest : a.solver.scopes = [[]])
    (h : Outcome p precision owner l size q a r solver arena) :
    (arena = a.arena ∧ ∀ s, r = some s → s = .inner ⟨⟨owner.id, l, size, q⟩, none⟩) ∨
    ∃ e, (∀ F, Expr.Closed F → (∀ d ∈ precision.predicatesAt l, F d.expr) → F e) ∧
      arena = (a.arena.allocate l e q (some owner.id)).2 ∧
      r = some (.abstraction ⟨a.arena.size⟩) := by
  cases h with
  | infeasible | pruned => exact .inl ⟨rfl, fun s hs => by cases hs⟩
  | carriedOn => exact .inl ⟨rfl, fun s hs => by cases hs; rfl⟩
  | completed asked =>
    obtain ⟨-, -, hmade, -⟩ := abstractBlock_asks _ _ _ _ _ a.solver _ solver hrest asked
    exact .inr ⟨_, hmade, rfl, rfl⟩

/-- A store at the end of a block is not lost, if the answers that the solver gave about the block
are correct. -/
theorem Outcome.sound (hrest : a.solver.scopes = [[]]) (howner : a.arena.get? owner.id = some owner)
    (h : Outcome p precision owner l size q a r solver arena) :
    ∃ new, SolverM.Rests a.solver new solver ∧ (Truthful new →
      (∀ d ∈ precision.predicatesAt l, d.expr.WellSorted) →
      ∀ P σ, owner.Reaches P q σ → ∃ s, r = some s ∧ s.Denotes P arena σ) := by
  have habstract {e : Expr}
      (asked : abstractBlock p.options.abstraction owner.abstraction owner.ssa q
        (precision.predicatesAt l) a.solver = .ok (e, solver)) :
      ∃ new, SolverM.Rests a.solver new solver ∧ (Truthful new →
        (∀ d ∈ precision.predicatesAt l, d.expr.WellSorted) →
        ∀ V, owner.formula.Holds V → q.formula.Holds V → (e.indexed q.ssa).Holds V) := by
    obtain ⟨new, hrests, hmade, hsound⟩ :=
      abstractBlock_asks _ _ _ _ _ a.solver e solver hrest asked
    refine ⟨new, hrests, fun ht hps V hVo hVq => ?_⟩
    have hps' : ∀ d ∈ precision.predicatesAt l, d.expr.IsFormula fun v => v.index = none :=
      fun d hd => Predicate.isFormula (hps d hd)
    have he : e.IsFormula fun v => v.index = none := hmade _ (Expr.IsFormula.closed _) hps'
    -- read without any index, the model has a store for all variables of the predicates
    have hr : Env.Reads (fun v => v.index = none) V q.ssa (V.after q.ssa) := Env.reads_after V q.ssa
    have htrue := hsound ht _ V _ hps' (holds_blockFormula.2 ⟨hVo, hVq⟩) hr
    rw [← Expr.truth_indexed he.vars hr] at htrue
    have hindexed : (e.indexed q.ssa).IsFormula fun _ => True :=
      ⟨he.sorted.indexed _, by rw [Expr.ty_indexed, he.bool], fun _ _ => trivial⟩
    exact (Expr.holds_iff_truth hindexed).2 htrue
  cases h with
  | infeasible asked =>
    obtain ⟨new, hrests, hsound⟩ := habstract asked
    refine ⟨new, hrests, fun ht hps P σ ⟨V, hVo, hVq, _⟩ => ?_⟩
    have hfalse : (Expr.bool false).Holds V := hsound ht hps V hVo hVq
    simp at hfalse
  | completed asked =>
    obtain ⟨new, hrests, hsound⟩ := habstract asked
    exact ⟨new, hrests, fun ht hps P σ ⟨V, hVo, hVq, hr⟩ => ⟨_, rfl, _,
      Arena.get?_allocate_self _ _ _ _ _, V, hsound ht hps V hVo hVq, hr⟩⟩
  | pruned asked =>
    obtain ⟨new, hrests, -, hsound⟩ := blockInfeasible_asks _ _ _ a.solver _ solver hrest asked
    exact ⟨new, hrests, fun ht _ P σ ⟨V, hVo, hVq, _⟩ =>
      absurd (holds_blockFormula.2 ⟨hVo, hVq⟩) (hsound ht rfl V)⟩
  | carriedOn asked =>
    have hrests : ∃ new, SolverM.Rests a.solver new solver := by
      rcases asked with rfl | asked
      · exact ⟨[], .refl hrest⟩
      · obtain ⟨new, hrests, -⟩ := blockInfeasible_asks _ _ _ a.solver _ solver hrest asked
        exact ⟨new, hrests⟩
    obtain ⟨new, hrests⟩ := hrests
    exact ⟨new, hrests, fun _ _ P σ hσ => ⟨_, rfl, owner, howner, hσ⟩⟩

end Analysis

end Cegar

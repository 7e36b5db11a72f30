import Mathlib.Logic.Relation
import Cegar.Automaton.Basic
import Cegar.Proofs.WellSorted

/-!
# Executions of programs

What a program does to the values of its variables, told without formulas: a statement relates the
store before it to the stores after it, and an execution follows edges of the automaton.

* **`Statement.Step`** is the effect of a statement. A declaration without initial value leaves any
  value behind, an assignment reads the old values, and a call assigns all its parameters at once.
  What cannot be written to and what has no meaning stops an execution.
* **`Automaton.Executes`** follows edges from one location and store to others, and
  **`Automaton.ExecutesAlong`** follows given ones.
* **`Automaton.WellFormed`** is what the analysis expects of a program: its statements are
  well-sorted, its variables carry no index, their names are no names of branch variables, and a
  name is used with one type only. It can be decided.
-/

namespace Cegar

/-! ## Effects of statements -/

namespace Env

/-- Writes to the target of a statement; only variables can be written to. -/
def put (σ : Store) : Expr → Value → Option Store
  | .var v, x => some (σ.set v x)
  | _, _ => none

/-- Writes parameters one after the other, with arguments that are all read in `old`. If a parameter
is listed twice the last argument stays. -/
def putAll (old : Store) : Store → List (Expr × Expr) → Option Store
  | σ, [] => some σ
  | σ, (parameter, argument) :: rest =>
    (σ.put parameter (argument.valueIn old)).bind fun σ => putAll old σ rest

end Env

namespace Statement

/-- The stores that a statement can lead to. -/
def Step : Statement → Store → Store → Prop
  | .blank, σ, σ' | .callToReturn, σ, σ' | .ret none, σ, σ' => σ' = σ
  | .declare target none, σ, σ' => ∃ x : Value, x.ty = target.ty ∧ σ.put target x = some σ'
  | .declare target (some value), σ, σ' | .assign target value, σ, σ'
  | .ret (some (target, value)), σ, σ' => σ.put target (value.valueIn σ) = some σ'
  | .assume condition truth, σ, σ' => condition.truth σ = truth ∧ σ' = σ
  | .call bindings, σ, σ' => σ.putAll σ bindings = some σ'
  | .unknown _, _, _ => False

/-- The expressions of a statement, those written to among them. -/
def exprs : Statement → List Expr
  | .blank | .callToReturn | .ret none | .unknown _ => []
  | .declare target none => [target]
  | .declare target (some value) | .assign target value | .ret (some (target, value)) =>
    [target, value]
  | .assume condition _ => [condition]
  | .call bindings => bindings.flatMap fun (parameter, argument) => [parameter, argument]

/-- Whether a value can be written to a target. -/
def Assignable (target value : Expr) : Prop := value.WellSorted ∧ value.ty = target.ty

instance (target value : Expr) : Decidable (Assignable target value) :=
  inferInstanceAs (Decidable (_ ∧ _))

/-- What is written has the type of what it is written to, and conditions are formulas. -/
def WellSorted : Statement → Prop
  | .blank | .callToReturn | .ret none | .unknown _ | .declare _ none => True
  | .declare target (some value) | .assign target value | .ret (some (target, value)) =>
    Assignable target value
  | .assume condition _ => condition.WellSorted ∧ condition.ty = .bool
  | .call bindings => ∀ b ∈ bindings, Assignable b.1 b.2

instance (s : Statement) : Decidable s.WellSorted :=
  match s with
  | .blank | .callToReturn | .ret none | .unknown _ | .declare _ none => isTrue trivial
  | .declare target (some value) | .assign target value | .ret (some (target, value)) =>
    inferInstanceAs (Decidable (Assignable target value))
  | .assume _ _ => inferInstanceAs (Decidable (_ ∧ _))
  | .call bindings => inferInstanceAs (Decidable (∀ b ∈ bindings, Assignable b.1 b.2))

/-- A well-sorted statement all of whose variables satisfy `P`. -/
structure Over (P : Var → Prop) (s : Statement) : Prop where
  sorted : s.WellSorted
  vars : ∀ e ∈ s.exprs, ∀ v ∈ e.vars, P v

/-- What a statement assigns to what, if assigning is all that it does. -/
def bindings? : Statement → Option (List (Expr × Expr))
  | .blank | .callToReturn | .ret none => some []
  | .declare target (some value) | .assign target value | .ret (some (target, value)) =>
    some [(target, value)]
  | .call bindings => some bindings
  | .declare _ none | .assume _ _ | .unknown _ => none

section Bindings

variable {s : Statement} {bs : List (Expr × Expr)}

/-- An assignment is a call with one parameter, and a statement without effect one with none. -/
theorem step_of_bindings? {σ σ' : Store} (h : s.bindings? = some bs) :
    s.Step σ σ' ↔ σ.putAll σ bs = some σ' := by
  have none : σ' = σ ↔ σ.putAll σ [] = some σ' := by simp [Env.putAll, eq_comm]
  have one (target value : Expr) :
      σ.put target (value.valueIn σ) = some σ' ↔ σ.putAll σ [(target, value)] = some σ' := by
    simp only [Env.putAll]
    cases σ.put target (value.valueIn σ) <;> exact Iff.rfl
  cases s with
  | blank | callToReturn =>
    cases h
    exact none
  | assign target value =>
    cases h
    exact one target value
  | declare target initial =>
    cases initial with
    | none => cases h
    | some value =>
      cases h
      exact one target value
  | ret result =>
    cases result with
    | none =>
      cases h
      exact none
    | some b =>
      cases h
      exact one b.1 b.2
  | call bindings =>
    cases h
    exact Iff.rfl
  | assume | unknown => cases h

/-- An assignment reads and writes what its bindings do. -/
theorem exprs_of_bindings? (h : s.bindings? = some bs) :
    s.exprs = bs.flatMap fun b => [b.1, b.2] := by
  unfold bindings? at h
  split at h <;> cases h <;> rfl

/-- An assignment is well-sorted if each of its bindings is. -/
theorem wellSorted_of_bindings? (h : s.bindings? = some bs) :
    s.WellSorted ↔ ∀ b ∈ bs, Assignable b.1 b.2 := by
  unfold bindings? at h
  split at h <;> cases h <;> simp [WellSorted]

end Bindings

end Statement

/-! ## Programs -/

/-- Variables as statements have them: without index, and told from branch variables by their
names. -/
structure Plain (P : Var → Prop) : Prop where
  unindexed : ∀ v, P v → v.index = none
  notBranch : ∀ v, P v → v.isBranch = false

/-- The variables of a program: without index, told from branch variables by their names, and each
name with one type. -/
structure Vocabulary (P : Var → Prop) : Prop where
  unindexed : ∀ v, P v → v.index = none
  plain : ∀ v, P v → v.isBranch = false
  oneType : ∀ v w, P v → P w → v.name = w.name → v.ty = w.ty

theorem Vocabulary.toPlain {P : Var → Prop} (hP : Vocabulary P) : Plain P :=
  ⟨hP.unindexed, hP.plain⟩

/-- Variables of a program are told apart by their names. -/
theorem Vocabulary.eq_of_name {P : Var → Prop} (hP : Vocabulary P) {v w : Var} (hv : P v) (hw : P w)
    (h : v.name = w.name) : v = w := by
  have hty := hP.oneType v w hv hw h
  have hi := (hP.unindexed v hv).trans (hP.unindexed w hw).symm
  cases v; cases w
  simp_all

namespace Automaton

variable (a : Automaton)

/-- The variables that occur in statements. -/
def vars : List Var :=
  a.edges.toList.flatMap fun e => e.statement.exprs.flatMap fun d => d.vars.toList

/-- What the analysis expects of a program. -/
structure WellFormed : Prop where
  sorted : ∀ e ∈ a.edges, e.statement.WellSorted
  vocabulary : Vocabulary (· ∈ a.vars)

instance : Decidable a.WellFormed :=
  decidable_of_iff
    ((∀ e ∈ a.edges, e.statement.WellSorted) ∧ (∀ v ∈ a.vars, v.index = none) ∧
      (∀ v ∈ a.vars, v.isBranch = false) ∧
      ∀ v ∈ a.vars, ∀ w ∈ a.vars, v.name = w.name → v.ty = w.ty)
    ⟨fun ⟨hs, hi, hb, ht⟩ => ⟨hs, hi, hb, fun v w hv hw => ht v hv w hw⟩,
      fun ⟨hs, hi, hb, ht⟩ => ⟨hs, hi, hb, fun v hv w hw => ht v w hv hw⟩⟩

/-- The statements of a well-formed program are over its variables. -/
theorem WellFormed.overVars {a : Automaton} (ha : a.WellFormed) {e : Edge} (he : e ∈ a.edges) :
    e.statement.Over (· ∈ a.vars) := by
  refine ⟨ha.sorted e he, fun d hd v hv => ?_⟩
  simp only [vars, List.mem_flatMap, Array.mem_toList_iff, Std.ExtTreeSet.mem_toList]
  exact ⟨e, he, d, hd, hv⟩

/-! ## Executions -/

/-- One edge: from a store at its source to a store at its target. -/
def Transition (c c' : Location × Store) : Prop :=
  ∃ e ∈ a.edges, e.source = c.1 ∧ e.target = c'.1 ∧ e.statement.Step c.2 c'.2

/-- Reaching the location violates the property. -/
def IsError (l : Location) : Prop := ∃ n, a.nodes[l.idx]? = some n ∧ n.error = true

/-- Any number of edges. -/
def Executes : Location × Store → Location × Store → Prop := Relation.ReflTransGen a.Transition

variable {a}

theorem Executes.trans {c d e : Location × Store} (h : a.Executes c d) (h' : a.Executes d e) :
    a.Executes c e :=
  Relation.ReflTransGen.trans h h'

theorem Executes.refl (c : Location × Store) : a.Executes c c := Relation.ReflTransGen.refl

/-- An execution goes on along an edge of the program. -/
theorem Executes.tail {c : Location × Store} {e : Edge} {σ σ' : Store} (he : e ∈ a.edges)
    (h : a.Executes c (e.source, σ)) (hs : e.statement.Step σ σ') :
    a.Executes c (e.target, σ') :=
  Relation.ReflTransGen.tail h ⟨e, he, rfl, rfl, hs⟩

/-! ## Executions along given edges -/

/-- An execution that goes along the given edges. -/
inductive ExecutesAlong (A : Automaton) :
    List EdgeId → Location × Store → Location × Store → Prop
  | nil {c : Location × Store} : ExecutesAlong A [] c c
  | cons {e : EdgeId} {es : List EdgeId} {edge : Edge} {σ τ : Store} {c : Location × Store}
    (hedge : A.edges[e.idx]? = some edge) (hstep : edge.statement.Step σ τ)
    (hrest : ExecutesAlong A es (edge.target, τ) c) :
    ExecutesAlong A (e :: es) (edge.source, σ) c

/-- An execution along edges takes the first one and goes on along the others. -/
theorem executesAlong_cons {A : Automaton} {e : EdgeId} {es : List EdgeId}
    {c c' : Location × Store} : A.ExecutesAlong (e :: es) c c' ↔
      ∃ edge τ, A.edges[e.idx]? = some edge ∧ edge.source = c.1 ∧ edge.statement.Step c.2 τ ∧
        A.ExecutesAlong es (edge.target, τ) c' := by
  constructor
  · rintro (_ | ⟨hedge, hstep, hrest⟩)
    exact ⟨_, _, hedge, rfl, hstep, hrest⟩
  · rintro ⟨edge, τ, hedge, hsource, hstep, hrest⟩
    obtain ⟨l, σ⟩ := c
    cases hsource
    exact .cons hedge hstep hrest

/-- The last edge is taken after the others. -/
theorem executesAlong_concat {A : Automaton} {es : List EdgeId} {e : EdgeId}
    {c c' : Location × Store} : A.ExecutesAlong (es ++ [e]) c c' ↔
      ∃ edge τ, A.edges[e.idx]? = some edge ∧ A.ExecutesAlong es c (edge.source, τ) ∧
        edge.statement.Step τ c'.2 ∧ edge.target = c'.1 := by
  induction es generalizing c with
  | nil =>
    rw [List.nil_append, executesAlong_cons]
    constructor
    · rintro ⟨edge, τ, hedge, hsource, hstep, hrest⟩
      cases hrest
      exact ⟨edge, c.2, hedge, hsource ▸ .nil, hstep, rfl⟩
    · rintro ⟨edge, τ, hedge, hnil, hstep, htarget⟩
      cases hnil
      exact ⟨edge, c'.2, hedge, rfl, hstep, htarget ▸ .nil⟩
  | cons first es ih =>
    simp only [List.cons_append, executesAlong_cons, ih]
    constructor
    · rintro ⟨edge, τ, hedge, hsource, hstep, last, υ, hlast, hrest, hend⟩
      exact ⟨last, υ, hlast, ⟨edge, τ, hedge, hsource, hstep, hrest⟩, hend⟩
    · rintro ⟨last, υ, hlast, ⟨edge, τ, hedge, hsource, hstep, hrest⟩, hend⟩
      exact ⟨edge, τ, hedge, hsource, hstep, last, υ, hlast, hrest, hend⟩

/-! ## Access -/

/-- The edges that leave a location are those of the program that start there. -/
theorem mem_leaving {e : EdgeId} {l : Location} :
    e ∈ a.leaving l ↔ ∃ edge, a.edges[e.idx]? = some edge ∧ edge.source = l := by
  simp only [leaving, edgesWhere, List.mem_map, List.mem_filter, decide_eq_true_eq, Prod.exists,
    List.mem_zipIdx_iff_getElem?, Array.getElem?_toList]
  constructor
  · rintro ⟨edge, i, ⟨hi, hl⟩, rfl⟩
    exact ⟨edge, hi, hl⟩
  · rintro ⟨edge, hi, hl⟩
    exact ⟨edge, e.idx, ⟨hi, hl⟩, rfl⟩

theorem edge_eq_ok {e : EdgeId} {edge : Edge} :
    a.edge e = .ok edge ↔ a.edges[e.idx]? = some edge := by
  unfold Automaton.edge
  split <;> simp_all

theorem node_eq_ok {l : Location} {n : Node} : a.node l = .ok n ↔ a.nodes[l.idx]? = some n := by
  unfold Automaton.node
  split <;> simp_all

theorem mem_edges_of_getElem? {e : EdgeId} {edge : Edge} (h : a.edges[e.idx]? = some edge) :
    edge ∈ a.edges :=
  Array.mem_of_getElem? h

end Automaton

end Cegar

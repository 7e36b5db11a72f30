import Cegar.Proofs.Analysis.Merging

/-!
# The ways that a path formula stands for

A path formula that was extended edge by edge and merged with others stands for several ways through
the program: those of a merged formula are those of its two sides. They all lead from the start of
the block to the same location, and a model of the formula is an execution along one of them.

* **`PathFormula.Built`**: how a path formula came about, with the ways that it was built along;
* **`PathFormula.Built.leadsTo_iff`**: it leads to the stores that executions along its ways lead
  to;
* **`PathFormula.Built.standsFor`**: so a path formula stands for the ways that it was built along.
-/

namespace Cegar

variable {A : Automaton} {start l : Location} {m : SsaMap} {p q : PathFormula}
  {ways ways' : List (List EdgeId)}

/-- Edges that follow one another, from `start` to another location. -/
inductive Automaton.Leads (A : Automaton) (start : Location) : List EdgeId → Location → Prop
  | nil : Leads A start [] start
  | concat {es : List EdgeId} {e : EdgeId} {edge : Edge} (h : Leads A start es edge.source)
      (hedge : A.edges[e.idx]? = some edge) : Leads A start (es ++ [e]) edge.target

/-! ## The longest way -/

/-- The longest way has `n` edges. -/
structure Longest (ways : List (List EdgeId)) (n : Nat) : Prop where
  exists_length : ∃ w ∈ ways, w.length = n
  length_le : ∀ w ∈ ways, w.length ≤ n

namespace Longest

theorem single : Longest [[]] 0 := ⟨⟨[], by simp⟩, by simp⟩

/-- One more edge makes every way longer. -/
theorem concat {n : Nat} (h : Longest ways n) (e : EdgeId) :
    Longest (ways.map (· ++ [e])) (n + 1) := by
  obtain ⟨⟨w, hw, hlength⟩, hle⟩ := h
  refine ⟨⟨w ++ [e], List.mem_map_of_mem hw, by simp [hlength]⟩, fun v hv => ?_⟩
  obtain ⟨u, hu, rfl⟩ := List.mem_map.1 hv
  simpa using hle u hu

/-- The ways of one side or the other. -/
theorem append {n n' : Nat} (h : Longest ways n) (h' : Longest ways' n') :
    Longest (ways ++ ways') (max n n') := by
  refine ⟨?_, fun v hv => ?_⟩
  · obtain ⟨w, hw, hlength⟩ := h.exists_length
    obtain ⟨w', hw', hlength'⟩ := h'.exists_length
    rcases Nat.le_total n n' with hle | hle
    · exact ⟨w', by simp [hw'], by omega⟩
    · exact ⟨w, by simp [hw], by omega⟩
  · rcases List.mem_append.1 hv with hv | hv
    · exact Nat.le_trans (h.length_le v hv) (Nat.le_max_left n n')
    · exact Nat.le_trans (h'.length_le v hv) (Nat.le_max_right n n')

end Longest

/-! ## Path formulas and their ways -/

namespace PathFormula

/-- A path formula that was built from the numbering `m` at `start`, with the ways to where it is
now. An edge makes every way longer, and a disjunction takes the ways of both sides. -/
inductive Built (A : Automaton) (start : Location) (m : SsaMap) :
    Location → PathFormula → List (List EdgeId) → Prop
  | empty : Built A start m start (.empty m) [[]]
  | extend {p q : PathFormula} {ways : List (List EdgeId)} {e : EdgeId} {edge : Edge}
      (hp : Built A start m edge.source p ways) (hedge : A.edges[e.idx]? = some edge)
      (h : p.extend edge.source e edge.statement = .ok (.ok q)) :
      Built A start m edge.target q (ways.map (· ++ [e]))
  | or {l : Location} {p q : PathFormula} {ways ways' : List (List EdgeId)}
      (hp : Built A start m l p ways) (hq : Built A start m l q ways') :
      Built A start m l (p.or q) (ways ++ ways')

/-- The formula was built along the ways, which lead from `start` to `l`. In a well-formed program
it leads from a store to another one exactly if the edges of one of the ways do. -/
structure StandsFor (A : Automaton) (start : Location) (m : SsaMap) (l : Location) (p : PathFormula)
    (ways : List (List EdgeId)) : Prop where
  built : Built A start m l p ways
  leads : ∀ w ∈ ways, A.Leads start w l
  leadsTo_iff : A.WellFormed → ∀ W σ τ, Env.Reads (· ∈ A.vars) W m σ →
    (p.LeadsTo (· ∈ A.vars) m W τ ↔
      ∃ w ∈ ways, ∃ τ', A.ExecutesAlong w (start, σ) (l, τ') ∧ ∀ v ∈ A.vars, τ'.val v = τ.val v)

namespace Built

/-- The ways lead from the start to where the formula is now. -/
theorem leads (h : Built A start m l p ways) : ∀ w ∈ ways, A.Leads start w l := by
  induction h with
  | empty => simpa using .nil
  | extend _ hedge _ ih =>
    intro w hw
    obtain ⟨v, hv, rfl⟩ := List.mem_map.1 hw
    exact .concat (ih v hv) hedge
  | or _ _ ih ih' => exact fun w hw => (List.mem_append.1 hw).elim (ih w) (ih' w)

/-- The formula has grown from the numbering at the start. -/
theorem grown (h : Built A start m l p ways) : p.Grown A m := by
  induction h with
  | empty => exact .empty
  | extend _ hedge h ih => exact ih.extend hedge h
  | or _ _ ih ih' => exact ih.or ih'

theorem overVars (hA : A.WellFormed) (hm : m.Over (· ∈ A.vars)) (h : Built A start m l p ways) :
    p.Over (· ∈ A.vars) :=
  (h.grown.within (versioned_known _) hA.within hm).over (h.grown.sorted hA.sorted)

section Extend

variable {edge : Edge} {e : EdgeId} {W τ : Store}

/-- One more edge leads on from a store that the shorter formula leads to, and from any other that
agrees with it on the variables of the program. -/
theorem exists_leadsTo_of_extend (hA : A.WellFormed) (hp : p.Over (· ∈ A.vars))
    (hedge : A.edges[e.idx]? = some edge)
    (h : p.extend edge.source e edge.statement = .ok (.ok q))
    (hq : q.LeadsTo (· ∈ A.vars) m W τ) :
    ∃ σ, p.LeadsTo (· ∈ A.vars) m W σ ∧ ∀ σ', (∀ v ∈ A.vars, σ'.val v = σ.val v) →
      ∃ τ', edge.statement.Step σ' τ' ∧ ∀ v ∈ A.vars, τ'.val v = τ.val v := by
  have hs : edge.statement.Over (· ∈ A.vars) := hA.overVars (Automaton.mem_edges_of_getElem? hedge)
  obtain ⟨V, hW, hV, hr⟩ := hq
  have hV := (Expr.holds_iff_truth (hp.extend hA.vocabulary hs h).formula).1 hV
  have hσ := Env.reads_after (P := (· ∈ A.vars)) V p.ssa
  obtain ⟨hVp, -⟩ := extend_backward hA.vocabulary hs h hV hσ
  refine ⟨V.after p.ssa, ⟨V, hW, (Expr.holds_iff_truth hp.formula).2 hVp, hσ⟩, fun σ' hσ' => ?_⟩
  have hr' : Env.Reads (· ∈ A.vars) V p.ssa σ' := fun v hv => (hσ v hv).trans (hσ' v hv).symm
  obtain ⟨-, τ', hstep, hτ'⟩ := extend_backward hA.vocabulary hs h hV hr'
  exact ⟨τ', hstep, fun v hv => (hτ' v hv).symm.trans (hr v hv)⟩

/-- An execution that goes on along an edge is one of the longer formula. -/
theorem leadsTo_extend (hA : A.WellFormed) (hp : p.Over (· ∈ A.vars)) (hle : m ≤ p.ssa)
    (hedge : A.edges[e.idx]? = some edge)
    (h : p.extend edge.source e edge.statement = .ok (.ok q)) {σ τ' : Store}
    (hσ : p.LeadsTo (· ∈ A.vars) m W σ) (hstep : edge.statement.Step σ τ')
    (hτ : ∀ v ∈ A.vars, τ'.val v = τ.val v) : q.LeadsTo (· ∈ A.vars) m W τ := by
  have hs : edge.statement.Over (· ∈ A.vars) := hA.overVars (Automaton.mem_edges_of_getElem? hedge)
  obtain ⟨V, hW, hV, hr⟩ := hσ
  have hV := (Expr.holds_iff_truth hp.formula).1 hV
  obtain ⟨V', hagree, hV', hr'⟩ := extend_forward hA.vocabulary.toPlain hp.seen hs h hV hr hstep
  exact ⟨V', hW.trans hagree hle,
    (Expr.holds_iff_truth (hp.extend hA.vocabulary hs h).formula).2 hV',
    fun v hv => (hr' v hv).trans (hτ v hv)⟩

end Extend

/-- A path formula leads to the stores that executions along its ways lead to. -/
theorem leadsTo_iff (hA : A.WellFormed) (hm : m.Over (· ∈ A.vars))
    (h : Built A start m l p ways) {W σ τ : Store} (hr : Env.Reads (· ∈ A.vars) W m σ) :
    p.LeadsTo (· ∈ A.vars) m W τ ↔
      ∃ w ∈ ways, ∃ τ', A.ExecutesAlong w (start, σ) (l, τ') ∧ ∀ v ∈ A.vars, τ'.val v = τ.val v := by
  induction h generalizing τ with
  | empty =>
    simp only [List.mem_singleton, exists_eq_left]
    constructor
    · rintro ⟨V, hW, -, hτ⟩
      have hσ := hW.reads hA.vocabulary.unindexed hr
      exact ⟨σ, .nil, fun v hv => (hσ v hv).symm.trans (hτ v hv)⟩
    · rintro ⟨τ', hexec, hτ⟩
      cases hexec
      exact ⟨W, .refl W m, by simp [PathFormula.empty], fun v hv => (hr v hv).trans (hτ v hv)⟩
  | extend hp hedge h ih =>
    have hover := hp.overVars hA hm
    constructor
    · intro hq
      obtain ⟨υ, hυ, hon⟩ := exists_leadsTo_of_extend hA hover hedge h hq
      obtain ⟨w, hw, υ', hexec, hsame⟩ := ih.1 hυ
      obtain ⟨τ', hstep, hτ⟩ := hon υ' hsame
      exact ⟨_, List.mem_map_of_mem hw, τ',
        Automaton.executesAlong_concat.2 ⟨_, υ', hedge, hexec, hstep, rfl⟩, hτ⟩
    · rintro ⟨w, hw, τ', hexec, hτ⟩
      obtain ⟨v, hv, rfl⟩ := List.mem_map.1 hw
      obtain ⟨edge', υ, hedge', hexec, hstep, -⟩ := Automaton.executesAlong_concat.1 hexec
      cases hedge.symm.trans hedge'
      exact leadsTo_extend hA hover hp.grown.le hedge h (ih.2 ⟨v, hv, υ, hexec, fun _ _ => rfl⟩)
        hstep hτ
  | or hp hq ih ih' =>
    have hknown (v : Var) (hv : v ∈ A.vars) : v.index = none ∧ Known (· ∈ A.vars) v :=
      ⟨hA.vocabulary.unindexed v hv, hA.vocabulary.toPlain.known hv⟩
    rw [leadsTo_or hknown hA.vocabulary.oneType_known (hp.overVars hA hm).within.fits
      (hq.overVars hA hm).within.fits hp.grown.le hq.grown.le, ih, ih']
    simp only [List.mem_append, or_and_right, exists_or]

/-- A formula stands for the executions along the ways on which it was built. -/
theorem standsFor (hm : m.Grown A) (h : Built A start m l p ways) : StandsFor A start m l p ways :=
  ⟨h, h.leads, fun hA _ _ _ hr =>
    h.leadsTo_iff hA (hm.entries (versioned_known _) hA.within) hr⟩

end Built

end PathFormula

end Cegar

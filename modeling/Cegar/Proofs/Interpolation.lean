import Cegar.Interpolation
import Cegar.Proofs.Abstraction
import Cegar.Proofs.Atoms

/-!
# What traces tell

A trace that the solver finds feasible has a model, whatever else the solver gets wrong. Of a
spurious trace we need to know only that the predicates found are formulas over the variables of the
program: which ones they are decides about progress, not about correctness.

* **`interpolate_traces`**: predicates are made from atoms over shared variables that are no branch
  variables, so they are formulas over the program;
* **`Trace.ofBlocks_traces`**: a feasible trace has a model of all blocks.
-/

namespace Cegar

open SolverM

variable {P Q : Var → Prop}

/-! ## Atoms -/

namespace Expr

/-- Parts of a well-sorted expression are well-sorted, with no other variables. -/
theorem mem_subterms {e d : Expr} (h : d ∈ e.subterms) (he : e.WellSorted) :
    d.WellSorted ∧ ∀ v ∈ d.vars, v ∈ e.vars := by
  induction e with
  | bool | num | var =>
    cases List.mem_singleton.1 h
    exact ⟨he, fun _ => id⟩
  | arith op l r ihl ihr | cmp op l r ihl ihr | logic op l r ihl ihr =>
    rcases List.mem_cons.1 h with rfl | h
    · exact ⟨he, fun _ => id⟩
    · obtain ⟨-, -, hl, hr⟩ := he
      rcases List.mem_append.1 h with h | h
      · exact ⟨(ihl h hl).1, fun v hv => by simp [(ihl h hl).2 v hv]⟩
      · exact ⟨(ihr h hr).1, fun v hv => by simp [(ihr h hr).2 v hv]⟩
  | neg e ih | not e ih =>
    rcases List.mem_cons.1 h with rfl | h
    · exact ⟨he, fun _ => id⟩
    · exact ih h he.2

/-- The atoms of a formula are formulas. -/
theorem IsFormula.atoms {e d : Expr} (he : e.IsFormula Q) (h : d ∈ e.atoms) : d.IsFormula Q := by
  rw [Expr.atoms, List.mem_eraseDups, List.mem_filter] at h
  obtain ⟨hs, hv⟩ := mem_subterms h.1 he.sorted
  refine ⟨hs, ?_, fun v hvd => he.vars v (hv v hvd)⟩
  cases d with
  | cmp => rfl
  | var v => exact of_decide_eq_true h.2
  | _ => simp [isAtom] at h

/-- Without indices, a formula over versions is one over variables. -/
theorem IsFormula.unindexed {e : Expr} (he : e.IsFormula fun v => P v.unindexed) :
    e.unindexed.IsFormula P :=
  IsFormula.mapVars (f := Var.unindexed) (fun _ => rfl) he he.vars

end Expr

/-! ## Interpolants -/

/-- What both sides of a cut share, branch variables apart. -/
theorem mem_sharedVars {before after : Expr} {v : Var} :
    v ∈ sharedVars before after ↔ v ∈ after.vars ∧ v ∈ before.vars ∧ v.isBranch = false := by
  show v ∈ after.vars.inner.filter (fun v _ => before.vars.contains v && !v.isBranch) ↔ _
  rw [Std.ExtTreeMap.mem_filter]
  simp [Std.ExtTreeSet.mem_iff_contains, Std.ExtTreeSet.contains, and_left_comm]

/-- Candidates speak about variables of the program only. -/
theorem isFormula_candidates {before after : Expr} (hb : before.IsFormula (Known P))
    (ha : after.IsFormula (Known P)) :
    ∀ e ∈ candidates before after, e.IsFormula fun v => P v.unindexed := by
  intro e he
  have he := List.mem_of_mem_take he
  rw [List.mem_eraseDups, List.mem_filter] at he
  obtain ⟨hmem, hshared⟩ := he
  have hatom : e.IsFormula (Known P) := by
    rcases List.mem_append.1 hmem with h | h
    · exact hb.atoms h
    · exact ha.atoms h
  refine hatom.mono fun v hv hk => ?_
  rw [Bool.and_eq_true, List.all_eq_true] at hshared
  have hv := hshared.2 v (Std.ExtTreeSet.mem_toList.2 hv)
  obtain ⟨-, -, hbranch⟩ := mem_sharedVars.1 (Std.ExtTreeSet.contains_iff_mem.1 hv)
  refine hk.resolve_right fun h => ?_
  rw [hbranch] at h
  cases h.1

/-- Literals are candidates with a sign. -/
theorem impliedLiterals_asks (formula : Expr) (es : List Expr) :
    Asks (impliedLiterals formula es) (fun ls => ∀ l ∈ ls, ∃ e ∈ es, l = e ∨ l = e.complement)
      fun _ => True := by
  induction es with
  | nil => exact asks_pure (by simp) trivial
  | cons e es ih =>
    refine (impliedLiteral?_asks formula e).bind fun sign _ => ?_
    refine ih.bind fun rest hrest => ?_
    have hrest : ∀ l ∈ rest, ∃ d ∈ e :: es, l = d ∨ l = d.complement := fun l hl => by
      obtain ⟨d, hd, hl⟩ := hrest l hl
      exact ⟨d, by simp [hd], hl⟩
    match sign with
    | some true =>
      exact asks_pure (List.forall_mem_cons.2 ⟨⟨e, by simp, .inl rfl⟩, hrest⟩) fun _ _ => trivial
    | some false =>
      exact asks_pure (List.forall_mem_cons.2 ⟨⟨e, by simp, .inr rfl⟩, hrest⟩) fun _ _ => trivial
    | none => exact asks_pure hrest fun _ _ => trivial

/-- Literals are only dropped. -/
theorem dropNeedless_asks (formula : Expr) (kept ls : List Expr) :
    Asks (dropNeedless formula kept ls) (fun rs => ∀ l ∈ rs, l ∈ kept ++ ls) fun _ => True := by
  induction ls generalizing kept with
  | nil => exact asks_pure (by simp) trivial
  | cons e es ih =>
    refine (isUnsat_asks _).bind fun needless _ => ?_
    cases needless with
    | true =>
      exact (ih kept).mono (fun rs h l hl => by have := h l hl; grind) fun _ _ _ _ => trivial
    | false =>
      exact (ih (kept ++ [e])).mono (fun rs h l hl => by simpa using h l hl) fun _ _ _ _ => trivial

/-- The literals at a cut are candidates or complements of candidates. -/
theorem interpolantLiterals_asks (before after : Expr) :
    Asks (interpolantLiterals before after)
      (fun ls => ∀ l ∈ ls, ∃ e ∈ candidates before after, l = e ∨ l = e.complement)
      fun _ => True := by
  unfold interpolantLiterals
  split
  · exact asks_pure (by simp) trivial
  · refine (isUnsat_asks before).bind fun known _ => ?_
    cases known with
    | true => exact asks_pure (by simp) fun _ => trivial
    | false =>
      refine (impliedLiterals_asks before (candidates before after)).bind fun ls hls => ?_
      refine (isUnsat_asks _).bind fun found _ => ?_
      cases found with
      | true =>
        exact (dropNeedless_asks after [] ls).mono (fun rs h l hl => hls l (h l hl))
          fun _ _ _ _ _ _ => trivial
      | false => exact asks_pure (by simp) fun _ _ _ => trivial

/-! ## Traces -/

/-- Run at rest, the computation ends at rest, and a result satisfies `R`. -/
def TraceM.Traces {α : Type} (act : TraceM α) (R : α → Prop) : Prop :=
  Asks act.run (fun r => ∀ x, r = .ok x → R x) fun _ => True

namespace TraceM

variable {α β : Type}

theorem traces_pure {R : α → Prop} {x : α} (h : R x) : Traces (pure x) R :=
  asks_pure (fun y hy => by cases hy; exact h) trivial

theorem traces_throw {R : α → Prop} {e : Error} : Traces (throw e) R :=
  asks_pure (fun y hy => by cases hy) trivial

/-- Computations one after the other. -/
theorem Traces.bind {act : TraceM α} {f : α → TraceM β} {R : α → Prop} {S : β → Prop}
    (h : Traces act R) (hf : ∀ x, R x → Traces (f x) S) : Traces (act >>= f) S := by
  intro s r s' hs hr
  rcases try_bind_ok.1 hr with ⟨x, t, hx, hy⟩ | ⟨e, he, rfl⟩
  · obtain ⟨new, hrest, hR, -⟩ := h s (.ok x) t hs hx
    obtain ⟨new', hrest', hS, -⟩ := hf x (hR x rfl) t r s' hrest.scopes hy
    exact ⟨_, hrest.trans hrest', hS, fun _ => trivial⟩
  · obtain ⟨new, hrest, -, -⟩ := h s (.error e) s' hs he
    exact ⟨new, hrest, (fun y hy => by cases hy), fun _ => trivial⟩

/-- What a computation with the solver promises, whatever it is answered, is traced. -/
theorem traces_lift {act : SolverM α} {R Q : α → Prop} (h : Asks act R Q) :
    Traces (liftM act) R := by
  intro s r s' hs hr
  obtain ⟨x, hx, rfl⟩ := try_lift_ok.1 hr
  obtain ⟨new, hrest, hR, -⟩ := h s x s' hs hx
  exact ⟨new, hrest, fun y hy => by cases hy; exact hR, fun _ => trivial⟩

/-- An error is no result. -/
theorem traces_ofExcept {R : α → Prop} {r : Except Error α} (h : ∀ x, r = .ok x → R x) :
    Traces (MonadExcept.ofExcept r) R := by
  cases r with
  | ok x => exact traces_pure (h x rfl)
  | error e => exact traces_throw

end TraceM

open TraceM

/-- Predicates are expressions that were given. -/
theorem mem_ofExprs {es : List Expr} {ps : List Predicate} (h : Predicate.ofExprs es = .ok ps) :
    ∀ p ∈ ps, p.expr ∈ es := by
  induction es generalizing ps with
  | nil =>
    cases h
    simp
  | cons e es ih =>
    obtain ⟨p, hp, h⟩ := except_bind_ok.1 h
    obtain ⟨qs, hqs, h⟩ := except_bind_ok.1 h
    cases h
    have hpe : p.expr = e := by
      unfold Predicate.ofExpr at hp
      split at hp <;> cases hp
      rfl
    intro q hq
    rcases List.mem_cons.1 hq with rfl | hq
    · simp [hpe]
    · simp [ih hqs q hq]

/-- Predicates found at a cut between formulas over the program are such formulas. -/
theorem interpolate_traces (before after : Expr) :
    Traces (interpolate before after) fun ps => ∀ P, before.IsFormula (Known P) →
      after.IsFormula (Known P) → ∀ p ∈ ps, p.expr.IsFormula P := by
  refine (traces_lift (interpolantLiterals_asks before after)).bind fun ls hls => ?_
  have hps : ∀ ps, Predicate.ofExprs (ls.map fun e => e.normalAtom.unindexed) = .ok ps →
      ∀ P, before.IsFormula (Known P) → after.IsFormula (Known P) →
        ∀ p ∈ ps, p.expr.IsFormula P := by
    intro ps h P hb ha p hp
    obtain ⟨l, hl, hpl⟩ := List.mem_map.1 (mem_ofExprs h p hp)
    obtain ⟨e, he, hle⟩ := hls l hl
    have hformula : e.IsFormula fun v => P v.unindexed := isFormula_candidates hb ha e he
    have hliteral : l.IsFormula fun v => P v.unindexed := by
      rcases hle with rfl | rfl
      · exact hformula
      · exact hformula.complement
    rw [← hpl]
    exact hliteral.normalAtom.unindexed
  refine (traces_ofExcept hps).bind fun ps hps => traces_pure fun P hb ha p hp => ?_
  exact hps P hb ha p (List.mem_eraseDups.1 hp)

/-- The predicates at all cuts are formulas over the program. -/
theorem interpolants_traces (before blocks : List Expr) :
    Traces (interpolants before blocks) fun pss => ∀ P, (∀ e ∈ before, e.IsFormula (Known P)) →
      (∀ e ∈ blocks, e.IsFormula (Known P)) → ∀ ps ∈ pss, ∀ p ∈ ps, p.expr.IsFormula P := by
  induction blocks generalizing before with
  | nil => exact traces_pure (by simp)
  | cons b blocks ih =>
    cases blocks with
    | nil => exact traces_pure (by simp)
    | cons c blocks =>
      refine (interpolate_traces (.conj (before ++ [b])) (.conj (c :: blocks))).bind
        fun ps hps => ?_
      refine (ih (before ++ [b])).bind fun pss hpss => traces_pure fun P hb hbs => ?_
      obtain ⟨hb', hbs'⟩ := List.forall_mem_cons.1 hbs
      have hbefore := List.forall_mem_append.2 ⟨hb, List.forall_mem_singleton.2 hb'⟩
      exact List.forall_mem_cons.2 ⟨hps P (.conj hbefore) (.conj hbs'), hpss P hbefore hbs'⟩

/-- What a trace has to mean: a feasible one has a model of all blocks, and the predicates of a
spurious one are formulas over the program. -/
def Trace.Sound (P : Var → Prop) (blocks : List PathFormula) : Trace → Prop
  | .feasible _ => ∃ V : Store, ∀ b ∈ blocks, b.formula.truth V = true
  | .spurious pss => ∀ ps ∈ pss, ∀ p ∈ ps, p.expr.IsFormula P

/-- A trace means what it has to: a model of all blocks, or predicates over the program. -/
theorem Trace.ofBlocks_traces (blocks : List PathFormula) :
    Traces (Trace.ofBlocks blocks) fun trace => ∀ P,
      (∀ b ∈ blocks, b.formula.IsFormula (Known P)) → trace.Sound P blocks := by
  have hformulas {P : Var → Prop} (hbs : ∀ b ∈ blocks, b.formula.IsFormula (Known P)) :
      ∀ e ∈ blocks.map (·.formula), e.IsFormula (Known P) := by
    intro e he
    obtain ⟨b, hb, rfl⟩ := List.mem_map.1 he
    exact hbs b hb
  have hsolve : Asks (inScope do modify (·.assert (Expr.conj (blocks.map (·.formula)))); solve)
      (fun answer => answer = .sat → ∀ P, (∀ b ∈ blocks, b.formula.IsFormula (Known P)) →
        ∃ V : Store, ∀ b ∈ blocks, b.formula.truth V = true)
      fun _ => True := by
    intro s answer s' hs h
    obtain ⟨t, ht, rfl⟩ := inScope_assert_ok hs h
    obtain ⟨hscopes, -, htranscript, -⟩ := Solver.solve_ok ht
    have hpop : t.pop = { t with scopes := [[]] } := by
      simp [Solver.pop, hscopes]
    rw [hpop]
    refine ⟨[_], ⟨rfl, htranscript⟩, fun hsat P hbs => ?_, fun _ => trivial⟩
    subst hsat
    obtain ⟨m, hm, -, hmodels⟩ := Solver.models_of_sat
      (by simpa [Solver.assertions] using Expr.IsFormula.conj (hformulas hbs)) ht
    refine ⟨m.env hm, fun b hb => ?_⟩
    have hwhole := hmodels (Expr.conj (blocks.map (·.formula))) (by simp [Solver.assertions])
    rw [Expr.truth_conj, List.all_eq_true] at hwhole
    exact hwhole _ (List.mem_map.2 ⟨b, hb, rfl⟩)
  refine (traces_lift hsolve).bind fun answer hans => ?_
  cases answer with
  | sat =>
    have hget : Asks (get : SolverM Solver) (fun _ => True) fun _ => True := by
      intro s x s' hs h
      cases state_get_ok.1 h
      exact ⟨[], .refl hs, trivial, fun _ => trivial⟩
    exact (traces_lift hget).bind fun s _ => traces_pure (hans rfl)
  | unsat =>
    exact (interpolants_traces [] _).bind fun pss hpss =>
      traces_pure fun P hbs => hpss P (by simp) (hformulas hbs)
  | undefined => exact traces_throw

end Cegar

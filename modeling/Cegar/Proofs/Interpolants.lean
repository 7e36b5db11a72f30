import Cegar.Proofs.Analysis.Numbering
import Cegar.Proofs.Solver.Answers
import Cegar.Proofs.Solver.Effort

/-!
# Interpolants of a spurious trace

The predicates at a cut come from literals that the blocks up to the cut imply and that contradict
the blocks after it. A literal and its opposite are one predicate. If the blocks up to the cut have
a model, the predicates get the signs that they have there, and with these they are an interpolant.
If all questions are decided, none of them can be left out, since each was tried once, together with
all that were kept.

* **`dropNeedless_minimal`**: one pass over the literals leaves no needless one;
* **`interpolate_interpolant`**: the signs at a cut;
* **`Trace.spurious_interpolates`**: the predicates at every cut of a trace;
* **`Trace.not_interpolant_overlong`**: a trace where no signs are right, since the solver gave up
  on the blocks up to the cut.
-/

namespace Cegar

open SolverM

variable {P : Var → Prop} {before after formula : Expr}

/-! ## Needless literals -/

/-- More literals contradict what fewer do. -/
theorem Contradictory.mono {ls ls' : List Expr} (h : Contradictory ls formula) (hls : ls ⊆ ls') :
    Contradictory ls' formula :=
  fun V hV => h V fun l hl => hV l (hls hl)

/-- If the questions were decided, a contradiction is found exactly if there is one. -/
theorem contradicts_determines {ls : List Expr} (hls : ∀ l ∈ ls, l.IsFormula P)
    (hf : formula.IsFormula P) :
    Determines (contradicts ls formula) fun b => b = true ↔ Contradictory ls formula := by
  refine (isUnsat_determines ((Expr.IsFormula.conj hls).and hf)).mono fun b hb => hb.trans ?_
  refine forall_congr' fun V => ?_
  rw [Expr.truth_and, Expr.truth_conj, Bool.and_eq_false_imp, List.all_eq_true]

/-- No literal of a list can be left out, next to those of another list. -/
def Needed (formula : Expr) (kept rest : List Expr) : Prop :=
  ∀ ls e ls', rest = ls ++ e :: ls' → ¬ Contradictory (kept ++ ls ++ ls') formula

/-- Each literal is tried with all that were kept before it. Those that come after it may only get
fewer, so what was needed stays so. -/
theorem dropNeedless_minimal {kept ls : List Expr} (hkept : ∀ l ∈ kept, l.IsFormula P)
    (hls : ∀ l ∈ ls, l.IsFormula P) (hf : formula.IsFormula P) :
    Determines (dropNeedless formula kept ls) fun rs =>
      ∃ rest, rs = kept ++ rest ∧ rest ⊆ ls ∧ Needed formula kept rest := by
  induction ls generalizing kept with
  | nil => exact determines_pure ⟨[], by simp, by simp, fun ls e ls' h => by simp at h⟩
  | cons e es ih =>
    obtain ⟨he, hes⟩ := List.forall_mem_cons.1 hls
    refine (contradicts_determines (List.forall_mem_append.2 ⟨hkept, hes⟩) hf).bind
      fun needless => ?_
    cases needless with
    | true =>
      refine (ih hkept hes).mono fun rs hrs _ => ?_
      obtain ⟨rest, hrs, hsub, hneeded⟩ := hrs
      exact ⟨rest, hrs, List.subset_cons_of_subset e hsub, hneeded⟩
    | false =>
      have hkept' : ∀ l ∈ kept ++ [e], l.IsFormula P :=
        List.forall_mem_append.2 ⟨hkept, List.forall_mem_singleton.2 he⟩
      refine (ih hkept' hes).mono fun rs hrs hneedless => ?_
      obtain ⟨rest, rfl, hsub, hneeded⟩ := hrs
      refine ⟨e :: rest, by simp, List.cons_subset_cons e hsub, fun ls d ls' hsplit hcontra => ?_⟩
      cases ls with
      | nil =>
        -- the literal itself was tried with more literals
        obtain ⟨rfl, rfl⟩ := List.cons.inj hsplit
        rw [List.append_nil] at hcontra
        have hmore : kept ++ rest ⊆ kept ++ es :=
          List.append_subset.2 ⟨List.subset_append_left kept es,
            List.subset_append_of_subset_right kept hsub⟩
        cases hneedless.2 (hcontra.mono hmore)
      | cons d' ls =>
        obtain ⟨rfl, rfl⟩ := List.cons.inj hsplit
        exact hneeded ls d ls' rfl (by simpa using hcontra)

/-! ## Literals at a cut -/

/-- Literals are found only if what comes before the cut is not known to be unsatisfiable, and those
that it implies are known to contradict what comes after it. -/
theorem interpolantLiterals_cases {s s' : Solver} {rs : List Expr}
    (h : interpolantLiterals before after s = .ok (rs, s')) (hrs : rs ≠ []) :
    ∃ ls t u w, isUnsat before s = .ok (false, t) ∧
      impliedLiterals before (candidates before after) t = .ok (ls, u) ∧
      contradicts ls after u = .ok (true, w) ∧ dropNeedless after [] ls w = .ok (rs, s') := by
  unfold interpolantLiterals at h
  split at h
  · cases state_pure_ok.1 h
    exact absurd rfl hrs
  · obtain ⟨known, t, hknown, h⟩ := state_bind_ok.1 h
    cases known with
    | true =>
      cases state_pure_ok.1 h
      exact absurd rfl hrs
    | false =>
      obtain ⟨ls, u, hls, h⟩ := state_bind_ok.1 h
      obtain ⟨found, w, hfound, h⟩ := state_bind_ok.1 h
      cases found with
      | true => exact ⟨ls, t, u, w, hknown, hls, hfound, h⟩
      | false =>
        cases state_pure_ok.1 h
        exact absurd rfl hrs

/-- Literals over candidates are formulas. -/
theorem isFormula_of_signed_candidate (hb : before.IsFormula P) (ha : after.IsFormula P)
    {ls : List Expr} (hls : ∀ l ∈ ls, ∃ e ∈ candidates before after, l = e ∨ l = e.complement) :
    ∀ l ∈ ls, l.IsFormula P := by
  intro l hl
  obtain ⟨e, he, rfl | rfl⟩ := hls l hl
  · exact isFormula_of_mem_candidates hb ha _ he
  · exact (isFormula_of_mem_candidates hb ha _ he).complement

/-- None of the literals that are found can be left out. -/
theorem interpolantLiterals_needed (hb : before.IsFormula P) (ha : after.IsFormula P) :
    Determines (interpolantLiterals before after) (Needed after []) := by
  have hnil : Needed after [] [] := fun ls e ls' h => by simp at h
  unfold interpolantLiterals
  split
  · exact determines_pure hnil
  · refine (isUnsat_asks before).bind_determines fun known _ => ?_
    cases known with
    | true => exact determines_pure hnil
    | false =>
      refine (impliedLiterals_asks before _).bind_determines fun ls hls => ?_
      refine (isUnsat_asks _).bind_determines fun found _ => ?_
      cases found with
      | false => exact determines_pure hnil
      | true =>
        refine (dropNeedless_minimal (by simp) (isFormula_of_signed_candidate hb ha hls) ha).mono ?_
        rintro _ ⟨rest, rfl, -, hneeded⟩
        exact hneeded

/-- Where literals are found, what comes before the cut has a model, if the solver decided whether
it has one. -/
theorem interpolantLiterals_model (hb : before.IsFormula P) {s s' : Solver}
    (hs : s.scopes = [[]]) {rs : List Expr}
    (h : interpolantLiterals before after s = .ok (rs, s')) (hrs : rs ≠ []) :
    ∃ new, Rests s new s' ∧ ((∀ q ∈ new, q.assertions = [before] → q.answer ≠ .undefined) →
      ∃ V : Store, before.truth V = true) := by
  obtain ⟨ls, t, u, w, hknown, hls, hfound, hdrop⟩ := interpolantLiterals_cases h hrs
  obtain ⟨new, hrests, hmodel⟩ := isUnsat_model hb hs hknown
  obtain ⟨new₁, hrests₁, -⟩ := impliedLiterals_asks before _ t ls u hrests.scopes hls
  obtain ⟨new₂, hrests₂, -⟩ := isUnsat_asks _ u true w hrests₁.scopes hfound
  obtain ⟨new₃, hrests₃, -⟩ := dropNeedless_asks after [] ls w rs s' hrests₂.scopes hdrop
  refine ⟨_, ((hrests.trans hrests₁).trans hrests₂).trans hrests₃, fun hd => hmodel ?_⟩
  exact fun q hq => hd q (by simp [hq])

/-- How the predicates at a cut come from literals. -/
structure FromLiterals (before after : Expr) (ls : List Expr) (ps : List Predicate) : Prop where
  candidate : ∀ l ∈ ls, ∃ e ∈ candidates before after, l = e ∨ l = e.complement
  predicate : ∀ l ∈ ls, ∃ p ∈ ps, p.expr = l.normalAtom.unindexed
  literal : ∀ p ∈ ps, ∃ l ∈ ls, p.expr = l.normalAtom.unindexed

/-- The predicates at a cut are the normal forms of the literals there, without indices. -/
theorem interpolate_literals {s s' : Solver} (hs : s.scopes = [[]]) {ps : List Predicate}
    (h : interpolate before after s = .ok (.ok ps, s')) :
    ∃ ls, interpolantLiterals before after s = .ok (ls, s') ∧ FromLiterals before after ls ps := by
  obtain ⟨ls, qs, hls, hofExprs, rfl⟩ := interpolate_ok h
  obtain ⟨-, -, hcandidates, -⟩ := interpolantLiterals_asks before after s ls s' hs hls
  refine ⟨ls, hls, hcandidates, fun l hl => ?_, fun p hp => ?_⟩
  · obtain ⟨p, hp, hexpr⟩ := Predicate.exists_mem_ofExprs hofExprs _ (List.mem_map_of_mem hl)
    exact ⟨p, List.mem_eraseDups.2 hp, hexpr⟩
  · obtain ⟨l, hl, hexpr⟩ := List.mem_map.1 (mem_ofExprs hofExprs p (List.mem_eraseDups.1 hp))
    exact ⟨l, hl, hexpr.symm⟩

theorem Predicate.expr_injective : Function.Injective Predicate.expr := by
  rintro ⟨e, he⟩ ⟨d, hd⟩ h
  cases h
  rfl

namespace FromLiterals

variable {ls : List Expr} {ps : List Predicate} {m : SsaMap}

/-- There are predicates only where there are literals. -/
theorem ne_nil (h : FromLiterals before after ls ps) (hps : ps ≠ []) : ls ≠ [] := by
  obtain ⟨p, hp⟩ := List.exists_mem_of_ne_nil ps hps
  obtain ⟨l, hl, -⟩ := h.literal p hp
  exact List.ne_nil_of_mem hl

/-- The variables of a predicate, in their latest versions, are shared ones. -/
theorem shared (h : FromLiterals before after ls ps) (hshared : SharesLatest m before after)
    {p : Predicate} (hp : p ∈ ps) {v : Var} (hv : v ∈ p.expr.vars) :
    m.stamp v ∈ sharedVars before after := by
  obtain ⟨l, hl, hexpr⟩ := h.literal p hp
  obtain ⟨e, he, hle⟩ := h.candidate l hl
  have hatom := (mem_candidates he).1
  rw [hexpr, Expr.normalAtom_of_literal hatom hle] at hv
  obtain ⟨w, hw, rfl⟩ := Expr.mem_vars_mapVars.1 hv
  have hmem := mem_sharedVars_of_candidate he w (((Expr.normalAtom_of_isAtom hatom).2 w).1 hw)
  rwa [SsaMap.stamp_unindexed (hshared w hmem)]

/-- If all literals are true in a store, each of them says that its predicate has the truth value
that it has there. -/
theorem truth_iff (h : FromLiterals before after ls ps) (hshared : SharesLatest m before after)
    (hb : before.IsFormula P) (ha : after.IsFormula P) {W : Store}
    (hW : ∀ l ∈ ls, l.truth W = true) {l : Expr} (hl : l ∈ ls) {p : Predicate}
    (hp : p.expr = l.normalAtom.unindexed) (V : Store) :
    l.truth V = true ↔ (p.expr.indexed m).truth V = (p.expr.indexed m).truth W := by
  obtain ⟨e, he, hle⟩ := h.candidate l hl
  obtain ⟨q, hq, b, hsign⟩ :=
    exists_signed_predicate hshared hb ha he hle ⟨p, List.mem_singleton_self p, hp⟩
  cases List.mem_singleton.1 hq
  rw [hsign V, (hsign W).1 (hW l hl)]

end FromLiterals

/-! ## Signs at a cut -/

/-- The predicates with these signs follow from what comes before a cut and contradict what comes
after it. The numbering is the one at the cut. -/
structure Interpolant (m : SsaMap) (before after : Expr) (ps : List Predicate)
    (sign : Predicate → Bool) : Prop where
  implied : ∀ V : Store, before.truth V = true →
    ((Expr.cube (ps.map (·.expr)) (ps.map sign)).indexed m).truth V = true
  contradictory : ∀ V : Store,
    ((Expr.cube (ps.map (·.expr)) (ps.map sign)).indexed m).truth V = true → after.truth V = false

/-- Without any of the predicates there is no contradiction. -/
def Irredundant (m : SsaMap) (after : Expr) (ps : List Predicate) (sign : Predicate → Bool) :
    Prop :=
  ∀ p ∈ ps, ∃ V : Store, after.truth V = true ∧
    ((Expr.cube ((ps.filter (· ≠ p)).map (·.expr))
      ((ps.filter (· ≠ p)).map sign)).indexed m).truth V = true

/-- The signed predicates hold together exactly if each has its sign. -/
theorem truth_signed {ps : List Predicate} {sign : Predicate → Bool} {m : SsaMap} {V : Store} :
    ((Expr.cube (ps.map (·.expr)) (ps.map sign)).indexed m).truth V = true ↔
      ∀ p ∈ ps, (p.expr.indexed m).truth V = sign p := by
  rw [truth_indexed_cube (by rw [List.length_map]), signs_ofPredicates, List.map_map,
    List.map_inj_left]
  simp only [Function.comp_apply, Expr.truth_indexed_after]

/-- The signs are those in some store before the cut. -/
theorem interpolate_interpolant {m : SsaMap} (hshared : SharesLatest m before after)
    (hb : before.IsFormula fun _ => True) (ha : after.IsFormula fun _ => True) {s s' : Solver}
    (hs : s.scopes = [[]]) {ps : List Predicate} (hps : ps ≠ [])
    (h : interpolate before after s = .ok (.ok ps, s')) {W : Store} (hW : before.truth W = true) :
    ∃ new, Rests s new s' ∧ (Truthful new →
      Interpolant m before after ps fun p => (p.expr.indexed m).truth W) ∧
      (Decisive new → Irredundant m after ps fun p => (p.expr.indexed m).truth W) := by
  obtain ⟨ls, hls, hfrom⟩ := interpolate_literals hs h
  have hne := hfrom.ne_nil hps
  obtain ⟨new, hrests, -, hseparate⟩ := interpolantLiterals_separate hb ha s ls s' hs hls
  have htruth (ht : Truthful new) {l : Expr} (hl : l ∈ ls) {p : Predicate}
      (hp : p.expr = l.normalAtom.unindexed) :=
    hfrom.truth_iff hshared hb ha ((hseparate ht hne).1 W hW) hl hp
  refine ⟨new, hrests, fun ht => ⟨fun V hV => ?_, fun V hV => ?_⟩, fun hd p hp => ?_⟩
  · refine truth_signed.2 fun p hp => ?_
    obtain ⟨l, hl, hexpr⟩ := hfrom.literal p hp
    exact (htruth ht hl hexpr V).1 ((hseparate ht hne).1 V hV l hl)
  · refine (hseparate ht hne).2 V fun l hl => ?_
    obtain ⟨p, hp, hexpr⟩ := hfrom.predicate l hl
    exact (htruth ht hl hexpr V).2 (truth_signed.1 hV p hp)
  · obtain ⟨new', hrests', hneeded⟩ := interpolantLiterals_needed hb ha s ls s' hs hls
    obtain rfl := hrests.unique hrests'
    obtain ⟨l, hl, hexpr⟩ := hfrom.literal p hp
    obtain ⟨ls₁, ls₂, hsplit⟩ := List.append_of_mem hl
    -- without the literal of this predicate there is a model of the other ones
    obtain ⟨V, hV, hafter⟩ : ∃ V : Store, (∀ k ∈ ls₁ ++ ls₂, k.truth V = true) ∧
        after.truth V = true := by
      have hnot := hneeded hd ls₁ l ls₂ hsplit
      simpa [Contradictory] using hnot
    refine ⟨V, hafter, truth_signed.2 fun q hq => ?_⟩
    obtain ⟨hq, hne⟩ := List.mem_filter.1 hq
    obtain ⟨k, hk, hexpr'⟩ := hfrom.literal q hq
    have hother : k ≠ l := by
      rintro rfl
      exact of_decide_eq_true hne (Predicate.expr_injective (hexpr'.trans hexpr.symm))
    refine (htruth hd.truthful hk hexpr' V).1 (hV k ?_)
    rw [hsplit] at hk
    simpa [hother] using hk

/-! ## Traces -/

/-- What a sequence of blocks says. -/
def chainFormula (bs : List PathFormula) : Expr := .conj (bs.map (·.formula))

/-- What a sequence of well-sorted blocks says is well-sorted. -/
theorem isFormula_chainFormula {bs : List PathFormula} (h : ∀ b ∈ bs, b.Sorted) :
    (chainFormula bs).IsFormula fun _ => True := by
  refine .conj fun e he => ?_
  obtain ⟨b, hb, rfl⟩ := List.mem_map.1 he
  exact h b hb

theorem isBranch_stamp (m : SsaMap) (v : Var) : (m.stamp v).isBranch = v.isBranch := by
  unfold SsaMap.stamp
  split <;> rfl

/-- A variable of a sequence of blocks is one of some block. -/
theorem exists_block_of_mem_vars {bs : List PathFormula} {v : Var}
    (h : v ∈ (chainFormula bs).vars) : ∃ b ∈ bs, v ∈ b.formula.vars := by
  obtain ⟨e, he, hv⟩ := Expr.exists_mem_vars_conj h
  obtain ⟨b, hb, rfl⟩ := List.mem_map.1 he
  exact ⟨b, hb, hv⟩

/-- Blocks that are numbered one after the other share only the latest versions at a cut. -/
theorem Consecutive.sharesLatest {bs cs : List PathFormula} {cut : PathFormula} {n : SsaMap}
    (h : Consecutive (bs ++ cut :: cs) n) :
    SharesLatest cut.ssa (chainFormula (bs ++ [cut])) (chainFormula cs) := by
  intro v hv
  obtain ⟨hafter, hbefore, -⟩ := mem_sharedVars.1 hv
  obtain ⟨b, hb, hv⟩ := exists_block_of_mem_vars hbefore
  obtain ⟨c, hc, hv'⟩ := exists_block_of_mem_vars hafter
  exact h.shares hb hc hv hv'

/-- Each cut of a trace is looked at by itself. -/
theorem Trace.spurious_cut {blocks : List PathFormula} {s t s' : Solver} (hs : s.scopes = [[]])
    (hunsat : (s.withBlocks blocks).solve = .ok (.unsat, t)) {r : Except Error Trace}
    (h : ofBlocks blocks s = .ok (r, s')) :
    ∃ pss new, r = .ok (.spurious pss) ∧ Rests s new s' ∧ pss.length = blocks.length ∧
      ∀ bs cut cs ps, blocks = bs ++ cut :: cs → pss[bs.length]? = some ps → ps ≠ [] →
        cs ≠ [] ∧ ∃ t t' part, t.scopes = [[]] ∧ Rests t part t' ∧ part ⊆ new ∧
          interpolate (chainFormula (bs ++ [cut])) (chainFormula cs) t = .ok (.ok ps, t') := by
  obtain ⟨answer, u, hsolve, hcases⟩ := ofBlocks_cases hs h
  cases hunsat.symm.trans hsolve
  obtain ⟨hno, -⟩ | ⟨hno, -⟩ | ⟨-, pss, hcuts, rfl⟩ := hcases
  · cases hno
  · cases hno
  · obtain ⟨hscopes, -, htranscript, -⟩ := Solver.solve_ok hunsat
    have hpop : t.pop = { t with scopes := [[]] } := by
      simp [Solver.pop, hscopes, Solver.withBlocks]
    rw [hpop] at hcuts
    obtain ⟨hlength, new, hrests, hcut⟩ := interpolants_ok rfl hcuts
    refine ⟨pss, new ++ [⟨(s.withBlocks blocks).assertions, .unsat⟩], rfl, ⟨hrests.scopes, ?_⟩,
      by rw [hlength, List.length_map], ?_⟩
    · rw [hrests.transcript, List.append_assoc]
      exact congrArg (new ++ ·) htranscript
    · rintro bs cut cs ps rfl hps hne
      obtain ⟨hlt, u, u', part, hu, hpart, hsub, hrun⟩ := hcut bs.length ps hps hne
      refine ⟨?_, u, u', part, hu, hpart, List.subset_append_of_subset_left _ hsub, ?_⟩
      · rintro rfl
        simp at hlt
      · have hsides : (bs ++ cut :: cs).map (·.formula) =
            (bs ++ [cut]).map (·.formula) ++ cs.map (·.formula) := by
          rw [← List.map_append, List.append_assoc, List.singleton_append]
        have hcount : ((bs ++ [cut]).map (·.formula)).length = bs.length + 1 := by
          rw [List.length_map, List.length_append, List.length_singleton]
        rw [hsides, List.nil_append, List.take_left' hcount, List.drop_left' hcount] at hrun
        exact hrun

/-- The solver was asked nothing about the formula by itself, or it could tell. -/
def Decided (e : Expr) (qs : List Exchange) : Prop :=
  ∀ q ∈ qs, q.assertions = [e] → q.answer ≠ .undefined

/-- The predicates at a cut of a spurious trace are about variables, other than those of branches,
that occur on both sides of the cut. Those of their literals that the blocks up to the cut imply
contradict the blocks after it. If the blocks up to the cut have a model, or the solver decided
whether they have one, there is one sign for each predicate, with which the predicates are an
interpolant; and if all questions were decided, none of them can be left out. At the end of the
trace there are no predicates. -/
theorem Trace.spurious_interpolates {blocks : List PathFormula} {n : SsaMap}
    (hblocks : ∀ b ∈ blocks, b.Sorted) (hnumbered : Consecutive blocks n) {s t s' : Solver}
    (hs : s.scopes = [[]]) (hunsat : (s.withBlocks blocks).solve = .ok (.unsat, t))
    {r : Except Error Trace} (h : ofBlocks blocks s = .ok (r, s')) :
    ∃ pss new, r = .ok (.spurious pss) ∧ Rests s new s' ∧ pss.length = blocks.length ∧
      (∀ ps, pss.getLast? = some ps → ps = []) ∧
      (Truthful new → ∀ bs cut cs ps, blocks = bs ++ cut :: cs → pss[bs.length]? = some ps →
        ps ≠ [] →
        (∀ p ∈ ps, ∀ v ∈ p.expr.vars, v.isBranch = false ∧
          (∃ b ∈ bs ++ [cut], cut.ssa.stamp v ∈ b.formula.vars) ∧
          ∃ c ∈ cs, cut.ssa.stamp v ∈ c.formula.vars) ∧
        Separates cut.ssa (chainFormula (bs ++ [cut])) (chainFormula cs) ps ∧
        ((∃ V : Store, (chainFormula (bs ++ [cut])).truth V = true) ∨
            Decided (chainFormula (bs ++ [cut])) new →
          ∃ sign, Interpolant cut.ssa (chainFormula (bs ++ [cut])) (chainFormula cs) ps sign ∧
            ((∀ q ∈ new, q.answer ≠ .undefined) →
              Irredundant cut.ssa (chainFormula cs) ps sign))) := by
  obtain ⟨pss, new, rfl, hrests, hlength, hcuts⟩ := spurious_cut hs hunsat h
  refine ⟨pss, new, rfl, hrests, hlength, fun ps hlast => ?_, ?_⟩
  · -- after the last block comes none
    refine Classical.byContradiction fun hne => ?_
    rcases List.eq_nil_or_concat' blocks with rfl | ⟨bs, cut, rfl⟩
    · simp [List.length_eq_zero_iff.1 hlength] at hlast
    · rw [List.getLast?_eq_getElem?, hlength] at hlast
      exact (hcuts bs cut [] ps rfl (by simpa using hlast) hne).1 rfl
  · rintro ht bs cut cs ps rfl hps hne
    obtain ⟨-, u, u', part, hu, hpart, hsub, hrun⟩ := hcuts bs cut cs ps rfl hps hne
    have hshared := hnumbered.sharesLatest
    rw [← List.singleton_append, ← List.append_assoc] at hblocks
    obtain ⟨hbefore, hafter⟩ := List.forall_mem_append.1 hblocks
    have hb := isFormula_chainFormula hbefore
    have ha := isFormula_chainFormula hafter
    have htruthful : Truthful part := fun q hq => ht q (hsub hq)
    obtain ⟨ls, hls, hfrom⟩ := interpolate_literals hu hrun
    refine ⟨fun p hp v hv => ?_, ?_, fun hmodel => ?_⟩
    · obtain ⟨hafter, hbefore, hbranch⟩ := mem_sharedVars.1 (hfrom.shared hshared hp hv)
      rw [isBranch_stamp] at hbranch
      exact ⟨hbranch, exists_block_of_mem_vars hbefore, exists_block_of_mem_vars hafter⟩
    · obtain ⟨part', hpart', hcut⟩ := interpolate_separates hb ha hu hrun
      obtain rfl := hpart.unique hpart'
      exact (hcut htruthful hne).separates _ hshared
    · obtain ⟨W, hW⟩ : ∃ W : Store, (chainFormula (bs ++ [cut])).truth W = true := by
        refine hmodel.elim id fun hdecided => ?_
        obtain ⟨part', hpart', hmodel⟩ :=
          interpolantLiterals_model hb hu hls (hfrom.ne_nil hne)
        obtain rfl := hpart.unique hpart'
        exact hmodel fun q hq => hdecided q (hsub hq)
      obtain ⟨part', hpart', hinterpolant, hirredundant⟩ :=
        interpolate_interpolant hshared hb ha hu hne hrun hW
      obtain rfl := hpart.unique hpart'
      exact ⟨_, hinterpolant htruthful, fun hdecided =>
        hirredundant ⟨htruthful, fun q hq => hdecided q (hsub hq)⟩⟩

/-! ## A value that is ruled out -/

deriving instance DecidableEq for Trace

/-- A block that reads the latest versions only. -/
theorem PathFormula.Spans.of_latest {m : SsaMap} {b : PathFormula} (hle : m ≤ b.ssa)
    (h : ∀ v ∈ b.formula.vars.toList, v.index = some (b.ssa.index v.name)) : b.Spans m :=
  ⟨hle, fun v hv => ⟨_, h v (Std.ExtTreeSet.mem_toList.2 hv), hle v.name, UInt32.le_refl _⟩⟩

/-- Without another write after `zeroOrTwo`, `x` is `1`. -/
def thenOne : PathFormula := ⟨(hasValue 1).expr.indexed zeroOrTwo.ssa, zeroOrTwo.ssa⟩

/-- What is asked about the two blocks, the last question first. -/
def thenOneAsked : List Exchange :=
  let f := zeroOrTwo.formula
  let value := fun c => (hasValue c).expr.indexed zeroOrTwo.ssa
  [⟨[value 1], .sat⟩, ⟨[.logic .and (.not (value 1)) (value 1)], .unsat⟩,
    ⟨[.logic .and f (value 1)], .unsat⟩, ⟨[.logic .and f (.not (value 1))], .sat⟩,
    ⟨[.logic .and f (value 2)], .sat⟩, ⟨[.logic .and f (.not (value 2))], .sat⟩,
    ⟨[.logic .and f (value 0)], .sat⟩, ⟨[.logic .and f (.not (value 0))], .sat⟩,
    ⟨[f], .sat⟩, ⟨[.logic .and f (value 1)], .unsat⟩]

/-- Both answers are decided, and what was answered with `unsat` has no model. -/
theorem decisive_thenOneAsked : Decisive thenOneAsked := by
  let one := (hasValue 1).expr.indexed zeroOrTwo.ssa
  have hopposite (V : Store) : (Expr.logic .and (.not one) one).truth V = false := by
    simp [LogicOp.combine]
  have hblocks := truth_zeroOrTwo_and (c := 1) (by decide) (by decide)
  refine ⟨truthful_of_refuted [_, _, _] rfl (by decide +kernel) ?_, by decide⟩
  exact List.forall_mem_cons.2 ⟨hopposite, List.forall_mem_cons.2
    ⟨hblocks, List.forall_mem_singleton.2 hblocks⟩⟩

/-- All that follows from `zeroOrTwo` about the values is that `x` is not `1`. -/
theorem Trace.spurious_interpolates_zeroOrTwo :
    ∃ s', ofBlocks [zeroOrTwo, thenOne] (.unasked 16 [[]]) =
        .ok (.ok (.spurious [[hasValue 1], []]), s') ∧ Decisive s'.transcript ∧
      ∃ sign, Interpolant zeroOrTwo.ssa (chainFormula [zeroOrTwo]) (chainFormula [thenOne])
          [hasValue 1] sign ∧
        Irredundant zeroOrTwo.ssa (chainFormula [thenOne]) [hasValue 1] sign := by
  obtain ⟨s', hrun, hasked⟩ : ∃ s', ofBlocks [zeroOrTwo, thenOne] (.unasked 16 [[]]) =
      .ok (.ok (.spurious [[hasValue 1], []]), s') ∧ s'.transcript = thenOneAsked :=
    recorded_eq_some (by decide +kernel)
  have hd : Decisive s'.transcript := hasked ▸ decisive_thenOneAsked
  have hsorted : ∀ b ∈ [zeroOrTwo, thenOne], b.formula.WellSorted ∧ b.formula.ty = .bool := by
    decide +kernel
  have hnumbered : Consecutive [zeroOrTwo, thenOne] zeroOrTwo.ssa :=
    .snoc (.snoc .nil (.of_latest (fun _ => UInt32.zero_le) (by decide +kernel)))
      (.of_latest (SsaMap.le_refl _) (by decide +kernel))
  obtain ⟨t, hunsat⟩ : ∃ t, (Solver.withBlocks (.unasked 16 [[]]) [zeroOrTwo, thenOne]).solve =
      .ok (.unsat, t) := Solver.exists_solve (by decide +kernel)
  obtain ⟨pss, new, heq, hrests, -, -, hcuts⟩ := spurious_interpolates
    (fun b hb => ⟨(hsorted b hb).1, (hsorted b hb).2, fun _ _ => trivial⟩) hnumbered rfl hunsat hrun
  cases heq
  rw [hrests.eq_transcript] at hcuts
  obtain ⟨-, -, hsigned⟩ := hcuts hd.truthful [] zeroOrTwo [thenOne] [hasValue 1] rfl rfl (by simp)
  obtain ⟨sign, hinterpolant, hirredundant⟩ := hsigned (.inl ⟨uniform 0, by decide +kernel⟩)
  exact ⟨s', hrun, hd, sign, hinterpolant, hirredundant hd.decided⟩

/-! ## Literals that are opposite

If the solver cannot tell whether the blocks up to the cut have a model, and they have none, it may
still find out that they imply a literal and its opposite. These are one predicate, and no sign of
it contradicts the blocks after the cut. -/

/-- If the opposite of each candidate is refuted, all of them are implied. -/
theorem impliedLiterals_replies {range : Int128} {es : List Expr}
    (hes : ∀ e ∈ es, Answers range (formula.and e.complement) .unsat) :
    Replies range (impliedLiterals formula es) es
      (es.reverse.map fun e => ⟨[formula.and e.complement], .unsat⟩) := by
  induction es with
  | nil => exact replies_pure []
  | cons e es ih =>
    obtain ⟨he, hes⟩ := List.forall_mem_cons.1 hes
    rw [List.reverse_cons, List.map_append]
    have hsign : Replies range (impliedLiteral? formula e) (some true) ([] ++ _) :=
      (isUnsat_replies he).bind (replies_pure (some true))
    have hrest : Replies range (impliedLiterals formula es >>= fun rest => pure (e :: rest))
        (e :: es) ([] ++ _) := (ih hes).bind (replies_pure (e :: es))
    exact hsign.bind hrest

/-- A literal is kept unless the others are known to contradict the formula. -/
theorem dropNeedless_replies {range : Int128} {e : Expr} {kept es rs : List Expr}
    {asked : List Exchange} (answer : Answer)
    (h : Answers range ((Expr.conj (kept ++ es)).and formula) answer)
    (hrest : Replies range
      (dropNeedless formula (if answer = .unsat then kept else kept ++ [e]) es) rs asked) :
    Replies range (dropNeedless formula kept (e :: es)) rs
      (asked ++ [⟨[(Expr.conj (kept ++ es)).and formula], answer⟩]) := by
  refine (isUnsat_replies h).bind ?_
  by_cases hans : answer = .unsat
  · simpa [hans] using hrest
  · simpa [hans] using hrest

/-- The predicates follow from the literals without further questions. -/
theorem interpolate_replies {range : Int128} {ls : List Expr} {ps : List Predicate}
    {asked : List Exchange} (h : Replies range (interpolantLiterals before after) ls asked)
    (hps : Predicate.ofExprs (ls.map fun e => e.normalAtom.unindexed) = .ok ps) :
    Replies range (interpolate before after).run (.ok ps.eraseDups) asked := by
  have hfound : Replies range (do
      let ps ← MonadExcept.ofExcept (Predicate.ofExprs (ls.map fun e => e.normalAtom.unindexed))
      return ps.eraseDups : TraceM (List Predicate)).run (.ok ps.eraseDups) [] := by
    rw [hps]
    exact replies_pure (Except.ok ps.eraseDups)
  rw [← List.nil_append asked]
  exact h.try_lift.try_bind hfound

/-- A trace of two blocks has one cut. -/
theorem Trace.ofBlocks_replies {range : Int128} {b c : PathFormula} {ps : List Predicate}
    {asked : List Exchange} (hwhole : Answers range (chainFormula [b, c]) .unsat)
    (h : Replies range (interpolate (chainFormula [b]) (chainFormula [c])).run (.ok ps) asked) :
    Replies range (ofBlocks [b, c]).run (.ok (.spurious [ps, []]))
      (asked ++ [⟨[chainFormula [b, c]], .unsat⟩]) := by
  have hcuts : Replies range (interpolants [] [b.formula, c.formula]).run (.ok [ps, []])
      ([] ++ asked) := h.try_bind (replies_pure (Except.ok [ps, []]))
  have hspurious : Replies range (interpolants [] [b.formula, c.formula] >>= fun pss =>
      (pure (.spurious pss) : TraceM Trace)).run (.ok (.spurious [ps, []])) ([] ++ asked) :=
    hcuts.try_bind (replies_pure (Except.ok (Trace.spurious [ps, []])))
  exact (inScope_replies hwhole).try_lift.try_bind hspurious

/-- The integer variable of `beyond`. -/
def counter : Var := ⟨"y", .int, some 0⟩

/-- No integer satisfies it, since addition does not wrap around. Nothing but a search tells. -/
def beyond (k : Int128) : Expr := .cmp .lt (.arith .add (.var counter) (.num k)) (.var counter)

/-- Saturating addition of what is not negative does not go back. -/
theorem Int128.not_add_lt {i k : Int128} (hk : 0 ≤ k.val) : ¬ i + k < i := by
  have hmin := i.min_le
  have hmax := i.le_max
  rw [lt_def, add_def, clamp]
  split
  · omega
  · split
    · exact Int.not_lt.2 hmax
    · show ¬ i.val + k.val < i.val
      omega

theorem truth_beyond {k : Int128} (hk : 0 ≤ k.val) (V : Store) : (beyond k).truth V = false := by
  obtain ⟨i, hi⟩ : ∃ i, V.val counter = .int i := ⟨_, Datum.eq_int_of_ty (V.typed counter)⟩
  have hvalue : (beyond k).truth V = CmpOp.lt.holds (i + k) i := by
    simp only [beyond, Expr.truth, Expr.valueIn, hi]
    rfl
  rw [hvalue]
  exact decide_eq_false (Int128.not_add_lt hk)

namespace Query

variable {q : Query} {k : Int128} {rest : List Expr} {a : Assignment}

/-- Once `counter` has a value, propagation finds that the comparison is false. -/
theorem propagate_beyond (hq : q.conjuncts = beyond k :: rest) (hk : 0 ≤ k.val) {i : Int128}
    (ha : a[counter]? = some (.int i)) : q.propagate a = none := by
  have heval : (beyond k).eval a false = some (.bool false) := by
    simp [beyond, Expr.eval, ha, CmpOp.apply, CmpOp.holds, ArithOp.apply, Int128.not_add_lt hk]
  simp [propagate, propagateWithin, hq, pass, heval]

/-- All integers of the box are tried. -/
theorem failsIn_beyond {bound range : Int128} (hq : q.conjuncts = beyond k :: rest)
    (hk : 0 ≤ k.val) (hbound : q.differenceBound = some bound) (ha : a.contains counter = false) :
    FailsIn (q.settle range [counter] a) (2 * bound.val.toNat + 1) := by
  have hd : q.domain range counter a = .ok (.box bound) := by
    simp only [domain, hbound]
    rfl
  exact .exhausted ha hd rfl fun i => propagate_beyond hq hk Std.ExtTreeMap.getElem?_insert_self

end Query

def flag (name : String) : Var := ⟨name, .bool, some 0⟩

/-- A literal about the flag `b`, and its opposite. -/
def isSet : Expr := .cmp .eq (.var (flag "b")) (.bool true)

def isUnset : Expr := .cmp .ne (.var (flag "b")) (.bool true)

/-- A block that cannot be executed. For each value of `b`, the search needs about a million steps
to find out. -/
def overlong : PathFormula where
  formula := .logic .and (beyond 250000)
    (.logic .and (.logic .or (.var (flag "b")) (.not (.var (flag "b")))) (.var (flag "c")))
  ssa := .empty

/-- A block that cannot come after `overlong`, as is seen from the flag `c`. -/
def eitherWay : PathFormula where
  formula := .logic .and (.not (.var (flag "c"))) (.logic .or isSet isUnset)
  ssa := .empty

/-- What is left to search for `overlong` and further literals. -/
def overlongConjuncts (literals : List Expr) : List Expr :=
  overlong.formula.conjuncts ++ literals

/-- The question comes to a search for `overlong` and these literals. -/
def AsksOverlong (e : Expr) (literals : List Expr) : Prop :=
  e.known = none ∧
  (Query.ofConjuncts (Definition.eliminate ([e].flatMap Expr.conjuncts)).1).toOption.map
      (fun q => (q.conjuncts, q.vars, q.differenceBound)) =
    some (overlongConjuncts literals, [flag "b", flag "c", counter], some 500003)

instance (e : Expr) (literals : List Expr) : Decidable (AsksOverlong e literals) :=
  inferInstanceAs (Decidable (_ ∧ _))

/-- What is assigned when `counter` is tried. -/
def flagged (b : Bool) : Assignment :=
  ((∅ : Assignment).insert (flag "c") (.bool true)).insert (flag "b") (.bool b)

/-- The search goes on after `b` has got this value. -/
def Survives (literals : List Expr) (b : Bool) : Prop :=
  Query.propagateWithin (overlongConjuncts literals) 4 (flagged b) = some (flagged b)

instance (literals : List Expr) (b : Bool) : Decidable (Survives literals b) :=
  inferInstanceAs (Decidable (_ = _))

namespace AsksOverlong

variable {e : Expr} {literals : List Expr} {q : Query}

/-- All questions about `overlong` come to the same query, up to their literals. -/
theorem exists_query (h : AsksOverlong e literals) :
    ∃ q, Query.ofConjuncts (Definition.eliminate ([e].flatMap Expr.conjuncts)).1 = .ok q ∧
      q.conjuncts = overlongConjuncts literals ∧ q.vars = [flag "b", flag "c", counter] ∧
      q.differenceBound = some 500003 := by
  obtain ⟨q, hq, heq⟩ := Option.map_eq_some_iff.1 h.2
  simp only [Prod.mk.injEq] at heq
  exact ⟨q, except_toOption_eq_some.1 hq, heq⟩

/-- Once the flags have values, a step is spent on each integer of the box. -/
theorem failsIn_flagged (hconjuncts : q.conjuncts = overlongConjuncts literals)
    (hbound : q.differenceBound = some 500003) (b : Bool) :
    Query.FailsIn (q.settle 16 [flag "c", counter] (flagged b)) 1000007 := by
  refine .assigned ?_ (Query.failsIn_beyond hconjuncts (by decide) hbound ?_)
  · cases b <;> decide +kernel
  · cases b <;> decide +kernel

/-- Two values of `b` that survive are too much. -/
theorem answers (h : AsksOverlong e literals)
    (hstart : Query.propagateWithin (overlongConjuncts literals) 4 ∅ =
      some ((∅ : Assignment).insert (flag "c") (.bool true)))
    (hrefuted : ∀ b, ¬ Survives literals b →
      Query.propagateWithin (overlongConjuncts literals) 4 (flagged b) = none) :
    Answers 16 e (if ∀ b, Survives literals b then .undefined else .unsat) := by
  obtain ⟨q, hq, hconjuncts, hvars, hbound⟩ := h.exists_query
  have hpropagate (a : Assignment) :
      q.propagate a = Query.propagateWithin (overlongConjuncts literals) 4 a := by
    rw [Query.propagate, hconjuncts, hvars]
    rfl
  have hvalue (b : Bool) : Query.FailsIn (q.step (q.settle 16 [flag "c", counter]) (flagged b))
      (if Survives literals b then 1000007 + 1 else 1) := by
    split
    · next hsurvives =>
      exact .propagated ((hpropagate _).trans hsurvives) (failsIn_flagged hconjuncts hbound b)
    · next hno => exact .refuted ((hpropagate _).trans (hrefuted b hno))
  have hsettle := Query.FailsIn.settle_bool (x := flag "b") rfl (by decide +kernel)
    (hvalue false) (hvalue true)
  rw [← hvars] at hsettle
  have hanswers := Query.FailsIn.answers h.1 hq (.propagated ((hpropagate ∅).trans hstart) hsettle)
  by_cases hfalse : Survives literals false <;> by_cases htrue : Survives literals true <;>
    simpa [Bool.forall_bool, hfalse, htrue, Query.stepLimit] using hanswers

end AsksOverlong

/-- Both values of `b` are tried, which takes more steps than there are. -/
theorem answers_overlong : Answers 16 overlong.formula .undefined := by
  have h : AsksOverlong overlong.formula [] := by decide +kernel
  have hanswers := h.answers (by decide +kernel) (by decide +kernel)
  rwa [if_pos (by decide +kernel)] at hanswers

/-- With `b` fixed the search ends in time. -/
theorem answers_overlong_flag :
    Answers 16 (overlong.formula.and (.not (.var (flag "b")))) .unsat := by
  have h : AsksOverlong (overlong.formula.and (.not (.var (flag "b"))))
      [.not (.var (flag "b"))] := by decide +kernel
  obtain ⟨q, hq, hconjuncts, hvars, hbound⟩ := h.exists_query
  have hpropagate : q.propagate ∅ = some (flagged false) := by
    rw [Query.propagate, hconjuncts, hvars]
    decide +kernel
  have hsettle := Query.FailsIn.assigned (x := flag "b") (by decide +kernel)
    (AsksOverlong.failsIn_flagged hconjuncts hbound false)
  rw [← hvars] at hsettle
  exact Query.FailsIn.answers h.1 hq (.propagated hpropagate hsettle)

/-- The candidates at the cut between the two blocks. -/
def overlongCandidates : List Expr := [.var (flag "b"), .var (flag "c"), isSet, isUnset]

/-- Each candidate fixes `b` or is refuted at once. -/
theorem answers_overlong_candidates :
    ∀ e ∈ overlongCandidates, Answers 16 (overlong.formula.and e.complement) .unsat := by
  have hset : AsksOverlong (overlong.formula.and (.not isSet)) [.not isSet] := by decide +kernel
  have hunset : AsksOverlong (overlong.formula.and (.not isUnset)) [.not isUnset] := by
    decide +kernel
  have hset := hset.answers (by decide +kernel) (by decide +kernel)
  have hunset := hunset.answers (by decide +kernel) (by decide +kernel)
  rw [if_neg (by decide +kernel)] at hset hunset
  simp only [overlongCandidates, List.forall_mem_cons]
  exact ⟨answers_overlong_flag, by decide +kernel, hset, hunset, by simp⟩

/-- What is asked about the two blocks, the last question first. -/
def overlongAsked : List Exchange :=
  let f := overlong.formula
  let contradiction := fun ls => (Expr.conj ls).and eitherWay.formula
  [⟨[contradiction [isSet]], .sat⟩, ⟨[contradiction [isUnset]], .sat⟩,
    ⟨[contradiction [isSet, isUnset]], .unsat⟩,
    ⟨[contradiction [.var (flag "c"), isSet, isUnset]], .unsat⟩,
    ⟨[contradiction overlongCandidates], .unsat⟩] ++
  overlongCandidates.reverse.map (fun e => ⟨[f.and e.complement], .unsat⟩) ++ [⟨[f], .undefined⟩]

/-- Both literals are kept, since they contradict each other. -/
theorem interpolantLiterals_overlong :
    Replies 16 (interpolantLiterals overlong.formula eitherWay.formula) [isSet, isUnset]
      overlongAsked := by
  have hshared : (sharedVars overlong.formula eitherWay.formula).isEmpty = false := by
    decide +kernel
  have hcandidates : candidates overlong.formula eitherWay.formula = overlongCandidates := by
    decide +kernel
  -- the flags are dropped first, and then neither literal can be
  have hdrop : Replies 16 (dropNeedless eitherWay.formula [] overlongCandidates)
      [isSet, isUnset] _ :=
    dropNeedless_replies .unsat (by decide +kernel) <|
    dropNeedless_replies .unsat (by decide +kernel) <|
    dropNeedless_replies .sat (by decide +kernel) <|
    dropNeedless_replies .sat (by decide +kernel) <| replies_pure [isSet, isUnset]
  have hall : Answers 16 ((Expr.conj overlongCandidates).and eitherWay.formula) .unsat := by
    decide +kernel
  have hfound : Replies 16 (contradicts overlongCandidates eitherWay.formula >>= fun found =>
      if found = true then dropNeedless eitherWay.formula [] overlongCandidates else pure [])
      [isSet, isUnset] _ := (isUnsat_replies hall).bind hdrop
  unfold interpolantLiterals
  rw [hshared, hcandidates]
  exact (isUnsat_replies answers_overlong).bind
    ((impliedLiterals_replies answers_overlong_candidates).bind hfound)

/-- The predicate that both literals come to. -/
def setPredicate : Predicate where
  expr := isSet.unindexed
  isPredicate := ⟨rfl, show isSet.unindexed.vars ≠ ∅ by decide +kernel, by
    show isSet.unindexed.vars.all (·.index.isNone) = true
    decide +kernel⟩

theorem truth_isUnset (V : Store) : isUnset.truth V = !isSet.truth V := by
  obtain ⟨b, hb⟩ : ∃ b, V.val (flag "b") = .bool b := ⟨_, Datum.eq_bool_of_ty (V.typed (flag "b"))⟩
  simp only [isUnset, isSet, Expr.truth, Expr.valueIn, hb]
  cases b <;> rfl

/-- What was answered with `unsat` has no model. -/
theorem truthful_overlongAsked :
    Truthful (overlongAsked ++ [⟨[chainFormula [overlong, eitherWay]], .unsat⟩]) := by
  have hbeyond := truth_beyond (k := 250000) (by decide)
  have hoverlong (V : Store) : overlong.formula.truth V = false := by
    simp [overlong, hbeyond, LogicOp.combine]
  refine truthful_of_refuted
    ([[isSet, isUnset], [.var (flag "c"), isSet, isUnset], overlongCandidates].map
        (fun ls => (Expr.conj ls).and eitherWay.formula) ++
      overlongCandidates.reverse.map (fun e => overlong.formula.and e.complement) ++
      [chainFormula [overlong, eitherWay]])
    (by decide +kernel) (by decide +kernel) ?_
  simp [chainFormula, hoverlong, overlongCandidates, truth_isUnset]

/-- Whatever sign the predicate gets, the block after the cut can be executed with it. -/
theorem exists_store_eitherWay (b : Bool) :
    ∃ V : Store, (setPredicate.expr.indexed overlong.ssa).truth V = b ∧
      (chainFormula [eitherWay]).truth V = true := by
  refine ⟨((uniform 0).set (flag "c") (.bool false)).set (flag "b") (.bool b), ?_⟩
  cases b <;> decide +kernel

/-- Neither `b == true` nor its opposite contradicts the block after the cut. -/
theorem Trace.not_interpolant_overlong :
    (∀ b ∈ [overlong, eitherWay], b.Sorted) ∧ Consecutive [overlong, eitherWay] .empty ∧
    ∃ s', ofBlocks [overlong, eitherWay] (.unasked 16 [[]]) =
        .ok (.ok (.spurious [[setPredicate], []]), s') ∧ Truthful s'.transcript ∧
      ¬ ∃ sign, Interpolant overlong.ssa (chainFormula [overlong]) (chainFormula [eitherWay])
        [setPredicate] sign := by
  have hsorted : ∀ b ∈ [overlong, eitherWay], b.formula.WellSorted ∧ b.formula.ty = .bool := by
    decide +kernel
  have hnumbered : Consecutive [overlong, eitherWay] .empty :=
    .snoc (.snoc .nil (.of_latest (SsaMap.le_refl _) (by decide +kernel)))
      (.of_latest (SsaMap.le_refl _) (by decide +kernel))
  have hsides : overlong.formula = chainFormula [overlong] ∧
      eitherWay.formula = chainFormula [eitherWay] := by decide +kernel
  have hpredicates : Predicate.ofExprs ([isSet, isUnset].map fun e => e.normalAtom.unindexed) =
      .ok [setPredicate, setPredicate] := by decide +kernel
  have hsame : [setPredicate, setPredicate].eraseDups = [setPredicate] := by decide +kernel
  have hcut := interpolate_replies interpolantLiterals_overlong hpredicates
  rw [hsame, hsides.1, hsides.2] at hcut
  obtain ⟨s', hrun, -, hrests⟩ := Trace.ofBlocks_replies (by decide +kernel) hcut
    (.unasked 16 [[]]) rfl rfl
  refine ⟨fun b hb => ⟨(hsorted b hb).1, (hsorted b hb).2, fun _ _ => trivial⟩, hnumbered, s', hrun,
    ?_, ?_⟩
  · rw [← hrests.eq_transcript]
    exact truthful_overlongAsked
  · rintro ⟨sign, hinterpolant⟩
    obtain ⟨V, hsign, hafter⟩ := exists_store_eitherWay (sign setPredicate)
    have hcontra := hinterpolant.contradictory V (truth_signed.2 (by simpa using hsign))
    cases hafter.symm.trans hcontra

end Cegar

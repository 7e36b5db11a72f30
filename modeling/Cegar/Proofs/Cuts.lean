import Cegar.Proofs.Analysis.Inspection
import Cegar.Proofs.Strength

/-!
# Cuts of a spurious trace

At a cut the blocks before it and the blocks after it share the latest versions of variables only.
The predicates that are found there follow, with some signs, from the blocks before the cut, and
contradict the blocks after it. The cuts are looked at one by one: nothing says that the predicates
at one cut and the block behind it imply those at the next.

* **`interpolate_separates`**: the predicates at one cut;
* **`Trace.spurious_separates`**: those at every cut of a trace;
* **`PathFormula.Grown.since`**: a block is about no version older than its start.
-/

namespace Cegar

open SolverM

/-! ## Literals and predicates -/

namespace Expr

theorem exists_mem_vars_conj {es : List Expr} {v : Var} (h : v ∈ (conj es).vars) :
    ∃ e ∈ es, v ∈ e.vars :=
  (closed_vars fun v => ∃ e ∈ es, v ∈ e.vars).conj (fun e he _ hv => ⟨e, he, hv⟩) v h

end Expr

/-- Every expression has its predicate. -/
theorem Predicate.exists_mem_ofExprs {es : List Expr} {ps : List Predicate}
    (h : ofExprs es = .ok ps) : ∀ e ∈ es, ∃ p ∈ ps, p.expr = e := by
  induction es generalizing ps with
  | nil => simp
  | cons d es ih =>
    obtain ⟨p, hp, h⟩ := except_bind_ok.1 h
    obtain ⟨qs, hqs, h⟩ := except_bind_ok.1 h
    cases h
    have hpd : p.expr = d := by
      unfold ofExpr at hp
      split at hp <;> cases hp
      rfl
    refine List.forall_mem_cons.2 ⟨⟨p, by simp, hpd⟩, fun e he => ?_⟩
    obtain ⟨q, hq, hqe⟩ := ih hqs e he
    exact ⟨q, by simp [hq], hqe⟩

/-! ## Literals at a cut -/

/-- Two things that are known of a computation are known together. -/
theorem SolverM.Asks.and {α : Type} {act : SolverM α} {R R' Q Q' : α → Prop} (h : Asks act R Q)
    (h' : Asks act R' Q') : Asks act (fun x => R x ∧ R' x) fun x => Q x ∧ Q' x := by
  intro s x s' hs hx
  obtain ⟨new, hrests, hR, hQ⟩ := h s x s' hs hx
  obtain ⟨new', hrests', hR', hQ'⟩ := h' s x s' hs hx
  obtain rfl := hrests.unique hrests'
  exact ⟨new, hrests, ⟨hR, hR'⟩, fun ht => ⟨hQ ht, hQ' ht⟩⟩

/-- The literals are not true together with the formula. -/
def Contradictory (literals : List Expr) (formula : Expr) : Prop :=
  ∀ V : Store, (∀ l ∈ literals, l.truth V = true) → formula.truth V = false

variable {P : Var → Prop} {before after formula : Expr}

/-- A contradiction that is found is one. -/
theorem contradicts_asks {ls : List Expr} (hls : ∀ l ∈ ls, l.IsFormula P)
    (hf : formula.IsFormula P) :
    Asks (contradicts ls formula) (fun _ => True) fun b => b = true → Contradictory ls formula := by
  refine (isUnsat_asks _).mono (fun _ _ => trivial) fun b _ hb htrue V hV => ?_
  have hnot := hb htrue V
  rw [Expr.holds_iff_truth ((Expr.IsFormula.conj hls).and hf), Expr.truth_and, Expr.truth_conj,
    List.all_eq_true.2 hV] at hnot
  simpa using hnot

/-- Literals that are found to be implied are true in all models. -/
theorem impliedLiterals_implied {es : List Expr} (hes : ∀ e ∈ es, e.IsFormula fun _ => True) :
    Asks (impliedLiterals formula es) (fun _ => True) fun ls =>
      ∀ V : Store, formula.Holds V → ∀ l ∈ ls, l.truth V = true := by
  induction es with
  | nil => exact asks_pure trivial (by simp)
  | cons e es ih =>
    obtain ⟨he, hes⟩ := List.forall_mem_cons.1 hes
    refine (impliedLiteral?_asks formula e).bind fun sign _ => ?_
    refine (ih hes).bind fun rest _ => ?_
    match sign with
    | none => exact asks_pure trivial fun hrest _ => hrest
    | some true =>
      refine asks_pure trivial fun hrest hsign V hV => ?_
      exact List.forall_mem_cons.2 ⟨hsign true rfl he V hV, hrest V hV⟩
    | some false =>
      refine asks_pure trivial fun hrest hsign V hV => ?_
      exact List.forall_mem_cons.2 ⟨by simp [hsign false rfl he V hV], hrest V hV⟩

/-- What is left after dropping literals contradicts what all of them contradict. -/
theorem dropNeedless_contradictory {kept ls : List Expr} (hkept : ∀ l ∈ kept, l.IsFormula P)
    (hls : ∀ l ∈ ls, l.IsFormula P) (hf : formula.IsFormula P) :
    Asks (dropNeedless formula kept ls) (fun _ => True) fun rs =>
      Contradictory (kept ++ ls) formula → Contradictory rs formula := by
  induction ls generalizing kept with
  | nil => exact asks_pure trivial (by simp)
  | cons e es ih =>
    obtain ⟨he, hes⟩ := List.forall_mem_cons.1 hls
    refine (contradicts_asks (List.forall_mem_append.2 ⟨hkept, hes⟩) hf).bind fun needless _ => ?_
    cases needless with
    | true =>
      exact (ih hkept hes).mono (fun _ _ => trivial) fun rs _ hrs hneedless _ => hrs (hneedless rfl)
    | false =>
      have hkept' : ∀ l ∈ kept ++ [e], l.IsFormula P :=
        List.forall_mem_append.2 ⟨hkept, List.forall_mem_singleton.2 he⟩
      refine (ih hkept' hes).mono (fun _ _ => trivial) fun rs _ hrs _ hall => hrs ?_
      rwa [List.append_assoc]

/-- Candidates are parts of the formulas on both sides. -/
theorem isFormula_of_mem_candidates (hb : before.IsFormula P) (ha : after.IsFormula P) :
    ∀ e ∈ candidates before after, e.IsFormula P := by
  intro e he
  have hmem := List.mem_eraseDups.1 (List.mem_of_mem_take he)
  rcases List.mem_append.1 (List.mem_filter.1 hmem).1 with hmem | hmem
  · exact hb.atoms hmem
  · exact ha.atoms hmem

/-- Candidates are about what both sides share. -/
theorem mem_sharedVars_of_candidate {e : Expr} (he : e ∈ candidates before after) :
    ∀ v ∈ e.vars, v ∈ sharedVars before after := by
  intro v hv
  have hmem := List.mem_eraseDups.1 (List.mem_of_mem_take he)
  have hshared := (List.mem_filter.1 hmem).2
  rw [Bool.and_eq_true, List.all_eq_true] at hshared
  exact Std.ExtTreeSet.contains_iff_mem.1 (hshared.2 v (Std.ExtTreeSet.mem_toList.2 hv))

/-- Literals that are found follow from what comes before the cut, and contradict what comes
after it. -/
theorem interpolantLiterals_separate (hb : before.IsFormula fun _ => True)
    (ha : after.IsFormula fun _ => True) :
    Asks (interpolantLiterals before after)
      (fun ls => ∀ l ∈ ls, ∃ e ∈ candidates before after, l = e ∨ l = e.complement)
      fun ls => ls ≠ [] →
        (∀ V : Store, before.truth V = true → ∀ l ∈ ls, l.truth V = true) ∧
          Contradictory ls after := by
  unfold interpolantLiterals
  split
  · exact asks_pure (by simp) (by simp)
  · refine (isUnsat_asks before).bind fun known _ => ?_
    cases known with
    | true => exact asks_pure (by simp) (by simp)
    | false =>
      have hcandidates := isFormula_of_mem_candidates hb ha
      refine ((impliedLiterals_asks before _).and (impliedLiterals_implied hcandidates)).bind
        fun ls hls => ?_
      have hformulas : ∀ l ∈ ls, l.IsFormula fun _ => True := by
        intro l hl
        obtain ⟨e, he, rfl | rfl⟩ := hls.1 l hl
        · exact hcandidates _ he
        · exact (hcandidates _ he).complement
      refine (contradicts_asks hformulas ha).bind fun found _ => ?_
      cases found with
      | false => exact asks_pure (by simp) (by simp)
      | true =>
        refine ((dropNeedless_asks after [] ls).and
          (dropNeedless_contradictory (by simp) hformulas ha)).mono
          (fun rs hrs l hl => hls.1 l (hrs.1 l hl)) fun rs hrs hdrop hfound himplied _ _ => ?_
        exact ⟨fun V hV l hl => himplied.2 V ((Expr.holds_iff_truth hb).2 hV) l (hrs.1 l hl),
          hdrop.2 (hfound rfl)⟩

/-! ## Predicates at a cut -/

/-- The predicates at a cut, with the signs that they have after what comes before it, contradict what
comes after it. The numbering is the one at the cut. -/
def Separates (m : SsaMap) (before after : Expr) (ps : List Predicate) : Prop :=
  ∀ V : Store, (∀ q ∈ ps, ∀ b, before.Decides (q.expr.indexed m) b →
    (q.expr.indexed m).truth V = b) → after.truth V = false

/-- All that the two sides of a cut share are the versions that are the latest ones there. -/
def SharesLatest (m : SsaMap) (before after : Expr) : Prop :=
  ∀ v ∈ sharedVars before after, v.index = some (m.index v.name)

/-- A literal at a cut is a predicate with a sign. -/
theorem exists_signed_predicate {m : SsaMap} (hshared : SharesLatest m before after)
    (hb : before.IsFormula P) (ha : after.IsFormula P) {l e : Expr}
    (he : e ∈ candidates before after) (hl : l = e ∨ l = e.complement) {ps : List Predicate}
    (hps : ∃ q ∈ ps, q.expr = l.normalAtom.unindexed) :
    ∃ q ∈ ps, ∃ b, ∀ V : Store, l.truth V = true ↔ (q.expr.indexed m).truth V = b := by
  obtain ⟨q, hq, hexpr⟩ := hps
  have hformula := isFormula_of_mem_candidates hb ha e he
  have hliteral : l.IsFormula P := by
    rcases hl with rfl | rfl
    · exact hformula
    · exact hformula.complement
  have hatom := (mem_candidates he).1
  refine ⟨q, hq, l.keepsSign, fun V => ?_⟩
  rw [hexpr, Expr.indexed_unindexed, Expr.truth_normalAtom hliteral]
  · cases l.truth V <;> simp
  · intro v hv
    rw [Expr.normalAtom_of_literal hatom hl, (Expr.normalAtom_of_isAtom hatom).2] at hv
    exact hshared v (mem_sharedVars_of_candidate he v hv)

/-- What is found at a cut. -/
structure Cut (before after : Expr) (ps : List Predicate) : Prop where
  shared : ∃ v, v ∈ sharedVars before after
  separates : ∀ m, SharesLatest m before after → Separates m before after ps

/-- Predicates are made from literals, without questions. -/
theorem interpolate_ok {s s' : Solver} {ps : List Predicate}
    (h : interpolate before after s = .ok (.ok ps, s')) :
    ∃ ls qs, interpolantLiterals before after s = .ok (ls, s') ∧
      Predicate.ofExprs (ls.map fun e => e.normalAtom.unindexed) = .ok qs ∧
      ps = qs.eraseDups := by
  obtain ⟨ls, t, hls, h⟩ := try_bind_ok_ok.1 h
  obtain ⟨ls, hls, heq⟩ := try_lift_ok.1 hls
  cases heq
  obtain ⟨qs, t', hqs, h⟩ := try_bind_ok_ok.1 h
  cases try_pure_ok.1 h
  cases hresult : Predicate.ofExprs (ls.map fun e => e.normalAtom.unindexed) with
  | error e =>
    rw [hresult] at hqs
    cases hqs
  | ok rs =>
    rw [hresult] at hqs
    cases hqs
    exact ⟨ls, _, hls, hresult, rfl⟩

/-- The predicates at a cut, if any are found, separate its two sides. -/
theorem interpolate_separates (hb : before.IsFormula fun _ => True)
    (ha : after.IsFormula fun _ => True) {s s' : Solver} (hs : s.scopes = [[]])
    {ps : List Predicate} (h : interpolate before after s = .ok (.ok ps, s')) :
    ∃ new, Rests s new s' ∧ (Truthful new → ps ≠ [] → Cut before after ps) := by
  obtain ⟨ls, qs, hls, hofExprs, rfl⟩ := interpolate_ok h
  obtain ⟨new, hrests, hcandidates, hseparate⟩ := interpolantLiterals_separate hb ha s ls s' hs hls
  refine ⟨new, hrests, fun htruthful hne => ?_⟩
  have hls : ls ≠ [] := by
    rintro rfl
    cases hofExprs
    exact hne rfl
  refine ⟨?_, fun m hshared V hV => ?_⟩
  · obtain ⟨l, hl⟩ := List.exists_mem_of_ne_nil ls hls
    obtain ⟨e, he, -⟩ := hcandidates l hl
    refine Classical.byContradiction fun hnone => ?_
    refine Std.ExtTreeSet.isEmpty_eq_false_iff.1 (mem_candidates he).2
      (Std.ExtTreeSet.eq_empty_iff_forall_not_mem.2 fun v hv => ?_)
    exact hnone ⟨v, mem_sharedVars_of_candidate he v hv⟩
  · obtain ⟨himplied, hcontradictory⟩ := hseparate htruthful hls
    refine hcontradictory V fun l hl => ?_
    -- each literal is a predicate with a sign, which what comes before decides
    obtain ⟨e, he, hle⟩ := hcandidates l hl
    obtain ⟨q, hq, hexpr⟩ := Predicate.exists_mem_ofExprs hofExprs _ (List.mem_map_of_mem hl)
    obtain ⟨q, hq, b, hsign⟩ :=
      exists_signed_predicate hshared hb ha he hle ⟨q, List.mem_eraseDups.2 hq, hexpr⟩
    exact (hsign V).2 (hV q hq b fun W hW => (hsign W).1 (himplied W hW l hl))

/-! ## All cuts -/

/-- Each cut is looked at by itself, and the end of the trace is no cut. -/
theorem interpolants_ok {before blocks : List Expr} {s s' : Solver} (hs : s.scopes = [[]])
    {pss : List (List Predicate)} (h : interpolants before blocks s = .ok (.ok pss, s')) :
    pss.length = blocks.length ∧ ∃ new, Rests s new s' ∧ ∀ i ps, pss[i]? = some ps → ps ≠ [] →
      i + 1 < blocks.length ∧ ∃ t t' part, t.scopes = [[]] ∧ Rests t part t' ∧ part ⊆ new ∧
        interpolate (.conj (before ++ blocks.take (i + 1))) (.conj (blocks.drop (i + 1))) t =
          .ok (.ok ps, t') := by
  induction blocks generalizing before s pss with
  | nil =>
    cases try_pure_ok.1 h
    exact ⟨rfl, [], .refl hs, by simp⟩
  | cons b blocks ih =>
    cases blocks with
    | nil =>
      cases try_pure_ok.1 h
      refine ⟨rfl, [], .refl hs, fun i ps hi hne => ?_⟩
      cases List.mem_singleton.1 (List.mem_of_getElem? hi)
      exact absurd rfl hne
    | cons c blocks =>
      obtain ⟨ps, t, hps, h⟩ := try_bind_ok_ok.1 h
      obtain ⟨pss, t', hpss, h⟩ := try_bind_ok_ok.1 h
      cases try_pure_ok.1 h
      obtain ⟨part, hrests, -⟩ := interpolate_traces _ _ s _ t hs hps
      obtain ⟨hlength, new, hrests', hcuts⟩ := ih hrests.scopes hpss
      refine ⟨by simp [hlength], new ++ part, hrests.trans hrests', fun i qs hi hne => ?_⟩
      cases i with
      | zero =>
        cases hi
        exact ⟨by simp, s, t, part, hs, hrests, List.subset_append_right new part, hps⟩
      | succ i =>
        obtain ⟨hlt, u, u', part', hu, hrests'', hsub, hqs⟩ := hcuts i qs hi hne
        rw [List.append_assoc] at hqs
        exact ⟨Nat.succ_lt_succ hlt, u, u', part', hu, hrests'',
          List.Subset.trans hsub (List.subset_append_left new part), hqs⟩

/-- Every cut separates what comes before it from what comes after it. -/
theorem interpolants_cuts {before blocks : List Expr}
    (hbefore : ∀ e ∈ before, e.IsFormula fun _ => True)
    (hblocks : ∀ e ∈ blocks, e.IsFormula fun _ => True) {s s' : Solver} (hs : s.scopes = [[]])
    {pss : List (List Predicate)} (h : interpolants before blocks s = .ok (.ok pss, s')) :
    ∃ new, Rests s new s' ∧ (Truthful new → ∀ i ps, pss[i]? = some ps → ps ≠ [] →
      Cut (.conj (before ++ blocks.take (i + 1))) (.conj (blocks.drop (i + 1))) ps) := by
  obtain ⟨-, new, hrests, hcuts⟩ := interpolants_ok hs h
  refine ⟨new, hrests, fun htruthful i ps hi hne => ?_⟩
  obtain ⟨-, t, t', part, ht, hpart, hsub, hps⟩ := hcuts i ps hi hne
  have hbefore' : ∀ e ∈ before ++ blocks.take (i + 1), e.IsFormula fun _ => True :=
    List.forall_mem_append.2 ⟨hbefore, fun e he => hblocks e (List.mem_of_mem_take he)⟩
  obtain ⟨part', hpart', hcut⟩ := interpolate_separates (.conj hbefore')
    (.conj fun e he => hblocks e (List.mem_of_mem_drop he)) ht hps
  obtain rfl := hpart'.unique hpart
  exact hcut (fun q hq => htruthful q (hsub hq)) hne

/-- At each cut of a spurious trace the predicates, if there are any, separate the blocks. -/
theorem Trace.spurious_separates {blocks : List PathFormula}
    (hblocks : ∀ b ∈ blocks, b.Sorted) {s s' : Solver} (hs : s.scopes = [[]])
    {pss : List (List Predicate)} (h : ofBlocks blocks s = .ok (.ok (.spurious pss), s')) :
    ∃ new, Rests s new s' ∧ (Truthful new → ∀ i ps, pss[i]? = some ps → ps ≠ [] →
      Cut (.conj ((blocks.map (·.formula)).take (i + 1)))
        (.conj ((blocks.map (·.formula)).drop (i + 1))) ps) := by
  obtain ⟨answer, t, hsolve, ⟨-, -, heq⟩ | ⟨-, -, heq⟩ | ⟨-, qss, hcuts, heq⟩⟩ := ofBlocks_cases hs h
  · cases heq
  · cases heq
  · cases heq
    obtain ⟨hscopes, -, htranscript, -⟩ := Solver.solve_ok hsolve
    have hpop : t.pop = { t with scopes := [[]] } := by
      simp [Solver.pop, hscopes, Solver.withBlocks]
    have hformulas : ∀ e ∈ blocks.map (·.formula), e.IsFormula fun _ => True := by
      intro e he
      obtain ⟨b, hb, rfl⟩ := List.mem_map.1 he
      exact hblocks b hb
    rw [hpop] at hcuts
    obtain ⟨new, hrests, hcut⟩ := interpolants_cuts (by simp) hformulas rfl hcuts
    refine ⟨new ++ [⟨(s.withBlocks blocks).assertions, answer⟩], ⟨hrests.scopes, ?_⟩,
      fun htruthful => hcut htruthful.of_append.1⟩
    rw [hrests.transcript, List.append_assoc]
    exact congrArg (new ++ ·) htranscript

/-! ## Versions in a block -/

/-- The version of the variable is not older than the latest one of the numbering. -/
def SsaMap.Precedes (m : SsaMap) (v : Var) : Prop := ∃ i, v.index = some i ∧ m.index v.name ≤ i

/-- The latest version is not older than any numbering before it. -/
theorem SsaMap.precedes_stamp {m n : SsaMap} (h : m ≤ n) {v : Var} (hv : v.index = none) :
    m.Precedes (n.stamp v) := by
  rw [SsaMap.stamp_eq hv]
  exact ⟨_, rfl, h v.name⟩

/-- An expression is indexed with versions from the numbering on. -/
theorem Expr.precedes_indexed {m n : SsaMap} (h : m ≤ n) {e : Expr}
    (he : ∀ v ∈ e.vars, v.index = none) : ∀ v ∈ (e.indexed n).vars, m.Precedes v := by
  intro v hv
  obtain ⟨w, hw, rfl⟩ := Expr.mem_vars_mapVars.1 hv
  exact SsaMap.precedes_stamp h (he w hw)

/-- A fresh version is younger than the numbering. -/
theorem SsaMap.precedes_fresh {m n n' : SsaMap} (h : m ≤ n) {name : String} {ty : Ty} {i : UInt32}
    (hfresh : n.fresh name ty = .ok (n', i)) : m.Precedes ⟨name, ty, some i⟩ :=
  ⟨i, rfl, UInt32.le_trans (h name) (UInt32.le_of_lt (SsaMap.fresh_ok hfresh).1)⟩

namespace PathFormula

variable {A : Automaton} {m : SsaMap} {p q : PathFormula}

/-- The formula is about versions from the numbering on. -/
def Since (m : SsaMap) (p : PathFormula) : Prop := ∀ v ∈ p.formula.vars, m.Precedes v

/-- A write is about its fresh version and about what it reads. -/
theorem Since.write (hp : p.Since m) (hm : m ≤ p.ssa) {v : Var} {value : Option Expr}
    (hvalue : ∀ e, value = some e → ∀ w ∈ e.vars, m.Precedes w)
    (h : p.write (.var v) value = .ok (.ok q)) : q.Since m := by
  obtain ⟨_, n, i, ⟨⟩, hfresh, -, hformula⟩ := write_ok h
  rw [Since, hformula]
  cases value with
  | none => exact hp
  | some e =>
    refine (Expr.closed_vars _).and hp fun w hw => ?_
    rcases Expr.mem_vars_cmp.1 hw with hw | hw
    · rw [Expr.mem_vars_var.1 hw]
      exact SsaMap.precedes_fresh hm hfresh
    · exact hvalue e rfl w hw

/-- Bindings are about their fresh versions and about what they read. -/
theorem Since.bind {read : SsaMap} {bs : List (Expr × Expr)}
    (hbs : ∀ b ∈ bs, ∀ v ∈ b.2.vars, v.index = none) (hp : p.Since m) (hread : m ≤ read)
    (hm : m ≤ p.ssa) (h : bind read p bs = .ok (.ok q)) : q.Since m := by
  induction bs generalizing p with
  | nil =>
    cases attempt_pure_ok.1 h
    exact hp
  | cons b bs ih =>
    obtain ⟨hb, hbs⟩ := List.forall_mem_cons.1 hbs
    obtain ⟨v, r, -, hw, h⟩ := bind_cons_ok h
    have hr : r.Since m := hp.write hm (fun e he => by
      cases he
      exact Expr.precedes_indexed hread hb) hw
    exact ih hbs hr (SsaMap.le_trans hm (le_of_write hw)) h

/-- A branch is about its condition and a fresh branch variable. -/
theorem Since.branch (hp : p.Since m) (hm : m ≤ p.ssa) {l : Location} {condition : Expr}
    {truth : Bool} (hc : ∀ v ∈ condition.vars, v.index = none)
    (h : p.branch l condition truth = .ok (.ok q)) : q.Since m := by
  obtain ⟨n, i, hfresh, rfl⟩ := branch_ok h
  refine (Expr.closed_vars _).and hp
    (closed_branchLiterals (Expr.closed_vars _) (Expr.precedes_indexed hm hc) ?_ truth)
  intro v hv
  rw [Expr.mem_vars_var.1 hv]
  exact SsaMap.precedes_fresh hm hfresh

/-- One more edge is about versions from the numbering on. -/
theorem Since.extend (hp : p.Since m) (hm : m ≤ p.ssa) {s : Statement} {l : Location}
    (hs : ∀ e ∈ s.exprs, ∀ v ∈ e.vars, v.index = none) {e : EdgeId}
    (h : p.extend l e s = .ok (.ok q)) : q.Since m := by
  obtain ⟨bs, hbs, hq⟩ | ⟨v, rfl, hq⟩ | ⟨condition, truth, rfl, hq⟩ := extend_ok h
  · refine hp.bind (fun b hb => ?_) hm hm hq
    rw [Statement.exprs_of_bindings? hbs] at hs
    exact hs b.2 (List.mem_flatMap.2 ⟨b, hb, by simp⟩)
  · exact hp.write hm (fun e he => by cases he) hq
  · exact hp.branch hm (hs condition (by simp [Statement.exprs])) hq

/-- The equations of a disjunction are about versions from the numbering on. -/
theorem Since.or (hp : p.Since m) (hq : q.Since m) (hm : m ≤ p.ssa) (hm' : m ≤ q.ssa) :
    (p.or q).Since m := by
  have hcarries {lo hi : SsaMap} {es : List Expr} (hlo : m ≤ lo) (hhi : m ≤ hi)
      (hes : Carries (fun _ => True) lo hi es) : ∀ e ∈ es, ∀ v ∈ e.vars, m.Precedes v := by
    intro e he v hv
    obtain ⟨w, -, -, rfl⟩ := hes e he
    rcases Expr.mem_vars_cmp.1 hv with hv | hv
    · rw [Expr.mem_vars_var.1 hv]
      exact ⟨_, rfl, hhi w.name⟩
    · rw [Expr.mem_vars_var.1 hv]
      exact ⟨_, rfl, hlo w.name⟩
  exact closed_or (Expr.closed_vars _) hp hq (hcarries hm hm' (carriesTo_carries p q))
    (hcarries hm' hm (carriesFrom_carries p q))

/-- A block reads and writes no version older than its start. -/
theorem Grown.since (hA : A.Within fun _ => True) (h : p.Grown A m) : p.Since m := by
  induction h with
  | empty => exact fun v hv => by simp [PathFormula.empty] at hv
  | extend hp hedge hextend ih =>
    have hmem := Automaton.mem_edges_of_getElem? hedge
    exact ih.extend hp.le (fun e he v hv => (hA.vars _ hmem e he v hv).1) hextend
  | or hp hq ihp ihq => exact ihp.or ihq hp.le hq.le

end PathFormula

end Cegar

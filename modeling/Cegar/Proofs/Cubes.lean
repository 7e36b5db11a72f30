import Cegar.Proofs.Decisions
import Mathlib.Data.Fintype.BigOperators

/-!
# Boolean abstractions are exact

A cube gives each predicate a sign. If all questions are decided, the enumeration of cubes finds the
sign patterns of the models of a block, each of them once: a pattern that was found is excluded, and
at the end nothing is left. The abstraction is the sum of their cubes, the strongest combination of
the predicates that the block implies.

* **`Tracked.Found.add`**: what holds between two rounds of the enumeration, kept by a round;
* **`enumerateCubes_patterns`**: all patterns are found;
* **`SumOfCubes.entails`**: what the block implies of the predicates, their sum of cubes implies;
* **`abstractBlock_boolean_strongest`**: the boolean abstraction of a block.
-/

namespace Cegar

open SolverM

variable {P : Var → Prop} {V σ : Store}

/-! ## Cubes -/

namespace Expr

/-- The expression, or its negation. -/
def literal (e : Expr) (b : Bool) : Expr := if b then e else e.complement

/-- A literal is true where the expression has its sign. -/
@[simp] theorem truth_literal (e : Expr) (b : Bool) : (e.literal b).truth V = (e.truth V == b) := by
  cases b <;> simp [literal]

/-- The conjunction that gives each expression a sign. -/
def cube (es : List Expr) (signs : List Bool) : Expr := .conj (List.zipWith literal es signs)

/-- A cube is true where the expressions have its signs. -/
theorem truth_cube {es : List Expr} {signs : List Bool} (h : signs.length = es.length) :
    (cube es signs).truth V = true ↔ es.map (·.truth V) = signs := by
  rw [cube, truth_conj]
  induction es generalizing signs with
  | nil => simp_all
  | cons e es ih =>
    cases signs with
    | nil => cases h
    | cons b signs =>
      have ih := ih (Nat.succ.inj h)
      simp only [List.zipWith_cons_cons, List.all_cons, Bool.and_eq_true, ih, truth_literal,
        beq_iff_eq, List.map_cons, List.cons.injEq]

/-- The truth value of the expression is a function of those of the predicates. -/
def DependsOn (ps : List Predicate) (c : Expr) : Prop :=
  ∀ σ τ : Store, (∀ p ∈ ps, p.expr.truth σ = p.expr.truth τ) → c.truth σ = c.truth τ

/-- Connectives of expressions that depend on the predicates depend on them. -/
theorem closed_dependsOn (ps : List Predicate) : Closed (DependsOn ps) where
  const _ _ _ _ := rfl
  connect op l r hl hr σ τ h := by rw [truth_connect, truth_connect, hl σ τ h, hr σ τ h]
  complement e he σ τ h := by rw [truth_complement, truth_complement, he σ τ h]

/-- An expression over the latest versions is read where those are the values. -/
theorem truth_indexed_after (e : Expr) (m : SsaMap) : (e.indexed m).truth V = e.truth (V.after m) :=
  truth_indexed (P := fun _ => True) (fun _ _ => trivial) (V.reads_after m)

end Expr

/-! ## The enumeration -/

namespace Tracked

variable {formula : Expr} {ts : List Tracked} {vectors : List (List Bool)} {es : List Expr}

/-- The signs that the indexed predicates have in a store. -/
def signs (ts : List Tracked) (V : Store) : List Bool := ts.map (·.indexed.truth V)

@[simp] theorem length_signs (ts : List Tracked) (V : Store) : (signs ts V).length = ts.length := by
  simp [signs]

/-- In a model every well-sorted predicate gets the sign that it has there. -/
theorem signed?_eq {s : Solver} {m : Assignment} (hm : m.Typed) (hs : s.model = some m)
    {t : Tracked} (ht : t.indexed.IsFormula P) :
    signed? s t = some (if t.indexed.truth (m.env hm) then t else t.complement) := by
  have htruth : s.truth? t.indexed = some (t.indexed.truth (m.env hm)) := by
    simp only [Solver.truth?, hs, Option.bind_eq_bind, Option.bind_some,
      Expr.eval_complete hm ht.sorted, Expr.valueIn_eq_bool ht.bool]
    rfl
  rw [signed?, htruth]
  cases t.indexed.truth (m.env hm) <;> rfl

/-- The two cubes of a model, over the predicates and over their indexed forms, have the same
signs. -/
theorem conj_signed_eq {s : Solver} {m : Assignment} (hm : m.Typed) (hs : s.model = some m)
    (hts : ∀ t ∈ ts, t.indexed.IsFormula P) (form : Tracked → Expr)
    (hform : ∀ t, form t.complement = (form t).complement) :
    Expr.conj ((ts.filterMap (signed? s)).map form) =
      Expr.cube (ts.map form) (signs ts (m.env hm)) := by
  refine congrArg Expr.conj ?_
  induction ts with
  | nil => rfl
  | cons t ts ih =>
    obtain ⟨ht, hts⟩ := List.forall_mem_cons.1 hts
    have hliteral : form (if t.indexed.truth (m.env hm) then t else t.complement) =
        (form t).literal (t.indexed.truth (m.env hm)) := by
      rw [apply_ite form, hform]
      rfl
    rw [List.filterMap_cons_some (signed?_eq hm hs ht), List.map_cons, ih hts, hliteral]
    rfl

/-- The literals of a model are formulas. -/
theorem isFormula_signed {s : Solver} (hts : ∀ t ∈ ts, t.indexed.IsFormula P) :
    (Expr.conj ((ts.filterMap (signed? s)).map (·.indexed))).IsFormula P := by
  refine .conj fun e he => ?_
  obtain ⟨u, hu, rfl⟩ := List.mem_map.1 he
  obtain ⟨t, ht, hsign⟩ := List.mem_filterMap.1 hu
  rcases signed?_eq_some hsign with rfl | rfl
  · exact hts u ht
  · exact (hts t ht).complement

/-- Between two rounds: the patterns found so far are different patterns of models of the formula,
and the models of the assertions are those with another pattern. -/
structure Found (formula : Expr) (ts : List Tracked) (vectors : List (List Bool))
    (es : List Expr) : Prop where
  nodup : vectors.Nodup
  consistent : ∀ v ∈ vectors, ∃ V : Store, formula.truth V = true ∧ signs ts V = v
  left : ∀ V : Store, V.Models es ↔ formula.truth V = true ∧ signs ts V ∉ vectors

/-- Before the first round no pattern was found, and the formula is asserted. -/
theorem Found.start (formula : Expr) (ts : List Tracked) : Found formula ts [] [formula] where
  nodup := .nil
  consistent := by simp
  left V := by simp [Env.Models]

/-- A round finds the pattern of a model, and excludes it. -/
theorem Found.add (h : Found formula ts vectors es) (hV : V.Models es) :
    Found formula ts (signs ts V :: vectors)
      (es ++ [(Expr.cube (ts.map (·.indexed)) (signs ts V)).complement]) := by
  obtain ⟨hformula, hnew⟩ := (h.left V).1 hV
  refine ⟨List.nodup_cons.2 ⟨hnew, h.nodup⟩, ?_, fun W => ?_⟩
  · exact List.forall_mem_cons.2 ⟨⟨V, hformula, rfl⟩, h.consistent⟩
  · have hlength : (signs ts V).length = (ts.map (·.indexed)).length := by
      rw [length_signs, List.length_map]
    have hexcluded : (Expr.cube (ts.map (·.indexed)) (signs ts V)).complement.truth W = true ↔
        signs ts W ≠ signs ts V := by
      rw [Expr.truth_complement, Bool.not_eq_true', ← Bool.not_eq_true, Expr.truth_cube hlength,
        List.map_map]
      rfl
    have happend : W.Models (es ++ [(Expr.cube (ts.map (·.indexed)) (signs ts V)).complement]) ↔
        W.Models es ∧ signs ts W ≠ signs ts V := by
      simp only [Env.Models, List.forall_mem_append, List.forall_mem_singleton, hexcluded]
    rw [happend, h.left W, List.mem_cons, not_or, and_assoc, and_comm (a := _ ∉ _)]

/-- The sign patterns of the models of a formula, each of them once. -/
structure Patterns (formula : Expr) (ts : List Tracked) (vectors : List (List Bool)) : Prop where
  nodup : vectors.Nodup
  mem_iff : ∀ v, v ∈ vectors ↔ ∃ V : Store, formula.truth V = true ∧ signs ts V = v

/-- When nothing is left, all patterns are found. -/
theorem Found.patterns (h : Found formula ts vectors es) (hnone : ∀ V : Store, ¬ V.Models es) :
    Patterns formula ts vectors := by
  refine ⟨h.nodup, fun v => ⟨h.consistent v, ?_⟩⟩
  rintro ⟨V, hV, rfl⟩
  exact Classical.byContradiction fun hnot => hnone V ((h.left V).2 ⟨hV, hnot⟩)

end Tracked

/-- If the questions are decided and not too many, the enumeration ends with the cubes of all
patterns. There is one question for each pattern that it adds, and a last one. -/
theorem enumerateCubes_patterns {formula : Expr} {ts : List Tracked}
    (hts : ∀ t ∈ ts, t.indexed.IsFormula P) {n : Nat} {vectors : List (List Bool)} {es : List Expr}
    {s s' : Solver} (hs : s.scopes = [es, []]) (hes : ∀ e ∈ es, e.IsFormula P)
    (hfound : Tracked.Found formula ts vectors es) {r : Expr}
    (h : enumerateCubes ts n (vectors.map (Expr.cube (ts.map (·.predicate)))) s = .ok (r, s')) :
    ∃ new, s'.transcript = new ++ s.transcript ∧ (Decisive new →
      ((∀ q ∈ new, q.answer = .sat) → new.length ≤ n) → ∃ more,
        Tracked.Patterns formula ts (more ++ vectors) ∧ new.length = more.length + 1 ∧
        r = .disj ((more ++ vectors).map (Expr.cube (ts.map (·.predicate)))).reverse) := by
  induction n using Nat.strongRecOn generalizing vectors s es with
  | ind n ih =>
    obtain ⟨answer, t, hsolve, hcases⟩ := enumerateCubes_cases h
    obtain ⟨hscopes, -, htranscript, -⟩ := Solver.solve_ok hsolve
    have hassertions : s.assertions = es := by simp [Solver.assertions, hs]
    rw [hs] at hscopes
    rw [hassertions] at htranscript
    rcases hcases with ⟨rfl, rfl, rfl⟩ | ⟨hgiven, rfl, rfl⟩ | ⟨k, us, rfl, rfl, rfl, h⟩
    · refine ⟨[⟨es, .unsat⟩], htranscript, fun hd _ =>
        ⟨[], hfound.patterns fun V hV => ?_, rfl, rfl⟩⟩
      refine (hd.truthful ⟨es, .unsat⟩ (by simp)).not_holds rfl V fun e he => ?_
      exact (Expr.holds_iff_truth (hes e he)).2 (hV e he)
    · -- given up: there was no answer, or one cube too many
      refine ⟨[⟨es, answer⟩], htranscript, fun hd hfew => ?_⟩
      rcases hgiven with rfl | ⟨rfl, rfl⟩
      · exact absurd rfl (hd.decided ⟨es, .undefined⟩ (List.mem_singleton_self _))
      · simp at hfew
    · obtain ⟨m, hm, hmodel, hmodels⟩ := Solver.models_of_sat (by rwa [hassertions]) hsolve
      rw [hassertions] at hmodels
      have hassert (e : Expr) : (t.assert e).scopes = [es ++ [e], []] ∧
          (t.assert e).transcript = t.transcript := by
        simp [Solver.assert, hscopes]
      have hexcluded := (Tracked.isFormula_signed (s := t) hts).complement
      rw [Tracked.conj_signed_eq hm hmodel hts (·.indexed) fun _ => rfl] at hexcluded h
      rw [Tracked.conj_signed_eq hm hmodel hts (·.predicate) fun _ => rfl] at h
      obtain ⟨new, hnew, hrest⟩ := ih k (Nat.lt_succ_self k) (hassert _).1
        (List.forall_mem_append.2 ⟨hes, List.forall_mem_singleton.2 hexcluded⟩)
        (hfound.add hmodels) h
      refine ⟨new ++ [⟨es, .sat⟩], ?_, fun hd hfew => ?_⟩
      · rw [hnew, (hassert _).2, htranscript, List.append_assoc]
        rfl
      · have hfew' (hsat : ∀ q ∈ new, q.answer = .sat) : new.length ≤ k := by
          simpa using hfew (List.forall_mem_append.2 ⟨hsat, by simp⟩)
        obtain ⟨more, hpatterns, hlength, hr⟩ := hrest hd.of_append.1 hfew'
        refine ⟨more ++ [Tracked.signs ts (m.env hm)], ?_, ?_, ?_⟩
        · simpa using hpatterns
        · simp [hlength]
        · simpa using hr

/-- The boolean abstraction lists the sign patterns of the models of the formula, each once, and
asks once more than there are patterns. -/
theorem booleanAbstraction_patterns {formula : Expr} (hf : formula.IsFormula P) {ts : List Tracked}
    (hts : ∀ t ∈ ts, t.indexed.IsFormula P) {s s' : Solver} (hs : s.scopes = [[]]) {r : Expr}
    (h : booleanAbstraction formula ts s = .ok (r, s')) :
    ∃ new, Rests s new s' ∧ (Decisive new →
      ((∀ q ∈ new, q.answer = .sat) → new.length ≤ cubeLimit) → ∃ vectors,
        Tracked.Patterns formula ts vectors ∧ new.length = vectors.length + 1 ∧
        r = .disj (vectors.map (Expr.cube (ts.map (·.predicate))))) := by
  obtain ⟨t, hcubes, rfl⟩ := inScope_assert_ok hs h
  obtain ⟨⟨es, hes⟩, -⟩ := enumerateCubes_ok rfl hcubes
  obtain ⟨new, hnew, hpatterns⟩ := enumerateCubes_patterns hts rfl (by simpa using hf)
    (Tracked.Found.start formula ts) hcubes
  have hpop : t.pop = { t with scopes := [[]] } := by
    simp [Solver.pop, hes]
  rw [hpop]
  refine ⟨new, ⟨rfl, hnew⟩, fun hd hfew => ?_⟩
  obtain ⟨found, hfound, hlength, rfl⟩ := hpatterns hd hfew
  rw [List.append_nil] at hfound ⊢
  -- they are collected the last one first
  refine ⟨found.reverse, ⟨List.nodup_reverse.2 hfound.nodup, fun v => ?_⟩, ?_, ?_⟩
  · rw [List.mem_reverse, hfound.mem_iff]
  · rw [List.length_reverse, hlength]
  · rw [List.map_reverse]

/-! ## Sums of cubes -/

/-- The expression is the disjunction of the cubes over the predicates that are consistent with the
formula, which reads them at `m`. -/
structure SumOfCubes (formula : Expr) (m : SsaMap) (ps : List Predicate)
    (vectors : List (List Bool)) (r : Expr) : Prop where
  eq : r = .disj (vectors.map (Expr.cube (ps.map (·.expr))))
  nodup : (vectors.map (Expr.cube (ps.map (·.expr)))).Nodup
  length : ∀ v ∈ vectors, v.length = ps.length
  mem_iff : ∀ v, v.length = ps.length →
    (Expr.cube (ps.map (·.expr)) v ∈ vectors.map (Expr.cube (ps.map (·.expr))) ↔
      ∃ V : Store, formula.truth V = true ∧
        ((Expr.cube (ps.map (·.expr)) v).indexed m).truth V = true)

/-- The signs of the indexed predicates in a model are those of the predicates in the store that it
reads. -/
theorem signs_ofPredicates (ps : List Predicate) (m : SsaMap) (V : Store) :
    Tracked.signs (Tracked.ofPredicates ps m) V = (ps.map (·.expr)).map (·.truth (V.after m)) := by
  simp [Tracked.signs, Tracked.ofPredicates, Expr.truth_indexed_after]

/-- Where a cube is true, the predicates have its signs. -/
theorem truth_indexed_cube {ps : List Predicate} {m : SsaMap} {v : List Bool}
    (h : v.length = ps.length) : ((Expr.cube (ps.map (·.expr)) v).indexed m).truth V = true ↔
      Tracked.signs (Tracked.ofPredicates ps m) V = v := by
  rw [Expr.truth_indexed_after, Expr.truth_cube (by rw [h, List.length_map]), signs_ofPredicates]

/-- The disjunction of the cubes of all patterns is the sum of cubes. -/
theorem Tracked.Patterns.sumOfCubes {formula : Expr} {ps : List Predicate} {m : SsaMap}
    {vectors : List (List Bool)} (h : Patterns formula (ofPredicates ps m) vectors) :
    SumOfCubes formula m ps vectors (.disj (vectors.map (Expr.cube (ps.map (·.expr))))) := by
  have hlength : ∀ v ∈ vectors, v.length = ps.length := by
    intro v hv
    obtain ⟨V, -, rfl⟩ := (h.mem_iff v).1 hv
    rw [length_signs, ofPredicates, List.length_map]
  have hconsistent (v : List Bool) (hv : v.length = ps.length) : v ∈ vectors ↔
      ∃ V : Store, formula.truth V = true ∧
        ((Expr.cube (ps.map (·.expr)) v).indexed m).truth V = true := by
    simp only [h.mem_iff v, truth_indexed_cube hv]
  refine ⟨rfl, h.nodup.map_on fun v hv w hw hcubes => ?_, hlength, fun v hv => ⟨fun hmem => ?_, ?_⟩⟩
  · -- a store with the first pattern has the second one as well
    obtain ⟨V, -, hV⟩ := (hconsistent v (hlength v hv)).1 hv
    rw [← (truth_indexed_cube (hlength v hv)).1 hV]
    rw [hcubes] at hV
    exact (truth_indexed_cube (hlength w hw)).1 hV
  · obtain ⟨w, hw, hcubes⟩ := List.mem_map.1 hmem
    rw [← hcubes]
    exact (hconsistent w (hlength w hw)).1 hw
  · exact fun hV => List.mem_map_of_mem ((hconsistent v hv).2 hV)

/-- There are no more vectors of signs. -/
theorem length_le_two_pow {n : Nat} {vectors : List (List Bool)} (hnodup : vectors.Nodup)
    (hlength : ∀ v ∈ vectors, v.length = n) : vectors.length ≤ 2 ^ n := by
  let toVector (v : List Bool) (hv : v.length = n) : List.Vector Bool n := ⟨v, hv⟩
  have hvectors : (vectors.pmap toVector hlength).Nodup :=
    hnodup.pmap fun _ _ _ _ heq => congrArg Subtype.val heq
  calc vectors.length = (vectors.pmap toVector hlength).length := List.length_pmap.symm
    _ ≤ Fintype.card (List.Vector Bool n) := hvectors.length_le_card
    _ = 2 ^ n := by rw [card_vector, Fintype.card_bool]

namespace SumOfCubes

variable {formula : Expr} {m : SsaMap} {ps : List Predicate} {vectors : List (List Bool)} {r : Expr}

/-- There are two signs for each predicate. -/
theorem length_le (h : SumOfCubes formula m ps vectors r) : vectors.length ≤ 2 ^ ps.length :=
  length_le_two_pow (List.Nodup.of_map _ h.nodup) h.length

/-- A store that satisfies the sum has the signs of a model. -/
theorem exists_model (h : SumOfCubes formula m ps vectors r) (hσ : r.truth σ = true) :
    ∃ V : Store, formula.truth V = true ∧
      ∀ p ∈ ps, p.expr.truth σ = (p.expr.indexed m).truth V := by
  rw [h.eq, Expr.truth_disj, List.any_eq_true] at hσ
  obtain ⟨_, hmem, hσ⟩ := hσ
  obtain ⟨v, hv, rfl⟩ := List.mem_map.1 hmem
  have hlength := h.length v hv
  obtain ⟨V, hV, hcube⟩ := (h.mem_iff v hlength).1 hmem
  refine ⟨V, hV, fun p hp => ?_⟩
  rw [Expr.truth_cube (by rw [hlength, List.length_map])] at hσ
  rw [Expr.truth_indexed_after, Expr.truth_cube (by rw [hlength, List.length_map])] at hcube
  rw [Expr.truth_indexed_after]
  exact List.map_inj_left.1 (hσ.trans hcube.symm) _ (List.mem_map_of_mem hp)

/-- What depends on the predicates alone, and follows from the formula, follows from the sum. -/
theorem entails (h : SumOfCubes formula m ps vectors r) {c : Expr} (hc : c.DependsOn ps)
    (himplied : ∀ V : Store, formula.truth V = true → (c.indexed m).truth V = true)
    (hσ : r.truth σ = true) : c.truth σ = true := by
  obtain ⟨V, hV, hsigns⟩ := h.exists_model hσ
  rw [hc σ (V.after m) fun p hp => by rw [hsigns p hp, Expr.truth_indexed_after],
    ← Expr.truth_indexed_after]
  exact himplied V hV

end SumOfCubes

/-! ## Blocks -/

/-- The boolean combinations of predicates. -/
inductive Expr.Combination (ps : List Predicate) : Expr → Prop where
  | const (b : Bool) : Combination ps (.bool b)
  | predicate {p : Predicate} (hp : p ∈ ps) : Combination ps p.expr
  | not {c : Expr} (hc : Combination ps c) : Combination ps (.not c)
  | logic (op : LogicOp) {c d : Expr} (hc : Combination ps c) (hd : Combination ps d) :
      Combination ps (.logic op c d)

/-- The truth value of a combination is a function of those of its predicates. -/
theorem Expr.Combination.dependsOn {ps : List Predicate} {c : Expr} (hc : Combination ps c) :
    c.DependsOn ps := by
  intro σ τ h
  induction hc with
  | const b => rfl
  | predicate hp => exact h _ hp
  | not _ ih => rw [Expr.truth_not, Expr.truth_not, ih]
  | logic op _ _ ihc ihd => rw [Expr.truth_logic, Expr.truth_logic, ihc, ihd]

/-- The formula of a block is well-sorted. -/
theorem isFormula_blockFormula {prior : Expr} (hprior : prior.IsFormula P) (m : SsaMap)
    {block : PathFormula} (hblock : block.Sorted) :
    (blockFormula prior m block).IsFormula fun _ => True :=
  .and ⟨hprior.sorted.indexed m, by rw [Expr.ty_indexed, hprior.bool], fun _ _ => trivial⟩ hblock

/-- Well-sorted predicates are formulas when they are indexed. -/
theorem isFormula_ofPredicates {ps : List Predicate} (hps : ∀ p ∈ ps, p.expr.WellSorted)
    (m : SsaMap) : ∀ t ∈ Tracked.ofPredicates ps m, t.indexed.IsFormula fun _ => True := by
  intro t ht
  obtain ⟨p, hp, rfl⟩ := List.mem_map.1 ht
  exact ⟨(hps p hp).indexed _, by rw [Expr.ty_indexed, p.isPredicate.1], fun _ _ => trivial⟩

/-- Without predicates, only the constants are left: the sum of the one cube over nothing, or of no
cube. -/
theorem sumOfCubes_nil {formula : Expr} (m : SsaMap) {known : Bool}
    (hknown : known = true ↔ ∀ V : Store, formula.truth V = false) :
    SumOfCubes formula m [] (if known then [] else [[]]) (.bool !known) := by
  cases known with
  | true =>
    refine ⟨rfl, .nil, by simp, fun v hv => ?_⟩
    simp [hknown.1 rfl]
  | false =>
    refine ⟨rfl, List.nodup_singleton _, by simp, fun v hv => ?_⟩
    obtain rfl := List.length_eq_zero_iff.1 hv
    obtain ⟨V, hV⟩ := Expr.exists_model_of_not (e := formula) fun h => by cases hknown.2 h
    exact ⟨fun _ => ⟨V, hV, rfl⟩, fun _ => by simp⟩

/-- The boolean abstraction of a block is a sum of cubes, with or without predicates. -/
theorem abstractBlock_sumOfCubes {prior : Expr} (hprior : prior.IsFormula P) (m : SsaMap)
    {block : PathFormula} (hblock : block.Sorted) {ps : List Predicate}
    (hps : ∀ p ∈ ps, p.expr.WellSorted) {s s' : Solver} (hs : s.scopes = [[]]) {r : Expr}
    (h : abstractBlock .boolean prior m block ps s = .ok (r, s')) :
    ∃ new, Rests s new s' ∧ (Decisive new →
      ((∀ q ∈ new, q.answer = .sat) → new.length ≤ cubeLimit) → ∃ vectors,
        SumOfCubes (blockFormula prior m block) block.ssa ps vectors r ∧
        (ps ≠ [] → new.length = vectors.length + 1)) := by
  have hf := isFormula_blockFormula hprior m hblock
  unfold abstractBlock at h
  split at h
  · next hempty =>
    obtain rfl := List.isEmpty_iff.1 hempty
    obtain ⟨known, t, hknown, h⟩ := state_bind_ok.1 h
    cases state_pure_ok.1 h
    obtain ⟨new, hrests, hiff⟩ := isUnsat_determines hf s known s' hs hknown
    exact ⟨new, hrests, fun hd _ => ⟨_, sumOfCubes_nil _ (hiff hd), fun hne => absurd rfl hne⟩⟩
  · obtain ⟨new, hrests, hpatterns⟩ := booleanAbstraction_patterns hf
      (isFormula_ofPredicates hps _) hs h
    refine ⟨new, hrests, fun hd hfew => ?_⟩
    obtain ⟨vectors, hvectors, hlength, rfl⟩ := hpatterns hd hfew
    have hpredicates : (Tracked.ofPredicates ps block.ssa).map (·.predicate) =
        ps.map (·.expr) := by
      simp [Tracked.ofPredicates]
    rw [hpredicates]
    exact ⟨vectors, hvectors.sumOfCubes, fun _ => hlength⟩

/-- If there are no more than so many answers `sat`, the limit of cubes is not hit. -/
theorem length_le_of_countP {new : List Exchange} {n : Nat}
    (h : new.countP (·.answer = .sat) ≤ n) (hsat : ∀ q ∈ new, q.answer = .sat) :
    new.length ≤ n := by
  rwa [List.countP_eq_length.2 (by simpa using hsat)] at h

/-- The boolean abstraction of a block over predicates is the disjunction of different cubes, each
of which gives a sign to every predicate: of the cubes that are consistent with the block. Each of
them took one round to find. So the abstraction implies every combination of the predicates that the
block implies. -/
theorem abstractBlock_boolean_strongest {prior : Expr} (hprior : prior.IsFormula P) (m : SsaMap)
    {block : PathFormula} (hblock : block.Sorted) {ps : List Predicate} (hne : ps ≠ [])
    (hps : ∀ p ∈ ps, p.expr.WellSorted) {s s' : Solver} (hs : s.scopes = [[]]) {r : Expr}
    (h : abstractBlock .boolean prior m block ps s = .ok (r, s')) :
    ∃ new, Rests s new s' ∧ (Decisive new → new.countP (·.answer = .sat) ≤ cubeLimit →
      (∃ vectors, SumOfCubes (blockFormula prior m block) block.ssa ps vectors r ∧
        new.length = vectors.length + 1 ∧ vectors.length ≤ 2 ^ ps.length) ∧
      ∀ c, Expr.Combination ps c →
        (∀ V : Store, (blockFormula prior m block).truth V = true →
          (c.indexed block.ssa).truth V = true) →
        ∀ σ : Store, r.truth σ = true → c.truth σ = true) := by
  obtain ⟨new, hrests, hsum⟩ := abstractBlock_sumOfCubes hprior m hblock hps hs h
  refine ⟨new, hrests, fun hd hcount => ?_⟩
  obtain ⟨vectors, hvectors, hlength⟩ := hsum hd (length_le_of_countP hcount)
  exact ⟨⟨vectors, hvectors, hlength hne, hvectors.length_le⟩, fun c hc himplied σ hσ =>
    hvectors.entails hc.dependsOn himplied hσ⟩

/-- Two of four cubes are left, and they imply the formula of the block. -/
theorem abstractBlock_boolean_strongest_zeroOrTwo :
    ∃ s', abstractBlock .boolean (.bool true) .empty zeroOrTwo [hasValue 0, hasValue 2]
        (.unasked 16 [[]]) = .ok (.disj zeroOrTwoCubes, s') ∧ Decisive s'.transcript ∧
      (∃ vectors, SumOfCubes (blockFormula (.bool true) .empty zeroOrTwo) zeroOrTwo.ssa
        [hasValue 0, hasValue 2] vectors (.disj zeroOrTwoCubes) ∧ vectors.length = 2) ∧
      ∀ σ : Store, (Expr.disj zeroOrTwoCubes).truth σ = true →
        (Expr.logic .or (hasValue 0).expr (hasValue 2).expr).truth σ = true := by
  obtain ⟨s', hrun, hasked⟩ := exists_run_zeroOrTwo
  have hd : Decisive s'.transcript := by
    rw [hasked]
    exact ⟨truthful_zeroOrTwoAsked, by simp [zeroOrTwoAsked]⟩
  have hblock : zeroOrTwo.Sorted := ⟨by decide +kernel, rfl, fun _ _ => trivial⟩
  obtain ⟨new, hrests, hstrongest⟩ := abstractBlock_boolean_strongest
    ((Expr.IsFormula.closed fun _ => True).const true) _ hblock (by simp) (by decide +kernel) rfl
    hrun
  rw [hrests.eq_transcript] at hstrongest
  obtain ⟨⟨vectors, hsum, hlength, -⟩, hentails⟩ := hstrongest hd (by rw [hasked]; decide)
  rw [hasked] at hlength
  refine ⟨s', hrun, hd, ⟨vectors, hsum, (Nat.succ.inj hlength).symm⟩, hentails _ ?_ fun V hV => hV⟩
  exact .logic .or (.predicate (by simp)) (.predicate (by simp))

end Cegar

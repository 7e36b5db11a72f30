import Cegar.Proofs.Literals

/-!
# Abstractions are strong

If the solver decides all questions and is right, and the enumeration of cubes is not given up, the
abstraction of a block says all that follows from the block about a single predicate. In particular
the abstraction of a block that cannot be executed is false.

* **`Conclusive`**: what is asked of the answers;
* **`abstractBlock_settles`**: the abstraction of a block decides each predicate that the block
  decides.
-/

namespace Cegar

open SolverM

/-! ## Conclusive answers -/

/-- All questions were decided, correctly, and not so many in a row with `sat` that an enumeration of
cubes was given up. -/
structure Conclusive (qs : List Exchange) : Prop where
  truthful : Truthful qs
  decided : ∀ q ∈ qs, q.answer ≠ .undefined
  few : ∀ rs, rs <:+: qs → (∀ q ∈ rs, q.answer = .sat) → rs.length ≤ cubeLimit

/-- Answers that are conclusive together are so one by one. -/
theorem Conclusive.of_append {qs rs : List Exchange} (h : Conclusive (qs ++ rs)) :
    Conclusive qs ∧ Conclusive rs := by
  obtain ⟨ht, ht'⟩ := h.truthful.of_append
  obtain ⟨hd, hd'⟩ := List.forall_mem_append.1 h.decided
  exact ⟨⟨ht, hd, fun _ hpart => h.few _ (hpart.trans (List.prefix_append qs rs).isInfix)⟩,
    ⟨ht', hd', fun _ hpart => h.few _ (hpart.trans (List.suffix_append qs rs).isInfix)⟩⟩

namespace SolverM

variable {α : Type}

/-- Run at rest, the computation ends at rest, and its result satisfies `Q` if the answers that it
got are conclusive. -/
def Settles (act : SolverM α) (Q : α → Prop) : Prop :=
  ∀ s x s', s.scopes = [[]] → act s = .ok (x, s') →
    ∃ new, Rests s new s' ∧ (Conclusive new → Q x)

theorem Settles.mono {act : SolverM α} {Q Q' : α → Prop} (h : Settles act Q)
    (hQ : ∀ x, Q x → Q' x) : Settles act Q' := by
  intro s x s' hs hx
  obtain ⟨new, hrest, hq⟩ := h s x s' hs hx
  exact ⟨new, hrest, fun hc => hQ x (hq hc)⟩

/-- Conclusive answers decide what decided questions determine. -/
theorem Determines.settles {act : SolverM α} {Q : α → Prop} (h : Determines act Q) :
    Settles act Q := by
  intro s x s' hs hx
  obtain ⟨new, hrest, hq⟩ := h s x s' hs hx
  exact ⟨new, hrest, fun hc => hq ⟨hc.truthful, hc.decided⟩⟩

end SolverM

/-! ## Blocks -/

/-- A sum of cubes is false if the formula has no model. -/
theorem SumOfCubes.eq_false {formula : Expr} {m : SsaMap} {ps : List Predicate}
    {vectors : List (List Bool)} {r : Expr} (h : SumOfCubes formula m ps vectors r)
    (hnone : ∀ V : Store, formula.truth V = false) : r = .bool false := by
  obtain rfl : vectors = [] := by
    refine List.eq_nil_iff_forall_not_mem.2 fun v hv => ?_
    obtain ⟨V, hV, -⟩ := (h.mem_iff v (h.length v hv)).1 (List.mem_map_of_mem hv)
    simp [hnone V] at hV
  exact h.eq

/-- The abstraction of a block that cannot be executed is false. Otherwise it decides each predicate
that the block decides. -/
theorem abstractBlock_settles (kind : AbstractionKind) {prior : Expr} (hprior : prior.WellSorted)
    (hbool : prior.ty = .bool) (m : SsaMap) {block : PathFormula} (hblock : block.Sorted)
    {ps : List Predicate} (hps : ∀ q ∈ ps, q.expr.WellSorted) :
    Settles (abstractBlock kind prior m block ps) fun r =>
      ((∀ V : Store, (blockFormula prior m block).truth V = false) → r = .bool false) ∧
      ∀ q ∈ ps, ∀ b, (blockFormula prior m block).Decides (q.expr.indexed block.ssa) b →
        ∀ σ : Store, r.truth σ = true → q.expr.truth σ = b := by
  have hprior : prior.IsFormula fun _ => True := ⟨hprior, hbool, fun _ _ => trivial⟩
  cases kind with
  | boolean =>
    intro s r s' hs h
    obtain ⟨new, hrests, hsum⟩ := abstractBlock_sumOfCubes hprior m hblock hps hs h
    refine ⟨new, hrests, fun hc => ?_⟩
    obtain ⟨vectors, hvectors, -⟩ := hsum ⟨hc.truthful, hc.decided⟩ (hc.few new (List.infix_refl new))
    refine ⟨hvectors.eq_false, fun q hq b hb σ hσ => ?_⟩
    obtain ⟨V, hV, hsigns⟩ := hvectors.exists_model hσ
    rw [hsigns q hq, hb V hV]
  | cartesian =>
    by_cases hmodel : ∃ V : Store, (blockFormula prior m block).truth V = true
    · refine (abstractBlock_cartesian_literals hprior m hblock hps hmodel).settles.mono ?_
      rintro _ ⟨sign, hsign, rfl⟩
      refine ⟨fun hnone => ?_, fun q hq b hb σ hσ => ?_⟩
      · obtain ⟨V, hV⟩ := hmodel
        simp [hnone V] at hV
      · rw [Expr.truth_conj, List.all_eq_true] at hσ
        have hliteral := hσ (q.expr.literal b)
          (List.mem_filterMap.2 ⟨q, hq, by rw [(hsign q b).2 hb]; rfl⟩)
        simpa using hliteral
    · have hnone : ∀ V : Store, (blockFormula prior m block).truth V = false :=
        fun V => Bool.eq_false_iff.2 fun hV => hmodel ⟨V, hV⟩
      refine (abstractBlock_cartesian_false hprior m hblock ps hnone).settles.mono ?_
      rintro _ rfl
      exact ⟨fun _ => rfl, fun q hq b hb σ hσ => by cases hσ⟩

end Cegar

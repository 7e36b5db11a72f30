import Cegar.Proofs.Analysis.States

/-!
# Merging and coverage lose no store

A merged state stands for the stores of both its inputs, and a state that covers another one stands
for all of its stores if the answers of the solver are correct.

* **`Inner.standsFor_merge`**: the union of two segments;
* **`Analysis.merge?_ok`**: merging, also when the result was computed before;
* **`Analysis.covers_ok`**: coverage.
-/

namespace Cegar

variable {A : Automaton}

/-! ## Unions -/

namespace Inner

variable {arena : Arena} {s t : Segment}

/-- Two segments that can be merged: of one block and at one location. -/
structure Mergeable (A : Automaton) (arena : Arena) (s t : Segment) : Prop where
  left : s.Valid A arena
  right : t.Valid A arena
  owner : s.owner = t.owner
  location : s.location = t.location

/-- Both path formulas describe executions from the common owner. -/
theorem Mergeable.describes (h : Mergeable A arena s t) :
    ∃ owner, arena.get? s.owner = some owner ∧ arena.get? t.owner = some owner ∧
      s.path.Describes A owner.location owner.ssa s.location ∧
      t.path.Describes A owner.location owner.ssa s.location := by
  obtain ⟨owner, howner, hs⟩ := h.left
  obtain ⟨owner', howner', ht⟩ := h.right
  rw [← h.owner] at howner'
  cases howner.symm.trans howner'
  exact ⟨owner, howner, h.owner ▸ howner', hs, h.location ▸ ht⟩

/-- The union of two valid segments is valid. -/
theorem Mergeable.valid (hA : A.WellFormed) (h : Mergeable A arena s t) :
    (merge s t).Valid A arena := by
  obtain ⟨owner, howner, -, hs, ht⟩ := h.describes
  refine ⟨⟨owner, howner, hs.or hA ht⟩, fun a b hab => ?_⟩
  cases hab
  exact ⟨h.left, h.right, h.owner, h.location, rfl⟩

/-- The union stands for the stores of both segments. -/
theorem standsFor_merge (hA : A.WellFormed) (harena : arena.Valid A)
    (h : Mergeable A arena s t) {σ : Store} :
    (merge s t).toSegment.StandsFor A arena σ ↔ s.StandsFor A arena σ ∨ t.StandsFor A arena σ := by
  obtain ⟨owner, howner, howner', hs, ht⟩ := h.describes
  have hknown (v : Var) (hv : v ∈ A.vars) : v.index = none ∧ Known (· ∈ A.vars) v :=
    ⟨hA.vocabulary.unindexed v hv, hA.vocabulary.toPlain.known hv⟩
  rw [← (h.valid hA).segment.denotes_iff hA harena, ← h.left.denotes_iff hA harena,
    ← h.right.denotes_iff hA harena]
  exact denotes_merge hknown hA.vocabulary.oneType_known
    ((harena.state _ _ howner).unindexed hA)
    ⟨howner, hs.overVars.within.fits, hs.le⟩ ⟨howner', ht.overVars.within.fits, ht.le⟩

/-- A state stands for the stores of what was merged into it. -/
theorem Valid.standsFor_absorbed (hA : A.WellFormed) (harena : arena.Valid A) {u : Inner}
    (hu : u.Valid A arena) (h : u.absorbs s = true) {σ : Store} (hσ : s.StandsFor A arena σ) :
    u.toSegment.StandsFor A arena σ := by
  unfold absorbs at h
  split at h
  · next a b hab =>
    obtain ⟨ha, hb, howner, hlocation, hmerge⟩ := hu.inputs a b hab
    have hm : Mergeable A arena a b := ⟨ha, hb, howner, hlocation⟩
    rw [hmerge]
    simp only [Bool.or_eq_true, decide_eq_true_eq] at h
    rw [standsFor_merge hA harena hm]
    rcases h with rfl | rfl
    · exact .inl hσ
    · exact .inr hσ
  · cases h

end Inner

namespace Analysis

variable {a a' : Analysis} {p : Problem}

/-! ## Merging -/

/-- What the result of merging `s` into `t` is worth: it stands for the stores of both. -/
def MergeAnswer (p : Problem) (a a' : Analysis) (s t : State) (l : Location) (r : Option State) :
    Prop :=
  a.Advances p.automaton a' ∧ a'.arena = a.arena ∧ ∀ m, r = some m →
    t.isAbstraction = false ∧ m.Valid p.automaton a'.arena l ∧
    ∀ σ, (s.StandsFor p.automaton a'.arena σ ∨ t.StandsFor p.automaton a'.arena σ) →
      m.StandsFor p.automaton a'.arena σ

/-- What can be merged are states inside a block. -/
theorem merge?_ok (hA : p.automaton.WellFormed) (ha : a.Valid p.automaton) {s t : State}
    {l : Location} (hs : s.Valid p.automaton a.arena l) (ht : t.Valid p.automaton a.arena l)
    {r : Option State} (h : merge? p s t a = .ok (r, a')) : MergeAnswer p a a' s t l r := by
  obtain ⟨rfl, rfl⟩ | ⟨u, v, cache, statistics, rfl, rfl, howner, hlocation, -, rfl, rfl, hcache,
    hinitial⟩ := merge?_cases ha.cache.toCoherent h
  · exact ⟨.refl ha, rfl, fun m hm => by cases hm⟩
  · have hm : Inner.Mergeable p.automaton a.arena u.toSegment v.toSegment :=
      ⟨hs.1.segment, ht.1.segment, howner, hlocation⟩
    refine ⟨.of_update ha (.refl ha.rest) ha.arena (.refl _) hcache hinitial, rfl, fun m hrm => ?_⟩
    cases hrm
    exact ⟨rfl, ⟨hm.valid hA, hs.2⟩, fun σ hσ => (Inner.standsFor_merge hA ha.arena hm).2 hσ⟩

/-! ## Coverage -/

/-- What an answer about coverage is worth: if it is positive, and the solver was right, `t` stands
for all stores of `s`. -/
def CoverageAnswer (p : Problem) (a a' : Analysis) (s t : State) (b : Bool) : Prop :=
  a.Advances p.automaton a' ∧ a'.arena = a.arena ∧ (a'.Truthful → b = true →
    ∀ σ, s.StandsFor p.automaton a'.arena σ → t.StandsFor p.automaton a'.arena σ)

/-- A negative answer promises nothing. -/
theorem CoverageAnswer.no (ha : a.Valid p.automaton) {s t : State} :
    CoverageAnswer p a a s t false :=
  ⟨.refl ha, rfl, fun _ hb => by cases hb⟩

/-- Abstraction states are compared by their abstractions. -/
theorem covers_abstraction_ok (ha : a.Valid p.automaton) {i j : AbstractionId} {b : Bool}
    (h : covers p (.abstraction i) (.abstraction j) a = .ok (b, a')) :
    CoverageAnswer p a a' (.abstraction i) (.abstraction j) b := by
  simp only [covers] at h
  split at h
  · next heq =>
    cases heq
    cases state_pure_ok.1 h
    exact ⟨.refl ha, rfl, fun _ _ _ hσ => hσ⟩
  · obtain ⟨u, a₁, hu, h₁⟩ := state_bind_ok.1 h
    obtain ⟨hget, rfl⟩ := abstractionState_ok.1 hu
    obtain ⟨v, a₁, hv, h₂⟩ := state_bind_ok.1 h₁
    obtain ⟨hget', rfl⟩ := abstractionState_ok.1 hv
    have hleft := (ha.arena.state _ _ hget).formula
    have hright := (ha.arena.state _ _ hget').formula
    obtain ⟨hadv, harena, -, hsound⟩ := consult_ok (implied_asks u.abstraction v.abstraction) ha h₂
    refine ⟨hadv, harena, fun htr hb σ hσ => ?_⟩
    rw [harena] at hσ ⊢
    obtain ⟨w, hw, hσ⟩ := hσ
    cases hget.symm.trans hw
    have hu := (Expr.holds_iff_truth hleft).2 hσ
    have hv := hsound htr hb (hright.mono fun _ _ _ => trivial) σ hu
    exact ⟨v, hget', (Expr.holds_iff_truth hright).1 hv⟩

/-- For a state inside a block the question is put about the end of its path. -/
theorem covers_inner_ok (hA : p.automaton.WellFormed) (ha : a.Valid p.automaton) {s : Inner}
    {l : Location} (hs : State.Valid p.automaton a.arena l (.inner s)) {j : AbstractionId}
    {b : Bool}
    (h : covers p (.inner s) (.abstraction j) a = .ok (b, a')) :
    CoverageAnswer p a a' (.inner s) (.abstraction j) b := by
  simp only [covers] at h
  split at h
  · cases state_pure_ok.1 h
    exact .no ha
  · obtain ⟨owner, a₁, howner, h₁⟩ := state_bind_ok.1 h
    obtain ⟨hget, rfl⟩ := abstractionState_ok.1 howner
    obtain ⟨cover, a₁, hcover, h₂⟩ := state_bind_ok.1 h₁
    obtain ⟨hget', rfl⟩ := abstractionState_ok.1 hcover
    have hcoverf := (ha.arena.state _ _ hget').formula
    have hindexed := hcoverf.indexed hA.vocabulary.toPlain s.path.ssa
    obtain ⟨hadv, harena, -, hsound⟩ := consult_ok (implied_asks _ _) ha h₂
    refine ⟨hadv, harena, fun htr hb σ hσ => ?_⟩
    rw [harena] at hσ ⊢
    obtain ⟨w, hw, V, hVo, hVs, hr⟩ := (hs.denotes_iff hA ha.arena).2 hσ
    cases hget.symm.trans hw
    refine ⟨cover, hget', ?_⟩
    -- the abstraction at the end of the path is the one read in the store
    rw [← Expr.truth_indexed hcoverf.vars hr]
    exact (Expr.holds_iff_truth hindexed).1
      (hsound htr hb (hindexed.mono fun _ _ _ => trivial) V (Expr.holds_and.2 ⟨hVo, hVs⟩))

/-- A covering state stands for all stores of the state that it covers. -/
theorem covers_ok (hA : p.automaton.WellFormed) (ha : a.Valid p.automaton) {s t : State}
    {l : Location} (hs : s.Valid p.automaton a.arena l) (ht : t.Valid p.automaton a.arena l)
    {b : Bool} (h : covers p s t a = .ok (b, a')) : CoverageAnswer p a a' s t b := by
  cases s with
  | top | bottom => cases hs
  | abstraction i =>
    cases t with
    | top | bottom => cases ht
    | inner t =>
      cases state_pure_ok.1 h
      exact .no ha
    | abstraction j => exact covers_abstraction_ok ha h
  | inner s =>
    cases t with
    | top | bottom => cases ht
    | inner t =>
      cases state_pure_ok.1 h
      refine ⟨.refl ha, rfl, fun _ hb σ hσ => ?_⟩
      simp only [Bool.or_eq_true, decide_eq_true_eq] at hb
      rcases hb with heq | habs
      · show t.toSegment.StandsFor p.automaton a.arena σ
        rw [← heq]
        exact hσ
      · exact ht.1.standsFor_absorbed hA ha.arena habs hσ
    | abstraction j => exact covers_inner_ok hA ha hs h

end Analysis

end Cegar

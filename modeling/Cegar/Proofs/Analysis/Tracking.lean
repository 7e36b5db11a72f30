import Cegar.Analysis.Refinement
import Cegar.Proofs.Abstraction
import Cegar.Proofs.Precision

/-!
# Refinements and joins of precisions

A refinement goes through the predicates that it is given and looks each of them up in what it has
made so far. Nevertheless the outcome depends on the members of the list only, and whether anything
was new can be told from the precision that it started from: a predicate that the refinement itself
added was new before.

A join is to track what either precision tracks. It does so exactly where it loses no global
predicate of the second precision, and that happens at locations that have predicates of their own
in the first one only. So two precisions may be swapped, and three regrouped, where nothing is lost.

* **`Precision.refineFrom_changed`**: the flag that the loop carries is a scan of the list;
* **`Precision.refine_exact`**: what a refinement tracks, and that its list counts as a set;
* **`Precision.Absorbs`**: nothing is lost when a precision is joined to another one;
* **`Precision.join_exact`**: where a join is the union, commutative and associative.
-/

namespace Cegar

namespace Precision

variable {p r s : Precision} {l : Location} {q : Predicate}

theorem mem_predicatesAt : q ∈ p.predicatesAt l ↔ q ∈ p.setAt l := Std.ExtTreeSet.mem_toList

/-- The predicates are listed in ascending order, so their list is determined by its members. -/
theorem predicatesAt_eq_iff :
    p.predicatesAt l = r.predicatesAt l ↔ ∀ q, q ∈ p.setAt l ↔ q ∈ r.setAt l := by
  rw [predicatesAt, predicatesAt, Std.ExtTreeSet.toList_inj]
  exact ⟨fun h q => by rw [h], Std.ExtTreeSet.ext_mem⟩

/-! ## Refinements -/

section Refine

variable {changed : Bool} {qs qs' : List (Location × Predicate)}

/-- What is new when the loop comes to it was new at its start, or repeats something that was. -/
theorem refineFrom_changed :
    (p.refineFrom changed qs).2 = true ↔
      changed = true ∨ ∃ e ∈ qs, p.tracks e.1 e.2 = false := by
  fun_induction refineFrom p changed qs with
  | case1 => simp
  | case2 p changed k t qs htracks ih => simp [ih, htracks]
  | case3 p changed k t qs huntracked ih =>
    -- The rest is compared with a larger precision, but the flag is up from here on.
    rw [ih]
    exact iff_of_true (.inl rfl) (.inr ⟨(k, t), by simp, by simpa using huntracked⟩)

/-- A refinement changes a precision exactly if it has something to track that was not tracked. -/
theorem changed_refine :
    (p.refine qs).2 = true ↔ ∃ e ∈ qs, p.tracks e.1 e.2 = false := by
  simp [refine, refineFrom_changed]

/-- Predicates that are all tracked already leave the precision as it is. -/
theorem refine_of_tracks (h : ∀ e ∈ qs, p.tracks e.1 e.2 = true) : p.refine qs = (p, false) := by
  unfold refine
  generalize false = changed
  fun_induction refineFrom p changed qs with
  | case1 => rfl
  | case2 p changed k t qs _ ih => exact ih fun e he => h e (List.mem_cons_of_mem _ he)
  | case3 p changed k t qs huntracked => exact absurd (h (k, t) List.mem_cons_self) huntracked

/-- The scan for a place to start again finds a new predicate exactly if the refinement does. -/
theorem changed_refine_suggestions (p : Precision) (stops : List Refinement.Stop)
    (pss : List (List Predicate)) :
    (p.refine ((Refinement.suggestions stops pss).map
        fun sq => (sq.1.state.location, sq.2))).2 =
      ((Refinement.suggestions stops pss).find?
        fun sq => !p.tracks sq.1.state.location sq.2).isSome := by
  rw [Bool.eq_iff_iff, changed_refine, List.find?_isSome]
  constructor
  · rintro ⟨e, he, huntracked⟩
    obtain ⟨sq, hsq, rfl⟩ := List.mem_map.1 he
    exact ⟨sq, hsq, by simpa using huntracked⟩
  · rintro ⟨sq, hsq, huntracked⟩
    exact ⟨_, List.mem_map_of_mem hsq, by simpa using huntracked⟩

/-- A refined precision lists at every location, in ascending order, what it listed before and what
it was told to, and has the same global predicates and policy. It has changed if something in the
list was not tracked, which is also what decides where exploration starts again. The order of the
list and repetitions in it do not matter, and refining again changes nothing. -/
theorem refine_exact (p : Precision) (qs : List (Location × Predicate)) :
    (∀ l, ((p.refine qs).1.predicatesAt l).Pairwise (fun q q' => compare q q' = .lt) ∧
      ∀ q, q ∈ (p.refine qs).1.predicatesAt l ↔ q ∈ p.predicatesAt l ∨ (l, q) ∈ qs) ∧
    ((p.refine qs).2 = true ↔ ∃ e ∈ qs, p.tracks e.1 e.2 = false) ∧
    (∀ stops pss, (p.refine ((Refinement.suggestions stops pss).map
        fun sq => (sq.1.state.location, sq.2))).2 =
      ((Refinement.suggestions stops pss).find?
        fun sq => !p.tracks sq.1.state.location sq.2).isSome) ∧
    (p.refine qs).1.everywhere = p.everywhere ∧ (p.refine qs).1.policy = p.policy ∧
    (∀ qs', (∀ e, e ∈ qs' ↔ e ∈ qs) →
      (∀ l, (p.refine qs').1.predicatesAt l = (p.refine qs).1.predicatesAt l) ∧
        (p.refine qs').2 = (p.refine qs).2) ∧
    (p.refine qs).1.refine qs = ((p.refine qs).1, false) := by
  refine ⟨fun l => ⟨Std.ExtTreeSet.ordered_toList, fun q => ?_⟩, changed_refine,
    changed_refine_suggestions p, refineFrom_unchanged.1, policy_refine,
    fun qs' hmem => ⟨fun l => ?_, ?_⟩, ?_⟩
  · rw [mem_predicatesAt, mem_predicatesAt, mem_setAt_refine]
  · rw [predicatesAt_eq_iff]
    intro q
    rw [mem_setAt_refine, mem_setAt_refine, hmem]
  · rw [Bool.eq_iff_iff, changed_refine, changed_refine]
    simp only [hmem]
  · refine refine_of_tracks fun e he => ?_
    exact tracks_eq_true.2 (mem_setAt_refine.2 (.inr he))

end Refine

/-- Tracks `x = c` everywhere, for the given integers `c`. -/
def globally (cs : List Int128) : Precision :=
  .ofGlobal ({} : Options).toPolicy (cs.map hasValue)

/-- Tracks `x = 1` everywhere and `x = 2` at one location only. -/
def mostlyOne : Precision := (globally [1]).insert ⟨1⟩ (hasValue 2)

/-- A predicate that is new, a global one, one that its location has as its own, the first one once
more, and another new one. -/
def mixed : List (Location × Predicate) :=
  [(⟨2⟩, hasValue 3), (⟨3⟩, hasValue 1), (⟨1⟩, hasValue 2), (⟨2⟩, hasValue 3), (⟨2⟩, hasValue 0)]

theorem refine_exact_mixed :
    (∀ e, e ∈ mixed.reverse ++ mixed ↔ e ∈ mixed) ∧
      (mostlyOne.refine mixed).1.predicatesAt ⟨2⟩ = [hasValue 0, hasValue 1, hasValue 3] ∧
      (∀ l, (mostlyOne.refine (mixed.reverse ++ mixed)).1.predicatesAt l =
        (mostlyOne.refine mixed).1.predicatesAt l) ∧
      (mostlyOne.refine (mixed.reverse ++ mixed)).2 = true ∧
      (mostlyOne.refine mixed).1.refine mixed = ((mostlyOne.refine mixed).1, false) := by
  have hmem : ∀ e, e ∈ mixed.reverse ++ mixed ↔ e ∈ mixed := by simp
  obtain ⟨-, -, -, -, -, hset, hagain⟩ := refine_exact mostlyOne mixed
  obtain ⟨hsame, hflag⟩ := hset _ hmem
  exact ⟨hmem, by decide +kernel, hsame, hflag.trans (by decide +kernel), hagain⟩

/-! ## Joins -/

/-- A location without predicates of its own has the global ones. -/
theorem setAt_of_not_own (h : l ∉ p.own) : p.setAt l = p.everywhere := by
  rw [setAt, Std.ExtTreeMap.getElem?_eq_none h]
  rfl

/-- Nothing that `r` tracks at `l` is lost when it is joined to `p`: if only `p` has predicates of
its own there, the global ones of `r` are among them. -/
def Absorbs (p r : Precision) (l : Location) : Prop :=
  l ∈ p.own → l ∉ r.own → ∀ q ∈ r.everywhere, q ∈ p.setAt l

instance (p r : Precision) (l : Location) : Decidable (p.Absorbs r l) :=
  decidable_of_iff (l ∈ p.own → l ∉ r.own → ∀ q ∈ r.everywhere.toList, q ∈ p.setAt l) <| by
    simp only [Absorbs, Std.ExtTreeSet.mem_toList]

/-- The join loses nothing of the second precision at a location exactly under `Absorbs`. -/
theorem absorbs_iff : p.Absorbs r l ↔ ∀ q ∈ r.setAt l, q ∈ (p.join r).setAt l := by
  constructor
  · intro h q hq
    by_cases hown : l ∈ p.own → l ∈ r.own
    · exact mem_setAt_join_iff.2 (.inr ⟨hq, hown⟩)
    · obtain ⟨hp, hr⟩ := Classical.not_imp.1 hown
      rw [setAt_of_not_own hr] at hq
      exact mem_setAt_join_iff.2 (.inl (h hp hr q hq))
  · intro h hp hr q hq
    rw [← setAt_of_not_own hr] at hq
    rcases mem_setAt_join_iff.1 (h q hq) with hq | ⟨-, hown⟩
    · exact hq
    · exact absurd (hown hp) hr

/-- Where nothing is lost, a join is the union. -/
theorem Absorbs.mem_setAt_join (h : p.Absorbs r l) :
    q ∈ (p.join r).setAt l ↔ q ∈ p.setAt l ∨ q ∈ r.setAt l := by
  constructor
  · exact Precision.mem_setAt_join
  · rintro (hq | hq)
    · exact mem_setAt_join_iff.2 (.inl hq)
    · exact absorbs_iff.1 h q hq

/-- The join tracks what either precision tracks exactly if it loses nothing of the second. -/
theorem join_unites_iff :
    (∀ q, (p.join r).tracks l q = (p.tracks l q || r.tracks l q)) ↔ p.Absorbs r l := by
  have hq (q : Predicate) : (p.join r).tracks l q = (p.tracks l q || r.tracks l q) ↔
      (q ∈ (p.join r).setAt l ↔ q ∈ p.setAt l ∨ q ∈ r.setAt l) := by
    rw [Bool.eq_iff_iff, Bool.or_eq_true, tracks_eq_true, tracks_eq_true, tracks_eq_true]
  simp only [hq]
  constructor
  · intro h
    exact absorbs_iff.2 fun q hq => (h q).2 (.inr hq)
  · intro h q
    exact h.mem_setAt_join

/-- The order of the join does not matter exactly if neither precision loses anything. -/
theorem join_comm_iff :
    (p.join r).predicatesAt l = (r.join p).predicatesAt l ↔ p.Absorbs r l ∧ r.Absorbs p l := by
  rw [predicatesAt_eq_iff]
  constructor
  · intro h
    refine ⟨absorbs_iff.2 fun q hq => (h q).2 ?_, absorbs_iff.2 fun q hq => (h q).1 ?_⟩
    · exact mem_setAt_join_iff.2 (.inl hq)
    · exact mem_setAt_join_iff.2 (.inl hq)
  · rintro ⟨hpr, hrp⟩ q
    rw [hpr.mem_setAt_join, hrp.mem_setAt_join, or_comm]

/-- Grouped to the left, a join may lose global predicates of the second precision at a location
that the first and the third have predicates of their own for. Grouped to the right it does not. -/
theorem join_assoc_iff :
    ((p.join r).join s).predicatesAt l = (p.join (r.join s)).predicatesAt l ↔
      (l ∈ p.own → l ∈ s.own → (p.join s).Absorbs r l) := by
  rw [predicatesAt_eq_iff]
  simp only [mem_setAt_join_iff, mem_own_join]
  -- Elsewhere the two groupings lose the same global predicates.
  by_cases hcase : l ∈ p.own ∧ l ∈ s.own ∧ l ∉ r.own
  · obtain ⟨hp, hs, hr⟩ := hcase
    have hall : (p.join s).Absorbs r l ↔
        ∀ q ∈ r.everywhere, q ∈ p.setAt l ∨ q ∈ s.setAt l := by
      simp [Absorbs, mem_setAt_join_iff, mem_own_join, hp, hs, hr]
    simp only [hp, hs, hall, setAt_of_not_own hr]
    grind
  · refine iff_of_true (fun q => by grind) fun hp hs _ hr => ?_
    exact absurd ⟨hp, hs, hr⟩ hcase

/-- A join tracks what either precision tracks exactly where it loses nothing, and it never loses a
predicate of the first one nor makes one up. It is commutative where nothing is lost either way, and
associative unless the second of three precisions loses global predicates to the other two.
Joining a precision with itself changes nothing, and joining a refinement to it loses nothing. -/
theorem join_exact (p r s : Precision) (l : Location) :
    ((∀ q, (p.join r).tracks l q = (p.tracks l q || r.tracks l q)) ↔ p.Absorbs r l) ∧
    (∀ q, p.tracks l q = true → (p.join r).tracks l q = true) ∧
    (∀ q, (p.join r).tracks l q = true → p.tracks l q = true ∨ r.tracks l q = true) ∧
    ((p.join r).predicatesAt l = (r.join p).predicatesAt l ↔ p.Absorbs r l ∧ r.Absorbs p l) ∧
    (((p.join r).join s).predicatesAt l = (p.join (r.join s)).predicatesAt l ↔
      (l ∈ p.own → l ∈ s.own → (p.join s).Absorbs r l)) ∧
    (p.join p).predicatesAt l = p.predicatesAt l ∧
    ∀ qs, p.Absorbs (p.refine qs).1 l := by
  refine ⟨join_unites_iff, fun q hq => ?_, fun q hq => ?_, join_comm_iff, join_assoc_iff, ?_,
    fun qs hp hr => absurd (mem_own_refine hp) hr⟩
  · exact tracks_eq_true.2 (mem_setAt_join_iff.2 (.inl (tracks_eq_true.1 hq)))
  · rw [tracks_eq_true, tracks_eq_true]
    exact mem_setAt_join (tracks_eq_true.1 hq)
  · rw [predicatesAt_eq_iff]
    intro q
    rw [mem_setAt_join_iff]
    exact or_iff_left_of_imp And.left

/-- Tracks `x = c` at one location only, for the given integers `c`. -/
def locally (cs : List Int128) : Precision :=
  ((globally []).refine (cs.map fun c => (⟨1⟩, hasValue c))).1

/-- Only the first precision has predicates of its own, but the global one is among them. -/
theorem join_exact_locally :
    (⟨1⟩ ∈ (locally [1, 2]).own ∧ ⟨1⟩ ∉ (globally [2]).own) ∧
      (∀ q, ((locally [1, 2]).join (globally [2])).tracks ⟨1⟩ q =
        ((locally [1, 2]).tracks ⟨1⟩ q || (globally [2]).tracks ⟨1⟩ q)) ∧
      ((locally [1, 2]).join (globally [2])).predicatesAt ⟨1⟩ =
        ((globally [2]).join (locally [1, 2])).predicatesAt ⟨1⟩ := by
  have hleft : (locally [1, 2]).Absorbs (globally [2]) ⟨1⟩ := by decide +kernel
  have hright : (globally [2]).Absorbs (locally [1, 2]) ⟨1⟩ := by decide +kernel
  obtain ⟨hunites, -, -, hcomm, -⟩ := join_exact (locally [1, 2]) (globally [2]) (globally []) ⟨1⟩
  exact ⟨by decide +kernel, hunites.2 hleft, hcomm.2 ⟨hleft, hright⟩⟩

/-- A global predicate of the second precision is lost where only the first one has predicates of
its own. Joined the other way round, or with a third precision first, it is tracked. -/
theorem join_loses_globally :
    (globally [2]).tracks ⟨1⟩ (hasValue 2) = true ∧
      ((locally [1]).join (globally [2])).tracks ⟨1⟩ (hasValue 2) = false ∧
      ((globally [2]).join (locally [1])).tracks ⟨1⟩ (hasValue 2) = true ∧
      (((locally [1]).join (globally [2])).join (locally [3])).tracks ⟨1⟩ (hasValue 2) = false ∧
      ((locally [1]).join ((globally [2]).join (locally [3]))).tracks ⟨1⟩ (hasValue 2) = true := by
  decide +kernel

end Precision

end Cegar

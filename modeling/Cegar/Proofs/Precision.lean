import Cegar.Precision

/-!
# What a precision tracks after it has grown

* **`Precision.mem_setAt_refine`**: a refined precision tracks nothing but what it did and what it
  was told to;
* **`Precision.mem_setAt_join_iff`**: the join of two precisions tracks what the first one does, and
  what the second one does but for its global predicates where only the first one has its own;
* **`Precision.setAt_join_refine`**: the join of a precision with its own refinement tracks what the
  refinement tracks.
-/

namespace Cegar

namespace Precision

variable {p r : Precision} {l k : Location} {q t : Predicate}

/-- What is tracked at a location is what is in its set. -/
theorem tracks_eq_true : p.tracks l q = true ↔ q ∈ p.setAt l := Std.ExtTreeSet.contains_iff_mem

/-- A global precision tracks its predicates everywhere. -/
theorem mem_predicatesAt_ofGlobal {policy : Policy} {qs : List Predicate} :
    q ∈ (ofGlobal policy qs).predicatesAt l ↔ q ∈ qs := by
  have hfold (s : PredicateSet) : q ∈ qs.foldl (·.insert ·) s ↔ q ∈ s ∨ q ∈ qs := by
    induction qs generalizing s with
    | nil => simp
    | cons t qs ih =>
      rw [List.foldl_cons, ih, Std.ExtTreeSet.mem_insert, Std.LawfulEqOrd.compare_eq_iff_eq,
        List.mem_cons, eq_comm, or_comm (a := q = t), or_assoc]
  show q ∈ (qs.foldl (·.insert ·) ∅ : PredicateSet).toList ↔ _
  simp [Std.ExtTreeSet.mem_toList, hfold]

/-- A predicate that is added is tracked at its location only. -/
theorem mem_setAt_insert : q ∈ (p.insert k t).setAt l ↔ q ∈ p.setAt l ∨ (l = k ∧ q = t) := by
  unfold insert setAt
  rw [Std.ExtTreeMap.getElem?_insert]
  split
  · next heq =>
    cases Std.LawfulEqOrd.compare_eq_iff_eq.1 heq
    rw [Option.getD_some, Std.ExtTreeSet.mem_insert, Std.LawfulEqOrd.compare_eq_iff_eq, or_comm,
      eq_comm]
    simp
  · next hne =>
    have hkl : l ≠ k := fun h => hne (by rw [h, Std.LawfulEqOrd.compare_eq_iff_eq])
    simp [hkl]

section Refine

variable {changed : Bool} {qs : List (Location × Predicate)}

/-- A refinement adds what it lists and nothing else. -/
theorem mem_setAt_refineFrom :
    q ∈ (p.refineFrom changed qs).1.setAt l ↔ q ∈ p.setAt l ∨ (l, q) ∈ qs := by
  fun_induction refineFrom p changed qs with
  | case1 => simp
  | case2 p changed k t qs htracks ih =>
    rw [ih, List.mem_cons, or_left_comm]
    refine (or_iff_right_of_imp fun h => .inl ?_).symm
    cases h
    exact tracks_eq_true.1 htracks
  | case3 p changed k t qs _ ih =>
    rw [ih, mem_setAt_insert, or_assoc, List.mem_cons, Prod.ext_iff]

theorem mem_setAt_refine : q ∈ (p.refine qs).1.setAt l ↔ q ∈ p.setAt l ∨ (l, q) ∈ qs :=
  mem_setAt_refineFrom

/-- Only the predicates that locations have as their own change. -/
theorem refineFrom_unchanged :
    (p.refineFrom changed qs).1.everywhere = p.everywhere ∧
      (p.refineFrom changed qs).1.policy = p.policy := by
  fun_induction refineFrom p changed qs with
  | case1 => exact ⟨rfl, rfl⟩
  | case2 p changed k t qs _ ih => exact ih
  | case3 p changed k t qs _ ih => exact ih

theorem policy_refine : (p.refine qs).1.policy = p.policy := refineFrom_unchanged.2

end Refine

/-- Inserting entries into a table one after the other changes their locations only. -/
theorem getElem?_foldl_join (entries : List (Location × PredicateSet))
    (own : Std.ExtTreeMap Location PredicateSet) :
    (∃ u, (l, u) ∈ entries ∧
      (entries.foldl (fun own e => own.insert e.1 (p.setAt e.1 ∪ e.2)) own)[l]? =
        some (p.setAt l ∪ u)) ∨
    ((∀ u, (l, u) ∉ entries) ∧
      (entries.foldl (fun own e => own.insert e.1 (p.setAt e.1 ∪ e.2)) own)[l]? = own[l]?) := by
  induction entries generalizing own with
  | nil => exact .inr ⟨by simp, rfl⟩
  | cons e entries ih =>
    rcases ih (own.insert e.1 (p.setAt e.1 ∪ e.2)) with ⟨u, hu, h⟩ | ⟨hnone, h⟩
    · exact .inl ⟨u, List.mem_cons_of_mem _ hu, h⟩
    · rw [Std.ExtTreeMap.getElem?_insert] at h
      split at h
      · next heq =>
        cases Std.LawfulEqOrd.compare_eq_iff_eq.1 heq
        exact .inl ⟨e.2, by simp, h⟩
      · next hne =>
        refine .inr ⟨fun u hu => ?_, h⟩
        rcases List.mem_cons.1 hu with rfl | hu
        · exact hne Std.ReflCmp.compare_self
        · exact hnone u hu

/-- The predicates that a location of a join has as its own. -/
theorem own_join :
    (p.join r).own[l]? = (r.own[l]?.map (p.setAt l ∪ ·)).or p.own[l]? := by
  have hfold : (p.join r).own =
      r.own.toList.foldl (fun own e => own.insert e.1 (p.setAt e.1 ∪ e.2)) p.own :=
    Std.ExtTreeMap.foldl_eq_foldl_toList
  rw [hfold]
  rcases getElem?_foldl_join (l := l) (p := p) r.own.toList p.own with ⟨u, hu, h⟩ | ⟨hnone, h⟩
  · rw [h, Std.ExtTreeMap.mem_toList_iff_getElem?_eq_some.1 hu]
    rfl
  · have hr : r.own[l]? = none := by
      refine Option.eq_none_iff_forall_ne_some.2 fun u hu => hnone u ?_
      exact Std.ExtTreeMap.mem_toList_iff_getElem?_eq_some.2 hu
    rw [h, hr]
    rfl

/-- What the join tracks at a location depends on which of the two has predicates of its own there.
-/
theorem setAt_join : (p.join r).setAt l =
    ((r.own[l]?.map (p.setAt l ∪ ·)).or p.own[l]?).getD (p.everywhere ∪ r.everywhere) := by
  rw [← own_join]
  rfl

/-- A location has predicates of its own in the join if it has in either. -/
theorem mem_own_join : l ∈ (p.join r).own ↔ l ∈ p.own ∨ l ∈ r.own := by
  simp only [Std.ExtTreeMap.mem_iff_isSome_getElem?, own_join, Option.isSome_or, Option.isSome_map,
    Bool.or_eq_true, or_comm]

/-- What a join tracks: all that the first precision does, and what the second one does unless the
location has predicates of its own in the first one only. -/
theorem mem_setAt_join_iff :
    q ∈ (p.join r).setAt l ↔ q ∈ p.setAt l ∨ (q ∈ r.setAt l ∧ (l ∈ p.own → l ∈ r.own)) := by
  rw [setAt_join]
  unfold setAt
  simp only [Std.ExtTreeMap.mem_iff_isSome_getElem?]
  cases r.own[l]? with
  | some u => simp [Std.ExtTreeSet.mem_union_iff]
  | none =>
    cases p.own[l]? with
    | some s => simp
    | none => simp [Std.ExtTreeSet.mem_union_iff]

/-- The join tracks nothing new. -/
theorem mem_setAt_join (h : q ∈ (p.join r).setAt l) : q ∈ p.setAt l ∨ q ∈ r.setAt l :=
  (mem_setAt_join_iff.1 h).imp_right And.left

/-- A refinement takes no location its own predicates. -/
theorem mem_own_refine {qs : List (Location × Predicate)} (h : l ∈ p.own) :
    l ∈ (p.refine qs).1.own := by
  unfold refine
  generalize false = changed
  fun_induction refineFrom p changed qs with
  | case1 => exact h
  | case2 p changed k t qs _ ih => exact ih h
  | case3 p changed k t qs _ ih => exact ih (Std.ExtTreeMap.mem_insert.2 (.inr h))

/-- Joining a refinement of a precision to it gives the refinement. -/
theorem setAt_join_refine (qs : List (Location × Predicate)) :
    (p.join (p.refine qs).1).setAt l = (p.refine qs).1.setAt l := by
  refine Std.ExtTreeSet.ext_mem fun q => ⟨fun h => ?_, fun h => ?_⟩
  · rcases mem_setAt_join h with h | h
    · exact mem_setAt_refine.2 (.inl h)
    · exact h
  · exact mem_setAt_join_iff.2 (.inr ⟨h, mem_own_refine⟩)

end Precision

end Cegar

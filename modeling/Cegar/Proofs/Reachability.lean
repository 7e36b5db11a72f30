import Cegar.Automaton.Basic
import Mathlib.Logic.Relation

/-!
# The reachable set is what the edges lead to

A round that finds nothing new leaves the set as it is, and every other round finds the target of an
edge, so there are rounds enough for the set to be closed in the end.

* **`mem_reachable_iff`**: the computed set holds what a sequence of edges leads to.
-/

namespace Cegar

variable {α : Type} [Ord α] [Std.TransOrd α] {edges : List (α × α)} {s : Std.ExtTreeSet α}

/-! ## One round -/

/-- The first edge adds its target if its source is in the set. -/
theorem addTargets_cons {e : α × α} : addTargets (e :: edges) s =
    addTargets edges (if s.contains e.1 then s.insert e.2 else s) := rfl

/-- No round loses anything. -/
theorem size_le_size_addTargets : s.size ≤ (addTargets edges s).size := by
  induction edges generalizing s with
  | nil => exact Nat.le_refl _
  | cons e edges ih =>
    rw [addTargets_cons]
    refine Nat.le_trans ?_ ih
    split
    · exact Std.ExtTreeSet.size_le_size_insert
    · exact Nat.le_refl _

variable [Std.LawfulEqOrd α] {a b : α}

theorem mem_set_insert : b ∈ s.insert a ↔ b = a ∨ b ∈ s := by
  rw [Std.ExtTreeSet.mem_insert, Std.LawfulEqOrd.compare_eq_iff_eq, eq_comm]

/-- What one edge adds. -/
theorem mem_addTarget {e : α × α} :
    b ∈ (if s.contains e.1 then s.insert e.2 else s) ↔ b ∈ s ∨ (e.1 ∈ s ∧ b = e.2) := by
  split
  · next h =>
    rw [mem_set_insert, or_comm]
    have : e.1 ∈ s := Std.ExtTreeSet.mem_iff_contains.2 h
    simp [this]
  · next h =>
    have : e.1 ∉ s := fun hmem => h (Std.ExtTreeSet.mem_iff_contains.1 hmem)
    simp [this]

theorem subset_addTargets (h : b ∈ s) : b ∈ addTargets edges s := by
  induction edges generalizing s with
  | nil => exact h
  | cons e edges ih => exact ih (mem_addTarget.2 (.inl h))

/-- A round adds the targets of all edges that start in the set. -/
theorem target_mem_addTargets (h : (a, b) ∈ edges) (ha : a ∈ s) : b ∈ addTargets edges s := by
  induction edges generalizing s with
  | nil => cases h
  | cons e edges ih =>
    rcases List.mem_cons.1 h with rfl | h
    · rw [addTargets_cons]
      exact subset_addTargets (mem_addTarget.2 (.inr ⟨ha, rfl⟩))
    · exact ih h (mem_addTarget.2 (.inl ha))

/-- A property that edges keep is kept by a round. -/
theorem addTargets_induction {P : α → Prop} (hstep : ∀ e ∈ edges, P e.1 → P e.2)
    (hs : ∀ x ∈ s, P x) : ∀ x ∈ addTargets edges s, P x := by
  induction edges generalizing s with
  | nil => exact hs
  | cons e edges ih =>
    refine ih (fun e' he' => hstep e' (List.mem_cons_of_mem _ he')) fun x hx => ?_
    rcases mem_addTarget.1 hx with hx | ⟨he, rfl⟩
    · exact hs x hx
    · exact hstep e (by simp) (hs _ he)

/-- What a round adds is the target of an edge. -/
theorem mem_addTargets (h : b ∈ addTargets edges s) : b ∈ s ∨ ∃ e ∈ edges, e.2 = b := by
  induction edges generalizing s with
  | nil => exact .inl h
  | cons e edges ih =>
    rcases ih h with h | ⟨e', he', rfl⟩
    · rcases mem_addTarget.1 h with h | ⟨-, rfl⟩
      · exact .inl h
      · exact .inr ⟨e, by simp, rfl⟩
    · exact .inr ⟨e', List.mem_cons_of_mem _ he', rfl⟩

/-- A round that does not make the set larger does not change it. -/
theorem addTargets_eq_self (h : (addTargets edges s).size = s.size) : addTargets edges s = s := by
  induction edges generalizing s with
  | nil => rfl
  | cons e edges ih =>
    rw [addTargets_cons] at h ⊢
    have hfirst : (if s.contains e.1 then s.insert e.2 else s) = s := by
      split
      · next hc =>
        -- the target was there already, or the set would have grown
        have hle : (s.insert e.2).size ≤ s.size := by
          rw [if_pos hc] at h
          exact h ▸ size_le_size_addTargets
        rw [Std.ExtTreeSet.size_insert] at hle
        split at hle
        · next hmem =>
          refine Std.ExtTreeSet.ext_mem fun x => ?_
          rw [mem_set_insert]
          exact ⟨fun hx => hx.elim (· ▸ hmem) id, .inr⟩
        · omega
      · rfl
    rw [hfirst] at h ⊢
    exact ih h

/-! ## All rounds -/

/-- The edges whose targets are yet to be found. -/
def pendingEdges (edges : List (α × α)) (s : Std.ExtTreeSet α) : List (α × α) :=
  edges.filter fun e => !s.contains e.2

/-- A round that finds something new leaves fewer edges to be looked at. -/
theorem length_pendingEdges_lt (h : (addTargets edges s).size ≠ s.size) :
    (pendingEdges edges (addTargets edges s)).length < (pendingEdges edges s).length := by
  have hnew : ∃ b ∈ addTargets edges s, b ∉ s := by
    refine Classical.byContradiction fun hnone => h (congrArg _ ?_)
    refine Std.ExtTreeSet.ext_mem fun x => ⟨fun hx => ?_, subset_addTargets⟩
    exact Classical.byContradiction fun hxs => hnone ⟨x, hx, hxs⟩
  obtain ⟨b, hb, hbs⟩ := hnew
  obtain ⟨e, he, rfl⟩ := (mem_addTargets hb).resolve_left hbs
  have hsub : pendingEdges edges (addTargets edges s) =
      (pendingEdges edges s).filter fun e => !(addTargets edges s).contains e.2 := by
    unfold pendingEdges
    rw [List.filter_filter]
    refine List.filter_congr fun e' _ => ?_
    cases hc : s.contains e'.2 with
    | false => simp
    | true =>
      have hmem : e'.2 ∈ addTargets edges s :=
        subset_addTargets (Std.ExtTreeSet.mem_iff_contains.2 hc)
      rw [Std.ExtTreeSet.mem_iff_contains] at hmem
      simp [hmem]
  rw [hsub]
  rw [Std.ExtTreeSet.mem_iff_contains] at hb hbs
  refine List.length_filter_lt_length_iff_exists.2 ⟨e, List.mem_filter.2 ⟨he, ?_⟩, ?_⟩
  · simp [hbs]
  · simp [hb]

theorem subset_reachableWithin {n : Nat} (h : b ∈ s) : b ∈ reachableWithin edges n s := by
  induction n generalizing s with
  | zero => exact h
  | succ n ih =>
    unfold reachableWithin
    dsimp only
    split
    · exact h
    · exact ih (subset_addTargets h)

/-- What holds of the start and passes along edges holds of all that is reached. -/
theorem reachableWithin_induction {P : α → Prop} (hstep : ∀ e ∈ edges, P e.1 → P e.2) {n : Nat}
    (hs : ∀ x ∈ s, P x) : ∀ x ∈ reachableWithin edges n s, P x := by
  induction n generalizing s with
  | zero => exact hs
  | succ n ih =>
    unfold reachableWithin
    dsimp only
    split
    · exact hs
    · exact ih (addTargets_induction hstep hs)

/-- With as many rounds as there are targets to be found, the result is closed under the edges. -/
theorem reachableWithin_closed {n : Nat} (hn : (pendingEdges edges s).length ≤ n)
    (hab : (a, b) ∈ edges) (ha : a ∈ reachableWithin edges n s) :
    b ∈ reachableWithin edges n s := by
  induction n generalizing s with
  | zero =>
    have hnil : pendingEdges edges s = [] := List.length_eq_zero_iff.1 (Nat.le_zero.1 hn)
    have hcontains := List.filter_eq_nil_iff.1 hnil (a, b) hab
    rw [Bool.not_eq_true', Bool.not_eq_false] at hcontains
    exact Std.ExtTreeSet.mem_iff_contains.2 hcontains
  | succ n ih =>
    unfold reachableWithin at ha ⊢
    dsimp only at ha ⊢
    split at ha
    · next heq =>
      rw [if_pos heq, ← addTargets_eq_self heq]
      exact target_mem_addTargets hab ha
    · next hne =>
      rw [if_neg hne]
      exact ih (Nat.le_of_lt_succ (Nat.lt_of_lt_of_le (length_pendingEdges_lt hne) hn)) ha

/-- What the rounds find is what a path leads to. -/
theorem mem_reachable_iff :
    b ∈ reachable edges a ↔ Relation.ReflTransGen (fun x y => (x, y) ∈ edges) a b := by
  constructor
  · refine reachableWithin_induction (fun e he h => h.tail he) (fun x hx => ?_) b
    rcases mem_set_insert.1 hx with rfl | hx
    · exact .refl
    · exact absurd hx Std.ExtTreeSet.not_mem_empty
  · intro h
    induction h with
    | refl => exact subset_reachableWithin (mem_set_insert.2 (.inl rfl))
    | tail _ hedge ih =>
      exact reachableWithin_closed (List.length_filter_le _ _) hedge ih

end Cegar

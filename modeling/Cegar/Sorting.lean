/-!
# Sorting by a key

Insertion sort, which is stable: elements that `le` does not tell apart keep their order.
-/

namespace Cegar

/-- Puts `a` before the first element that it may precede. -/
def insertBy {α : Type} (le : α → α → Bool) (a : α) : List α → List α
  | [] => [a]
  | b :: l => if le a b then a :: b :: l else b :: insertBy le a l

def sortBy {α : Type} (le : α → α → Bool) (l : List α) : List α := l.foldr (insertBy le) []

theorem mem_insertBy {α : Type} {le : α → α → Bool} {a x : α} {l : List α} :
    x ∈ insertBy le a l ↔ x = a ∨ x ∈ l := by
  induction l with
  | nil => simp [insertBy]
  | cons b l ih =>
    unfold insertBy
    split
    · simp
    · simp [ih, or_left_comm]

@[simp] theorem mem_sortBy {α : Type} {le : α → α → Bool} {x : α} {l : List α} :
    x ∈ sortBy le l ↔ x ∈ l := by
  unfold sortBy
  induction l with
  | nil => simp
  | cons b l ih => simp [mem_insertBy, ih]

/-- What is sorted by `le` is sorted by any key that `le` goes by. -/
theorem pairwise_sortBy {α : Type} {le : α → α → Bool} {key : α → Nat}
    (hle : ∀ a b, le a b = true → key a ≤ key b) (hnot : ∀ a b, le a b = false → key b ≤ key a)
    (l : List α) : (sortBy le l).Pairwise fun a b => key a ≤ key b := by
  have hinsert (a : α) {l : List α} (hl : l.Pairwise fun a b => key a ≤ key b) :
      (insertBy le a l).Pairwise fun a b => key a ≤ key b := by
    induction l with
    | nil => exact List.pairwise_singleton _ _
    | cons b l ih =>
      obtain ⟨hb, hl⟩ := List.pairwise_cons.1 hl
      unfold insertBy
      split
      · next hab =>
        have hab := hle a b hab
        refine List.pairwise_cons.2 ⟨fun c hc => ?_, List.pairwise_cons.2 ⟨hb, hl⟩⟩
        rcases List.mem_cons.1 hc with rfl | hc
        · exact hab
        · exact Nat.le_trans hab (hb c hc)
      · next hab =>
        refine List.pairwise_cons.2 ⟨fun c hc => ?_, ih hl⟩
        rcases mem_insertBy.1 hc with rfl | hc
        · exact hnot _ _ (by simpa using hab)
        · exact hb c hc
  unfold sortBy
  induction l with
  | nil => exact .nil
  | cons a l ih => exact hinsert a ih

end Cegar

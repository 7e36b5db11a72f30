import Cegar.Automaton.Basic
import Cegar.Proofs.Reachability

/-!
# Loop heads are the targets of back edges

Dominance is about all ways from the entry to a location. It is computed with two sets of reachable
locations: one along all edges, and one along the edges that stay clear of the location in question.
A way that avoids a location is a way along the latter, so the difference of the sets is what the
location dominates.

* **`Automaton.Way`**: a way along the edges, with the locations on it;
* **`Automaton.Dominates`**: every way from the entry passes through a location;
* **`Automaton.isLoopHead_iff`**: the loop heads are the targets of edges that they dominate the
  source of;
* **`Automaton.Cycle.exists_back`**: a cycle that is dominated by one of its locations has such an
  edge;
* **`Automaton.build_marks`**: building sets the two marks, and nothing else.
-/

namespace Cegar

/-- A location as it is before the marks are set. -/
def Node.Added (n : Node) : Prop :=
  n = .plain n.function ∨ n = .entryOf n.function ∨ n = .errorOf n.function

instance (n : Node) : Decidable n.Added := inferInstanceAs (Decidable (_ ∨ _))

/-- A node is added without marks. -/
theorem Node.Added.unmarked {n : Node} (h : n.Added) :
    n.loopHead = false ∧ n.returnSite = false := by
  rcases h with h | h | h <;> rw [h] <;> exact ⟨rfl, rfl⟩

namespace Automaton

variable {nodes : Array Node} {edges : Array Edge} {entry d l m x : Location}
  {ls ms : List Location}

/-! ## Ways along edges -/

/-- A way along the edges from `l` to `m`, with the locations on it, both ends among them. -/
inductive Way (edges : Array Edge) : Location → List Location → Location → Prop
  | here {l : Location} : Way edges l [l] l
  | step {e : Edge} {ls : List Location} {m : Location} (he : e ∈ edges)
    (hrest : Way edges e.target ls m) : Way edges e.source (e.source :: ls) m

/-- Some way leads from `l` to `m`. -/
def Reaches (edges : Array Edge) (l m : Location) : Prop := ∃ ls, Way edges l ls m

/-- Every way from the entry to `l` passes through `d`. -/
def Dominates (edges : Array Edge) (entry d l : Location) : Prop :=
  ∀ ls, Way edges entry ls l → d ∈ ls

/-- A way with at least one edge that ends where it starts. -/
def Cycle (edges : Array Edge) (l : Location) (ls : List Location) : Prop :=
  Way edges l ls l ∧ 1 < ls.length

namespace Way

theorem start_mem (h : Way edges l ls m) : l ∈ ls := by
  cases h <;> simp

theorem end_mem (h : Way edges l ls m) : m ∈ ls := by
  induction h with
  | here => simp
  | step _ _ ih => exact List.mem_cons_of_mem _ ih

/-- A way may be continued. -/
theorem append (h : Way edges l ls m) (h' : Reaches edges m x) : Reaches edges l x := by
  induction h with
  | here => exact h'
  | step he _ ih =>
    obtain ⟨ks, hks⟩ := ih h'
    exact ⟨_, .step he hks⟩

/-- A way leads to everything on it. -/
theorem reaches (h : Way edges l ls m) (hx : x ∈ ls) : Reaches edges l x := by
  induction h with
  | here =>
    cases List.mem_singleton.1 hx
    exact ⟨_, .here⟩
  | step he _ ih =>
    rcases List.mem_cons.1 hx with rfl | hx
    · exact ⟨_, .here⟩
    · obtain ⟨ks, hks⟩ := ih hx
      exact ⟨_, .step he hks⟩

/-- Everything on a way but its start is entered on the way. -/
theorem entered (h : Way edges l ls m) (hx : x ∈ ls) :
    x = l ∨ ∃ e ∈ edges, e.target = x ∧ e.source ∈ ls := by
  induction h with
  | here => exact .inl (List.mem_singleton.1 hx)
  | @step e ls m he hrest ih =>
    rcases List.mem_cons.1 hx with rfl | hx
    · exact .inl rfl
    · rcases ih hx with rfl | ⟨f, hf, htarget, hsource⟩
      · exact .inr ⟨e, he, rfl, by simp⟩
      · exact .inr ⟨f, hf, htarget, List.mem_cons_of_mem _ hsource⟩

/-- The end of a way is all of it or is entered on the way. -/
theorem end_entered (h : Way edges l ls m) :
    ls = [m] ∨ ∃ e ∈ edges, e.target = m ∧ e.source ∈ ls := by
  induction h with
  | here => exact .inl rfl
  | @step e ls m he hrest ih =>
    rcases ih with rfl | ⟨f, hf, htarget, hsource⟩
    · exact .inr ⟨e, he, List.mem_singleton.1 hrest.start_mem, by simp⟩
    · exact .inr ⟨f, hf, htarget, List.mem_cons_of_mem _ hsource⟩

end Way

theorem mem_endpoints {s t : Location} :
    (s, t) ∈ endpoints edges ↔ ∃ e ∈ edges, e.source = s ∧ e.target = t := by
  simp [endpoints]

/-! ## What the sets of reachable locations hold -/

/-- The edges that stay clear of `d` lead along the ways that do. -/
theorem reflTransGen_clear_iff :
    (entry ≠ d ∧ Relation.ReflTransGen
      (fun s t => (s, t) ∈ endpoints edges ∧ s ≠ d ∧ t ≠ d) entry l) ↔
      ∃ ls, Way edges entry ls l ∧ d ∉ ls := by
  constructor
  · rintro ⟨hentry, h⟩
    induction h using Relation.ReflTransGen.head_induction_on with
    | refl => exact ⟨[l], .here, by simpa using hentry.symm⟩
    | head hedge _ ih =>
      obtain ⟨hmem, hsource, htarget⟩ := hedge
      obtain ⟨e, he, rfl, rfl⟩ := mem_endpoints.1 hmem
      obtain ⟨ls, hls, hd⟩ := ih htarget
      exact ⟨e.source :: ls, .step he hls, by simp [hd, Ne.symm hsource]⟩
  · rintro ⟨ls, hway, hd⟩
    induction hway with
    | here => exact ⟨fun h => hd (by simp [h]), .refl⟩
    | @step e ls m he hrest ih =>
      obtain ⟨hsource, hls⟩ := not_or.1 (mt List.mem_cons.2 hd)
      obtain ⟨htarget, htail⟩ := ih hls
      have hedge := mem_endpoints.2 ⟨e, he, rfl, rfl⟩
      exact ⟨Ne.symm hsource, .head ⟨hedge, Ne.symm hsource, htarget⟩ htail⟩

/-- What is reached without `d` is what a way leads to that avoids it. -/
theorem mem_reachableAvoiding :
    l ∈ reachableAvoiding (endpoints edges) entry d ↔ ∃ ls, Way edges entry ls l ∧ d ∉ ls := by
  rw [← reflTransGen_clear_iff]
  unfold reachableAvoiding
  split
  · next heq => simp [heq]
  · next hne =>
    rw [mem_reachable_iff]
    simp only [List.mem_filter, ne_eq, decide_not, Bool.and_eq_true, Bool.not_eq_true',
      decide_eq_false_iff_not]
    exact (and_iff_right hne).symm

/-- What is reached is what a way leads to. -/
theorem mem_reachable_endpoints :
    l ∈ reachable (endpoints edges) entry ↔ Reaches edges entry l := by
  rw [mem_reachable_iff]
  constructor
  · intro h
    induction h using Relation.ReflTransGen.head_induction_on with
    | refl => exact ⟨_, .here⟩
    | head hedge _ ih =>
      obtain ⟨e, he, rfl, rfl⟩ := mem_endpoints.1 hedge
      obtain ⟨ls, hls⟩ := ih
      exact ⟨_, .step he hls⟩
  · rintro ⟨ls, hway⟩
    induction hway with
    | here => exact .refl
    | @step e ls m he hrest ih => exact .head (mem_endpoints.2 ⟨e, he, rfl, rfl⟩) ih

/-- Domination as it is computed is domination on all ways from the entry. -/
theorem dominates_iff : dominates (endpoints edges) entry d l = true ↔
    Reaches edges entry l ∧ Dominates edges entry d l := by
  have havoid : (reachableAvoiding (endpoints edges) entry d).contains l = false ↔
      Dominates edges entry d l := by
    rw [Bool.eq_false_iff, ne_eq, ← Std.ExtTreeSet.mem_iff_contains, mem_reachableAvoiding]
    simp only [Dominates, not_exists, not_and, Decidable.not_not]
  rw [dominates, Bool.and_eq_true, Bool.not_eq_true', havoid, ← Std.ExtTreeSet.mem_iff_contains,
    mem_reachable_endpoints]

/-! ## The marks -/

/-- A location is marked as a loop head exactly if it dominates the source of an edge that enters
it. -/
theorem isLoopHead_iff : isLoopHead edges entry l = true ↔
    ∃ e ∈ edges, e.target = l ∧ Reaches edges entry e.source ∧
      Dominates edges entry l e.source := by
  simp only [isLoopHead, Array.any_eq_true', Bool.and_eq_true, decide_eq_true_eq, dominates_iff]

/-- A location is marked as a return site exactly if a summary edge enters it. -/
theorem isReturnSite_iff : isReturnSite edges l = true ↔
    ∃ e ∈ edges, e.target = l ∧ e.statement = .callToReturn := by
  simp only [isReturnSite, Array.any_eq_true', Bool.and_eq_true, decide_eq_true_eq]

/-- Every location of a cycle is entered from the cycle. -/
theorem Cycle.entered (h : Cycle edges l ls) (hx : x ∈ ls) :
    ∃ e ∈ edges, e.target = x ∧ e.source ∈ ls := by
  rcases h.1.entered hx with rfl | hentered
  · refine h.1.end_entered.resolve_left fun hls => ?_
    simpa [hls] using h.2
  · exact hentered

/-- A location that dominates a cycle through it is a loop head. -/
theorem Cycle.exists_back (h : Cycle edges l ls) (hreach : Reaches edges entry l) (hd : d ∈ ls)
    (hdominates : ∀ m ∈ ls, Dominates edges entry d m) : isLoopHead edges entry d = true := by
  obtain ⟨e, he, htarget, hsource⟩ := h.entered hd
  obtain ⟨ks, hks⟩ := hreach
  exact isLoopHead_iff.2 ⟨e, he, htarget, hks.append (h.1.reaches hsource), hdominates _ hsource⟩

/-- Edges that join nodes make an automaton with the same edges, whose nodes get their marks. -/
theorem build?_of_joins (hjoins : Joins nodes.size edges entry) :
    ∃ a, build? nodes edges entry = some a ∧ a.edges = edges ∧ a.entry = entry ∧
      a.nodes = nodes.mapIdx fun i n => { n with
        loopHead := n.loopHead || isLoopHead edges entry ⟨i⟩
        returnSite := n.returnSite || isReturnSite edges ⟨i⟩ } := by
  unfold build?
  rw [dif_pos hjoins]
  exact ⟨_, rfl, rfl, rfl, rfl⟩

/-- Building marks exactly the targets of back edges as loop heads and the targets of summary edges
as return sites, and leaves all else as it is. So a cycle that can be reached has a loop head if one
of its locations dominates it. -/
theorem build_marks (hnodes : ∀ n ∈ nodes, n.Added) (hjoins : Joins nodes.size edges entry) :
    ∃ a, build? nodes edges entry = some a ∧ a.edges = edges ∧ a.entry = entry ∧
      a.nodes.size = nodes.size ∧
      (∀ (i : Nat) (n : Node), nodes[i]? = some n → ∃ n', a.nodes[i]? = some n' ∧
        n' = { n with loopHead := n'.loopHead, returnSite := n'.returnSite } ∧
        (n'.loopHead = true ↔ ∃ e ∈ edges, e.target = ⟨i⟩ ∧ Reaches edges entry e.source ∧
          Dominates edges entry ⟨i⟩ e.source) ∧
        (n'.returnSite = true ↔ ∃ e ∈ edges, e.target = ⟨i⟩ ∧ e.statement = .callToReturn)) ∧
      ∀ l ls, Cycle edges l ls → Reaches edges entry l →
        (∃ d ∈ ls, ∀ m ∈ ls, Dominates edges entry d m) →
        ∃ h ∈ ls, ∃ n, a.nodes[h.idx]? = some n ∧ n.loopHead = true := by
  obtain ⟨a, hbuild, hedges, hentry, ha⟩ := build?_of_joins hjoins
  refine ⟨a, hbuild, hedges, hentry, by simp [ha], fun i n hn => ?_, ?_⟩
  · obtain ⟨hhead, hsite⟩ := (hnodes n (Array.mem_of_getElem? hn)).unmarked
    refine ⟨_, by rw [ha, Array.getElem?_mapIdx, hn]; rfl, rfl, ?_, ?_⟩
    · show (n.loopHead || isLoopHead edges entry ⟨i⟩) = true ↔ _
      rw [← isLoopHead_iff, hhead, Bool.false_or]
    · show (n.returnSite || isReturnSite edges ⟨i⟩) = true ↔ _
      rw [← isReturnSite_iff, hsite, Bool.false_or]
  · rintro l ls hcycle hreach ⟨d, hd, hdominates⟩
    have hhead := hcycle.exists_back hreach hd hdominates
    obtain ⟨e, he, rfl, -⟩ := hcycle.entered hd
    have hbound := (hjoins.2 e he).2
    refine ⟨_, hd, _, by rw [ha, Array.getElem?_mapIdx, Array.getElem?_eq_getElem hbound]; rfl, ?_⟩
    exact Bool.or_eq_true_iff.2 (.inr hhead)

/-- The edges of two locations that lead to each other and are both entered from outside, of a loop
behind them, and of a loop that nothing leads to. -/
def tangledEdges : Array Edge := #[
  ⟨⟨0⟩, ⟨1⟩, .blank⟩, ⟨⟨0⟩, ⟨2⟩, .blank⟩, ⟨⟨1⟩, ⟨2⟩, .blank⟩, ⟨⟨2⟩, ⟨1⟩, .blank⟩,
  ⟨⟨2⟩, ⟨3⟩, .blank⟩, ⟨⟨3⟩, ⟨4⟩, .blank⟩, ⟨⟨4⟩, ⟨3⟩, .callToReturn⟩, ⟨⟨5⟩, ⟨5⟩, .blank⟩]

def tangledNodes : Array Node := #[.entryOf "main", .plain "main", .plain "main", .plain "main",
  .errorOf "main", .plain "main"]

/-- Only the loop that can be reached and entered in one place has a loop head. -/
theorem build_marks_tangled : (∀ n ∈ tangledNodes, n.Added) ∧
    Joins tangledNodes.size tangledEdges ⟨0⟩ ∧ Cycle tangledEdges ⟨4⟩ [⟨4⟩, ⟨3⟩, ⟨4⟩] ∧
    ∃ a, build? tangledNodes tangledEdges ⟨0⟩ = some a ∧
      (∃ h ∈ ([⟨4⟩, ⟨3⟩, ⟨4⟩] : List Location), ∃ n, a.nodes[h.idx]? = some n ∧
        n.loopHead = true) ∧
      ∀ i ∈ [1, 2, 5], ∃ n, a.nodes[i]? = some n ∧ n.loopHead = false := by
  have hadded : ∀ n ∈ tangledNodes, n.Added := by decide
  have hjoins : Joins tangledNodes.size tangledEdges ⟨0⟩ := by decide
  have hcycle : Cycle tangledEdges ⟨4⟩ [⟨4⟩, ⟨3⟩, ⟨4⟩] :=
    ⟨.step (e := ⟨⟨4⟩, ⟨3⟩, .callToReturn⟩) (by simp [tangledEdges])
      (.step (e := ⟨⟨3⟩, ⟨4⟩, .blank⟩) (by simp [tangledEdges]) .here), by decide⟩
  obtain ⟨a, hbuild, -, -, -, hmarks, hcycles⟩ := build_marks hadded hjoins
  refine ⟨hadded, hjoins, hcycle, a, hbuild, ?_, fun i hi => ?_⟩
  · have hdominated : ∀ m ∈ ([⟨4⟩, ⟨3⟩, ⟨4⟩] : List Location),
        dominates (endpoints tangledEdges) ⟨0⟩ ⟨3⟩ m = true := by decide +kernel
    exact hcycles ⟨4⟩ _ hcycle (dominates_iff.1 (hdominated ⟨4⟩ (by simp))).1
      ⟨⟨3⟩, by simp, fun m hm => (dominates_iff.1 (hdominated m hm)).2⟩
  · have hnone : ∀ i ∈ [1, 2, 5], tangledNodes[i]? = some (.plain "main") ∧
        isLoopHead tangledEdges ⟨0⟩ ⟨i⟩ = false := by decide +kernel
    obtain ⟨n, hn, -, hhead, -⟩ := hmarks i _ (hnone i hi).1
    rw [← isLoopHead_iff, (hnone i hi).2] at hhead
    exact ⟨n, hn, by simpa using hhead⟩

end Automaton

end Cegar

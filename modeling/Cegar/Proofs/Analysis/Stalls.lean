import Cegar.Proofs.Analysis.Additions
import Cegar.Proofs.Analysis.Inspection

/-!
# Precisions grow, and refinement notices when they do not

A spurious path is worth another round of exploration if it has a predicate that is new at its
location. Without one it is let pass once: if the path found spurious last visited the same
abstraction locations, refinement gives up.

* **`Refinement.New`**: a cut of a spurious path has a predicate that is not tracked there yet;
* **`Refinement.restartPoint?_cases`**: where exploration starts again;
* **`Course`**: the operations on an analysis whose precision is not set from outside, with the
  precisions that exploration started from and the last spurious path;
* **`Course.refine_progresses`**: precisions grow along a course, and refinement fails exactly if it
  stalls.
-/

namespace Cegar

variable {p : Problem} {g : Graph} {path : Path}

/-! ## New predicates -/

namespace Refinement

variable {precision : Precision} {last : Option (List Location)} {stops : List Stop}
  {pss : List (List Predicate)} {i : Nat}

/-- At the end of a block there is a predicate that is not tracked there yet. -/
def New (precision : Precision) (stops : List Stop) (pss : List (List Predicate)) (i : Nat) : Prop :=
  ∃ stop ps q, stops[i]? = some stop ∧ pss[i]? = some ps ∧ q ∈ ps ∧
    q ∉ precision.setAt stop.state.location

/-- The first stop with a new predicate. -/
def FirstNew (precision : Precision) (stops : List Stop) (pss : List (List Predicate))
    (stop : Stop) : Prop :=
  ∃ i, stops[i]? = some stop ∧ New precision stops pss i ∧ ∀ j < i, ¬ New precision stops pss j

/-- Whether there is something new at the first stop. -/
theorem new_cons_zero {s : Stop} {ps : List Predicate} :
    New precision (s :: stops) (ps :: pss) 0 ↔ ∃ q ∈ ps, q ∉ precision.setAt s.state.location := by
  constructor
  · rintro ⟨_, _, q, ⟨⟩, ⟨⟩, hq, hnew⟩
    exact ⟨q, hq, hnew⟩
  · rintro ⟨q, hq, hnew⟩
    exact ⟨s, ps, q, rfl, rfl, hq, hnew⟩

/-- The search for a new predicate goes through the stops in order. -/
theorem find?_suggestions (precision : Precision) (stops : List Stop)
    (pss : List (List Predicate)) :
    ((suggestions stops pss).find? (fun sq => !precision.tracks sq.1.state.location sq.2) = none ∧
      ∀ i, ¬ New precision stops pss i) ∨
    ∃ stop q, (suggestions stops pss).find?
        (fun sq => !precision.tracks sq.1.state.location sq.2) = some (stop, q) ∧
      FirstNew precision stops pss stop := by
  induction stops generalizing pss with
  | nil => exact .inl ⟨rfl, fun i ⟨_, _, _, h, _⟩ => by simp at h⟩
  | cons s stops ih =>
    cases pss with
    | nil => exact .inl ⟨rfl, fun i ⟨_, _, _, _, h, _⟩ => by simp at h⟩
    | cons ps pss =>
      have hcons : suggestions (s :: stops) (ps :: pss) =
          ps.map (s, ·) ++ suggestions stops pss := rfl
      rw [hcons, List.find?_append]
      -- the search ends at the first stop exactly if that has a new predicate
      by_cases hzero : New precision (s :: stops) (ps :: pss) 0
      · obtain ⟨q, hq, hnew⟩ := new_cons_zero.1 hzero
        cases hfind : (ps.map (s, ·)).find? fun sq => !precision.tracks sq.1.state.location sq.2 with
        | none =>
          have htracks := List.find?_eq_none.1 hfind (s, q) (List.mem_map_of_mem hq)
          exact absurd (Precision.tracks_eq_true.1 (by simpa using htracks)) hnew
        | some sq =>
          obtain ⟨t, -, rfl⟩ := List.mem_map.1 (List.mem_of_find?_eq_some hfind)
          exact .inr ⟨s, t, rfl, 0, rfl, hzero, by simp⟩
      · have hnone : (ps.map (s, ·)).find? (fun sq => !precision.tracks sq.1.state.location sq.2) =
            none := by
          refine List.find?_eq_none.2 fun sq hsq => ?_
          obtain ⟨t, ht, rfl⟩ := List.mem_map.1 hsq
          have htracked : t ∈ precision.setAt s.state.location :=
            Decidable.not_not.1 fun h => hzero (new_cons_zero.2 ⟨t, ht, h⟩)
          simpa using Precision.tracks_eq_true.2 htracked
        rw [hnone, Option.none_or]
        rcases ih pss with ⟨hfind, hnew⟩ | ⟨stop, q, hfind, i, hstop, hnew, hfirst⟩
        · refine .inl ⟨hfind, fun i => ?_⟩
          cases i with
          | zero => exact hzero
          | succ i => exact hnew i
        · refine .inr ⟨stop, q, hfind, i + 1, hstop, hnew, fun j hj => ?_⟩
          cases j with
          | zero => exact hzero
          | succ j => exact hfirst j (by omega)

/-- Exploration starts again at the first stop with a new predicate. Without any it starts near the
root, unless the last spurious path was the same. -/
theorem restartPoint?_cases (precision : Precision) (last : Option (List Location))
    (stops : List Stop) (pss : List (List Predicate)) :
    (∃ stop, FirstNew precision stops pss stop ∧
      restartPoint? precision last stops (suggestions stops pss) = some stop.node) ∨
    ((∀ i, ¬ New precision stops pss i) ∧
      restartPoint? precision last stops (suggestions stops pss) =
        if last = some (stops.map (·.state.location)) then none
        else (stops[1]?.or stops.head?).map (·.node)) := by
  unfold restartPoint?
  rcases find?_suggestions precision stops pss with ⟨hnone, hnew⟩ | ⟨stop, q, hsome, hfirst⟩
  · refine .inr ⟨hnew, ?_⟩
    split
    · next s q hfind => cases hnone.symm.trans hfind
    · rfl
  · refine .inl ⟨stop, hfirst, ?_⟩
    split
    · next s q' hfind =>
      cases hsome.symm.trans hfind
      rfl
    · next hfind => cases hsome.symm.trans hfind

/-- A refinement gains a predicate somewhere exactly if some stop has a new one. -/
theorem gains_iff :
    (∃ l q, q ∈ (precision.refine ((suggestions stops pss).map
        fun sq => (sq.1.state.location, sq.2))).1.setAt l ∧ q ∉ precision.setAt l) ↔
      ∃ i, New precision stops pss i := by
  rcases find?_suggestions precision stops pss with ⟨hnone, hnew⟩ | ⟨stop, q, hsome, i, -, hi, -⟩
  · refine iff_of_false ?_ fun ⟨i, hi⟩ => hnew i hi
    rintro ⟨l, q, hq, hl⟩
    obtain ⟨sq, hmem, heq⟩ := List.mem_map.1 ((Precision.mem_setAt_refine.1 hq).resolve_left hl)
    cases heq
    have htracked := List.find?_eq_none.1 hnone sq hmem
    exact hl (Precision.tracks_eq_true.1 (by simpa using htracked))
  · refine iff_of_true ⟨stop.state.location, q, ?_, fun hq => ?_⟩ ⟨i, hi⟩
    · have hmem := List.mem_of_find?_eq_some hsome
      exact Precision.mem_setAt_refine.2 (.inr (List.mem_map.2 ⟨(stop, q), hmem, rfl⟩))
    · have huntracked := List.find?_some hsome
      simp [Precision.tracks_eq_true.2 hq] at huntracked

end Refinement

/-! ## The course of an analysis -/

namespace Analysis

variable {a a' : Analysis}

/-- The path cannot be executed: its blocks contradict one another, and at their ends there are
these predicates to track. -/
def Excludes (a : Analysis) (g : Graph) (path : Path) (stops : List Refinement.Stop)
    (pss : List (List Predicate)) : Prop :=
  ∃ blocks solver, Refinement.split a.arena g path = .ok (.ok (stops, blocks)) ∧
    Trace.ofBlocks blocks a.solver = .ok (.ok (.spurious pss), solver)

/-- A path that is split has an abstraction state on it. -/
theorem split_ne_nil {arena : Arena} {stops : List Refinement.Stop} {blocks : List PathFormula}
    (h : Refinement.split arena g path = .ok (.ok (stops, blocks))) : stops ≠ [] := by
  obtain ⟨ss, -, h⟩ := attempt_bind_ok.1 h
  split at h
  · exact absurd h fun h => by cases h
  · next hne =>
    obtain ⟨rest, -, h⟩ := attempt_bind_ok.1 h
    cases attempt_pure_ok.1 h
    rintro rfl
    exact hne rfl

/-- Refinement fails if the path is spurious and there is no point to start again from. -/
theorem refine_stuck {stops : List Refinement.Stop} {blocks : List PathFormula}
    {pss : List (List Predicate)} {solver : Solver}
    (hsplit : Refinement.split a.arena g path = .ok (.ok (stops, blocks)))
    (htrace : Trace.ofBlocks blocks a.solver = .ok (.ok (.spurious pss), solver))
    (hrestart : Refinement.restartPoint? a.precision a.lastPath stops
      (Refinement.suggestions stops pss) = none) :
    ∃ a', refine p g path a = .ok (.error (.noProgress (stops.map (·.state.location))), a') := by
  have hpath : onPath (Refinement.split a.arena g path) a = .ok (.ok (stops, blocks), a) := by
    refine try_bind_ok.2 (.inl ⟨.ok (stops, blocks), a, ?_, rfl⟩)
    exact try_lift_ok.2 ⟨_, state_lift_ok.2 ⟨hsplit, rfl⟩, rfl⟩
  have hconsult : consult (Trace.ofBlocks blocks) a =
      .ok (.ok (.spurious pss), { a with solver := solver }) := by
    show (Trace.ofBlocks blocks a.solver >>= _) = _
    rw [htrace]
    rfl
  have hanalyse : analysePath p g path a =
      .ok (.error (.noProgress (stops.map (·.state.location))), { a with solver := solver }) := by
    refine try_bind_ok.2 (.inl ⟨a, a, rfl, try_bind_ok.2 (.inl ⟨_, a, hpath, ?_⟩)⟩)
    refine try_bind_ok.2 (.inl ⟨_, _, hconsult, try_bind_ok.2 (.inl ⟨_, _, rfl, ?_⟩)⟩)
    simp only [hrestart]
    rfl
  exact ⟨_, try_bind_ok.2 (.inl ⟨_, _, try_lift_ok.2 ⟨_, hanalyse, rfl⟩,
    try_bind_ok.2 (.inl ⟨_, _, rfl, rfl⟩)⟩)⟩

/-- A refinement that finds a path spurious takes over its predicates, and remembers the path. -/
theorem refine_spurious {precision : Precision} {root : NodeId}
    (h : refine p g path a = .ok (.ok (.spurious precision root), a')) :
    ∃ stops pss, a.Excludes g path stops pss ∧
      Refinement.restartPoint? a.precision a.lastPath stops (Refinement.suggestions stops pss) =
        some root ∧
      precision = (a.precision.refine ((Refinement.suggestions stops pss).map
        fun sq => (sq.1.state.location, sq.2))).1 ∧
      a'.precision = a.precision.join precision ∧
      a'.lastPath = some (stops.map (·.state.location)) := by
  obtain ⟨a₁, statistics, hinspection, rfl⟩ := refine_inspection h
  cases hinspection with
  | spurious hsplit htrace hrestart =>
    exact ⟨_, _, ⟨_, _, hsplit, htrace⟩, hrestart, rfl, rfl, rfl⟩

/-- Any other refinement leaves the precision and the remembered path alone. -/
theorem refine_other {r : Except Error Refinement} (h : refine p g path a = .ok (r, a'))
    (hr : ∀ precision root, r ≠ .ok (.spurious precision root)) :
    a'.precision = a.precision ∧ a'.lastPath = a.lastPath := by
  obtain ⟨a₁, statistics, hinspection, rfl⟩ := refine_inspection h
  cases hinspection with
  | spurious => exact absurd rfl (hr _ _)
  | malformed | undecided | lost | real | stuck => exact ⟨rfl, rfl⟩

/-- There is no progress only if the path cannot be executed and no stop has a new predicate to
restart from. -/
theorem refine_noProgress (hrest : a.solver.scopes = [[]]) {locations : List Location}
    (h : refine p g path a = .ok (.error (.noProgress locations), a')) :
    ∃ stops pss, a.Excludes g path stops pss ∧ locations = stops.map (·.state.location) ∧
      Refinement.restartPoint? a.precision a.lastPath stops (Refinement.suggestions stops pss) =
        none := by
  obtain ⟨a₁, statistics, hinspection, rfl⟩ := refine_inspection h
  cases hinspection with
  | undecided _ htrace =>
    obtain ⟨_, _, -, ⟨-, -, hr⟩ | ⟨-, -, hr⟩ | ⟨-, _, -, hr⟩⟩ := Trace.ofBlocks_cases hrest htrace <;>
      cases hr
  | stuck hsplit htrace hrestart => exact ⟨_, _, ⟨_, _, hsplit, htrace⟩, rfl, hrestart⟩

end Analysis

/-- The course of an analysis whose precision is set at most at its start: the states given so far,
the precisions that exploration started from at each time, and the abstraction locations of the
path that was found spurious last. -/
inductive Course (p : Problem) :
    List State → List Precision → Option (List Location) → Analysis → Prop
  | start {a : Analysis} (h : Analysis.new p.options = .ok a) (precision : Precision) :
      Course p [.top, .bottom] [precision] none { a with precision := precision }
  | explore {given ss : List State} {past : List Precision} {last : Option (List Location)}
      {a a' : Analysis} {op : Operation} (hc : Course p given past last a)
      (hexplores : op.Explores) (hop : ∀ s ∈ op.states, s ∈ given)
      (h : op.run p a = .ok (ss, a')) : Course p (ss ++ given) (a'.precision :: past) last a'
  | spurious {given : List State} {past : List Precision} {last : Option (List Location)}
      {a a' : Analysis} {g : Graph} {path : Path} {precision : Precision} {root : NodeId}
      {stops : List Refinement.Stop} {blocks : List PathFormula} (hc : Course p given past last a)
      (h : Analysis.refine p g path a = .ok (.ok (.spurious precision root), a'))
      (hsplit : Refinement.split a.arena g path = .ok (.ok (stops, blocks))) :
      Course p given (a'.precision :: past) (some (stops.map (·.state.location))) a'
  | other {given : List State} {past : List Precision} {last : Option (List Location)}
      {a a' : Analysis} {g : Graph} {path : Path} {r : Except Error Refinement}
      (hc : Course p given past last a) (h : Analysis.refine p g path a = .ok (r, a'))
      (hr : ∀ precision root, r ≠ .ok (.spurious precision root)) :
      Course p given (a'.precision :: past) last a'

namespace Course

variable {given : List State} {past : List Precision} {last : Option (List Location)} {a : Analysis}

/-- The calls of a course are those of a session. -/
theorem session (h : Course p given past last a) : Session p given a := by
  have hrefine {given : List State} {a a' : Analysis} {g : Graph} {path : Path}
      {r : Except Error Refinement} (hs : Session p given a)
      (h : Analysis.refine p g path a = .ok (r, a')) : Session p given a' := by
    have hrun : (Operation.refine g path).run p a = .ok ([], a') :=
      state_bind_ok.2 ⟨r, a', h, rfl⟩
    exact .call hs (by simp [Operation.states]) hrun
  induction h with
  | @start a h precision =>
    have hrun : (Operation.setPrecision precision).run p a =
      .ok ([], { a with precision := precision }) := rfl
    exact .call (.start h) (by simp [Operation.states]) hrun
  | explore _ _ hop h ih => exact .call ih hop h
  | spurious _ h _ ih => exact hrefine ih h
  | other _ h _ ih => exact hrefine ih h

/-- What is remembered is the last spurious path. -/
theorem lastPath_eq (h : Course p given past last a) : a.lastPath = last := by
  induction h with
  | start h =>
    obtain ⟨solver, -, h⟩ := except_bind_ok.1 h
    cases h
    rfl
  | explore hc hexplores hop h ih =>
    obtain ⟨ha, hgiven⟩ := hc.session.legal
    rw [(Operation.accrues_run hexplores ha (fun s hs => hgiven s (hop s hs)) h).precision.2, ih]
  | spurious hc h hsplit ih =>
    obtain ⟨stops, pss, ⟨blocks, solver, hsplit', -⟩, -, -, -, hlast⟩ := Analysis.refine_spurious h
    cases hsplit.symm.trans hsplit'
    exact hlast
  | other hc h hr ih => rw [(Analysis.refine_other h hr).2, ih]

/-- No location loses a predicate. -/
theorem mem_setAt (h : Course p given past last a) :
    ∀ earlier ∈ past, ∀ l, ∀ q ∈ earlier.setAt l, q ∈ a.precision.setAt l := by
  induction h with
  | start h precision =>
    intro earlier hmem l q hq
    rwa [List.mem_singleton.1 hmem] at hq
  | explore hc hexplores hop h ih =>
    obtain ⟨ha, hgiven⟩ := hc.session.legal
    rw [(Operation.accrues_run hexplores ha (fun s hs => hgiven s (hop s hs)) h).precision.1]
    exact List.forall_mem_cons.2 ⟨fun _ _ hq => hq, ih⟩
  | spurious hc h hsplit ih =>
    obtain ⟨stops, pss, -, -, rfl, hprecision, -⟩ := Analysis.refine_spurious h
    refine List.forall_mem_cons.2 ⟨fun _ _ hq => hq, fun earlier hmem l q hq => ?_⟩
    rw [hprecision, Precision.setAt_join_refine]
    exact Precision.mem_setAt_refine.2 (.inl (ih earlier hmem l q hq))
  | other hc h hr ih =>
    rw [(Analysis.refine_other h hr).1]
    exact List.forall_mem_cons.2 ⟨fun _ _ hq => hq, ih⟩

/-- Along a course no location loses a predicate. A refinement that finds a path spurious makes
exploration start from what it returns; it starts at the first stop with a new predicate, and if
there is none, the last spurious path had other abstraction locations. It fails for want of progress
exactly if there is none and the locations are the same. All other outcomes change neither the
precision nor the remembered path. -/
theorem refine_progresses (h : Course p given past last a) (g : Graph) (path : Path) :
    (∀ earlier ∈ past, ∀ l, ∀ q ∈ earlier.setAt l, q ∈ a.precision.setAt l) ∧
    (∀ precision root a', Analysis.refine p g path a = .ok (.ok (.spurious precision root), a') →
      (∀ l, a'.precision.setAt l = precision.setAt l) ∧
      ∃ stops pss, a.Excludes g path stops pss ∧
        ((∃ l q, q ∈ a'.precision.setAt l ∧ q ∉ a.precision.setAt l) →
          ∃ stop, Refinement.FirstNew a.precision stops pss stop ∧ root = stop.node) ∧
        ((∀ l, ∀ q ∈ a'.precision.setAt l, q ∈ a.precision.setAt l) →
          last ≠ some (stops.map (·.state.location)))) ∧
    (∀ locations, (∃ a', Analysis.refine p g path a = .ok (.error (.noProgress locations), a')) ↔
      ∃ stops pss, a.Excludes g path stops pss ∧
        (∀ i, ¬ Refinement.New a.precision stops pss i) ∧
        locations = stops.map (·.state.location) ∧ last = some locations) ∧
    ∀ r a', Analysis.refine p g path a = .ok (r, a') →
      (∀ precision root, r ≠ .ok (.spurious precision root)) →
      a'.precision = a.precision ∧ a'.lastPath = a.lastPath := by
  obtain rfl := h.lastPath_eq
  refine ⟨h.mem_setAt, fun precision root a' hrefine => ?_, fun locations => ⟨?_, ?_⟩,
    fun r a' => Analysis.refine_other⟩
  · -- both halves ask whether something is new, at a location or at a stop
    obtain ⟨stops, pss, hexcludes, hrestart, rfl, hprecision, -⟩ := Analysis.refine_spurious hrefine
    have hset (l : Location) := congrArg (·.setAt l) hprecision
    simp only [Precision.setAt_join_refine] at hset
    refine ⟨hset, stops, pss, hexcludes, ?_⟩
    simp only [hset]
    refine ⟨fun hgains => ?_, fun hsame hlast => ?_⟩
    · obtain ⟨i, hi⟩ := Refinement.gains_iff.1 hgains
      rcases Refinement.restartPoint?_cases a.precision a.lastPath stops pss with
        ⟨stop, hfirst, hpoint⟩ | ⟨hnone, -⟩
      · exact ⟨stop, hfirst, Option.some.inj (hrestart.symm.trans hpoint)⟩
      · exact absurd hi (hnone i)
    · rcases Refinement.restartPoint?_cases a.precision a.lastPath stops pss with
        ⟨stop, ⟨i, -, hi, -⟩, -⟩ | ⟨-, hpoint⟩
      · obtain ⟨l, q, hq, hnew⟩ := Refinement.gains_iff.2 ⟨i, hi⟩
        exact hnew (hsame l q hq)
      · rw [if_pos hlast] at hpoint
        cases hrestart.symm.trans hpoint
  · rintro ⟨a', hrefine⟩
    have hrest := h.session.legal.1.rest
    obtain ⟨stops, pss, hexcludes, rfl, hrestart⟩ := Analysis.refine_noProgress hrest hrefine
    obtain ⟨stop, -, hpoint⟩ | ⟨hnone, hpoint⟩ :=
      Refinement.restartPoint?_cases a.precision a.lastPath stops pss
    · cases hrestart.symm.trans hpoint
    · refine ⟨stops, pss, hexcludes, hnone, rfl, Decidable.not_not.1 fun hlast => ?_⟩
      -- the path has a first abstraction state to start from
      obtain ⟨blocks, solver, hsplit, -⟩ := hexcludes
      obtain ⟨s, ss, rfl⟩ := List.exists_cons_of_ne_nil (Analysis.split_ne_nil hsplit)
      rw [if_neg hlast, hrestart] at hpoint
      cases ss <;> cases hpoint
  · rintro ⟨stops, pss, ⟨blocks, solver, hsplit, htrace⟩, hnone, rfl, hlast⟩
    refine Analysis.refine_stuck hsplit htrace ?_
    obtain ⟨stop, ⟨i, -, hi, -⟩, -⟩ | ⟨-, hpoint⟩ :=
      Refinement.restartPoint?_cases a.precision a.lastPath stops pss
    · exact absurd hi (hnone i)
    · rw [hpoint, if_pos hlast]

/-! ## A path that is refined twice -/

/-- A course may start with an initial state. -/
theorem of_begin? {l : Location} {s : State} (h : Session.begin? p l = some (s, a)) :
    ∃ given past, Course p given past none a ∧ s ∈ given := by
  obtain ⟨a₀, hnew, hinit⟩ := except_bind_ok.1 (except_toOption_eq_some.1 h)
  have hrun : (Operation.initialState l).run p a₀ = .ok ([s], a) :=
    state_bind_ok.2 ⟨s, a, hinit, rfl⟩
  have hexplores : (Operation.initialState l).Explores := trivial
  exact ⟨_, _, .explore (.start hnew a₀.precision) hexplores (by simp [Operation.states]) hrun,
    by simp⟩

/-- A course goes on along any edges. -/
theorem of_walk? {precision : Precision} {es : List EdgeId} {s t : State} {a' : Analysis}
    (hc : Course p given past last a) (hmem : s ∈ given)
    (h : Session.walk? p precision es s a = some (t, a')) :
    ∃ given' past', Course p given' past' last a' ∧ t ∈ given' := by
  induction es generalizing s a given past with
  | nil =>
    cases h
    exact ⟨given, past, hc, hmem⟩
  | cons e es ih =>
    obtain ⟨u, a₁, hstep, hrest⟩ := Session.walk?_cons_eq_some h
    have hrun : (Operation.successor precision s e).run p a = .ok ([u], a₁) :=
      state_bind_ok.2 ⟨_, a₁, hstep, rfl⟩
    have hexplores : (Operation.successor precision s e).Explores := trivial
    exact ih (.explore hc hexplores (by simpa [Operation.states] using hmem) hrun) (by simp) hrest

/-- Assigns `0` to `x` and reports an error if it is `1`. Every block has one edge. -/
def neverOne : Problem where
  automaton := {
    nodes := #[.entryOf "main", .plain "main", .errorOf "main"]
    edges :=
      #[⟨⟨0⟩, ⟨1⟩, .assign varX (.num 0)⟩, ⟨⟨1⟩, ⟨2⟩, .assume (.eq varX (.num 1)) true⟩]
    entry := ⟨0⟩
    joins := by decide }
  options := { blockSize := 1 }

/-- The three abstraction states on the way to the error. -/
def neverOneGraph : Graph where
  nodes :=
    let nodes : Std.ExtTreeMap NodeId GraphNode := ∅
    ((nodes.insert ⟨0⟩ ⟨.abstraction ⟨0⟩, ⟨0⟩⟩).insert ⟨1⟩ ⟨.abstraction ⟨1⟩, ⟨1⟩⟩).insert
      ⟨2⟩ ⟨.abstraction ⟨2⟩, ⟨2⟩⟩
  free := []
  links := [⟨⟨1⟩, ⟨2⟩, ⟨1⟩⟩, ⟨⟨0⟩, ⟨1⟩, ⟨0⟩⟩]
  root := some ⟨0⟩
  freeing := .descending
  removals := 0

def neverOnePath : Path := [⟨⟨0⟩, some ⟨0⟩⟩, ⟨⟨1⟩, some ⟨1⟩⟩, ⟨⟨2⟩, none⟩]

/-- Whether all below the node is to be explored again. -/
def restartsAt (n : NodeId) : Except Error Refinement → Bool
  | .ok (.spurious _ root) => root = n
  | _ => false

/-- Exploration starts again below the node, with some precision. -/
theorem exists_of_restartsAt {n : NodeId} {r : Except Error Refinement}
    (h : restartsAt n r = true) : ∃ precision, r = .ok (.spurious precision n) := by
  unfold restartsAt at h
  split at h
  · next precision root => exact ⟨precision, by rw [of_decide_eq_true h]⟩
  · cases h

/-- Whether there was no progress on the path with these abstraction locations. -/
def stallsAt (locations : List Location) : Except Error Refinement → Bool
  | .error e => e = .noProgress locations
  | .ok _ => false

theorem refine_progresses_neverOne :
    ∃ (given : List State) (past : List Precision) (last : Option (List Location)) (a : Analysis),
      Course neverOne given past last a ∧ a.precision.predicatesAt ⟨1⟩ ≠ [] ∧
      (∃ a', Analysis.refine neverOne neverOneGraph neverOnePath a =
        .ok (.error (.noProgress [⟨0⟩, ⟨1⟩, ⟨2⟩]), a')) ∧
      last = some [⟨0⟩, ⟨1⟩, ⟨2⟩] := by
  have hrun : ((Session.begin? neverOne ⟨0⟩).any fun b =>
      (Session.walk? neverOne (.empty neverOne.options.toPolicy) [⟨0⟩, ⟨1⟩] b.1 b.2).any fun c =>
        (Analysis.refine neverOne neverOneGraph neverOnePath c.2).toOption.any fun r =>
          restartsAt ⟨1⟩ r.1 && !(r.2.precision.predicatesAt ⟨1⟩).isEmpty &&
          (Analysis.refine neverOne neverOneGraph neverOnePath r.2).toOption.any fun r' =>
            stallsAt [⟨0⟩, ⟨1⟩, ⟨2⟩] r'.1) = true := by
    decide +kernel
  obtain ⟨⟨s₀, a₀⟩, hbegin, hrun⟩ := (Option.any_eq_true _ _).1 hrun
  obtain ⟨⟨s, a⟩, hwalk, hrun⟩ := (Option.any_eq_true _ _).1 hrun
  obtain ⟨⟨r, a'⟩, hrefine, hrun⟩ := (Option.any_eq_true _ _).1 hrun
  simp only [Bool.and_eq_true, Bool.not_eq_true', List.isEmpty_eq_false_iff] at hrun
  obtain ⟨⟨hroot, htracked⟩, hrun⟩ := hrun
  obtain ⟨⟨r', a''⟩, hagain, hstalls⟩ := (Option.any_eq_true _ _).1 hrun
  obtain ⟨given₀, past₀, hcourse₀, hs₀⟩ := of_begin? hbegin
  obtain ⟨given, past, hcourse, -⟩ := of_walk? hcourse₀ hs₀ hwalk
  obtain ⟨precision, rfl⟩ := exists_of_restartsAt hroot
  obtain ⟨stops, pss, ⟨blocks, solver, hsplit, -⟩, -⟩ :=
    Analysis.refine_spurious (except_toOption_eq_some.1 hrefine)
  have hcourse' := Course.spurious hcourse (except_toOption_eq_some.1 hrefine) hsplit
  have hstall : ∃ a'', Analysis.refine neverOne neverOneGraph neverOnePath a' =
      .ok (.error (.noProgress [⟨0⟩, ⟨1⟩, ⟨2⟩]), a'') := by
    cases r' with
    | ok => cases hstalls
    | error e =>
      rw [← of_decide_eq_true hstalls]
      exact ⟨a'', except_toOption_eq_some.1 hagain⟩
  obtain ⟨-, -, hfails, -⟩ := refine_progresses hcourse' neverOneGraph neverOnePath
  obtain ⟨_, _, -, -, -, hlast⟩ := (hfails _).1 hstall
  exact ⟨_, _, _, a', hcourse', htracked, hstall, hlast⟩

end Course

end Cegar

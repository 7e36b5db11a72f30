import Cegar.Proofs.Analysis.Inspection
import Cegar.Proofs.Analysis.Orderly
import Cegar.Proofs.Analysis.Ways

/-!
# Blocks respect the block size

A block is completed by the edge that makes it as long as the block size, if that alone is enough.
The test comes before the edge is added, and a merged state is as long as the longer one of the two;
so what is kept by every call is that a state inside a block is shorter than a whole one, however
calls follow one another.

* **`Policy.Completes.lt_blockSize`**: a block that goes on has not reached the block size;
* **`MeasuresUpTo`**: how large the blocks are that an operation counts;
* **`BlocksFit`**: what one call keeps, with a lemma for each operation;
* **`Orderly.blocks_bounded`**: the bounds after any sequence of calls.
-/

namespace Cegar

variable {p : Problem} {a a' : Analysis}

/-! ## The threshold -/

/-- If the block size alone is enough to complete a block, one that goes on has not reached it. -/
theorem Policy.Completes.lt_blockSize {policy : Policy} {A : Automaton} {l : Location} {size : Nat}
    (hpositive : 0 < policy.blockSize) (hor : policy.combination = .or)
    (h : policy.Completes A l size false) : size + 1 < policy.blockSize := by
  obtain ⟨node, reached, -, hreached, habstracts⟩ := h
  have hnot : reached = false := by
    unfold abstracts at habstracts
    split at habstracts
    · cases habstracts
    · rw [hor] at habstracts
      exact (Bool.or_eq_false_iff.1 habstracts).2
  subst hnot
  unfold thresholdReached at hreached
  rw [if_neg (Nat.pos_iff_ne_zero.1 hpositive)] at hreached
  split at hreached
  · have hnle := of_decide_eq_false (Except.ok.inj hreached)
    omega
  · cases hreached

/-! ## Counting blocks -/

/-- The largest block counted afterwards has at most `n` edges, or was counted before. -/
def MeasuresUpTo {α : Type} (n : Nat) (act : AnalysisM α) : Prop :=
  ∀ a x a', act a = .ok (x, a') → a'.statistics.maxBlockSize ≤ max a.statistics.maxBlockSize n

namespace MeasuresUpTo

variable {α β : Type} {n : Nat}

/-- An operation that counts no block. -/
theorem of_eq {act : AnalysisM α}
    (h : ∀ a x a', act a = .ok (x, a') → a'.statistics.maxBlockSize = a.statistics.maxBlockSize) :
    MeasuresUpTo n act :=
  fun a x a' hact => h a x a' hact ▸ Nat.le_max_left _ _

theorem pure (x : α) : MeasuresUpTo n (pure x) := of_eq fun a y a' h => by
  cases state_pure_ok.1 h
  rfl

/-- Operations one after the other count what each of them counts. -/
theorem bind {act : AnalysisM α} {f : α → AnalysisM β} (h : MeasuresUpTo n act)
    (hf : ∀ x, MeasuresUpTo n (f x)) : MeasuresUpTo n (act >>= f) := by
  intro a y a' hact
  obtain ⟨x, a₁, hx, hy⟩ := state_bind_ok.1 hact
  have hfirst := h a x a₁ hx
  have hsecond := hf x a₁ y a' hy
  omega

/-- The same for operations that may fail. -/
theorem try_bind {act : TryM α} {f : α → TryM β} (h : MeasuresUpTo n act.run)
    (hf : ∀ x, MeasuresUpTo n (f x).run) : MeasuresUpTo n (act >>= f).run := by
  refine bind (f := ExceptT.bindCont f) h fun r => ?_
  cases r with
  | ok x => exact hf x
  | error e => exact pure _

theorem try_lift {act : AnalysisM α} (h : MeasuresUpTo n act) :
    MeasuresUpTo n (liftM act : TryM α).run :=
  bind h fun x => pure (Except.ok x)

theorem lift (x : Except Abort α) : MeasuresUpTo n (liftM x : AnalysisM α) := of_eq fun a y a' h => by
  obtain ⟨-, rfl⟩ := state_lift_ok.1 h
  rfl

theorem get : MeasuresUpTo n (get : AnalysisM Analysis) := of_eq fun a y a' h => by
  cases state_get_ok.1 h
  rfl

/-- A change of the analysis that counts no more than `n` edges. -/
theorem modify {f : Analysis → Analysis}
    (hf : ∀ a, (f a).statistics.maxBlockSize ≤ max a.statistics.maxBlockSize n) :
    MeasuresUpTo n (modify f : AnalysisM Unit) := by
  intro a x a' h
  cases state_modify_ok.1 h
  exact hf a

/-- Counting anything but blocks. -/
theorem count {f : Statistics → Statistics} (hf : ∀ s, (f s).maxBlockSize = s.maxBlockSize) :
    MeasuresUpTo n (Analysis.count f) :=
  modify fun a => by
    show (f a.statistics).maxBlockSize ≤ _
    rw [hf]
    exact Nat.le_max_left _ _

/-- Asking the solver counts no block. -/
theorem consult (act : SolverM α) : MeasuresUpTo n (Analysis.consult act) := of_eq fun a x a' h => by
  obtain ⟨solver, -, rfl⟩ := Analysis.consult_cases h
  rfl

end MeasuresUpTo

namespace Analysis

theorem extendPath_measures (n : Nat) (edge : Edge) (e : EdgeId) (path : PathFormula) :
    MeasuresUpTo n (extendPath edge e path).run := by
  refine .try_bind (.try_lift .get) fun a => ?_
  split
  · exact .try_bind (.try_lift (.count fun _ => rfl)) fun _ => .pure _
  · refine .try_bind (.lift _) fun q => .try_bind ?_ fun _ => .pure _
    exact .try_lift (.modify fun a => Nat.le_max_left _ _)

theorem prunes_measures (n : Nat) (owner : AbstractionState) (size : Nat) (path : PathFormula) :
    MeasuresUpTo n (prunes p owner size path) := by
  unfold prunes
  split
  · exact .pure _
  · refine .bind (.count fun _ => rfl) fun _ => .bind (.consult _) fun infeasible => ?_
    split
    · exact .bind (.count fun _ => rfl) fun _ => .pure _
    · exact .pure _

/-- A completed block is counted with its edges. -/
theorem completeBlock_measures (precision : Precision) (owner : AbstractionState) (l : Location)
    (size : Nat) (path : PathFormula) :
    MeasuresUpTo size (completeBlock p precision owner l size path) := by
  refine .bind (.consult _) fun abstraction => .bind (.modify fun a => Nat.le_refl _) fun _ => ?_
  split
  · exact .bind (.count fun _ => rfl) fun _ => .pure _
  · exact .bind (.of_eq fun a x a' h => by cases h; rfl) fun _ => .pure _

/-- One more edge makes the block that may be counted one edge longer. -/
theorem extendBlock_measures (precision : Precision) (owner : AbstractionState) (path : PathFormula)
    (size : Nat) (e : EdgeId) :
    MeasuresUpTo (size + 1) (extendBlock p precision owner path size e).run := by
  refine .try_bind (.try_lift (.lift _)) fun edge => .try_bind (.try_lift (.lift _)) fun reached =>
    .try_bind (.try_lift (.lift _)) fun node => .try_bind (extendPath_measures _ _ _ _) fun q => ?_
  split
  · exact .try_lift (completeBlock_measures _ _ _ _ _)
  · refine .try_bind (.try_lift (prunes_measures _ _ _ _)) fun pruned => ?_
    split <;> exact .pure _

/-- Merging counts no block. -/
theorem merge?_measures (n : Nat) (s t : State) : MeasuresUpTo n (merge? p s t) := by
  unfold merge?
  split
  · split
    · exact .pure _
    · refine .bind (.bind .get fun a => ?_) fun _ => .pure _
      split
      · exact .bind (.count fun _ => rfl) fun _ => .pure _
      · refine .bind (.count fun _ => rfl) fun _ => .bind ?_ fun _ => .pure _
        exact .modify fun a => Nat.le_max_left _ _
  · exact .pure _

/-- Refinement counts no block. -/
theorem refine_measures (n : Nat) (g : Graph) (path : Path) :
    MeasuresUpTo n (refine p g path).run := by
  have hanalyse : MeasuresUpTo n (analysePath p g path).run := .of_eq fun a r a' h => by
    cases analysePath_inspection h <;> rfl
  refine .try_bind (.try_lift hanalyse) fun result => .try_bind (.try_lift (.count fun _ => rfl))
    fun _ => ?_
  split
  · refine .try_bind (.try_lift (.count fun _ => rfl)) fun _ => .try_bind ?_ fun _ => .pure _
    exact .try_lift (.modify fun a => Nat.le_max_left _ _)
  · exact .try_bind (.try_lift (.count fun _ => rfl)) fun _ => .pure _
  · exact .pure _

end Analysis

/-! ## What one call keeps -/

variable {arena arena' : Arena}

/-- The start of a block is in the arena. -/
theorem State.InBlock.get? {A : Automaton} {s : State} {owner : AbstractionState}
    {path : PathFormula} {size : Nat} (ha : a.Legal A) (h : s.InBlock a.arena owner path size) :
    a.arena.get? owner.id = some owner := by
  cases h with
  | start hget => exact ha.owner hget
  | inside hget => exact ha.owner hget

/-- The ways of a state inside a block are fewer edges long than a whole block, and the longest one
is as long as the state says. -/
inductive Routed.Fits (p : Problem) (arena : Arena) : Routed → Prop
  | abstraction {id : AbstractionId} {owner : AbstractionState} (h : arena.get? id = some owner) :
    Fits p arena ⟨.abstraction id, [[]]⟩
  | inner {s : Inner} {owner : AbstractionState} {ways : List (List EdgeId)}
    (howner : arena.get? s.owner = some owner)
    (hbuilt : s.path.Built p.automaton owner.location owner.ssa s.location ways)
    (hlongest : Longest ways s.size) (hpositive : 0 < s.size)
    (hsize : s.size < p.options.blockSize) : Fits p arena ⟨.inner s, ways⟩

/-- The ways stay as long when abstraction states are added. -/
theorem Routed.Fits.mono {t : Routed} (h : t.Fits p arena) (hext : arena.Extends arena') :
    t.Fits p arena' := by
  cases h with
  | abstraction hget => exact .abstraction (hext _ _ hget)
  | inner howner hbuilt hlongest hpositive hsize =>
    exact .inner (hext _ _ howner) hbuilt hlongest hpositive hsize

/-- The block that goes on from a state, with the ways so far. -/
theorem Routed.Fits.inBlock {t : Routed} (h : t.Fits p arena)
    (hpositive : 0 < p.options.blockSize) :
    ∃ owner path size l, t.state.InBlock arena owner path size ∧
      t.state.location? arena = .ok (some l) ∧
      path.Built p.automaton owner.location owner.ssa l t.ways ∧ Longest t.ways size ∧
      size < p.options.blockSize := by
  cases h with
  | @abstraction id owner hget =>
    refine ⟨owner, owner.fresh, 0, owner.location, .start hget, ?_, .empty, .single, hpositive⟩
    simp only [State.location?, Arena.get, hget]
    rfl
  | @inner s owner ways howner hbuilt hlongest _ hsize =>
    exact ⟨owner, s.path, s.size, s.location, .inside howner, rfl, hbuilt, hlongest, hsize⟩

/-- The union of two states has the ways of both, and is as long as the longer one. -/
theorem Routed.Fits.merged {t u : Routed} (ht : t.Fits p arena) (hu : u.Fits p arena) {x y : Inner}
    (hx : t.state = .inner x) (hy : u.state = .inner y) (howner : x.owner = y.owner)
    (hlocation : x.location = y.location) :
    (t.merged u (.inner (Inner.merge x.toSegment y.toSegment))).Fits p arena := by
  cases ht with
  | abstraction => cases hx
  | inner hgetx hbuiltx hlongestx hpositivex hsizex =>
    cases hx
    cases hu with
    | abstraction => cases hy
    | inner hgety hbuilty hlongesty hpositivey hsizey =>
      cases hy
      -- the two have the same owner, so their paths were built from the same numbering
      rw [← howner] at hgety
      cases hgetx.symm.trans hgety
      rw [← hlocation] at hbuilty
      exact .inner hgetx (hbuiltx.or hbuilty) (hlongestx.append hlongesty)
        (Nat.lt_of_lt_of_le hpositivex (Nat.le_max_left _ _)) (Nat.max_lt.2 ⟨hsizex, hsizey⟩)

/-- A complete block has an edge at least, and no more edges than a block may have. -/
structure PathFormula.Complete (p : Problem) (pre : AbstractionState) (l : Location)
    (block : PathFormula) (ways : List (List EdgeId)) : Prop where
  built : block.Built p.automaton pre.location pre.ssa l ways
  nonempty : ways ≠ []
  positive : ∀ w ∈ ways, 0 < w.length
  bounded : ∀ w ∈ ways, w.length ≤ p.options.blockSize

/-- A state without predecessor has an empty block; the block of any other state is complete. -/
def Arena.Complete (p : Problem) (arena : Arena) : Prop :=
  ∀ i s, arena.get? i = some s → (s.previous = none ∧ s.block = .empty .empty) ∨
    ∃ j pre ways, s.previous = some j ∧ arena.get? j = some pre ∧
      s.block.Complete p pre s.location ways

/-- Adding a state at the end of a complete block, or without one, keeps all blocks complete. -/
theorem Arena.Complete.allocate (h : arena.Complete p) {l : Location} {e : Expr}
    {block : PathFormula} {previous : Option AbstractionId}
    (hnew : (previous = none ∧ block = .empty .empty) ∨
      ∃ j pre ways, previous = some j ∧ arena.get? j = some pre ∧ block.Complete p pre l ways) :
    (arena.allocate l e block previous).2.Complete p := by
  have hext := arena.extends_allocate l e block previous
  refine Arena.forall_allocate (fun i s hs => ?_) ?_
  · exact (h i s hs).imp_right fun ⟨j, pre, ways, hj, hpre, hcomplete⟩ =>
      ⟨j, pre, ways, hj, hext _ _ hpre, hcomplete⟩
  · exact hnew.imp_right fun ⟨j, pre, ways, hj, hpre, hcomplete⟩ =>
      ⟨j, pre, ways, hj, hext _ _ hpre, hcomplete⟩

/-- What holds after orderly calls, if the block size alone is enough to complete a block. -/
structure BlocksFit (p : Problem) (given : List Routed) (a : Analysis) : Prop where
  given : ∀ t ∈ given, t.Fits p a.arena
  arena : a.arena.Complete p
  largest : a.statistics.maxBlockSize ≤ p.options.blockSize
  policy : a.precision.policy = p.options.toPolicy

namespace Analysis

/-- A block that may go on is completed by one more edge, or may go on still. -/
theorem extendBlock_fits (hpositive : 0 < p.options.blockSize) (hor : p.options.combination = .or)
    (ha : a.Legal p.automaton) {precision : Precision}
    (hpolicy : precision.policy = p.options.toPolicy) {owner : AbstractionState}
    (howner : a.arena.get? owner.id = some owner) {path : PathFormula} {l : Location} {t : Routed}
    (hbuilt : path.Built p.automaton owner.location owner.ssa l t.ways) {size : Nat}
    (hlongest : Longest t.ways size) (hsize : size < p.options.blockSize) {e : EdgeId}
    (hleaves : e ∈ p.automaton.leaving l) (hcomplete : a.arena.Complete p)
    {r : Except Error (Option State)}
    (h : extendBlock p precision owner path size e a = .ok (r, a')) :
    a'.arena.Complete p ∧ ∀ u ∈ t.successor e r, u.Fits p a'.arena := by
  obtain ⟨edge, hedge, cache, statistics, -, -, hcases⟩ := extendBlock_cases ha.cache h
  obtain ⟨edge', hedge', rfl⟩ := Automaton.mem_leaving.1 hleaves
  cases hedge.symm.trans hedge'
  obtain ⟨x, -, rfl, rfl⟩ | ⟨q, o, solver, arena, hextend, rfl, houtcome, rfl⟩ := hcases
  · exact ⟨hcomplete, by simp [Routed.successor]⟩
  have hq := hbuilt.extend hedge hextend
  have hlongest' := hlongest.concat e
  rcases houtcome.arena_cases ha.rest with ⟨rfl, hinner⟩ | ⟨c, -, rfl, rfl⟩
  -- no state was added: the block goes on, so it has not reached the block size
  · refine ⟨hcomplete, fun u hu => ?_⟩
    cases o with
    | none => cases hu
    | some s =>
      cases List.mem_singleton.1 hu
      cases hinner s rfl
      obtain ⟨edge', q', b, hedge', -, hcompletes, -, hcompleted⟩ := extendBlock_ok_kind ha.cache h
      cases hedge.symm.trans hedge'
      cases b with
      | false =>
        rw [hpolicy] at hcompletes
        exact .inner howner hq hlongest' (Nat.succ_pos size) (hcompletes.lt_blockSize hpositive hor)
      | true =>
        obtain ⟨_, _, -, ⟨-, hnone⟩ | ⟨-, hsome, -⟩⟩ := hcompleted rfl
        · cases hnone
        · cases hsome
  -- the block is complete, and all of its ways have one edge more than before
  · have hblock : q.Complete p owner edge.target (t.ways.map (· ++ [e])) := by
      obtain ⟨w, hw, -⟩ := hlongest'.exists_length
      refine ⟨hq, List.ne_nil_of_mem hw, fun v hv => ?_, fun v hv => ?_⟩
      · obtain ⟨u, -, rfl⟩ := List.mem_map.1 hv
        simp
      · exact Nat.le_trans (hlongest'.length_le v hv) hsize
    refine ⟨hcomplete.allocate (.inr ⟨owner.id, owner, _, rfl, howner, hblock⟩), fun u hu => ?_⟩
    cases List.mem_singleton.1 hu
    exact .abstraction (Arena.get?_allocate_self _ _ _ _ _)

end Analysis

namespace BlocksFit

variable {given : List Routed}

/-- A new analysis has counted nothing. -/
theorem new (h : Analysis.new p.options = .ok a) : BlocksFit p [] a := by
  obtain ⟨solver, -, h⟩ := except_bind_ok.1 h
  cases h
  exact ⟨by simp, fun i s hs => by simp [Arena.get?, Arena.empty] at hs, Nat.zero_le _, rfl⟩

/-- It is enough to look at the states that are still of interest. -/
theorem of_subset {given' : List Routed} (hfit : BlocksFit p given a) (hsub : given' ⊆ given) :
    BlocksFit p given' a :=
  ⟨fun t ht => hfit.given t (hsub ht), hfit.arena, hfit.largest, hfit.policy⟩

/-- An initial state has an empty way to it. -/
theorem initialState (hfit : BlocksFit p given a) (ha : a.Legal p.automaton) {l : Location}
    {s : State} (h : Analysis.initialState l a = .ok (s, a')) :
    BlocksFit p (⟨s, [[]]⟩ :: given) a' := by
  obtain ⟨⟨-, hext⟩, -⟩ := Analysis.initialState_legal ha h
  obtain ⟨id, hid, rfl, rfl⟩ | ⟨-, rfl, rfl⟩ := Analysis.initialState_cases h
  · obtain ⟨owner, howner⟩ := ha.initial l id hid
    exact ⟨List.forall_mem_cons.2 ⟨.abstraction howner, hfit.given⟩, hfit.arena, hfit.largest,
      hfit.policy⟩
  · refine ⟨List.forall_mem_cons.2 ⟨.abstraction (Arena.get?_allocate_self _ _ _ _ _),
      fun t ht => (hfit.given t ht).mono hext⟩, hfit.arena.allocate (.inl ⟨rfl, rfl⟩), hfit.largest,
      hfit.policy⟩

/-- A successor inside the block is one edge further than the state, and the block is shorter than
the limit; one that completes the block starts anew. -/
theorem successor (hpositive : 0 < p.options.blockSize) (hor : p.options.combination = .or)
    (hfit : BlocksFit p given a) (ha : a.Legal p.automaton) {precision : Precision}
    (hpolicy : precision.policy = p.options.toPolicy) {t : Routed} (ht : t ∈ given)
    (hlegal : t.state.Legal p.automaton a.arena) {l : Location}
    (hlocation : t.state.location? a.arena = .ok (some l)) {e : EdgeId}
    (hleaves : e ∈ p.automaton.leaving l) {r : Except Error (Option State)}
    (h : Analysis.successor p precision t.state e a = .ok (r, a')) :
    BlocksFit p (t.successor e r ++ given) a' := by
  have hdevelops := Analysis.successor_develops ha hlegal h
  obtain ⟨owner, path, size, l', hblock, hlocation', hbuilt, hlongest, hsize⟩ :=
    (hfit.given t ht).inBlock hpositive
  cases hlocation.symm.trans hlocation'
  have hextend := Analysis.successor_inBlock hblock h
  obtain ⟨hcomplete, hfits⟩ := Analysis.extendBlock_fits hpositive hor ha hpolicy (hblock.get? ha)
    hbuilt hlongest hsize hleaves hfit.arena hextend
  have hmeasured := Analysis.extendBlock_measures precision owner path size e a r a' hextend
  have hlargest := hfit.largest
  refine ⟨fun u hu => ?_, hcomplete, by omega, hdevelops.policy.trans hfit.policy⟩
  rcases List.mem_append.1 hu with hu | hu
  · exact hfits u hu
  · exact (hfit.given u hu).mono hdevelops.extends_arena

/-- Successors along several edges. -/
theorem successorsAlong (hpositive : 0 < p.options.blockSize) (hor : p.options.combination = .or)
    (hfit : BlocksFit p given a) (ha : a.Legal p.automaton) {precision : Precision}
    (hpolicy : precision.policy = p.options.toPolicy) {t : Routed} (ht : t ∈ given)
    (hlegal : t.state.Legal p.automaton a.arena) {l : Location}
    (hlocation : t.state.location? a.arena = .ok (some l)) {es : List EdgeId}
    (hleave : ∀ e ∈ es, e ∈ p.automaton.leaving l) {r : Except Error (List (EdgeId × State))}
    (h : Analysis.successorsAlong p precision t.state es a = .ok (r, a')) :
    BlocksFit p (t.successors r ++ given) a' := by
  -- induction on the edges; the state that they leave stays among those given
  induction es generalizing a r given with
  | nil =>
    cases try_pure_ok.1 h
    exact hfit
  | cons e es ih =>
    obtain ⟨he, hes⟩ := List.forall_mem_cons.1 hleave
    obtain ⟨first, a₁, hfirst, h₁⟩ | ⟨x, hx, rfl⟩ := try_bind_ok.1 h
    · have hfit₁ := hfit.successor hpositive hor ha hpolicy ht hlegal hlocation he hfirst
      obtain ⟨hproceeds, -⟩ := Analysis.successor_legal ha hlegal hfirst
      have hrest {r : Except Error (List (EdgeId × State))} :=
        ih (r := r) hfit₁ hproceeds.legal (List.mem_append_right _ ht)
          (hlegal.mono hproceeds.arena) (State.location?_mono hlocation hproceeds.arena) hes
      obtain ⟨rest, a₂, hrest₁, h₂⟩ | ⟨x, hx, rfl⟩ := try_bind_ok.1 h₁
      · cases try_pure_ok.1 h₂
        refine (hrest hrest₁).of_subset ?_
        cases first with
        | none => exact List.Subset.refl _
        | some s =>
          intro u hu
          simp only [Routed.successors, Routed.successor, Option.toList_some, List.map_cons,
            List.map_nil, List.cons_append, List.nil_append, List.mem_cons, List.mem_append] at hu ⊢
          exact or_left_comm.1 hu
      · exact (hrest hx).of_subset (by simp [Routed.successors])
    · exact hfit.successor hpositive hor ha hpolicy ht hlegal hlocation he hx

/-- The edges that leave the location of a state are followed from there. -/
theorem successors (hpositive : 0 < p.options.blockSize) (hor : p.options.combination = .or)
    (hfit : BlocksFit p given a) (ha : a.Legal p.automaton) {precision : Precision}
    (hpolicy : precision.policy = p.options.toPolicy) {t : Routed} (ht : t ∈ given)
    (hlegal : t.state.Legal p.automaton a.arena) {r : Except Error (List (EdgeId × State))}
    (h : Analysis.successors p precision t.state a = .ok (r, a')) :
    BlocksFit p (t.successors r ++ given) a' := by
  obtain ⟨b, a₁, hb, h₁⟩ | ⟨x, hx, -⟩ := try_bind_ok.1 h
  · cases hb
    obtain ⟨l?, a₁, hl, h₂⟩ | ⟨x, hx, -⟩ := try_bind_ok.1 h₁
    · obtain ⟨hlocation, rfl⟩ := try_lift_except_ok.1 hl
      cases l? with
      | some l =>
        exact hfit.successorsAlong hpositive hor ha hpolicy ht hlegal hlocation (fun _ he => he) h₂
      | none =>
        obtain ⟨_, _, _, _, -, hlocation', -⟩ := (hfit.given t ht).inBlock hpositive
        cases hlocation.symm.trans hlocation'
    · obtain ⟨_, -, hx⟩ := try_lift_ok.1 hx
      cases hx
  · cases hx

/-- The union of two states has the ways of both, and the larger of their sizes is the length of the
longest. -/
theorem merge (hfit : BlocksFit p given a) (ha : a.Legal p.automaton) {t u : Routed} (ht : t ∈ given)
    (hu : u ∈ given) {r : Option State} (h : Analysis.merge? p t.state u.state a = .ok (r, a')) :
    BlocksFit p (r.toList.map (t.merged u) ++ given) a' := by
  obtain ⟨hdevelops, harena⟩ := Analysis.merge?_develops ha h
  have hmeasured := Analysis.merge?_measures 0 t.state u.state a r a' h
  have hlargest := hfit.largest
  refine ⟨fun v hv => ?_, harena ▸ hfit.arena, by omega, hdevelops.policy.trans hfit.policy⟩
  rw [harena]
  rcases List.mem_append.1 hv with hv | hv
  · obtain ⟨s, hs, rfl⟩ := List.mem_map.1 hv
    cases Option.mem_toList.1 hs
    obtain ⟨hnone, -⟩ | ⟨x, y, -, -, hx, hy, howner, hlocation, -, heq, -⟩ :=
      Analysis.merge?_cases ha.cache h
    · cases hnone
    · cases heq
      exact (hfit.given t ht).merged (hfit.given u hu) hx hy howner hlocation
  · exact hfit.given v hv

/-- Refinement gives no states. -/
theorem refine (hfit : BlocksFit p given a) (ha : a.Legal p.automaton) {g : Graph} {path : Path}
    {r : Except Error Refinement} (h : Analysis.refine p g path a = .ok (r, a')) :
    BlocksFit p given a' := by
  obtain ⟨hdevelops, harena⟩ := Analysis.refine_develops ha h
  have hmeasured := Analysis.refine_measures 0 g path a r a' h
  have hlargest := hfit.largest
  exact ⟨harena ▸ hfit.given, harena ▸ hfit.arena, by omega, hdevelops.policy.trans hfit.policy⟩

end BlocksFit

/-! ## Every sequence of calls -/

/-- Orderly calls keep blocks within the block size. -/
theorem Orderly.blocksFit {given : List Routed} (hpositive : 0 < p.options.blockSize)
    (hor : p.options.combination = .or) (h : Orderly p given a) : BlocksFit p given a := by
  induction h with
  | start h => exact .new h
  | initialState hs h ih =>
    obtain ⟨ss, hsession, -⟩ := hs.session
    exact ih.initialState hsession.legal.1 h
  | successor hs ht hpolicy hlocation hleaves h ih =>
    obtain ⟨ss, hsession, hss⟩ := hs.session
    obtain ⟨ha, hgiven⟩ := hsession.legal
    exact ih.successor hpositive hor ha hpolicy ht (hgiven _ (hss _ ht)) hlocation hleaves h
  | successors hs ht hpolicy h ih =>
    obtain ⟨ss, hsession, hss⟩ := hs.session
    obtain ⟨ha, hgiven⟩ := hsession.legal
    exact ih.successors hpositive hor ha hpolicy ht (hgiven _ (hss _ ht)) h
  | merge hs ht hu h ih =>
    obtain ⟨ss, hsession, -⟩ := hs.session
    exact ih.merge hsession.legal.1 ht hu h
  | covers _ _ _ h ih =>
    obtain ⟨solver, rfl⟩ := Analysis.covers_solver h
    exact ⟨ih.given, ih.arena, ih.largest, ih.policy⟩
  | refine hs h ih =>
    obtain ⟨ss, hsession, -⟩ := hs.session
    exact ih.refine hsession.legal.1 h

/-- The precision for a spurious path has the policy of the one that exploration started from. -/
theorem Analysis.policy_of_refine {g : Graph} {path : Path} {precision : Precision} {root : NodeId}
    (h : Analysis.refine p g path a = .ok (.ok (.spurious precision root), a')) :
    precision.policy = a.precision.policy := by
  obtain ⟨a₁, statistics, hinspection, -⟩ := Analysis.refine_inspection h
  cases hinspection
  exact Precision.policy_refine

/-- If the block size alone is enough to complete a block, a state inside a block has an edge behind
it and fewer than a whole block, as many as the longest of the ways that its path formula stands
for. The block of an abstraction state that is not initial stands for ways that have an edge at
least and no more edges than the block size, and no larger block is ever counted. The precisions
that the analysis starts from and gives out have its policy. -/
theorem Orderly.blocks_bounded {given : List Routed} (hpositive : 0 < p.options.blockSize)
    (hor : p.options.combination = .or) (h : Orderly p given a) :
    (∀ t ∈ given, ∀ s, t.state = .inner s → 1 ≤ s.size ∧ s.size < p.options.blockSize ∧
      Longest t.ways s.size ∧ ∃ owner, a.arena.get? s.owner = some owner ∧
        s.path.StandsFor p.automaton owner.location owner.ssa s.location t.ways) ∧
    (∀ i s, a.arena.get? i = some s → (s.previous = none ∧ s.block = .empty .empty) ∨
      ∃ j pre ways, s.previous = some j ∧ a.arena.get? j = some pre ∧
        s.block.StandsFor p.automaton pre.location pre.ssa s.location ways ∧ ways ≠ [] ∧
        ∀ w ∈ ways, 1 ≤ w.length ∧ w.length ≤ p.options.blockSize) ∧
    a.statistics.maxBlockSize ≤ p.options.blockSize ∧
    a.precision.policy = p.options.toPolicy ∧
    ∀ g path precision root a',
      Analysis.refine p g path a = .ok (.ok (.spurious precision root), a') →
        precision.policy = p.options.toPolicy := by
  have hfit := h.blocksFit hpositive hor
  obtain ⟨ss, hsession, -⟩ := h.session
  have hnumbering {i : AbstractionId} {s : AbstractionState} (hs : a.arena.get? i = some s) :
      s.ssa.Grown p.automaton := (hsession.legal.1.arena.state i s hs).numbering
  refine ⟨fun t ht s hs => ?_, fun i s hs => ?_, hfit.largest, hfit.policy,
    fun g path precision root a' hrefine => ?_⟩
  · cases hfit.given t ht with
    | abstraction => cases hs
    | inner howner hbuilt hlongest hpos hsize =>
      cases hs
      exact ⟨hpos, hsize, hlongest, _, howner, hbuilt.standsFor (hnumbering howner)⟩
  · refine (hfit.arena i s hs).imp_right ?_
    rintro ⟨j, pre, ways, hprevious, hpre, hcomplete⟩
    exact ⟨j, pre, ways, hprevious, hpre, hcomplete.built.standsFor (hnumbering hpre),
      hcomplete.nonempty, fun w hw => ⟨hcomplete.positive w hw, hcomplete.bounded w hw⟩⟩
  · rw [Analysis.policy_of_refine hrefine]
    exact hfit.policy

/-! ## Two ways of different length -/

/-- Two edges and one edge lead to the same location, and one more edge completes the block. -/
def detour : Problem where
  automaton := {
    nodes := #[.entryOf "main", .plain "main", .plain "main", .plain "main"]
    edges :=
      #[⟨⟨0⟩, ⟨1⟩, .assign varX (.num 1)⟩, ⟨⟨1⟩, ⟨2⟩, .assign varX (.arith .add varX (.num 1))⟩,
        ⟨⟨0⟩, ⟨2⟩, .assign varX (.num 3)⟩, ⟨⟨2⟩, ⟨3⟩, .assign varY varX⟩]
    entry := ⟨0⟩
    joins := by decide }
  options := { blockSize := 3 }

/-- Both ways are followed, the states are merged, and the block is completed. -/
def detourCalls : List Call :=
  [.successor 0 ⟨0⟩, .successor 0 ⟨1⟩, .successor 2 ⟨2⟩, .merge 1 0, .successor 0 ⟨3⟩]

/-- The ways to where they join. -/
def detourWays : List (List EdgeId) := [[⟨0⟩, ⟨1⟩], [⟨2⟩]]

/-- The longer way has two edges. -/
theorem longest_detourWays {n : Nat} (h : Longest detourWays n) : n = 2 := by
  obtain ⟨w, hw, rfl⟩ := h.exists_length
  have hle := h.length_le [⟨0⟩, ⟨1⟩] (by decide)
  simp only [detourWays, List.mem_cons, List.not_mem_nil, or_false] at hw
  rcases hw with rfl | rfl
  · rfl
  · simp at hle

theorem Orderly.blocks_bounded_detour :
    0 < detour.options.blockSize ∧ detour.options.combination = .or ∧
    ∃ (given : List Routed) (a : Analysis) (s : Inner) (owner : AbstractionState),
      Orderly detour given a ∧ ⟨.inner s, detourWays⟩ ∈ given ∧ s.size = 2 ∧
      a.arena.get? s.owner = some owner ∧
      s.path.StandsFor detour.automaton owner.location owner.ssa s.location detourWays ∧
      (∃ (t pre : AbstractionState) (ways : List (List EdgeId)), a.arena.get? ⟨1⟩ = some t ∧
        t.block.StandsFor detour.automaton pre.location pre.ssa t.location ways ∧ ways ≠ [] ∧
        ∀ w ∈ ways, 1 ≤ w.length ∧ w.length ≤ 3) ∧
      a.statistics.maxBlockSize = 3 := by
  have hrun : ((Orderly.begin? detour ⟨0⟩).any fun x =>
      (detourCalls.foldlM (fun x c => Orderly.call? detour c x) x).any fun y =>
        y.2.statistics.maxBlockSize = 3 && (y.2.arena.get? ⟨1⟩).any (·.previous = some ⟨0⟩) &&
        y.1[1]?.any fun t =>
          t.ways = detourWays && t.state.owner? = some ⟨0⟩ && !t.state.isAbstraction) = true := by
    decide +kernel
  obtain ⟨⟨given₀, a₀⟩, hbegin, hrun⟩ := (Option.any_eq_true _ _).1 hrun
  obtain ⟨⟨given, a⟩, hcalls, hrun⟩ := (Option.any_eq_true _ _).1 hrun
  have hs := (Orderly.of_begin? hbegin).of_calls? hcalls
  simp only [Bool.and_eq_true, decide_eq_true_eq] at hrun
  obtain ⟨⟨hlargest, hstate⟩, hgiven⟩ := hrun
  obtain ⟨t, ht, hprevious⟩ := (Option.any_eq_true _ _).1 hstate
  obtain ⟨⟨s, ways⟩, hmem, hs'⟩ := (Option.any_eq_true _ _).1 hgiven
  simp only [Bool.and_eq_true, decide_eq_true_eq] at hs'
  obtain ⟨⟨rfl, howner⟩, hinner⟩ := hs'
  obtain ⟨hinside, hblocks, -⟩ := Orderly.blocks_bounded (by decide) rfl hs
  cases s with
  | top | bottom => cases howner
  | abstraction => cases hinner
  | inner s =>
    have hmem := List.mem_of_getElem? hmem
    obtain ⟨-, -, hlongest, owner, hget, hstands⟩ := hinside _ hmem s rfl
    obtain ⟨hnone, -⟩ | ⟨j, pre, ways, -, -, hblock, hne, hlengths⟩ := hblocks _ t ht
    · rw [of_decide_eq_true hprevious] at hnone
      cases hnone
    · exact ⟨by decide, rfl, given, a, s, owner, hs, hmem, longest_detourWays hlongest, hget, hstands,
        ⟨t, pre, ways, ht, hblock, hne, hlengths⟩, hlargest⟩

end Cegar

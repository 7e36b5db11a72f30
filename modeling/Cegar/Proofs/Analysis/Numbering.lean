import Cegar.Proofs.Analysis.Additions
import Cegar.Proofs.Cuts
import Mathlib.Data.List.Chain

/-!
# The numbering of blocks

The blocks on the way to a state are numbered without a break: each one continues the numbering at
the end of the one before it, reads what was written last there, and gives new writes new indices.
So what the blocks before a cut and those after it have in common is what was written last before
the cut.

* **`Arena.Linked`**: each block has grown from the numbering of its predecessor;
* **`PathFormula.Spans`**: the indices in a block lie between the numberings at its ends;
* **`Session.blocks_numbered`**: in a session the states are chained, their blocks are numbered this
  way, and cuts separate them.
-/

namespace Cegar

variable {A : Automaton} {p : Problem} {arena : Arena}

/-! ## Blocks that continue one another -/

namespace Arena

/-- A state without predecessor has an empty block; the block of any other state has grown from the
numbering of its predecessor. -/
def Linked (A : Automaton) (arena : Arena) : Prop :=
  ∀ i s, arena.get? i = some s → (s.previous = none ∧ s.block = .empty .empty) ∨
    ∃ j pre, s.previous = some j ∧ arena.get? j = some pre ∧ s.block.Grown A pre.ssa

/-- A new state continues the numbering of its predecessor. -/
theorem Linked.allocate (h : arena.Linked A) {l : Location} {e : Expr} {block : PathFormula}
    {previous : Option AbstractionId}
    (hnew : (previous = none ∧ block = .empty .empty) ∨
      ∃ j pre, previous = some j ∧ arena.get? j = some pre ∧ block.Grown A pre.ssa) :
    (arena.allocate l e block previous).2.Linked A := by
  have hext := arena.extends_allocate l e block previous
  refine forall_allocate (fun i s hs => ?_) ?_
  · exact (h i s hs).imp_right fun ⟨j, pre, hj, hpre, hgrown⟩ => ⟨j, pre, hj, hext _ _ hpre, hgrown⟩
  · exact hnew.imp_right fun ⟨j, pre, hj, hpre, hgrown⟩ => ⟨j, pre, hj, hext _ _ hpre, hgrown⟩

end Arena

/-- Whatever is added to an analysis, blocks continue the numbering of their predecessors. -/
theorem Analysis.Accrues.linked {a a' : Analysis} (h : a.Accrues A a')
    (hlinked : a.arena.Linked A) : a'.arena.Linked A := by
  induction h with
  | refl => exact hlinked
  | aside _ _ _ _ ih => exact ih
  | initial _ l ih => exact ih.allocate (.inl ⟨rfl, rfl⟩)
  | block _ howner hq l e ih => exact ih.allocate (.inr ⟨_, _, rfl, howner, hq⟩)

/-- In a session, blocks continue the numbering of their predecessors. -/
theorem Session.linked {given : List State} {a : Analysis} (h : Session p given a) :
    a.arena.Linked p.automaton := by
  induction h with
  | start h =>
    obtain ⟨solver, -, h⟩ := except_bind_ok.1 h
    cases h
    intro i s h
    simp [Arena.get?, Arena.empty] at h
  | @call _ _ _ _ op hsession hop h ih =>
    obtain ⟨ha, hgiven⟩ := hsession.legal
    rcases op.explores_or with hop' | ⟨precision, rfl⟩ | ⟨g, path, rfl⟩
    · exact (Operation.accrues_run hop' ha (fun s hs => hgiven s (hop s hs)) h).linked ih
    · obtain ⟨_, a₁, hmod, h⟩ := state_bind_ok.1 h
      cases state_modify_ok.1 hmod
      cases state_pure_ok.1 h
      exact ih
    · obtain ⟨r, a₁, hr, h⟩ := state_bind_ok.1 h
      cases state_pure_ok.1 h
      rw [(Analysis.refine_spares ha.rest hr).arena]
      exact ih

/-! ## Traces -/

namespace Arena

/-- What is known of the trace already is put at the end. -/
theorem traceWithin_append (arena : Arena) (n : Nat) (i : AbstractionId)
    (rest : List AbstractionId) :
    arena.traceWithin n i rest = arena.traceWithin n i [] ++ rest := by
  induction n generalizing i rest with
  | zero => rfl
  | succ n ih =>
    unfold traceWithin
    split
    · next j _ => rw [ih j (i :: rest), ih j [i], List.append_assoc, List.singleton_append]
    · rfl

/-- There are not more predecessors than older states. -/
theorem Chained.traceWithin_eq (h : arena.Chained) {n m : Nat} {i : AbstractionId}
    (hn : i.idx ≤ n) (hm : i.idx ≤ m) : arena.traceWithin n i [] = arena.traceWithin m i [] := by
  -- the state that has no older one has no predecessor either, so the bound is not used up
  have hlt {i j : AbstractionId} (hj : (arena.get? i).bind (·.previous) = some j) :
      j.idx < i.idx := by
    obtain ⟨s, hs, hprevious⟩ := Option.bind_eq_some_iff.1 hj
    exact h i s hs j hprevious
  induction n generalizing i m with
  | zero =>
    cases m with
    | zero => rfl
    | succ m =>
      rw [traceWithin, traceWithin]
      split
      · next j hj => exact absurd (hlt hj) (by omega)
      · rfl
  | succ n ih =>
    cases m with
    | zero =>
      rw [traceWithin, traceWithin]
      split
      · next j hj => exact absurd (hlt hj) (by omega)
      · rfl
    | succ m =>
      rw [traceWithin, traceWithin]
      split
      · next j hj =>
        have hji := hlt hj
        rw [traceWithin_append arena n, traceWithin_append arena m,
          ih (m := m) (by omega) (by omega)]
      · rfl

variable {i j : AbstractionId} {s : AbstractionState}

theorem trace_of_none (hget : arena.get? i = some s) (hprevious : s.previous = none) :
    arena.trace i = [i] := by
  obtain ⟨n, hn⟩ := Nat.exists_eq_add_of_lt (Arena.lt_size_of_get? hget)
  rw [trace, hn, traceWithin, hget, Option.bind_some, hprevious]

/-- The trace of a state is that of its predecessor and the state. -/
theorem Chained.trace_of_some (h : arena.Chained) (hget : arena.get? i = some s)
    (hprevious : s.previous = some j) : arena.trace i = arena.trace j ++ [i] := by
  have hji := h i s hget j hprevious
  have hi := Arena.lt_size_of_get? hget
  obtain ⟨n, hn⟩ := Nat.exists_eq_succ_of_ne_zero (show arena.size ≠ 0 by omega)
  have hwithin : arena.trace i = arena.traceWithin n j [i] := by
    rw [trace, hn, traceWithin, hget, Option.bind_some, hprevious]
  rw [hwithin, traceWithin_append, trace,
    h.traceWithin_eq (m := arena.size) (show j.idx ≤ n by omega) (by omega)]

/-- The trace of a state is a chain of predecessors that ends in the state, has older states before
younger ones and begins with an initial state. -/
structure Traces (arena : Arena) (i : AbstractionId) : Prop where
  ascending : (arena.trace i).Pairwise (·.idx < ·.idx)
  linked : (arena.trace i).IsChain fun j k => ∃ s, arena.get? k = some s ∧ s.previous = some j
  last : (arena.trace i).getLast? = some i
  first : ∃ j s, (arena.trace i).head? = some j ∧ arena.get? j = some s ∧ s.previous = none ∧
    s.block = .empty .empty

/-- What holds of initial states, and of a state if it holds of its predecessor. -/
theorem Linked.induction (hlinked : arena.Linked A) (hchained : arena.Chained)
    {R : AbstractionId → AbstractionState → Prop}
    (initial : ∀ i s, arena.get? i = some s → s.previous = none → s.block = .empty .empty → R i s)
    (step : ∀ i s j pre, arena.get? i = some s → s.previous = some j → arena.get? j = some pre →
      s.block.Grown A pre.ssa → R j pre → R i s)
    (hget : arena.get? i = some s) : R i s := by
  induction hn : i.idx using Nat.strong_induction_on generalizing i s with
  | _ n ih =>
    subst hn
    obtain ⟨hprevious, hblock⟩ | ⟨j, pre, hprevious, hpre, hgrown⟩ := hlinked i s hget
    · exact initial i s hget hprevious hblock
    · exact step i s j pre hget hprevious hpre hgrown
        (ih j.idx (hchained i s hget j hprevious) hpre rfl)

/-- Predecessors are older, so the trace ends in an initial state. -/
theorem Linked.traces (hlinked : arena.Linked A) (hchained : arena.Chained)
    (hget : arena.get? i = some s) : arena.Traces i := by
  refine hlinked.induction hchained (R := fun i _ => arena.Traces i) ?_ ?_ hget
  · intro i s hget hprevious hblock
    have htrace := trace_of_none hget hprevious
    refine ⟨?_, ?_, ?_, i, s, ?_, hget, hprevious, hblock⟩ <;> simp [htrace]
  · intro i s j pre hget hprevious hpre _ ih
    have htrace := hchained.trace_of_some hget hprevious
    obtain ⟨first, t, hfirst, hinitial⟩ := ih.first
    have hlinked' : (arena.trace i).IsChain
        fun j k => ∃ s, arena.get? k = some s ∧ s.previous = some j := by
      rw [htrace, List.isChain_append]
      refine ⟨ih.linked, List.isChain_singleton i, fun k hk l hl => ?_⟩
      rw [ih.last] at hk
      cases hk
      cases hl
      exact ⟨s, hget, hprevious⟩
    -- each predecessor is older than what comes after it
    have hascending := hlinked'.imp (S := fun j k => j.idx < k.idx)
      fun j k ⟨t, ht, hj⟩ => hchained k t ht j hj
    refine ⟨hascending.pairwise, hlinked', by rw [htrace, List.getLast?_concat], first, t, ?_,
      hinitial⟩
    rw [htrace, List.head?_append, hfirst]
    rfl

/-- The blocks on the way to an abstraction state. -/
def blocks (arena : Arena) (i : AbstractionId) : List PathFormula :=
  (arena.trace i).filterMap fun j => (arena.get? j).map (·.block)

/-- The numbering at the start of the block that ends in an abstraction state. -/
def start (arena : Arena) (s : AbstractionState) : SsaMap :=
  ((s.previous.bind arena.get?).map (·.ssa)).getD .empty

end Arena

/-! ## Windows of indices -/

/-- The block continues the numbering `m`: no index goes back, and each variable of the formula has
an index between those at the start of the block and at its end. -/
structure PathFormula.Spans (m : SsaMap) (b : PathFormula) : Prop where
  le : m ≤ b.ssa
  window : ∀ v ∈ b.formula.vars,
    ∃ i, v.index = some i ∧ m.index v.name ≤ i ∧ i ≤ b.ssa.index v.name

/-- A block that has grown from a numbering continues it. -/
theorem PathFormula.Grown.spans {m : SsaMap} {b : PathFormula} (hA : A.Within fun _ => True)
    (h : b.Grown A m) : b.Spans m := by
  refine ⟨h.le, fun v hv => ?_⟩
  obtain ⟨i, hi, hlow⟩ := h.since hA v hv
  obtain ⟨j, hj, hhigh⟩ := h.seen hA v hv
  cases hi.symm.trans hj
  exact ⟨i, hi, hlow, hhigh⟩

theorem PathFormula.spans_empty (m : SsaMap) : (PathFormula.empty m).Spans m :=
  ⟨SsaMap.le_refl m, fun v hv => by simp [PathFormula.empty] at hv⟩

/-- Blocks that are numbered one after the other, with the numbering at their end. -/
inductive Consecutive : List PathFormula → SsaMap → Prop
  | nil : Consecutive [] .empty
  | snoc {bs : List PathFormula} {m : SsaMap} {b : PathFormula} (h : Consecutive bs m)
      (hb : b.Spans m) : Consecutive (bs ++ [b]) b.ssa

namespace Consecutive

variable {bs cs : List PathFormula} {b cut : PathFormula} {m : SsaMap}

/-- No block has a larger index than there is at the end. -/
theorem le (h : Consecutive bs m) (hb : b ∈ bs) : b.ssa ≤ m := by
  induction h with
  | nil => cases hb
  | snoc _ hspans ih =>
    rcases List.mem_append.1 hb with hb | hb
    · exact SsaMap.le_trans (ih hb) hspans.le
    · rw [List.mem_singleton.1 hb]
      exact SsaMap.le_refl _

/-- The last block gives the numbering, and continues that of the blocks before it. -/
theorem of_snoc (h : Consecutive (bs ++ [b]) m) :
    m = b.ssa ∧ ∃ n, Consecutive bs n ∧ b.Spans n := by
  generalize hall : bs ++ [b] = all at h
  cases h with
  | nil => simp at hall
  | snoc h hb =>
    obtain ⟨rfl, hlast⟩ := List.append_inj' hall rfl
    cases hlast
    exact ⟨rfl, _, h, hb⟩

/-- The first blocks of a sequence are one themselves. -/
theorem of_append (h : Consecutive (bs ++ b :: cs) m) : Consecutive (bs ++ [b]) b.ssa := by
  induction cs using List.reverseRecOn generalizing m with
  | nil =>
    obtain ⟨rfl, -⟩ := h.of_snoc
    exact h
  | append_singleton cs c ih =>
    rw [← List.cons_append, ← List.append_assoc] at h
    obtain ⟨-, n, h, -⟩ := h.of_snoc
    exact ih h

/-- Every block continues the numbering at the end of those before it. -/
theorem exists_spans (h : Consecutive (bs ++ b :: cs) m) : ∃ n, Consecutive bs n ∧ b.Spans n :=
  h.of_append.of_snoc.2

/-- Blocks on the two sides of a cut share variables with the indices that are the latest ones at
the cut. -/
theorem shares (h : Consecutive (bs ++ cut :: cs) m) (hb : b ∈ bs ++ [cut]) {c : PathFormula}
    (hc : c ∈ cs) {v : Var} (hv : v ∈ b.formula.vars) (hv' : v ∈ c.formula.vars) :
    v.index = some (cut.ssa.index v.name) := by
  have hbefore : b.ssa ≤ cut.ssa := h.of_append.le hb
  obtain ⟨cs, cs', rfl⟩ := List.append_of_mem hc
  rw [← List.cons_append, ← List.append_assoc] at h
  obtain ⟨n, hn, hspans⟩ := h.exists_spans
  have hafter : cut.ssa ≤ n := hn.le (by simp)
  obtain ⟨bs', cs'', hsplit⟩ := List.append_of_mem hb
  obtain ⟨n', -, hspans'⟩ := exists_spans (hsplit ▸ hn.of_append)
  -- the index is not above the latest one at the cut, and not below it
  obtain ⟨i, hi, -, hhigh⟩ := hspans'.window v hv
  obtain ⟨j, hj, hlow, -⟩ := hspans.window v hv'
  cases hi.symm.trans hj
  have hle : i ≤ cut.ssa.index v.name := UInt32.le_trans hhigh (hbefore v.name)
  have hge : cut.ssa.index v.name ≤ i := UInt32.le_trans (hafter v.name) hlow
  rw [hi, UInt32.le_antisymm hle hge]

end Consecutive

variable {i : AbstractionId} {s : AbstractionState}

/-- The blocks on the way to a state are numbered one after the other. -/
theorem Arena.Linked.consecutive (hA : A.Within fun _ => True) (hlinked : arena.Linked A)
    (hchained : arena.Chained) (hget : arena.get? i = some s) :
    Consecutive (arena.blocks i) s.ssa := by
  refine hlinked.induction hchained (R := fun i s => Consecutive (arena.blocks i) s.ssa) ?_ ?_ hget
  · intro i s hget hprevious hblock
    have hblocks : arena.blocks i = [] ++ [s.block] := by
      simp [blocks, trace_of_none hget hprevious, hget]
    rw [hblocks]
    exact .snoc .nil (hblock ▸ PathFormula.spans_empty .empty)
  · intro i s j pre hget hprevious hpre hgrown ih
    have hblocks : arena.blocks i = arena.blocks j ++ [s.block] := by
      simp [blocks, hchained.trace_of_some hget hprevious, hget]
    rw [hblocks]
    exact ih.snoc (hgrown.spans hA)

/-- The block of a state continues the numbering of its predecessor. -/
theorem Arena.Linked.spans (hA : A.Within fun _ => True) (hlinked : arena.Linked A)
    (hget : arena.get? i = some s) : s.block.Spans (arena.start s) := by
  obtain ⟨hprevious, hblock⟩ | ⟨j, pre, hprevious, hpre, hgrown⟩ := hlinked i s hget
  · rw [start, hprevious, hblock]
    exact PathFormula.spans_empty .empty
  · rw [start, hprevious, Option.bind_some, hpre]
    exact hgrown.spans hA

/-- The blocks on the way to a state; a state inside a block has part of that block after them. -/
def State.blocks (arena : Arena) : State → List PathFormula
  | .top | .bottom => []
  | .abstraction id => arena.blocks id
  | .inner s => arena.blocks s.owner ++ [s.path]

/-- The blocks on the way to a state of a session, the unfinished one among them, are numbered one
after the other. -/
theorem State.Legal.consecutive (hA : A.Within fun _ => True) (hlinked : arena.Linked A)
    (hchained : arena.Chained) {s : State} (h : s.Legal A arena) :
    ∃ m, Consecutive (s.blocks arena) m := by
  cases s with
  | top | bottom => exact ⟨_, .nil⟩
  | abstraction id =>
    obtain ⟨t, ht⟩ := h
    exact ⟨_, hlinked.consecutive hA hchained ht⟩
  | inner s =>
    obtain ⟨owner, howner, hgrown⟩ := h
    exact ⟨_, (hlinked.consecutive hA hchained howner).snoc (hgrown.spans hA)⟩

/-- In a session over a program without indices every abstraction state continues an older one or is
initial, its abstraction is without indices, and the indices of its block lie between the
numberings of its predecessor and its own. So do the indices of a state inside a block. Blocks that
are separated by a cut share variables with the latest indices at the cut only. -/
theorem Session.blocks_numbered {given : List State} {a : Analysis} (h : Session p given a)
    (hA : ∀ edge ∈ p.automaton.edges, ∀ e ∈ edge.statement.exprs, ∀ v ∈ e.vars, v.index = none) :
    (∀ i s, a.arena.get? i = some s →
      (∀ j, s.previous = some j → j.idx < i.idx) ∧ a.arena.Traces i ∧ s.Unindexed ∧
        s.block.Spans (a.arena.start s)) ∧
    (∀ s, .inner s ∈ given →
      ∃ owner, a.arena.get? s.owner = some owner ∧ s.path.Spans owner.ssa) ∧
    ∀ s : State, (s ∈ given ∨ ∃ i t, s = .abstraction i ∧ a.arena.get? i = some t) →
      ∀ before cut after, s.blocks a.arena = before ++ cut :: after →
        ∀ b ∈ before ++ [cut], ∀ c ∈ after, ∀ v ∈ b.formula.vars, v ∈ c.formula.vars →
          v.index = some (cut.ssa.index v.name) := by
  obtain ⟨ha, hgiven⟩ := h.legal
  have hwithin : p.automaton.Within fun _ => True :=
    ⟨fun edge hedge e he v hv => ⟨hA edge hedge e he v hv, trivial⟩, fun _ _ _ _ _ _ => trivial⟩
  have hlinked := h.linked
  have hchained := h.anchored.chained
  refine ⟨fun i s hget => ?_, fun s hs => ?_, fun s hs before cut after hblocks b hb c hc v hv => ?_⟩
  · exact ⟨hchained i s hget, hlinked.traces hchained hget, (ha.arena.state i s hget).unindexed,
      hlinked.spans hwithin hget⟩
  · obtain ⟨owner, howner, hgrown⟩ := hgiven _ hs
    exact ⟨owner, howner, hgrown.spans hwithin⟩
  · have hlegal : s.Legal p.automaton a.arena := by
      rcases hs with hs | ⟨i, t, rfl, hget⟩
      · exact hgiven s hs
      · exact ⟨t, hget⟩
    obtain ⟨m, hconsecutive⟩ := hlegal.consecutive hwithin hlinked hchained
    rw [hblocks] at hconsecutive
    exact hconsecutive.shares hb hc hv

/-! ## Counting up twice -/

/-- Counts `x` up twice and copies it to `y`. Blocks have two edges. -/
def incrementing : Problem where
  automaton := {
    nodes := #[.entryOf "main", .plain "main", .plain "main", .plain "main"]
    edges :=
      #[⟨⟨0⟩, ⟨1⟩, .assign varX (.arith .add varX (.num 1))⟩,
        ⟨⟨1⟩, ⟨2⟩, .assign varX (.arith .add varX (.num 1))⟩,
        ⟨⟨2⟩, ⟨3⟩, .assign varY varX⟩]
    entry := ⟨0⟩
    joins := by decide }
  options := { blockSize := 2 }

/-- Both increments. -/
def incrementingBlock : Expr :=
  let x (i : UInt32) : Expr := .var ⟨"x", .int, some i⟩
  .logic .and (.eq (x 1) (.arith .add (x 0) (.num 1))) (.eq (x 2) (.arith .add (x 1) (.num 1)))

/-- The copy, after both increments. -/
def incrementingCopy : Expr := .eq (.var ⟨"y", .int, some 1⟩) (.var ⟨"x", .int, some 2⟩)

theorem Session.blocks_numbered_incrementing :
    ∃ (given : List State) (a : Analysis) (s : State) (b c d : PathFormula),
      Session incrementing given a ∧ s ∈ given ∧ s.blocks a.arena = [b, c, d] ∧
      c.formula = incrementingBlock ∧ d.formula = incrementingCopy ∧ c.ssa.index "x" = 2 := by
  have hrun : ((Session.begin? incrementing ⟨0⟩).any fun b =>
      (Session.walk? incrementing (.empty incrementing.options.toPolicy) [⟨0⟩, ⟨1⟩, ⟨2⟩] b.1 b.2).any
        fun c => (c.1.blocks c.2.arena).map (·.formula) =
          [.bool true, incrementingBlock, incrementingCopy]) = true := by
    decide +kernel
  obtain ⟨⟨s₀, a₀⟩, hbegin, hrun⟩ := (Option.any_eq_true _ _).1 hrun
  obtain ⟨⟨s, a⟩, hwalk, hrun⟩ := (Option.any_eq_true _ _).1 hrun
  obtain ⟨given₀, hsession₀, hs₀⟩ := Session.of_begin? hbegin
  obtain ⟨given, hsession, hs, -⟩ := hsession₀.of_walk? hs₀ hwalk
  obtain ⟨b, bs, hbs, -, hrest⟩ := List.map_eq_cons_iff.1 (of_decide_eq_true hrun)
  obtain ⟨c, cs, rfl, hc, hrest⟩ := List.map_eq_cons_iff.1 hrest
  obtain ⟨d, ds, rfl, hd, hrest⟩ := List.map_eq_cons_iff.1 hrest
  obtain rfl := List.map_eq_nil_iff.1 hrest
  have hA : incrementing.automaton.WellFormed := by decide +kernel
  obtain ⟨-, -, hshares⟩ := Session.blocks_numbered hsession fun edge hedge e he v hv =>
    hA.vocabulary.toPlain.unindexed v ((hA.overVars hedge).vars e he v hv)
  have hshared := hshares s (.inl hs) [b] c [d] hbs c (by simp) d (by simp) ⟨"x", .int, some 2⟩
    (by rw [hc]; decide +kernel) (by rw [hd]; decide +kernel)
  exact ⟨given, a, s, b, c, d, hsession, hs, hbs, hc, hd, (Option.some.inj hshared).symm⟩

end Cegar

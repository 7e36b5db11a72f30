import Cegar.Proofs.Analysis.Succession

/-!
# What is covered is included

Coverage is decided in four ways: by comparing states, by looking up which states were merged, and
by asking the solver about abstractions, with indices or without. Whatever way is taken, and whatever
calls came before, the covering state denotes all that the covered one denotes.

* **`Session.accounted`**: in a session, what a state remembers as its inputs was merged into it;
* **`Analysis.covers_includes`**: a state that covers another one includes it, if the solver was
  right in the call and the covering abstraction is well-sorted;
* **`Analysis.covers_excludes_isMixed`**: an abstraction that has no value may cover more than it
  includes.
-/

namespace Cegar

variable {A : Automaton} {P : Var → Prop} {p : Problem} {arena arena' : Arena} {σ : Store}

/-! ## Abstractions without indices -/

/-- With indices, an expression holds in a model if it holds in the store that is read there. -/
theorem Expr.holds_indexed {e : Expr} {m : SsaMap} {V : Store} :
    (e.indexed m).Holds V ↔ e.Holds (V.after m) :=
  holds_mapVars m.ty_stamp

namespace AbstractionState

variable {s : AbstractionState}

/-- The abstraction is satisfied by a store that looks the same. -/
def Admits (P : Var → Prop) (s : AbstractionState) (σ : Store) : Prop :=
  ∃ τ : Store, s.abstraction.Holds τ ∧ ∀ v, P v → τ.val v = σ.val v

/-- The numbering of an abstraction state does not matter for what it denotes. -/
theorem admits_iff (hP : ∀ v, P v → v.index = none) (hs : s.Unindexed) :
    s.Admits P σ ↔ ∃ V, s.formula.Holds V ∧ Env.Reads P V s.ssa σ := by
  constructor
  -- all versions of a variable have the value of the variable
  · rintro ⟨τ, hτ, hlook⟩
    have hspread {v : Var} (hv : v.index = none) : τ.spread.val (s.ssa.stamp v) = τ.val v := by
      show τ.val (s.ssa.stamp v).unindexed = τ.val v
      rw [SsaMap.unindexed_stamp hv]
    refine ⟨τ.spread, Expr.holds_indexed.2 ?_, fun v hv => ?_⟩
    · exact (Expr.holds_congr fun v hv => hspread (hs v hv)).2 hτ
    · rw [hspread (hP v hv), hlook v hv]
  · rintro ⟨V, hV, hr⟩
    exact ⟨V.after s.ssa, Expr.holds_indexed.1 hV, hr⟩

end AbstractionState

/-! ## What was merged into a state -/

/-- What the state remembers as its inputs was merged into it. -/
def Inner.Accounted (A : Automaton) (arena : Arena) (s : Inner) : Prop :=
  ∀ u v, s.inputs = some (u, v) → s.toSegment = (Inner.merge u v).toSegment ∧ u.owner = v.owner ∧
    u.Legal A arena ∧ v.Legal A arena

def State.Accounted (A : Automaton) (arena : Arena) : State → Prop
  | .inner s => s.Accounted A arena
  | .top | .bottom | .abstraction _ => True

/-- What was merged stays so when abstraction states are added. -/
theorem State.Accounted.mono {s : State} (h : s.Accounted A arena) (hext : arena.Extends arena') :
    s.Accounted A arena' := by
  cases s with
  | top | bottom | abstraction => trivial
  | inner s =>
    intro u v hinputs
    obtain ⟨hmerge, howner, hu, hv⟩ := h u v hinputs
    have hlegal {w : Segment} (hw : w.Legal A arena) : w.Legal A arena' := by
      obtain ⟨owner, hget, hgrown⟩ := hw
      exact ⟨owner, hext _ _ hget, hgrown⟩
    exact ⟨hmerge, howner, hlegal hu, hlegal hv⟩

/-- A successor comes from no merging. -/
theorem State.Succeeds.accounted {policy : Policy} {s t : State} {e : EdgeId}
    (h : s.Succeeds p policy arena e t) : t.Accounted A arena := by
  cases h with
  | inner =>
    intro u v hinputs
    cases hinputs
  | abstraction => trivial

/-- A state includes what was merged into it. -/
theorem Inner.Accounted.denotes (hP : ∀ v, P v → v.index = none) (hA : A.Within fun _ => True)
    (harena : arena.Legal A) {t : Inner} (ht : t.Accounted A arena) {s : Segment}
    (h : t.absorbs s = true) (hσ : s.Denotes P arena σ) : t.toSegment.Denotes P arena σ := by
  unfold absorbs at h
  split at h
  · next u v hinputs =>
    obtain ⟨hmerge, howner, ⟨owner, hget, hu⟩, owner', hget', hv⟩ := ht u v hinputs
    have hsame : owner' = owner := by
      rw [← howner, hget] at hget'
      exact (Option.some.inj hget').symm
    subst hsame
    have hunindexed := (harena.state _ _ hget).unindexed
    rw [hmerge]
    simp only [Bool.or_eq_true, decide_eq_true_eq] at h
    rcases h with rfl | rfl
    · obtain ⟨W, hW, hleads⟩ := (Segment.denotes_iff hget hunindexed).1 hσ
      exact (Segment.denotes_iff (s := (Inner.merge u v).toSegment) hget hunindexed).2
        ⟨W, hW, PathFormula.leadsTo_or_left hP (hu.seen hA).bounded hu.le hleads⟩
    · obtain ⟨W, hW, hleads⟩ := (Segment.denotes_iff hget' hunindexed).1 hσ
      exact (Segment.denotes_iff (s := (Inner.merge u v).toSegment) hget hunindexed).2
        ⟨W, hW, PathFormula.leadsTo_or_right hP (hv.seen hA).bounded hv.le hleads⟩
  · cases h

/-- One call returns states that are accounted for. -/
theorem Operation.accounted_run {op : Operation} {a a' : Analysis} (ha : a.Legal p.automaton)
    (hop : ∀ s ∈ op.states, s.Legal p.automaton a.arena)
    (hop' : ∀ s ∈ op.states, s.Accounted p.automaton a.arena) {ss : List State}
    (h : op.run p a = .ok (ss, a')) : ∀ s ∈ ss, s.Accounted p.automaton a'.arena := by
  cases op with
  | initialState l =>
    obtain ⟨s, a₁, hs, h⟩ := state_bind_ok.1 h
    cases state_pure_ok.1 h
    obtain ⟨id, -, rfl, -⟩ | ⟨-, rfl, -⟩ := Analysis.initialState_cases hs
    · exact List.forall_mem_singleton.2 trivial
    · exact List.forall_mem_singleton.2 trivial
  | setPrecision precision =>
    obtain ⟨_, a₁, -, h⟩ := state_bind_ok.1 h
    cases state_pure_ok.1 h
    simp
  | successor precision s e =>
    obtain ⟨r, a₁, hr, h⟩ := state_bind_ok.1 h
    cases r with
    | ok o =>
      cases state_pure_ok.1 h
      intro t ht
      obtain rfl := Option.mem_toList.1 ht
      exact (Analysis.successor_succeeds ha (hop s (by simp [states])) hr).accounted
    | error x =>
      cases state_pure_ok.1 h
      simp
  | successors precision s =>
    obtain ⟨r, a₁, hr, h⟩ := state_bind_ok.1 h
    cases r with
    | ok rs =>
      cases state_pure_ok.1 h
      intro t ht
      obtain ⟨⟨e, t⟩, hmem, rfl⟩ := List.mem_map.1 ht
      exact (Analysis.mem_successors ha (hop s (by simp [states])) hr e t hmem).1.accounted
    | error x =>
      cases state_pure_ok.1 h
      simp
  | merge s t =>
    obtain ⟨m, a₁, hm, h⟩ := state_bind_ok.1 h
    cases state_pure_ok.1 h
    obtain ⟨r, a₁, hr, hm⟩ := state_bind_ok.1 hm
    cases state_pure_ok.1 hm
    obtain ⟨rfl, rfl⟩ | ⟨u, v, cache, statistics, rfl, rfl, howner, -, -, rfl, rfl, -, -⟩ :=
      Analysis.merge?_cases ha.cache hr
    · exact List.forall_mem_singleton.2 (hop' t (by simp [states]))
    · refine List.forall_mem_singleton.2 fun u' v' hinputs => ?_
      cases hinputs
      exact ⟨rfl, howner, hop (.inner u) (by simp [states]), hop (.inner v) (by simp [states])⟩
  | join s t =>
    cases state_pure_ok.1 h
    refine List.forall_mem_singleton.2 ?_
    unfold State.join
    split
    · exact hop' _ (by simp [states])
    · exact hop' _ (by simp [states])
    · trivial
  | covers s t =>
    obtain ⟨b, a₁, hb, h⟩ := state_bind_ok.1 h
    cases state_pure_ok.1 h
    simp
  | refine g path =>
    obtain ⟨r, a₁, hr, h⟩ := state_bind_ok.1 h
    cases state_pure_ok.1 h
    simp

/-- In a session, what a state remembers as its inputs was merged into it. -/
theorem Session.accounted {given : List State} {a : Analysis} (h : Session p given a) :
    ∀ s ∈ given, s.Accounted p.automaton a.arena := by
  induction h with
  | start h =>
    intro s hs
    simp only [List.mem_cons, List.not_mem_nil, or_false] at hs
    rcases hs with rfl | rfl <;> trivial
  | call hsession hop h ih =>
    obtain ⟨ha, hgiven⟩ := hsession.legal
    have hlegal := fun s hs => hgiven s (hop s hs)
    obtain ⟨hproceeds, -⟩ := Operation.legal_run ha hlegal h
    intro s hs
    rcases List.mem_append.1 hs with hs | hs
    · exact Operation.accounted_run ha hlegal (fun s hs => ih s (hop s hs)) h s hs
    · exact (ih s hs).mono hproceeds.arena

/-! ## Coverage -/

/-- The abstraction of an abstraction state is a formula, which predicates are if they are
well-sorted. -/
def State.Sorted (arena : Arena) : State → Prop
  | .abstraction id => ∀ s, arena.get? id = some s → s.abstraction.IsFormula fun _ => True
  | .top | .bottom | .inner _ => True

namespace Analysis

variable {a a' : Analysis} {given : List State}

/-- An implication that is known from the solver holds of all stores. -/
theorem consult_implied (hrest : a.solver.scopes = [[]]) {c d : Expr}
    (hd : d.IsFormula fun _ => True) (h : consult (implied c d) a = .ok (true, a')) :
    ∃ new, a'.solver.transcript = new ++ a.solver.transcript ∧
      (Cegar.Truthful new → ∀ V : Store, c.Holds V → d.Holds V) := by
  obtain ⟨solver, hsolver, rfl⟩ := consult_cases h
  obtain ⟨new, hrests, -, hsound⟩ := implied_asks c d a.solver true solver hrest hsolver
  exact ⟨new, hrests.transcript, fun ht => hsound ht rfl hd⟩

/-- A state that covers another one denotes all that the other one denotes. The program may have any
statements without indices, and any calls may have come before. The solver has to be right whenever
it answered `unsat` in the call, and a covering abstraction has to be well-sorted. -/
theorem covers_includes (hP : ∀ v, P v → v.index = none)
    (hA : ∀ edge ∈ p.automaton.edges, ∀ e ∈ edge.statement.exprs, ∀ v ∈ e.vars, v.index = none)
    (hsession : Session p given a) {s t : State} (hs : s ∈ given) (ht : t ∈ given)
    (hsorted : t.Sorted a.arena) (h : covers p s t a = .ok (true, a')) :
    ∃ new, a'.solver.transcript = new ++ a.solver.transcript ∧
      (Cegar.Truthful new → ∀ σ, s.Denotes P a.arena σ → t.Denotes P a.arena σ) := by
  obtain ⟨ha, hgiven⟩ := hsession.legal
  have hwithin : p.automaton.Within fun _ => True :=
    ⟨fun edge hedge e he v hv => ⟨hA edge hedge e he v hv, trivial⟩, fun _ _ _ _ _ _ => trivial⟩
  unfold covers at h
  split at h
  · cases state_pure_ok.1 h
    exact ⟨[], rfl, fun _ σ hσ => hσ.elim⟩
  · cases state_pure_ok.1 h
    exact ⟨[], rfl, fun _ _ _ => trivial⟩
  · cases state_pure_ok.1 h
  · cases state_pure_ok.1 h
  · next i j =>
    split at h
    · next hij =>
      cases state_pure_ok.1 h
      exact ⟨[], rfl, fun _ σ hσ => hij ▸ hσ⟩
    -- abstractions are compared without indices, as the numberings of the two may differ
    · obtain ⟨u, a₁, hu, h₁⟩ := state_bind_ok.1 h
      obtain ⟨hgetu, rfl⟩ := abstractionState_ok.1 hu
      obtain ⟨v, a₁, hv, h₂⟩ := state_bind_ok.1 h₁
      obtain ⟨hgetv, rfl⟩ := abstractionState_ok.1 hv
      have huplain := (ha.arena.state _ _ hgetu).unindexed
      have hvplain := (ha.arena.state _ _ hgetv).unindexed
      obtain ⟨new, hnew, himplied⟩ := consult_implied ha.rest (hsorted v hgetv) h₂
      refine ⟨new, hnew, ?_⟩
      rintro htruthful σ ⟨u', hu', hσ⟩
      cases hgetu.symm.trans hu'
      obtain ⟨τ, hτ, hlook⟩ := (AbstractionState.admits_iff hP huplain).2 hσ
      exact ⟨v, hgetv, (AbstractionState.admits_iff hP hvplain).1
        ⟨τ, himplied htruthful τ hτ, hlook⟩⟩
  · next s j =>
    split at h
    · cases state_pure_ok.1 h
    -- the covering abstraction is read at the end of the covered path
    · obtain ⟨u, a₁, hu, h₁⟩ := state_bind_ok.1 h
      obtain ⟨hgetu, rfl⟩ := abstractionState_ok.1 hu
      obtain ⟨v, a₁, hv, h₂⟩ := state_bind_ok.1 h₁
      obtain ⟨hgetv, rfl⟩ := abstractionState_ok.1 hv
      have hvplain := (ha.arena.state _ _ hgetv).unindexed
      have hformula : (v.abstraction.indexed s.path.ssa).IsFormula fun _ => True :=
        (hsorted v hgetv).mapVars s.path.ssa.ty_stamp fun _ _ => trivial
      obtain ⟨new, hnew, himplied⟩ := consult_implied ha.rest hformula h₂
      refine ⟨new, hnew, ?_⟩
      rintro htruthful σ ⟨u', hu', V, hVu, hVs, hr⟩
      cases hgetu.symm.trans hu'
      have hcover := himplied htruthful V (Expr.holds_and.2 ⟨hVu, hVs⟩)
      exact ⟨v, hgetv, (AbstractionState.admits_iff hP hvplain).1
        ⟨V.after s.path.ssa, Expr.holds_indexed.1 hcover, hr⟩⟩
  · cases state_pure_ok.1 h
  · next s t =>
    obtain ⟨hanswer, hunchanged⟩ := Prod.mk.inj (state_pure_ok.1 h)
    refine ⟨[], by rw [hunchanged]; rfl, fun _ σ hσ => ?_⟩
    have hcovered : s.toSegment = t.toSegment ∨ t.absorbs s.toSegment = true := by
      simpa using hanswer.symm
    rcases hcovered with hsame | habsorbs
    · show t.toSegment.Denotes P a.arena σ
      rw [← hsame]
      exact hσ
    · have haccounted : t.Accounted p.automaton a.arena := hsession.accounted _ ht
      exact haccounted.denotes hP hwithin ha.arena habsorbs hσ

/-! ## Two writes -/

/-- Assigns the largest number to `x`, or zero. Every block has one edge. -/
def twoWrites : Problem where
  automaton := {
    nodes := #[.entryOf "main", .plain "main"]
    edges :=
      #[⟨⟨0⟩, ⟨1⟩, .assign varX (.num (.clamp Int128.maxVal))⟩, ⟨⟨0⟩, ⟨1⟩, .assign varX (.num 0)⟩]
    entry := ⟨0⟩
    joins := by decide }
  options := { blockSize := 1 }

/-- Whether the state is after the write and has this abstraction. -/
def hasAbstraction (arena : Arena) (e : Expr) : State → Bool
  | .abstraction id => (arena.get? id).any fun s => s.location = ⟨1⟩ && s.abstraction = e
  | _ => false

/-- The state is after the write, and it is an abstraction state with this abstraction. -/
theorem hasAbstraction_eq_true {e : Expr} {s : State} (h : hasAbstraction arena e s = true) :
    s.location? arena = .ok (some ⟨1⟩) ∧
      ∃ id u, s = .abstraction id ∧ arena.get? id = some u ∧ u.abstraction = e := by
  cases s with
  | top | bottom | inner => cases h
  | abstraction id =>
    obtain ⟨u, hget, hu⟩ := (Option.any_eq_true _ _).1 h
    simp only [Bool.and_eq_true, decide_eq_true_eq] at hu
    have hlocation : State.location? arena (.abstraction id) = .ok (some u.location) := by
      simp only [State.location?, Arena.get, hget]
      rfl
    exact ⟨by rw [hlocation, hu.1], id, u, rfl, hget, hu.2⟩

/-- Whether the state after the first write, abstracted by one predicate, is covered by the state
after the second write, abstracted by the other one, with a question to the solver. -/
def coversWrite (q r : Predicate) : Bool :=
  (Session.begin? twoWrites ⟨0⟩).any fun b =>
    (Session.walk? twoWrites (.ofGlobal twoWrites.options.toPolicy [q]) [⟨0⟩] b.1 b.2).any fun c =>
      (Session.walk? twoWrites (.ofGlobal twoWrites.options.toPolicy [r]) [⟨1⟩] b.1 c.2).any fun d =>
        hasAbstraction d.2.arena q.expr c.1 && hasAbstraction d.2.arena r.expr d.1 &&
        (covers twoWrites c.1 d.1 d.2).toOption.any fun f => f.1 &&
          f.2.solver.transcript.length = d.2.solver.transcript.length + 1 &&
          f.2.solver.transcript.head?.map (·.assertions) = some [q.expr.and r.expr.complement]

/-- The run with the two states and the question. -/
theorem covers_of_coversWrite {q r : Predicate} (h : coversWrite q r = true)
    (hquestion : ∀ m : Assignment, m.Typed → ¬ m.Models [q.expr.and r.expr.complement]) :
    ∃ (given : List State) (a a' : Analysis) (s t : State),
      Session twoWrites given a ∧ s ∈ given ∧ t ∈ given ∧
      hasAbstraction a.arena q.expr s = true ∧ hasAbstraction a.arena r.expr t = true ∧
      covers twoWrites s t a = .ok (true, a') ∧
      ∀ new, a'.solver.transcript = new ++ a.solver.transcript → Cegar.Truthful new := by
  obtain ⟨⟨s₀, a₀⟩, hbegin, h⟩ := (Option.any_eq_true _ _).1 h
  obtain ⟨⟨s, a₁⟩, hwalk, h⟩ := (Option.any_eq_true _ _).1 h
  obtain ⟨⟨t, a⟩, hwalk', h⟩ := (Option.any_eq_true _ _).1 h
  simp only [Bool.and_eq_true] at h
  obtain ⟨⟨hs, ht⟩, h⟩ := h
  obtain ⟨⟨b, a'⟩, hcovers, h⟩ := (Option.any_eq_true _ _).1 h
  simp only [Bool.and_eq_true, decide_eq_true_eq] at h
  obtain ⟨⟨rfl, hlength⟩, hhead⟩ := h
  obtain ⟨given₀, hsession₀, hs₀⟩ := Session.of_begin? hbegin
  obtain ⟨given₁, hsession₁, hmem, hsub⟩ := hsession₀.of_walk? hs₀ hwalk
  obtain ⟨given, hsession, hmem', hsub'⟩ := hsession₁.of_walk? (hsub hs₀) hwalk'
  refine ⟨given, a, a', s, t, hsession, hsub' hmem, hmem', hs, ht,
    except_toOption_eq_some.1 hcovers, fun new hnew => ?_⟩
  rw [hnew, List.length_append, Nat.add_comm, Nat.add_left_cancel_iff, List.length_eq_one_iff]
    at hlength
  obtain ⟨x, rfl⟩ := hlength
  rw [hnew] at hhead
  have hx : x.assertions = [q.expr.and r.expr.complement] := Option.some.inj hhead
  refine List.forall_mem_singleton.2 fun _ m hm => ?_
  rw [hx]
  exact hquestion m hm

/-- Whether `x` is positive. -/
def isPositive : Predicate := ⟨.cmp .gt varX (.num 0), by decide⟩

/-- Whether `x` is not negative. -/
def isNatural : Predicate := ⟨.cmp .ge varX (.num 0), by decide⟩

/-- A positive number is not negative. -/
theorem not_models_isPositive {m : Assignment} (hm : m.Typed) :
    ¬ m.Models [isPositive.expr.and isNatural.expr.complement] := by
  have hformula : ∀ c ∈ [isPositive.expr.and isNatural.expr.complement],
      c.IsFormula fun _ => True :=
    List.forall_mem_singleton.2 ⟨by decide, by decide, fun _ _ => trivial⟩
  rw [Assignment.models_iff hm hformula]
  intro hmodels
  have htrue := hmodels _ (List.mem_singleton_self _)
  rw [Expr.truth_and, Expr.truth_complement, Bool.and_eq_true, Bool.not_eq_true'] at htrue
  obtain ⟨hpositive, hnegative⟩ := htrue
  obtain ⟨n, hn⟩ : ∃ n, (m.env hm).val varX = .int n :=
    ⟨_, Datum.eq_int_of_ty ((m.env hm).typed _)⟩
  have hpositive : (0 : Int128) < n := by
    simpa [isPositive, Expr.truth, Expr.valueIn, hn, CmpOp.relates, Arithmetic.holds, CmpOp.holds,
      Arithmetic.num] using hpositive
  have hnegative : ¬ (0 : Int128) ≤ n := by
    simpa [isNatural, Expr.truth, Expr.valueIn, hn, CmpOp.relates, Arithmetic.holds, CmpOp.holds,
      Arithmetic.num] using hnegative
  rw [Int128.lt_def] at hpositive
  rw [Int128.le_def] at hnegative
  omega

/-- After the second write `x` is not negative, which covers that it is positive after the first
one. -/
theorem covers_includes_isNatural :
    ∃ (given : List State) (a a' : Analysis) (s t : State),
      Session twoWrites given a ∧ s ∈ given ∧ t ∈ given ∧
      hasAbstraction a.arena isPositive.expr s = true ∧
      hasAbstraction a.arena isNatural.expr t = true ∧ covers twoWrites s t a = .ok (true, a') ∧
      ∀ σ, s.Denotes (· ∈ twoWrites.automaton.vars) a.arena σ →
        t.Denotes (· ∈ twoWrites.automaton.vars) a.arena σ := by
  obtain ⟨given, a, a', s, t, hsession, hs, ht, hsq, htr, hcovers, htruthful⟩ :=
    covers_of_coversWrite (q := isPositive) (r := isNatural) (by decide +kernel)
      fun _ hm => not_models_isPositive hm
  have hA : twoWrites.automaton.WellFormed := by decide +kernel
  have hplain := hA.vocabulary.toPlain
  have hsorted : t.Sorted a.arena := by
    obtain ⟨-, id, u, rfl, hget, hu⟩ := hasAbstraction_eq_true htr
    intro v hv
    cases hget.symm.trans hv
    rw [hu]
    exact ⟨by decide, rfl, fun _ _ => trivial⟩
  obtain ⟨new, hnew, hincludes⟩ := covers_includes hplain.unindexed
    (fun edge hedge e he v hv => hplain.unindexed v ((hA.overVars hedge).vars e he v hv))
    hsession hs ht hsorted hcovers
  exact ⟨given, a, a', s, t, hsession, hs, ht, hsq, htr, hcovers, hincludes (htruthful new hnew)⟩

/-! ## An abstraction that has no value -/

/-- Whether adding the largest number leaves `x` as it is. -/
def isLargest : Predicate :=
  ⟨.eq (.arith .add varX (.num (.clamp Int128.maxVal))) varX, by decide⟩

/-- Whether `x` is zero, or else a comparison without a meaning. -/
def isMixed : Predicate :=
  ⟨.logic .or (.eq varX (.num 0)) (.cmp .lt varC (.num 3)),
    by decide⟩

/-- The comparison of a truth value and a number has no value. -/
theorem eval_comparison {m : Assignment} (hm : m.Typed) :
    (Expr.cmp .lt varC (.num 3)).eval m true = none := by
  cases hc : m[varC]? with
  | some x =>
    cases x with
    | bool b => simp [Expr.eval, hc, CmpOp.apply]
    | int n => cases hm _ _ hc
  | none => simp [Expr.eval, hc, CmpOp.apply, Ty.default]

/-- The predicate is never false, so its complement is never true. -/
theorem not_models_isLargest {m : Assignment} (hm : m.Typed) :
    ¬ m.Models [isLargest.expr.and isMixed.expr.complement] := by
  have hcomplement : isMixed.expr.complement.eval m true ≠ some (.bool true) := by
    show (Expr.not (.logic .or _ (.cmp .lt _ _))).eval m true ≠ _
    rw [Expr.eval, Expr.eval, eval_comparison hm]
    generalize Expr.eval m true _ = x
    rcases x with _ | ⟨⟨⟩ | ⟨⟩⟩ | _ <;> simp [LogicOp.apply, LogicOp.unit, Datum.bool?]
  intro hmodels
  have htrue : (Expr.logic .and isLargest.expr isMixed.expr.complement).eval m true =
      some (.bool true) := hmodels _ (List.mem_singleton_self _)
  rw [Expr.eval] at htrue
  revert hcomplement htrue
  generalize isLargest.expr.eval m true = x, isMixed.expr.complement.eval m true = y
  rcases x with _ | ⟨⟨⟩ | ⟨⟩⟩ | _ <;> rcases y with _ | ⟨⟨⟩ | ⟨⟩⟩ | _ <;>
    simp [LogicOp.apply, LogicOp.unit, Datum.bool?]

/-- A coverage that is no inclusion, though the only answer of the solver was correct: with the
largest number for `x`, the covering abstraction has no value. -/
theorem covers_excludes_isMixed :
    ∃ (given : List State) (a a' : Analysis) (s t : State) (σ : Store),
      twoWrites.automaton.WellFormed ∧ Session twoWrites given a ∧ s ∈ given ∧ t ∈ given ∧
      s.location? a.arena = .ok (some ⟨1⟩) ∧ t.location? a.arena = .ok (some ⟨1⟩) ∧
      covers twoWrites s t a = .ok (true, a') ∧
      (∃ new, a'.solver.transcript = new ++ a.solver.transcript ∧ Cegar.Truthful new) ∧
      s.Denotes (· ∈ twoWrites.automaton.vars) a.arena σ ∧
      ¬ t.Denotes (· ∈ twoWrites.automaton.vars) a.arena σ := by
  obtain ⟨given, a, a', s, t, hsession, hs, ht, hsq, htr, hcovers, htruthful⟩ :=
    covers_of_coversWrite (q := isLargest) (r := isMixed) (by decide +kernel)
      fun _ hm => not_models_isLargest hm
  have hA : twoWrites.automaton.WellFormed := by decide +kernel
  have hplain := hA.vocabulary.toPlain.unindexed
  obtain ⟨ha, -⟩ := hsession.legal
  obtain ⟨new, hrests⟩ := (covers_spares ha.rest hcovers).rests
  obtain ⟨hslocation, i, u, rfl, hgetu, hu⟩ := hasAbstraction_eq_true hsq
  obtain ⟨htlocation, j, v, rfl, hgetv, hv⟩ := hasAbstraction_eq_true htr
  have huplain := (ha.arena.state _ _ hgetu).unindexed
  have hvplain := (ha.arena.state _ _ hgetv).unindexed
  refine ⟨given, a, a', _, _, uniform (.clamp Int128.maxVal), hA, hsession, hs, ht, hslocation,
    htlocation, hcovers, ⟨new, hrests.transcript, htruthful new hrests.transcript⟩, ?_, ?_⟩
  · refine ⟨u, hgetu, (AbstractionState.admits_iff hplain huplain).1 ⟨_, ?_, fun _ _ => rfl⟩⟩
    rw [hu]
    decide +kernel
  · rintro ⟨v', hgetv', hσ⟩
    cases hgetv.symm.trans hgetv'
    obtain ⟨τ, hτ, hlook⟩ := (AbstractionState.admits_iff hplain hvplain).2 hσ
    rw [hv] at hτ
    rcases Expr.holds_logic.1 hτ with hzero | hcomparison
    · have hformula : (Expr.eq varX (.num 0)).IsFormula fun _ => True :=
        ⟨by decide, rfl, fun _ _ => trivial⟩
      have hzero : τ.val varX = .int 0 :=
        (Expr.truth_eq (l := varX) (r := .num 0) rfl).1
          ((Expr.holds_iff_truth hformula).1 hzero)
      rw [hlook _ (by decide +kernel)] at hzero
      exact absurd hzero (by decide +kernel)
    · exact absurd hcomparison (by rw [Expr.Holds, eval_comparison (τ.typed_restrict _)]; simp)

end Analysis

end Cegar

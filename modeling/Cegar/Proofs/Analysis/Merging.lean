import Cegar.Proofs.Analysis.Sessions

/-!
# Merging is exact union

Two states inside one block are merged into one whose path formula is the disjunction of theirs. The
result denotes what the two denote and nothing else, whether it was formed by the call or looked up.

* **`Session.fits`**: in a session, path formulas are as disjunctions need them;
* **`Analysis.merge_unites`**: a merged state is the union of the two states;
* **`Analysis.merge_exact`**: the same with the reason for it, which is about path formulas only.
-/

namespace Cegar

variable {K P : Var → Prop} {p : Problem} {given : List State} {a a' : Analysis}

/-- A well-formed program is about its variables and branch variables. -/
theorem Automaton.WellFormed.within {A : Automaton} (hA : A.WellFormed) :
    A.Within (Known (· ∈ A.vars)) := by
  refine ⟨fun edge hedge e he v hv => ?_, fun _ _ _ _ _ i => .inr ⟨Var.isBranch_branch _ i, rfl⟩⟩
  have hv : v ∈ A.vars := (hA.overVars hedge).vars e he v hv
  exact ⟨hA.vocabulary.unindexed v hv, hA.vocabulary.toPlain.known hv⟩

/-- The path of a state inside a block fits. -/
def State.Fits (K : Var → Prop) : State → Prop
  | .inner s => s.path.Fits K
  | .top | .bottom | .abstraction _ => True

/-- Numberings at the end of blocks are about variables that the program is about. -/
theorem SsaMap.Grown.entries {A : Automaton} {m : SsaMap} (hK : Versioned K) (hA : A.Within K)
    (h : m.Grown A) : m.Entries K := by
  induction h with
  | empty => exact fun name w hw => by simp [SsaMap.empty] at hw
  | block _ hp ih => exact (hp.within hK hA ih).entries

/-- The path formulas of a session are as disjunctions need them. -/
theorem Session.fits (hK : Versioned K) (hA : p.automaton.Within K) (h : Session p given a) :
    ∀ s ∈ given, s.Fits K := by
  obtain ⟨ha, hgiven⟩ := h.legal
  intro s hs
  cases s with
  | top | bottom | abstraction => trivial
  | inner s =>
    obtain ⟨owner, howner, hpath⟩ := hgiven _ hs
    have hentries := (ha.arena.state _ _ howner).numbering.entries hK hA
    exact (hpath.within hK hA hentries).fits

/-- `m` is the union of `s` and `t`, which are in one block and at one location. -/
structure State.Unites (P : Var → Prop) (p : Problem) (arena : Arena) (s t m : State) : Prop where
  place : ∃ u v w : Inner, s = .inner u ∧ t = .inner v ∧ m = .inner w ∧
    w.owner = u.owner ∧ w.owner = v.owner ∧ w.location = u.location ∧ w.location = v.location
  denotes : ∀ σ, m.Denotes P arena σ ↔ s.Denotes P arena σ ∨ t.Denotes P arena σ
  /-- Both states are known to be covered, without a question to the solver. -/
  covers : ∀ b : Analysis, Analysis.covers p s m b = .ok (true, b) ∧
    Analysis.covers p t m b = .ok (true, b)

namespace Analysis

/-- A merged state is the union of the two states. -/
theorem merge_unites (hK : OneType K) (hP : ∀ v, P v → v.index = none ∧ K v)
    (hsession : Session p given a) {s t m : State} (hs : s ∈ given) (ht : t ∈ given)
    (hsK : s.Fits K) (htK : t.Fits K) (h : merge p s t a = .ok (m, a')) (hm : m ≠ t) :
    m.Fits K ∧ s.Unites P p a'.arena t m := by
  obtain ⟨ha, hgiven⟩ := hsession.legal
  obtain ⟨r, a₁, hr, hresult⟩ := state_bind_ok.1 h
  cases state_pure_ok.1 hresult
  obtain ⟨rfl, -⟩ | ⟨u, v, cache, statistics, rfl, rfl, howner, hlocation, -, rfl, rfl, -, -⟩ :=
    merge?_cases ha.cache hr
  · exact absurd rfl hm
  -- what was looked up is what would be formed now, so there is one case for both
  · obtain ⟨owner, hget, hu⟩ := hgiven _ hs
    obtain ⟨owner', hget', hv⟩ := hgiven _ ht
    have hsame : owner' = owner := by
      rw [← howner, hget] at hget'
      exact (Option.some.inj hget').symm
    subst hsame
    refine ⟨hsK.or htK, ⟨u, v, _, rfl, rfl, rfl, rfl, howner, rfl, hlocation⟩, fun σ => ?_,
      fun b => ⟨?_, ?_⟩⟩
    · exact Inner.denotes_merge hP hK (ha.arena.state _ _ hget).unindexed
        ⟨hget, hsK, hu.le⟩ ⟨hget', htK, hv.le⟩
    · simp [covers, Inner.merge, Inner.absorbs]
    · simp [covers, Inner.merge, Inner.absorbs]

/-- Merging is exact union. Let `K` be a class of variables in which a name has one type.

* The disjunction of path formulas that fit `K` has the larger index of every name, fits again, and
  leads to the stores that one of them leads to, in whichever order the two are taken.
* So a state that two states of a session were merged into is their union.
* In a session with a program about `K` all path formulas fit. -/
theorem merge_exact (hK : OneType K) (hP : ∀ v, P v → v.index = none ∧ K v) :
    (∀ q r : PathFormula, q.Fits K → r.Fits K →
      (∀ name, (q.or r).ssa.index name = max (q.ssa.index name) (r.ssa.index name)) ∧
      (q.or r).Fits K ∧
      ∀ base W σ, base ≤ q.ssa → base ≤ r.ssa →
        ((q.or r).LeadsTo P base W σ ↔ q.LeadsTo P base W σ ∨ r.LeadsTo P base W σ) ∧
        ((q.or r).LeadsTo P base W σ ↔ (r.or q).LeadsTo P base W σ)) ∧
    ∀ p given a, Session p given a →
      (∀ s ∈ given, ∀ t ∈ given, s.Fits K → t.Fits K → ∀ m a', merge p s t a = .ok (m, a') →
        m ≠ t → m.Fits K ∧ s.Unites P p a'.arena t m) ∧
      (Versioned K → p.automaton.Within K → ∀ s ∈ given, s.Fits K) := by
  refine ⟨fun q r hq hr => ⟨PathFormula.index_or, hq.or hr, ?_⟩, fun p given a hsession => ⟨?_, ?_⟩⟩
  · intro base W σ hbase hbase'
    have hor := PathFormula.leadsTo_or hP hK hq hr hbase hbase' (W := W) (σ := σ)
    have hor' := PathFormula.leadsTo_or hP hK hr hq hbase' hbase (W := W) (σ := σ)
    exact ⟨hor, by rw [hor, hor', or_comm]⟩
  · intro s hs t ht hsK htK m a' h hm
    exact merge_unites hK hP hsession hs ht hsK htK h hm
  · exact fun hversioned hA => hsession.fits hversioned hA

/-! ## Two ways to one location -/

/-- `x` is written once on one way to `2`, and twice on the other. -/
def forked : Problem where
  automaton := {
    nodes := #[.entryOf "main", .plain "main", .plain "main"]
    edges :=
      #[⟨⟨0⟩, ⟨2⟩, .assign varX (.num 1)⟩, ⟨⟨0⟩, ⟨1⟩, .assign varX (.num 3)⟩,
        ⟨⟨1⟩, ⟨2⟩, .assign varX varX⟩]
    entry := ⟨0⟩
    joins := by decide }
  options := {}

def forkedPrecision : Precision := .empty forked.options.toPolicy

/-- What one write of `c` says. -/
def forkedFirst (c : Int128) : Expr := .eq (.var ⟨"x", .int, some 1⟩) (.num c)

/-- What the longer way says. -/
def forkedTwice : Expr :=
  .logic .and (forkedFirst 3) (.eq (.var ⟨"x", .int, some 2⟩) (.var ⟨"x", .int, some 1⟩))

/-- Whether the state was merged from others. -/
def isMerged : State → Bool
  | .inner s => s.merged
  | _ => false

/-- The two ways are merged at their common end. -/
theorem forked_merge : ∃ (given : List State) (a a' : Analysis) (s t m : State),
    Session forked given a ∧ s ∈ given ∧ t ∈ given ∧ merge forked s t a = .ok (m, a') ∧ m ≠ t ∧
    s.hasPath a'.arena (forkedFirst 1) = true ∧ t.hasPath a'.arena forkedTwice = true := by
  have hrun : ((Session.begin? forked ⟨0⟩).any fun b =>
      (Session.walk? forked forkedPrecision [⟨0⟩] b.1 b.2).any fun c =>
        (Session.walk? forked forkedPrecision [⟨1⟩, ⟨2⟩] b.1 c.2).any fun d =>
          (merge forked c.1 d.1 d.2).toOption.any fun e => isMerged e.1 && !isMerged d.1 &&
            c.1.hasPath e.2.arena (forkedFirst 1) && d.1.hasPath e.2.arena forkedTwice) = true := by
    decide +kernel
  obtain ⟨⟨s₀, a₀⟩, hbegin, hrun⟩ := (Option.any_eq_true _ _).1 hrun
  obtain ⟨⟨s, a₁⟩, hwalk, hrun⟩ := (Option.any_eq_true _ _).1 hrun
  obtain ⟨⟨t, a⟩, hwalk', hrun⟩ := (Option.any_eq_true _ _).1 hrun
  obtain ⟨given₀, hsession₀, hs₀⟩ := Session.of_begin? hbegin
  obtain ⟨given₁, hsession₁, hs, hsub⟩ := hsession₀.of_walk? hs₀ hwalk
  obtain ⟨given, hsession, ht, hsub'⟩ := hsession₁.of_walk? (hsub hs₀) hwalk'
  obtain ⟨⟨m, a'⟩, hmerge, hrun⟩ := (Option.any_eq_true _ _).1 hrun
  simp only [Bool.and_eq_true, Bool.not_eq_true'] at hrun
  obtain ⟨⟨⟨hmerged, hfresh⟩, hspath⟩, htpath⟩ := hrun
  have hm : m ≠ t := by
    rintro rfl
    exact absurd hmerged (by simp [hfresh])
  exact ⟨given, a, a', s, t, m, hsession, hsub' hs, ht, except_toOption_eq_some.1 hmerge, hm,
    hspath, htpath⟩

/-- The state at the common end denotes what either way leads to. -/
theorem merge_exact_forked : ∃ (given : List State) (a a' : Analysis) (s t m : State),
    Session forked given a ∧ s ∈ given ∧ t ∈ given ∧ merge forked s t a = .ok (m, a') ∧ m ≠ t ∧
    s.Unites (· ∈ forked.automaton.vars) forked a'.arena t m ∧
    m.Denotes (· ∈ forked.automaton.vars) a'.arena (uniform 1) ∧
    m.Denotes (· ∈ forked.automaton.vars) a'.arena (uniform 3) := by
  obtain ⟨given, a, a', s, t, m, hsession, hs, ht, hmerge, hm, hspath, htpath⟩ := forked_merge
  have hA : forked.automaton.WellFormed := by decide +kernel
  have hP := hA.vocabulary.toPlain
  have hknown (v : Var) (hv : v ∈ forked.automaton.vars) :
      v.index = none ∧ Known (· ∈ forked.automaton.vars) v := ⟨hP.unindexed v hv, hP.known hv⟩
  obtain ⟨-, hexact⟩ := merge_exact hA.vocabulary.oneType_known hknown
  obtain ⟨hunites, hsession_fits⟩ := hexact forked given a hsession
  have hfits := hsession_fits (versioned_known _) hA.within
  obtain ⟨-, hunion⟩ := hunites s hs t ht (hfits s hs) (hfits t ht) m a' hmerge hm
  have hone : s.Denotes (· ∈ forked.automaton.vars) a'.arena (uniform 1) :=
    State.denotes_of_hasPath hP hspath (by decide +kernel)
  have hthree : t.Denotes (· ∈ forked.automaton.vars) a'.arena (uniform 3) :=
    State.denotes_of_hasPath hP htpath (by decide +kernel)
  exact ⟨given, a, a', s, t, m, hsession, hs, ht, hmerge, hm, hunion,
    (hunion.denotes _).2 (.inl hone), (hunion.denotes _).2 (.inr hthree)⟩

end Analysis

end Cegar

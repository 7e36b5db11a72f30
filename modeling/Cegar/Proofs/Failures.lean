import Cegar.Proofs.Exploration.Routes
import Cegar.Proofs.Verification

/-!
# Errors that do not happen

A check may fail because a statement has no meaning, because the solver cannot decide a trace or
because a path is refined in vain. It does not fail because a path to an error location cannot be
found or does not consist of blocks, because a state has no successors to speak of, or because what
is suggested is no predicate.

* **`Error.Malformed`**: the errors that do not happen;
* **`Report.paths_wellFormed`**: the graph of any exploration, and how a check does not end.
-/

namespace Cegar

variable {p : Problem} {a a' : Analysis}

/-- The errors that say that the graph, a state or a predicate is not what it should be. -/
def Error.Malformed : Error → Prop
  | .invalidPath _ | .unexpectedTop | .notPredicate _ => True
  | _ => False

/-! ## Statements -/

namespace PathFormula

variable {q read : PathFormula} {e : Error}

/-- Writing may fail because of what is written to, but never says that something is malformed. -/
theorem write_error {target : Expr} {value : Option Expr}
    (h : q.write target value = .ok (.error e)) : ¬ e.Malformed := by
  rcases attempt_bind_error.1 h with ⟨v, -, h⟩ | h
  · rcases attempt_bind_error.1 h with ⟨r, -, h⟩ | h
    · cases value <;> cases h
    · exact absurd h attempt_lift_error
  · unfold writeTarget at h
    split at h
    · cases h
    · cases h
      exact id

/-- Bindings are writes one after the other. -/
theorem bind_error {read : SsaMap} {bindings : List (Expr × Expr)}
    (h : bind read q bindings = .ok (.error e)) : ¬ e.Malformed := by
  induction bindings generalizing q with
  | nil => cases h
  | cons binding bindings ih =>
    rcases attempt_bind_error.1 h with ⟨q', -, h⟩ | h
    · exact ih h
    · exact write_error h

/-- Whatever the statement, to extend a path formula never says that something is malformed. -/
theorem extend_error {source : Location} {edge : EdgeId} {s : Statement}
    (h : q.extend source edge s = .ok (.error e)) : ¬ e.Malformed := by
  unfold extend at h
  cases s with
  | blank | callToReturn => cases h
  | declare | assign => exact write_error h
  | call => exact bind_error h
  | ret result =>
    cases result with
    | none => cases h
    | some binding => exact write_error h
  | assume condition truth =>
    rcases attempt_bind_error.1 h with ⟨r, -, h⟩ | h
    · dsimp only at h
      split at h <;> cases h
    · exact absurd h attempt_lift_error
  | unknown =>
    cases h
    exact id

end PathFormula

/-! ## Successors -/

namespace Analysis

variable {precision : Precision} {s : State} {e : Error}

/-- For any state but the one about which nothing is known, a successor fails only where the path
formula cannot be extended. -/
theorem successor_error (ha : a.Legal p.automaton) (hs : s ≠ .top) {d : EdgeId}
    (h : successor p precision s d a = .ok (.error e, a')) : ¬ e.Malformed := by
  have hblock {owner : AbstractionState} {path : PathFormula} {size : Nat}
      (h : extendBlock p precision owner path size d a = .ok (.error e, a')) : ¬ e.Malformed := by
    obtain ⟨edge, -, cache, statistics, -, -, hcases⟩ := extendBlock_cases ha.cache h
    obtain ⟨x, hextend, heq, -⟩ | ⟨q, o, solver, arena, -, heq, -⟩ := hcases
    · cases heq
      exact PathFormula.extend_error hextend
    · cases heq
  obtain ⟨htop, -⟩ | ⟨-, heq, -⟩ | ⟨id, owner, -, -, h⟩ | ⟨t, owner, -, -, h⟩ := successor_cases h
  · exact absurd htop hs
  · cases heq
  · exact hblock h
  · exact hblock h

/-- The first edge that fails decides the error. -/
theorem successorsAlong_error (ha : a.Legal p.automaton) (hs : s ≠ .top)
    (hlegal : s.Legal p.automaton a.arena) {es : List EdgeId}
    (h : successorsAlong p precision s es a = .ok (.error e, a')) : ¬ e.Malformed := by
  induction es generalizing a with
  | nil => cases try_pure_ok.1 h
  | cons d es ih =>
    obtain ⟨first, a₁, hfirst, h₁⟩ | ⟨x, hx, heq⟩ := try_bind_ok.1 h
    · have hdevelops := successor_develops ha hlegal hfirst
      obtain ⟨rest, a₂, -, h₂⟩ | ⟨x, hx, heq⟩ := try_bind_ok.1 h₁
      · cases try_pure_ok.1 h₂
      · cases heq
        exact ih hdevelops.legal (hlegal.mono hdevelops.extends_arena) hx
    · cases heq
      exact successor_error ha hs hx

/-- Successors fail only where the one along some edge does. -/
theorem successors_error (ha : a.Legal p.automaton) (hlegal : s.Legal p.automaton a.arena)
    {l : Location} (hl : s.location? a.arena = .ok (some l))
    (h : successors p precision s a = .ok (.error e, a')) : ¬ e.Malformed := by
  have hs : s ≠ .top := by
    rintro rfl
    cases hl
  obtain ⟨b, a₁, hb, h₁⟩ | ⟨x, hx, -⟩ := try_bind_ok.1 h
  · cases hb
    obtain ⟨l?, a₁, hlift, h₂⟩ | ⟨x, hx, -⟩ := try_bind_ok.1 h₁
    · obtain ⟨hplace, rfl⟩ := try_lift_except_ok.1 hlift
      cases hl.symm.trans hplace
      exact successorsAlong_error ha hs hlegal h₂
    · obtain ⟨_, -, hx⟩ := try_lift_ok.1 hx
      cases hx
  · cases hx

end Analysis

/-! ## Refinement -/

/-- With a root and a target there is a path, if only the one along which the target was found. -/
theorem TargetPath.find_no_defect {A : Automaton} {g : Graph} {path : Path}
    {branches : Std.ExtTreeMap Var Bool} {r : NodeId} {hop : Hop} (hr : g.root = some r)
    (hlast : path.getLast? = some hop) {d : PathDefect} :
    find A g path branches ≠ .ok (.error d) := by
  intro h
  unfold find at h
  simp only [hr, hlast] at h
  rcases attempt_bind_error.1 h with ⟨found, -, h⟩ | h
  · cases h
  · exact absurd h attempt_lift_error

/-- The path to a node of the graph can always be split into blocks, so refinement never calls it
malformed. -/
theorem Analysis.refine_error {x : Exploration} (hx : x.Standing p a) {n : NodeId} {path : Path}
    (hpath : x.graph.pathTo n = .ok path) {e : Error}
    (h : refine p x.graph path a = .ok (.error e, a')) : ¬ e.Malformed := by
  obtain ⟨r, hr, hroute⟩ := Graph.pathTo_route hpath
  obtain ⟨a₁, -, hinspection, -⟩ := refine_inspection h
  cases hinspection with
  | malformed hsplit =>
    obtain ⟨ss, blocks, hok⟩ := Refinement.split_route hx.shaped hx.legal.arena hr hroute
    cases hsplit.symm.trans hok
  | undecided _ htrace =>
    obtain ⟨answer, t, -, ⟨-, -, heq⟩ | ⟨-, -, heq⟩ | ⟨-, pss, -, heq⟩⟩ :=
      Trace.ofBlocks_cases hx.legal.rest htrace
    · cases heq
    · cases heq
      exact id
    · cases heq
  | lost _ _ hfind => exact absurd hfind (TargetPath.find_no_defect hr hroute.getLast?)
  | stuck => exact id

/-! ## Runs -/

namespace Exploration

variable {x x' : Exploration}

/-- A step finds a node of the graph at an error location, or it fails for another reason. -/
theorem Takes.outcome (hx : Standing p x a) {o : Option Outcome} (h : Takes p x a o x' a') :
    (∀ n, o = some (.target n) → x'.graph.contains n = true) ∧
      ∀ e, o = some (.failed e) → ¬ e.Malformed := by
  cases h with
  | complete | gone | expanded => exact ⟨nofun, nofun⟩
  | target hn =>
    refine ⟨fun m hm => ?_, nofun⟩
    cases hm
    exact Graph.contains_iff.2 ⟨_, hn⟩
  | failed hn hr =>
    refine ⟨nofun, fun e he => ?_⟩
    cases he
    exact Analysis.successors_error hx.legal (hx.shaped.legal _ _ hn) (hx.shaped.place _ _ hn) hr

/-- A run leads to an exploration that arises. It ends at a node of the graph or with an error of a
successor. -/
theorem Arises.run (hp : p.Unlooped) (hx : Arises p x a) {o : Outcome}
    (h : x.run p a = .ok ((o, x'), a')) :
    Arises p x' a' ∧ (∀ n, o = .target n → x'.graph.contains n = true) ∧
      ∀ e, o = .failed e → ¬ e.Malformed := by
  obtain ⟨y, b, hy, hlast⟩ := runWithin_induction (I := Arises p)
    (fun _ _ _ _ hx hstep => hx.step hstep) hx h
  obtain ⟨htarget, hfailed⟩ := (step_takes hlast).outcome (hy.standing hp)
  exact ⟨hy.step hlast, fun n hn => htarget n (congrArg some hn),
    fun e he => hfailed e (congrArg some he)⟩

end Exploration

namespace Report

open Exploration

/-- Whichever operation fails in a round, its error does not say that something is malformed. -/
theorem Fails.not_malformed (hp : p.Unlooped) {x : Exploration} (hx : Arises p x a) {e : Error}
    (h : Fails p x a e) : ¬ e.Malformed := by
  cases h with
  | step hrun => exact (hx.run hp hrun).2.2 e rfl
  | path hrun hpath =>
    obtain ⟨hx', htarget, -⟩ := hx.run hp hrun
    obtain ⟨path, hok⟩ := (hx'.standing hp).shaped.pathTo_total (htarget _ rfl)
    cases hpath.symm.trans hok
  | refine hrun hpath hrefine =>
    obtain ⟨hx', -⟩ := hx.run hp hrun
    exact Analysis.refine_error (hx'.standing hp) hpath hrefine

/-- No error at the end of the rounds says that something is malformed. -/
theorem Ends.not_malformed (hp : p.Unlooped) {x x' : Exploration} (hx : Arises p x a) {e : Error}
    (h : Ends p x a (.failed e) x' a') : ¬ e.Malformed := by
  -- induction on the rounds, each of which leads from what arises to what arises
  generalize hv : Verdict.failed e = v at h
  induction h with
  | safe | real | undecided => cases hv
  | failed hfails =>
    cases hv
    exact hfails.not_malformed hp hx
  | spurious hrun _ hrefine hrestart _ ih =>
    exact ih (((hx.run hp hrun).1.refine hrefine).restart hrestart) hv

/-- Whatever was explored, the graph has no cycles, everything in it can be reached from the root,
and along an edge a block goes on or is completed. So there is a path to every node, and it consists
of blocks. No check ends because a path is malformed, a state has no successors to speak of, or what
is suggested is no predicate. This is so for automata with the marks that they get when they are
built, if blocks are completed at loop heads or nothing is merged. -/
theorem paths_wellFormed {nodes : Array Node} {edges : Array Edge} {entry : Location}
    (hbuild : Automaton.build? nodes edges entry = some p.automaton)
    (hoptions : (p.options.atLoopHeads = true ∧ p.options.combination = .or) ∨
      p.options.merge = .sep) :
    (∀ x a, Arises p x a →
      (∀ n, ¬ Relation.TransGen x.graph.Linked n n) ∧
      (∀ n, x.graph.contains n = true → ∃ r, x.graph.root = some r ∧ x.graph.Reaches r n) ∧
      (∀ k ∈ x.graph.links, ∃ u v, x.graph.nodes[k.source]? = some u ∧
        x.graph.nodes[k.target]? = some v ∧ v.state.Follows a.arena u.state.owner?) ∧
      ∀ n, x.graph.contains n = true → ∃ path stops blocks, x.graph.pathTo n = .ok path ∧
        Refinement.split a.arena x.graph path = .ok (.ok (stops, blocks))) ∧
    ∀ freeing given a₀ max r a, Session p given a₀ → a₀.precision.policy = p.options.toPolicy →
      checkWith freeing p max a₀ = .ok (r, a) → ∀ e, r.verdict = .failed e →
        (∀ d, e ≠ .invalidPath d) ∧ e ≠ .unexpectedTop ∧ ∀ c, e ≠ .notPredicate c := by
  have hp := p.unlooped hbuild hoptions
  constructor
  · intro x a hx
    obtain ⟨hlegal, -, -, hshaped⟩ := hx.standing hp
    refine ⟨hshaped.acyclic, hshaped.wellFormed.rooted, fun k hk => ?_, fun n hn => ?_⟩
    · obtain ⟨u, hu⟩ := Graph.contains_iff.1 (hshaped.wellFormed.source k hk)
      obtain ⟨v, hv⟩ := Graph.contains_iff.1 (hshaped.wellFormed.target k hk)
      exact ⟨u, v, hu, hv, hshaped.follows hlegal.arena hk hu hv⟩
    · obtain ⟨path, hpath⟩ := hshaped.pathTo_total hn
      obtain ⟨r, hr, hroute⟩ := Graph.pathTo_route hpath
      obtain ⟨stops, blocks, hsplit⟩ :=
        Refinement.split_route hshaped hlegal.arena hr hroute
      exact ⟨path, stops, blocks, hpath, hsplit⟩
  · intro freeing given a₀ max r a hsession hpolicy h e he
    obtain ⟨x, a₁, hstart, h⟩ := state_bind_ok.1 h
    have hends := runFrom_ends h
    rw [he] at hends
    have hnot := hends.not_malformed hp (.start hsession hpolicy hstart)
    refine ⟨?_, ?_, ?_⟩
    · rintro d rfl
      exact hnot trivial
    · rintro rfl
      exact hnot trivial
    · rintro c rfl
      exact hnot trivial

/-- A branch whose ways meet, and then a location with an edge to itself. -/
def loopedDiamond? : Option Automaton :=
  Automaton.build?
    #[.entryOf "main", .plain "main", .plain "main", .plain "main", .plain "main", .errorOf "main"]
    #[⟨⟨0⟩, ⟨1⟩, .assume (.eq varX (.num 1)) true⟩, ⟨⟨0⟩, ⟨2⟩, .assume (.eq varX (.num 1)) false⟩,
      ⟨⟨1⟩, ⟨3⟩, .blank⟩, ⟨⟨2⟩, ⟨3⟩, .blank⟩, ⟨⟨3⟩, ⟨4⟩, .blank⟩,
      ⟨⟨4⟩, ⟨4⟩, .assign varX (.num 2)⟩, ⟨⟨4⟩, ⟨5⟩, .assume (.eq varX (.num 2)) true⟩]
    ⟨0⟩

theorem isSome_loopedDiamond : loopedDiamond?.isSome = true := by decide +kernel

def loopedDiamond : Problem := ⟨loopedDiamond?.get isSome_loopedDiamond, {}⟩

/-- After six steps two states have been merged, and the state at the error location has a path of
three blocks. -/
theorem paths_wellFormed_loopedDiamond : ∃ x a, Arises loopedDiamond x a ∧
    x.graph.links.length = 6 ∧ x.graph.contains ⟨5⟩ = true ∧ ∃ path stops blocks,
      x.graph.pathTo ⟨5⟩ = .ok path ∧
        Refinement.split a.arena x.graph path = .ok (.ok (stops, blocks)) := by
  have hbuild : loopedDiamond? = some loopedDiamond.automaton :=
    (Option.some_get isSome_loopedDiamond).symm
  have hrun : (after? loopedDiamond 6).any (fun xa =>
      xa.1.graph.links.length = 6 && xa.1.graph.contains ⟨5⟩) = true := by decide +kernel
  obtain ⟨⟨x, a⟩, hafter, hxa⟩ := (Option.any_eq_true _ _).1 hrun
  simp only [Bool.and_eq_true, decide_eq_true_eq] at hxa
  obtain ⟨short, hreached⟩ := reached_after hafter
  have hx := hreached.arises
  obtain ⟨-, -, -, hpaths⟩ := (paths_wellFormed hbuild (.inl ⟨rfl, rfl⟩)).1 x a hx
  exact ⟨x, a, hx, hxa.1, hxa.2, hpaths _ hxa.2⟩

end Report

end Cegar

import Cegar.Proofs.Exploration.Worklist
import Cegar.Verification

/-!
# Verdicts

A program that is found unsafe has an execution to an error location, whatever the solver says. A
program that is found safe without merging has none, if the solver was right whenever it called a
question unsatisfiable: then the explored graph is closed under steps, its root stands for all
stores at the entry, and no node is at an error location.

* **`Exploration.runWithin_induction`**: what steps keep, a run keeps;
* **`Exploration.Ready`**: what a run without merging keeps;
* **`Report.executes_of_violation`**: an execution to an error location;
* **`Report.not_isError_of_safe`**: no execution to an error location.
-/

namespace Cegar

variable {p : Problem} {a a' : Analysis}

namespace Exploration

variable {x x' : Exploration}

/-- A run is a number of steps without outcome and one step with. -/
theorem runWithin_induction {I : Exploration → Analysis → Prop}
    (hstep : ∀ x a x' a', I x a → x.step p a = .ok ((none, x'), a') → I x' a') {k : Nat}
    (hI : I x a) {o : Outcome} (h : runWithin p k x a = .ok ((o, x'), a')) :
    ∃ y b, I y b ∧ y.step p b = .ok ((some o, x'), a') := by
  induction k generalizing x a with
  | zero => exact absurd h state_throw_ok
  | succ k ih =>
    obtain ⟨⟨r, x₁⟩, a₁, hr, h₁⟩ := state_bind_ok.1 h
    cases r with
    | none => exact ih (hstep x a x₁ a₁ hI hr) h₁
    | some outcome =>
      cases state_pure_ok.1 h₁
      exact ⟨x, a, hI, hr⟩

/-- A run that did not fail ends between two steps. -/
theorem run_reached (hA : p.automaton.WellFormed) {short : NodeId → Prop}
    (hx : Reached p x a short) {o : Outcome} (ho : ∀ e, o ≠ .failed e)
    (h : x.run p a = .ok ((o, x'), a')) :
    (∃ short', Reached p x' a' short') ∧ ∀ n, o = .target n →
      ∃ node, x'.graph.nodes[n]? = some node ∧ p.automaton.IsError node.location := by
  obtain ⟨y, b, ⟨short', hy⟩, hlast⟩ := runWithin_induction
    (I := fun x a => ∃ short, Reached p x a short)
    (fun _ _ _ _ ⟨_, hx⟩ hstep => ⟨_, hx.step hstep fun e he => by cases he⟩) ⟨short, hx⟩ h
  refine ⟨⟨_, hy.step hlast fun e he => ho e (Option.some.inj he)⟩, fun n hn => ?_⟩
  obtain ⟨hb, hyv, -⟩ := hy.attended hA
  subst hn
  cases step_ok hA hb hyv hlast with
  | target hwait hnode herror => exact ⟨_, hnode, herror⟩

/-! ## Runs without merging -/

/-- What holds between two steps without merging: the root stands for all stores at the entry, and
nodes at error locations wait. -/
structure Ready (p : Problem) (x : Exploration) (a : Analysis) : Prop where
  reached : ∃ short, Reached p x a short
  rooted : x.Rooted p.automaton a.arena
  errors : ∀ (m : NodeId) (node : GraphNode), x.graph.nodes[m]? = some node →
    p.automaton.IsError node.location → m ∈ x.waitlist

/-- A step keeps all this, but for the node that it may have found at an error location. -/
theorem Ready.step (hA : p.automaton.WellFormed) (hsep : p.options.merge = .sep)
    (h : Ready p x a) {o : Option Outcome} (hstep : x.step p a = .ok ((o, x'), a'))
    (ho : ∀ e, o ≠ some (.failed e)) :
    (∃ short, Reached p x' a' short) ∧ x'.Rooted p.automaton a'.arena ∧
      ∀ (m : NodeId) (node : GraphNode), x'.graph.nodes[m]? = some node →
        p.automaton.IsError node.location → m ∈ x'.waitlist ∨ o = some (.target m) := by
  obtain ⟨short, hreached⟩ := h.reached
  obtain ⟨ha, hx, -⟩ := hreached.attended hA
  have hresult := step_ok hA ha hx hstep
  obtain ⟨hadv, -⟩ := hresult.valid hA ha hx ho
  have hgrows := hresult.grows hsep hx.graph ho
  refine ⟨⟨_, hreached.step hstep ho⟩, ?_, fun m node hm herror => ?_⟩
  · obtain ⟨r, node, hr, hnode, hl, hall⟩ := h.rooted
    exact ⟨r, node, hgrows.root.trans hr, hgrows.nodes r node hnode, hl,
      fun σ => (hall σ).mono hadv.arena⟩
  · cases hresult with
    | complete => exact .inl (h.errors m node hm herror)
    | gone hwait hnone =>
      have hmem := h.errors m node hm herror
      rw [hwait] at hmem
      rcases List.mem_cons.1 hmem with rfl | hmem
      · cases hnone.symm.trans hm
      · exact .inl hmem
    | target hwait =>
      have hmem := h.errors m node hm herror
      rw [hwait] at hmem
      rcases List.mem_cons.1 hmem with rfl | hmem
      · exact .inr rfl
      · exact .inl hmem
    | failed => exact absurd rfl (ho _)
    | @expanded n w v a₁ _ rs _ hwait hnode hnot hadv₁ hrs _ hadd =>
      obtain ⟨-, -, -, hevolves, -⟩ :=
        addSuccessors_ok hA hadv₁.valid ((hx.took w).mono hadv₁.arena) hrs hadd
      -- a node that does not wait now was there before, and waited unless it is the one taken
      by_cases hw : m ∈ x'.waitlist
      · exact .inl hw
      · have hsame := hevolves.node m node hm hw
        have hmem := h.errors m node hsame herror
        rw [hwait] at hmem
        rcases List.mem_cons.1 hmem with rfl | hmem
        · cases hnode.symm.trans hsame
          exact absurd herror hnot
        · exact .inl (hevolves.waits m hmem (Graph.contains_iff.2 ⟨node, hm⟩))

/-- A run that did not fail ends with an empty waitlist, or with a node at an error location that no
longer waits. -/
theorem Ready.run (hA : p.automaton.WellFormed) (hsep : p.options.merge = .sep)
    (h : Ready p x a) {o : Outcome} (ho : ∀ e, o ≠ .failed e)
    (hrun : x.run p a = .ok ((o, x'), a')) :
    (∃ short, Reached p x' a' short) ∧ x'.Rooted p.automaton a'.arena ∧
      (∀ (m : NodeId) (node : GraphNode), x'.graph.nodes[m]? = some node →
        p.automaton.IsError node.location → m ∈ x'.waitlist ∨ o = .target m) ∧
      (o = .complete → x'.waitlist = []) := by
  have hstep : ∀ x a x' a', Ready p x a → x.step p a = .ok ((none, x'), a') → Ready p x' a' := by
    intro x a x' a' h hstep
    obtain ⟨hreached, hrooted, herrors⟩ := h.step hA hsep hstep fun e he => by cases he
    refine ⟨hreached, hrooted, fun m node hm he => ?_⟩
    exact (herrors m node hm he).resolve_right fun h => by cases h
  obtain ⟨y, b, hy, hlast⟩ := runWithin_induction hstep h hrun
  obtain ⟨hreached, hrooted, herrors⟩ :=
    hy.step hA hsep hlast fun e he => ho e (Option.some.inj he)
  refine ⟨hreached, hrooted, fun m node hm he => ?_, fun hc => ?_⟩
  · exact (herrors m node hm he).imp id Option.some.inj
  · subst hc
    obtain ⟨short, hy⟩ := hy.reached
    obtain ⟨hb, hyv, -⟩ := hy.attended hA
    cases step_ok hA hb hyv hlast with
    | complete hwait => exact hwait

/-- After the node at an error location was removed, all others that are wait. -/
theorem Ready.restart (hA : p.automaton.WellFormed) {n root : NodeId} {path : Path}
    {precision : Precision} {a₁ : Analysis} (hreached : ∃ short, Reached p x a short)
    (hrooted : x.Rooted p.automaton a.arena)
    (herrors : ∀ (m : NodeId) (node : GraphNode), x.graph.nodes[m]? = some node →
      p.automaton.IsError node.location → m ∈ x.waitlist ∨ Outcome.target n = .target m)
    (hn : x.graph.contains n = true) (hpath : x.graph.pathTo n = .ok path)
    (hrefine : Analysis.refine p x.graph path a = .ok (.ok (.spurious precision root), a₁))
    (hrestart : x.restartFrom p root a₁ = .ok (x', a')) : Ready p x' a' := by
  obtain ⟨short, hreached⟩ := hreached
  obtain ⟨ha, hx, -⟩ := hreached.attended hA
  obtain ⟨hadv, harena, hsound⟩ := Analysis.refine_ok ha hx.states hrefine
  obtain ⟨-, hop, hhop, rfl⟩ := hsound _ rfl
  have hreach := (Graph.reaches_of_pathTo hpath).1 hop hhop
  obtain ⟨hadv', hx', hrooted', hkept, -⟩ := restartFrom_ok hadv.valid (harena ▸ hx) hrestart
  refine ⟨⟨short, (hreached.refine hrefine).restart hrestart⟩, hrooted' (harena ▸ hrooted),
    fun m node hm herror => ?_⟩
  by_cases hw : m ∈ x'.waitlist
  · exact hw
  · obtain ⟨hmx, hwx, hgone⟩ := hkept m node hm hw
    rcases herrors m node hmx herror with hwait | heq
    · exact absurd hwait hwx
    · cases heq
      exact absurd hreach (hgone (Graph.contains_source_of_reaches hx.graph hn hreach))

end Exploration

namespace Report

/-! ## Rounds -/

/-- Why a round fails: a node could not be expanded, it has no path, or its path could not be
refined. -/
inductive Fails (p : Problem) (x : Exploration) (a : Analysis) : Error → Prop where
  | step {x' : Exploration} {a' : Analysis} {e : Error}
    (hrun : x.run p a = .ok ((.failed e, x'), a')) : Fails p x a e
  | path {x' : Exploration} {a' : Analysis} {n : NodeId} {d : PathDefect}
    (hrun : x.run p a = .ok ((.target n, x'), a')) (hpath : x'.graph.pathTo n = .error d) :
    Fails p x a (.invalidPath d)
  | refine {x' : Exploration} {a₁ a' : Analysis} {n : NodeId} {path : Path} {e : Error}
    (hrun : x.run p a = .ok ((.target n, x'), a₁)) (hpath : x'.graph.pathTo n = .ok path)
    (hrefine : Analysis.refine p x'.graph path a₁ = .ok (.error e, a')) : Fails p x a e

/-- How a verdict comes about. Rounds with a spurious path come first; in the last one, nothing is
left to explore or the path can be executed. -/
inductive Ends (p : Problem) :
    Exploration → Analysis → Verdict → Exploration → Analysis → Prop where
  | safe {x x' : Exploration} {a a' : Analysis} (hrun : x.run p a = .ok ((.complete, x'), a')) :
    Ends p x a .safe x' a'
  | real {x x' : Exploration} {a a₁ a' : Analysis} {n : NodeId} {path : Path} {t : TargetPath}
    (hrun : x.run p a = .ok ((.target n, x'), a₁)) (hpath : x'.graph.pathTo n = .ok path)
    (hrefine : Analysis.refine p x'.graph path a₁ = .ok (.ok (.real t), a')) :
    Ends p x a (.unsafePath t) x' a'
  | spurious {x x₁ x₂ x' : Exploration} {a a₁ a₂ a₃ a' : Analysis} {n root : NodeId} {path : Path}
    {precision : Precision} {v : Verdict} (hrun : x.run p a = .ok ((.target n, x₁), a₁))
    (hpath : x₁.graph.pathTo n = .ok path)
    (hrefine : Analysis.refine p x₁.graph path a₁ = .ok (.ok (.spurious precision root), a₂))
    (hrestart : x₁.restartFrom p root a₂ = .ok (x₂, a₃)) (hrest : Ends p x₂ a₃ v x' a') :
    Ends p x a v x' a'
  | undecided {x x' : Exploration} {a a' : Analysis} : Ends p x a .undecided x' a'
  | failed {x x' : Exploration} {a a' : Analysis} {e : Error} (hfails : Fails p x a e) :
    Ends p x a (.failed e) x' a'

/-- A round that is not the last one found a spurious path. -/
theorem playRound_again {x x' : Exploration} {round : Round}
    (h : playRound p x a = .ok (.again round x', a')) :
    ∃ x₁ a₁ a₂ n path precision root, x.run p a = .ok ((.target n, x₁), a₁) ∧
      x₁.graph.pathTo n = .ok path ∧
      Analysis.refine p x₁.graph path a₁ = .ok (.ok (.spurious precision root), a₂) ∧
      x₁.restartFrom p root a₂ = .ok (x', a') := by
  obtain ⟨⟨o, x₁⟩, a₁, hrun, h₁⟩ := state_bind_ok.1 h
  cases o with
  | complete | failed => cases state_pure_ok.1 h₁
  | target n =>
    dsimp only at h₁
    cases hpath : x₁.graph.pathTo n with
    | error d =>
      simp only [hpath] at h₁
      cases state_pure_ok.1 h₁
    | ok path =>
      simp only [hpath] at h₁
      obtain ⟨result, a₂, hrefine, h₂⟩ := state_bind_ok.1 h₁
      rcases result with e | ⟨precision, root⟩ | t
      · cases state_pure_ok.1 h₂
      · obtain ⟨x₂, a₃, hrestart, h₃⟩ := state_bind_ok.1 h₂
        cases state_pure_ok.1 h₃
        exact ⟨x₁, a₁, a₂, n, path, precision, root, hrun, hpath, hrefine, hrestart⟩
      · cases state_pure_ok.1 h₂

/-- A round that ends the check gives the verdict and the exploration of the report. -/
theorem playRound_done {x : Exploration} {r : Report}
    (h : playRound p x a = .ok (.done r, a')) : Ends p x a r.verdict r.exploration a' := by
  obtain ⟨⟨o, x₁⟩, a₁, hrun, h₁⟩ := state_bind_ok.1 h
  cases o with
  | complete =>
    cases state_pure_ok.1 h₁
    exact .safe hrun
  | failed e =>
    cases state_pure_ok.1 h₁
    exact .failed (.step hrun)
  | target n =>
    dsimp only at h₁
    cases hpath : x₁.graph.pathTo n with
    | error d =>
      simp only [hpath] at h₁
      cases state_pure_ok.1 h₁
      exact .failed (.path hrun hpath)
    | ok path =>
      simp only [hpath] at h₁
      obtain ⟨result, a₂, hrefine, h₂⟩ := state_bind_ok.1 h₁
      rcases result with e | ⟨precision, root⟩ | t
      · cases state_pure_ok.1 h₂
        exact .failed (.refine hrun hpath hrefine)
      · obtain ⟨x₂, a₃, hrestart, h₃⟩ := state_bind_ok.1 h₂
        cases state_pure_ok.1 h₃
      · cases state_pure_ok.1 h₂
        exact .real hrun hpath hrefine

/-- Every round before the last one leads to the next one, so a run of rounds ends as its last round
does. -/
theorem runFrom_ends {x : Exploration} {k : Nat} {r : Report}
    (h : runFrom p k x a = .ok (r, a')) : Ends p x a r.verdict r.exploration a' := by
  induction k using Nat.strongRecOn generalizing x a r with
  | ind k ih =>
    unfold runFrom at h
    obtain ⟨progress, a₁, hround, h₁⟩ := state_bind_ok.1 h
    cases progress with
    | done r =>
      cases state_pure_ok.1 h₁
      exact playRound_done hround
    | again round x₁ =>
      cases k with
      | zero =>
        cases state_pure_ok.1 h₁
        exact .undecided
      | succ k =>
        obtain ⟨r', a₂, hrest, h₂⟩ := state_bind_ok.1 h₁
        cases state_pure_ok.1 h₂
        obtain ⟨x₂, a₃, a₄, n, path, precision, root, hrun, hpath, hrefine, hrestart⟩ :=
          playRound_again hround
        have hends := ih k (Nat.lt_succ_self k) hrest
        exact .spurious hrun hpath hrefine hrestart hends

/-- A check starts from what is reached and ends as the rounds from there do, in whichever order
numbers are freed. -/
theorem checkWith_ends {freeing : Freeing} {max : Nat} {a₀ : Analysis} {r : Report}
    (hnew : Analysis.new p.options = .ok a₀) (h : checkWith freeing p max a₀ = .ok (r, a')) :
    ∃ x a, Exploration.start freeing p a₀ = .ok (x, a) ∧
      Exploration.Reached p x a (fun _ => False) ∧ Ends p x a r.verdict r.exploration a' := by
  obtain ⟨x, a, hstart, h⟩ := state_bind_ok.1 h
  exact ⟨x, a, hstart, .start hnew hstart, runFrom_ends h⟩

/-- Whether a check comes to an end that has some property. -/
def endsWith (p : Problem) (max : Nat) (P : Report → Analysis → Bool) : Bool :=
  match Analysis.new p.options with
  | .ok a₀ => match check p max a₀ with
    | .ok (r, a) => P r a
    | .error _ => false
  | .error _ => false

/-- The report has the property. -/
theorem endsWith_eq_true {max : Nat} {P : Report → Analysis → Bool}
    (h : endsWith p max P = true) :
    ∃ a₀ r a, Analysis.new p.options = .ok a₀ ∧ check p max a₀ = .ok (r, a) ∧ P r a = true := by
  unfold endsWith at h
  split at h
  · next a₀ hnew =>
    split at h
    · next r a hcheck => exact ⟨a₀, r, a, hnew, hcheck, h⟩
    · cases h
  · cases h

/-! ## Unsafe programs -/

/-- The last node of a path is at an error location, and some execution ends at that location. -/
def Violates (A : Automaton) (g : Graph) (path : TargetPath) : Prop :=
  ∃ (n : NodeId) (node : GraphNode), path.nodes.getLast? = some n ∧
    g.nodes[n]? = some node ∧ A.IsError node.location ∧
    ∃ σ σ', A.Executes (A.entry, σ) (node.location, σ')

/-- The path of an unsafe verdict can be executed up to its last node, which is at an error
location. -/
theorem Ends.violates (hA : p.automaton.WellFormed) {x x' : Exploration} {short : NodeId → Prop}
    (hx : Exploration.Reached p x a short) {path : TargetPath}
    (h : Ends p x a (.unsafePath path) x' a') : Violates p.automaton x'.graph path := by
  -- induction on the rounds: all but the last one lead from what is reached to what is reached
  generalize hv : Verdict.unsafePath path = v at h
  induction h generalizing short with
  | safe | undecided | failed => cases hv
  | @real x x' a a₁ a' n route t hrun hpath hrefine =>
    cases hv
    obtain ⟨⟨short', hx'⟩, htarget⟩ := Exploration.run_reached hA hx (fun e he => by cases he) hrun
    obtain ⟨ha₁, hvalid, -⟩ := hx'.attended hA
    obtain ⟨node, hnode, herror⟩ := htarget n rfl
    obtain ⟨-, -, hsound⟩ := Analysis.refine_ok ha₁ hvalid.states hrefine
    obtain ⟨hop, node', hhop, hnode', hlast, hexec⟩ := hsound _ rfl
    -- the path ends at the target
    have htarget := (Graph.reaches_of_pathTo hpath).2
    rw [hhop] at htarget
    cases htarget
    cases hnode.symm.trans hnode'
    exact ⟨hop.node, node, hlast, hnode, herror, hexec⟩
  | @spurious x x₁ x₂ x' a a₁ a₂ a₃ a' n root route precision v hrun hpath hrefine hrestart _ ih =>
    obtain ⟨⟨short', hx'⟩, -⟩ := Exploration.run_reached hA hx (fun e he => by cases he) hrun
    exact ih ((hx'.refine hrefine).restart hrestart) hv

/-- A program that is found unsafe has an execution from the entry to the error location where the
path that is returned ends. The order in which numbers are freed does not matter. -/
theorem executes_of_violation (hA : p.automaton.WellFormed) {freeing : Freeing} {max : Nat}
    {a₀ : Analysis} {r : Report}
    (hnew : Analysis.new p.options = .ok a₀) (hrun : checkWith freeing p max a₀ = .ok (r, a))
    {path : TargetPath} (hverdict : r.verdict = .unsafePath path) :
    ∃ (n : NodeId) (node : GraphNode), path.nodes.getLast? = some n ∧
      r.exploration.graph.nodes[n]? = some node ∧ p.automaton.IsError node.location ∧
      ∃ σ σ', p.automaton.Executes (p.automaton.entry, σ) (node.location, σ') := by
  obtain ⟨x, a₁, -, hx, hends⟩ := checkWith_ends hnew hrun
  rw [hverdict] at hends
  exact hends.violates hA hx

/-- Two branches meet before the error location, which is behind `x = 1`. -/
def diamond : Problem where
  automaton := {
    nodes := #[.entryOf "main", .plain "main", .plain "main", .plain "main", .errorOf "main"]
    edges :=
      #[⟨⟨0⟩, ⟨1⟩, .assume (.cmp .lt varX (.num 0)) true⟩,
        ⟨⟨0⟩, ⟨2⟩, .assume (.cmp .lt varX (.num 0)) false⟩, ⟨⟨1⟩, ⟨3⟩, .blank⟩, ⟨⟨2⟩, ⟨3⟩, .blank⟩,
        ⟨⟨3⟩, ⟨4⟩, .assume (.eq varX (.num 1)) true⟩]
    entry := ⟨0⟩
    joins := by decide }
  options := {}

theorem executes_of_violation_diamond : ∃ (a₀ a : Analysis) (r : Report) (path : TargetPath),
    Analysis.new diamond.options = .ok a₀ ∧ check diamond 5 a₀ = .ok (r, a) ∧
    r.verdict = .unsafePath path ∧ ∃ (n : NodeId) (node : GraphNode),
      path.nodes.getLast? = some n ∧ r.exploration.graph.nodes[n]? = some node ∧
      diamond.automaton.IsError node.location ∧
      ∃ σ σ', diamond.automaton.Executes (diamond.automaton.entry, σ) (node.location, σ') := by
  have hrun : endsWith diamond 5 (fun r _ => r.verdict matches .unsafePath _) = true := by
    decide +kernel
  obtain ⟨a₀, r, a, hnew, hcheck, hverdict⟩ := endsWith_eq_true hrun
  have hpath : ∃ path, r.verdict = .unsafePath path := by
    split at hverdict
    · next path heq => exact ⟨path, heq⟩
    · cases hverdict
  obtain ⟨path, hpath⟩ := hpath
  have hA : diamond.automaton.WellFormed := by decide +kernel
  exact ⟨a₀, a, r, path, hnew, hcheck, hpath, executes_of_violation hA hnew hcheck hpath⟩

/-! ## Safe programs -/

/-- A safe verdict without merging leaves nothing to expand. -/
theorem Ends.complete (hA : p.automaton.WellFormed) (hsep : p.options.merge = .sep)
    {x x' : Exploration} (hx : Exploration.Ready p x a) (h : Ends p x a .safe x' a') :
    Exploration.Ready p x' a' ∧ x'.waitlist = [] := by
  generalize hv : Verdict.safe = v at h
  induction h with
  | real | undecided | failed => cases hv
  | safe hrun =>
    obtain ⟨hreached, hrooted, herrors, hwait⟩ := hx.run hA hsep (fun e he => by cases he) hrun
    refine ⟨⟨hreached, hrooted, fun m node hm he => ?_⟩, hwait rfl⟩
    exact (herrors m node hm he).resolve_right fun h => by cases h
  | @spurious x x₁ x₂ x' a a₁ a₂ a₃ a' n root path precision v hrun hpath hrefine hrestart _ ih =>
    obtain ⟨hreached, hrooted, herrors, -⟩ := hx.run hA hsep (fun e he => by cases he) hrun
    obtain ⟨short, hx'⟩ := hx.reached
    obtain ⟨-, htarget⟩ := Exploration.run_reached hA hx' (fun e he => by cases he) hrun
    obtain ⟨node, hnode, -⟩ := htarget n rfl
    exact ih (.restart hA hreached hrooted herrors (Graph.contains_iff.2 ⟨node, hnode⟩) hpath
      hrefine hrestart) hv

/-- Every execution from the entry stays within what the nodes of a finished exploration stand for.
-/
theorem represented_of_executes (hA : p.automaton.WellFormed) (hsep : p.options.merge = .sep)
    {x : Exploration} (hx : Exploration.Ready p x a) (hdone : x.waitlist = [])
    (htruthful : a.Truthful) {σ : Store} {c : Location × Store}
    (hexec : p.automaton.Executes (p.automaton.entry, σ) c) :
    ∃ (n : NodeId) (node : GraphNode), x.graph.nodes[n]? = some node ∧ node.location = c.1 ∧
      node.state.StandsFor p.automaton a.arena c.2 := by
  obtain ⟨short, hreached⟩ := hx.reached
  obtain ⟨-, -, hall⟩ := hreached.attended hA
  induction hexec with
  | refl =>
    obtain ⟨r, node, -, hnode, hl, hσ⟩ := hx.rooted
    exact ⟨r, node, hnode, hl, hσ σ⟩
  | @tail c c' _ hstep ih =>
    obtain ⟨n, node, hnode, hl, hσ⟩ := ih
    obtain ⟨edge, hedge, hsource, htarget, hstep⟩ := hstep
    have hclosed : Exploration.Closed p.automaton a.arena x n := by
      rcases hall htruthful n (Graph.contains_iff.2 ⟨node, hnode⟩) with (hw | ⟨v, hv, he⟩ | hc) | hs
      · rw [hdone] at hw
        cases hw
      · have hw := hx.errors n v hv he
        rw [hdone] at hw
        cases hw
      · exact hc
      · exact absurd hs (hreached.not_short hA hsep n)
    obtain ⟨m, node', -, hm, hl', hσ'⟩ :=
      hclosed node hnode edge hedge (hsource.trans hl.symm) c.2 c'.2 hσ hstep
    exact ⟨m, node', hm, hl'.trans htarget, hσ'⟩

/-- A program that is found safe without merging has no execution from the entry to an error
location, if the solver was right about every question that it called unsatisfiable. The order in
which numbers are freed does not matter. -/
theorem not_isError_of_safe (hA : p.automaton.WellFormed) (hsep : p.options.merge = .sep)
    {freeing : Freeing} {max : Nat} {a₀ : Analysis} {r : Report}
    (hnew : Analysis.new p.options = .ok a₀) (hrun : checkWith freeing p max a₀ = .ok (r, a))
    (hsafe : r.verdict = .safe) (htruthful : a.Truthful)
    {σ σ' : Store} {l : Location}
    (hexec : p.automaton.Executes (p.automaton.entry, σ) (l, σ')) : ¬ p.automaton.IsError l := by
  intro herror
  obtain ⟨x, a₁, hstart, hx, hends⟩ := checkWith_ends hnew hrun
  obtain ⟨-, -, hrooted, hwait⟩ := Exploration.start_ok (Analysis.valid_new hnew).1 hstart
  have hready : Exploration.Ready p x a₁ :=
    ⟨⟨_, hx⟩, hrooted, fun m node hm _ => hwait m (Graph.contains_iff.2 ⟨node, hm⟩)⟩
  rw [hsafe] at hends
  obtain ⟨hfinal, hdone⟩ := hends.complete hA hsep hready
  obtain ⟨n, node, hnode, hl, -⟩ := represented_of_executes hA hsep hfinal hdone htruthful hexec
  have hw := hfinal.errors n node hnode (hl ▸ herror)
  rw [hdone] at hw
  cases hw

/-- The error location is behind `x = 2`, but `x` is set to `1`. It takes one refinement to find
out, as every state is abstracted. -/
def guarded : Problem where
  automaton := {
    nodes := #[.entryOf "main", .plain "main", .errorOf "main"]
    edges :=
      #[⟨⟨0⟩, ⟨1⟩, .assign varX (.num 1)⟩, ⟨⟨1⟩, ⟨2⟩, .assume (.eq varX (.num 2)) true⟩]
    entry := ⟨0⟩
    joins := by decide }
  options := { merge := .sep, blockSize := 1 }

/-- The formula that `x` is `c` after the first edge. -/
def guardedValue (c : Int128) : Expr := .eq (.var ⟨"x", .int, some 1⟩) (.num c)

/-- The second edge is taken. -/
def guardedTest : Expr := .logic .and (guardedValue 2) (.var (Var.branch 1 1))

/-- The questions that were answered with `unsat` when `guarded` was checked. -/
def guardedQuestions : List (List Expr) :=
  [[.logic .and (.not (guardedValue 2)) guardedTest],
    [guardedValue 1, guardedValue 2],
    [.logic .and (.not (guardedValue 2)) guardedTest],
    [.logic .and (.logic .and (guardedValue 1) (.not (guardedValue 2))) guardedTest],
    [.logic .and (guardedValue 1) (guardedValue 2)],
    [.logic .and (guardedValue 1) (.not (guardedValue 1))],
    [.logic .and (guardedValue 1) guardedTest]]

/-- What was answered with `unsat` has no model. -/
theorem not_models_guardedQuestions {cs : List Expr} (hcs : cs ∈ guardedQuestions)
    {m : Assignment} (hm : m.Typed) : ¬ m.Models cs := by
  have hsorted : ∀ cs ∈ guardedQuestions, ∀ c ∈ cs, c.WellSorted ∧ c.ty = .bool := by
    decide +kernel
  have hformula : ∀ c ∈ cs, c.IsFormula fun _ => True :=
    fun c hc => ⟨(hsorted cs hcs c hc).1, (hsorted cs hcs c hc).2, fun _ _ => trivial⟩
  rw [Assignment.models_iff hm hformula]
  have hvalue : ∀ c, (guardedValue c).truth (m.env hm) = true →
      (m.env hm).val ⟨"x", .int, some 1⟩ = .int c := fun c h =>
    (Expr.truth_eq (l := .var ⟨"x", .int, some 1⟩) (r := .num c) rfl).1 h
  -- the variable cannot have both values
  have hdiffer : ¬ ((guardedValue 1).truth (m.env hm) = true ∧
      (guardedValue 2).truth (m.env hm) = true) := by
    rintro ⟨hone, htwo⟩
    cases (hvalue 1 hone).symm.trans (hvalue 2 htwo)
  simp only [guardedQuestions, List.mem_cons, List.not_mem_nil, or_false] at hcs
  rcases hcs with rfl | rfl | rfl | rfl | rfl | rfl | rfl <;>
    simp [Env.Models, guardedTest, LogicOp.combine] <;> grind

/-- No execution of `guarded` reaches the error location. -/
theorem not_isError_of_safe_guarded : ∃ (a₀ a : Analysis) (r : Report),
    Analysis.new guarded.options = .ok a₀ ∧ check guarded 5 a₀ = .ok (r, a) ∧
    r.verdict = .safe ∧ r.rounds.length = 1 ∧ a.Truthful ∧
    ∀ (σ σ' : Store) (l : Location),
      guarded.automaton.Executes (guarded.automaton.entry, σ) (l, σ') →
      ¬ guarded.automaton.IsError l := by
  have hrun : endsWith guarded 5 (fun r a => (r.verdict matches .safe) && r.rounds.length = 1 &&
      ((a.solver.transcript.filter (·.answer = .unsat)).map (·.assertions) =
        guardedQuestions)) = true := by
    decide +kernel
  obtain ⟨a₀, r, a, hnew, hcheck, hend⟩ := endsWith_eq_true hrun
  simp only [Bool.and_eq_true, decide_eq_true_eq] at hend
  obtain ⟨⟨hverdict, hrounds⟩, hquestions⟩ := hend
  have hsafe : r.verdict = .safe := by
    split at hverdict
    · next heq => exact heq
    · cases hverdict
  have htruthful : a.Truthful := by
    intro q hq hunsat m hm
    refine not_models_guardedQuestions ?_ hm
    rw [← hquestions]
    exact List.mem_map.2 ⟨q, List.mem_filter.2 ⟨hq, by simp [hunsat]⟩, rfl⟩
  have hA : guarded.automaton.WellFormed := by decide +kernel
  exact ⟨a₀, a, r, hnew, hcheck, hsafe, hrounds, htruthful, fun σ σ' l hexec =>
    not_isError_of_safe hA rfl hnew hcheck hsafe htruthful hexec⟩

end Report

end Cegar

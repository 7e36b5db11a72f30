import Mathlib.Data.Option.Basic
import Cegar.Proofs.Analysis.Sessions

/-!
# Orderly use of an analysis

A session may pass any precision and any edge. In orderly use the precisions have the policy of the
analysis, as all do that it gives out, and a state is only carried along edges that leave its
location. Then it is known for each state on which ways through the program it was computed.

* **`Routed`**: a state with the ways from the start of its block to it;
* **`Orderly`**: sequences of calls, with the ways of the states that they return;
* **`Orderly.session`**: they are sessions.
-/

namespace Cegar

variable {p : Problem} {a a' : Analysis}

/-! ## States with their ways -/

/-- A state, with the ways from the start of its block on which it was computed. -/
structure Routed where
  state : State
  ways : List (List EdgeId)

namespace Routed

/-- The ways to a successor along an edge; an abstraction state starts a block of its own. -/
def next (t : Routed) (e : EdgeId) : State → Routed
  | .abstraction id => ⟨.abstraction id, [[]]⟩
  | s => ⟨s, t.ways.map (· ++ [e])⟩

/-- What the computation of a successor gave. -/
def successor (t : Routed) (e : EdgeId) : Except Error (Option State) → List Routed
  | .ok (some s) => [t.next e s]
  | .ok none | .error _ => []

/-- What the computation of all successors gave. -/
def successors (t : Routed) : Except Error (List (EdgeId × State)) → List Routed
  | .ok rs => rs.map fun r => t.next r.1 r.2
  | .error _ => []

@[simp] theorem next_state (t : Routed) (e : EdgeId) (s : State) : (t.next e s).state = s := by
  cases s <;> rfl

/-- The two states merged into one. -/
def merged (t u : Routed) (s : State) : Routed := ⟨s, t.ways ++ u.ways⟩

end Routed

/-- A new analysis was used by a sequence of calls, with precisions that have its policy and along
edges that leave the states that they were given for. The states are those that the calls returned,
and a state that was merged or has succeeded another one has the ways of what it came from. -/
inductive Orderly (p : Problem) : List Routed → Analysis → Prop
  | start {a : Analysis} (h : Analysis.new p.options = .ok a) : Orderly p [] a
  | initialState {given : List Routed} {a a' : Analysis} {l : Location} {s : State}
      (hs : Orderly p given a) (h : Analysis.initialState l a = .ok (s, a')) :
      Orderly p (⟨s, [[]]⟩ :: given) a'
  | successor {given : List Routed} {a a' : Analysis} {precision : Precision} {t : Routed}
      {l : Location} {e : EdgeId} {r : Except Error (Option State)} (hs : Orderly p given a)
      (ht : t ∈ given) (hpolicy : precision.policy = p.options.toPolicy)
      (hlocation : t.state.location? a.arena = .ok (some l)) (hleaves : e ∈ p.automaton.leaving l)
      (h : Analysis.successor p precision t.state e a = .ok (r, a')) :
      Orderly p (t.successor e r ++ given) a'
  | successors {given : List Routed} {a a' : Analysis} {precision : Precision} {t : Routed}
      {r : Except Error (List (EdgeId × State))} (hs : Orderly p given a) (ht : t ∈ given)
      (hpolicy : precision.policy = p.options.toPolicy)
      (h : Analysis.successors p precision t.state a = .ok (r, a')) :
      Orderly p (t.successors r ++ given) a'
  | merge {given : List Routed} {a a' : Analysis} {t u : Routed} {r : Option State}
      (hs : Orderly p given a) (ht : t ∈ given) (hu : u ∈ given)
      (h : Analysis.merge? p t.state u.state a = .ok (r, a')) :
      Orderly p (r.toList.map (t.merged u) ++ given) a'
  | covers {given : List Routed} {a a' : Analysis} {t u : Routed} {b : Bool}
      (hs : Orderly p given a) (ht : t ∈ given) (hu : u ∈ given)
      (h : Analysis.covers p t.state u.state a = .ok (b, a')) : Orderly p given a'
  | refine {given : List Routed} {a a' : Analysis} {g : Graph} {path : Path}
      {r : Except Error Refinement} (hs : Orderly p given a)
      (h : Analysis.refine p g path a = .ok (r, a')) : Orderly p given a'

/-- Orderly calls are a session. -/
theorem Orderly.session {given : List Routed} (h : Orderly p given a) :
    ∃ ss, Session p ss a ∧ ∀ t ∈ given, t.state ∈ ss := by
  induction h with
  | start h => exact ⟨_, .start h, by simp⟩
  | @initialState _ a a' l s _ h ih =>
    obtain ⟨ss, hsession, hss⟩ := ih
    have hrun : (Operation.initialState l).run p a = .ok ([s], a') := state_bind_ok.2 ⟨s, a', h, rfl⟩
    refine ⟨_, .call hsession (by simp [Operation.states]) hrun, ?_⟩
    simpa using fun t ht => .inr (hss t ht)
  | @successor _ a a' precision t _ e r _ ht _ _ _ h ih =>
    obtain ⟨ss, hsession, hss⟩ := ih
    have hstates : ∀ s ∈ (Operation.successor precision t.state e).states, s ∈ ss := by
      simpa [Operation.states] using hss t ht
    cases r with
    | ok o =>
      have hrun : (Operation.successor precision t.state e).run p a = .ok (o.toList, a') :=
        state_bind_ok.2 ⟨.ok o, a', h, rfl⟩
      refine ⟨_, .call hsession hstates hrun, fun u hu => ?_⟩
      rcases List.mem_append.1 hu with hu | hu
      · cases o with
        | none => cases hu
        | some s =>
          cases List.mem_singleton.1 hu
          simp
      · exact List.mem_append_right _ (hss u hu)
    | error x =>
      have hrun : (Operation.successor precision t.state e).run p a = .ok ([], a') :=
        state_bind_ok.2 ⟨.error x, a', h, rfl⟩
      exact ⟨_, .call hsession hstates hrun, hss⟩
  | @successors _ a a' precision t r _ ht _ h ih =>
    obtain ⟨ss, hsession, hss⟩ := ih
    have hstates : ∀ s ∈ (Operation.successors precision t.state).states, s ∈ ss := by
      simpa [Operation.states] using hss t ht
    cases r with
    | ok rs =>
      have hrun : (Operation.successors precision t.state).run p a = .ok (rs.map (·.2), a') :=
        state_bind_ok.2 ⟨.ok rs, a', h, rfl⟩
      refine ⟨_, .call hsession hstates hrun, fun u hu => ?_⟩
      rcases List.mem_append.1 hu with hu | hu
      · obtain ⟨r, hr, rfl⟩ := List.mem_map.1 hu
        rw [Routed.next_state]
        exact List.mem_append_left _ (List.mem_map_of_mem hr)
      · exact List.mem_append_right _ (hss u hu)
    | error x =>
      have hrun : (Operation.successors precision t.state).run p a = .ok ([], a') :=
        state_bind_ok.2 ⟨.error x, a', h, rfl⟩
      exact ⟨_, .call hsession hstates hrun, hss⟩
  | @merge _ a a' t u r _ ht hu h ih =>
    obtain ⟨ss, hsession, hss⟩ := ih
    have hrun : (Operation.merge t.state u.state).run p a = .ok ([r.getD u.state], a') :=
      state_bind_ok.2 ⟨_, a', state_bind_ok.2 ⟨r, a', h, rfl⟩, rfl⟩
    refine ⟨_, .call hsession (by simpa [Operation.states] using ⟨hss t ht, hss u hu⟩) hrun,
      fun v hv => ?_⟩
    rcases List.mem_append.1 hv with hv | hv
    · obtain ⟨s, hs, rfl⟩ := List.mem_map.1 hv
      simp [Option.mem_toList.1 hs, Routed.merged]
    · exact List.mem_append_right _ (hss v hv)
  | @covers _ a a' t u b _ ht hu h ih =>
    obtain ⟨ss, hsession, hss⟩ := ih
    have hrun : (Operation.covers t.state u.state).run p a = .ok ([], a') :=
      state_bind_ok.2 ⟨b, a', h, rfl⟩
    exact ⟨_, .call hsession (by simpa [Operation.states] using ⟨hss t ht, hss u hu⟩) hrun, hss⟩
  | @refine _ a a' g path r _ h ih =>
    obtain ⟨ss, hsession, hss⟩ := ih
    have hrun : (Operation.refine g path).run p a = .ok ([], a') := state_bind_ok.2 ⟨r, a', h, rfl⟩
    exact ⟨_, .call hsession (by simp [Operation.states]) hrun, hss⟩

/-! ## Calls that can be computed -/

/-- A call for states that were given before, by their places. -/
inductive Call where
  | successor (i : Nat) (e : EdgeId)
  | merge (i j : Nat)

namespace Orderly

variable {given given' : List Routed}

/-- An initial state of a new analysis. -/
def begin? (p : Problem) (l : Location) : Option (List Routed × Analysis) :=
  (Session.begin? p l).map fun x => ([⟨x.1, [[]]⟩], x.2)

/-- What is given after one more call. -/
def call? (p : Problem) (c : Call) (x : List Routed × Analysis) : Option (List Routed × Analysis) :=
  match c with
  | .successor i e => do
    let t ← x.1[i]?
    let l ← (t.state.location? x.2.arena).toOption.join
    guard (e ∈ p.automaton.leaving l)
    let r ← (Analysis.successor p (.empty p.options.toPolicy) t.state e x.2).toOption
    return (t.successor e r.1 ++ x.1, r.2)
  | .merge i j => do
    let t ← x.1[i]?
    let u ← x.1[j]?
    let r ← (Analysis.merge? p t.state u.state x.2).toOption
    return (r.1.toList.map (t.merged u) ++ x.1, r.2)

theorem of_begin? {l : Location} (h : begin? p l = some (given, a)) : Orderly p given a := by
  obtain ⟨x, hbegin, heq⟩ := Option.map_eq_some_iff.1 h
  cases heq
  obtain ⟨a₀, hnew, hinit⟩ := except_bind_ok.1 (except_toOption_eq_some.1 hbegin)
  exact .initialState (.start hnew) hinit

/-- A call for states that were given before is orderly. -/
theorem of_call? {c : Call} (hs : Orderly p given a)
    (h : call? p c (given, a) = some (given', a')) : Orderly p given' a' := by
  cases c with
  | successor i e =>
    obtain ⟨t, ht, h⟩ := Option.bind_eq_some_iff.1 h
    obtain ⟨l, hl, h⟩ := Option.bind_eq_some_iff.1 h
    obtain ⟨_, hleaves, h⟩ := Option.bind_eq_some_iff.1 h
    obtain ⟨r, hr, h⟩ := Option.bind_eq_some_iff.1 h
    cases h
    have hlocation : t.state.location? a.arena = .ok (some l) :=
      except_toOption_eq_some.1 (Option.join_eq_some_iff.1 hl)
    exact .successor hs (List.mem_of_getElem? ht) rfl hlocation
      ((Option.guard_eq_some' _).1 hleaves) (except_toOption_eq_some.1 hr)
  | merge i j =>
    obtain ⟨t, ht, h⟩ := Option.bind_eq_some_iff.1 h
    obtain ⟨u, hu, h⟩ := Option.bind_eq_some_iff.1 h
    obtain ⟨r, hr, h⟩ := Option.bind_eq_some_iff.1 h
    cases h
    exact .merge hs (List.mem_of_getElem? ht) (List.mem_of_getElem? hu)
      (except_toOption_eq_some.1 hr)

/-- Any number of calls are orderly. -/
theorem of_calls? {cs : List Call} (hs : Orderly p given a)
    (h : cs.foldlM (fun x c => call? p c x) (given, a) = some (given', a')) :
    Orderly p given' a' := by
  induction cs generalizing given a with
  | nil =>
    cases h
    exact hs
  | cons c cs ih =>
    rw [List.foldlM_cons] at h
    obtain ⟨⟨given₁, a₁⟩, hcall, hrest⟩ := Option.bind_eq_some_iff.1 h
    exact ih (hs.of_call? hcall) hrest

end Orderly

end Cegar

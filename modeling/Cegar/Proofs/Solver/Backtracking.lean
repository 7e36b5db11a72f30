import Cegar.Proofs.Evaluation
import Cegar.Solver.Search

/-!
# Backtracking

The search changes one assignment in place and takes back what it assigned when it finds no model. It
comes to the same as a search that keeps the assignment from before and goes back to it: only open
variables are forced, so that taking back the variables on the trail undoes propagation, also one that
ended in the middle of a pass; and a variable that is tried was open, so that taking it back undoes
the last of its values. The proofs about the search are about the plain one.

* **`Query.pass`**, **`Query.propagate`**, **`Query.step`**, **`Query.tryFrom`**, **`Query.settle`**:
  the parts of the plain search;
* **`Search.start_propagate`**: what is on the trail is what propagation assigned;
* **`Search.step_eq`**, **`Search.tryFrom_eq`**, **`Search.settle_eq`**: a part of the search is the
  plain one if what it goes on with takes back what it assigned;
* **`Query.search_eq`**: the search is the plain one.
-/

namespace Cegar

/-! ## The plain search -/

namespace Query

/-- One pass over the conjuncts; `changed` tells whether a value was forced. None if a conjunct is
false. -/
def pass : List Expr → (changed : Bool) → Assignment → Option (Bool × Assignment)
  | [], changed, a => some (changed, a)
  | c :: cs, changed, a =>
    match c.eval a false with
    | some (.bool false) => none
    | some _ => pass cs changed a
    | none =>
      match forced? a c with
      | some (v, x) => pass cs true (a.insert v x)
      | none => pass cs changed a

/-- Passes until nothing changes, at most `n`. -/
def propagateWithin (cs : List Expr) : Nat → Assignment → Option Assignment
  | 0, a => some a
  | n + 1, a =>
    match pass cs false a with
    | none => none
    | some (true, a) => propagateWithin cs n a
    | some (false, a) => some a

/-- Assigns what the conjuncts force; none if one of them is false. Every pass but the last assigns
a variable, so one pass more than there are variables is enough. -/
def propagate (q : Query) (a : Assignment) : Option Assignment :=
  propagateWithin q.conjuncts (q.vars.length + 1) a

/-- One step: propagates, then goes on with `next`. Unless that finds a model, the assignment is the
one from before. -/
def step (q : Query) (next : Assignment → Effort → Except Abort Result)
    (a : Assignment) (e : Effort) : Except Abort Result :=
  let e := { e with steps := e.steps + 1 }
  if stepLimit < e.steps then .ok ⟨none, a, e⟩
  else match q.propagate a with
    | none => .ok ⟨some false, a, e⟩
    | some a' =>
      match next a' e with
      | .error f => .error f
      | .ok r => .ok (if r.verdict = some true then r else { r with assignment := a })

/-- Tries the `n` values of a domain from position `i` on, until one leads to a model or the steps
run out. -/
def tryFrom (d : Domain) (attempt : Value → Effort → Except Abort Result) (a : Assignment) :
    (n i : Nat) → Effort → Except Abort Result
  | 0, _, e => .ok ⟨some false, a, e⟩
  | n + 1, i, e =>
    match attempt (d.get i) e with
    | .error f => .error f
    | .ok r =>
      match r.verdict with
      | some true => .ok r
      | some false => tryFrom d attempt a n (i + 1) r.effort
      | none => .ok { r with assignment := a }

/-- Settles the open ones among the given variables in turn. -/
def settle (q : Query) (range : Int128) :
    List Var → Assignment → Effort → Except Abort Result
  | [], a, e => .ok ⟨some true, a, e⟩
  | x :: xs, a, e =>
    if a.contains x then settle q range xs a e
    else match q.domain range x a with
      | .error f => .error f
      | .ok d =>
        tryFrom d (fun v e => q.step (fun a e => settle q range xs a e) (a.insert x v) e) a
          d.size 0 { e with cut := e.cut || d.isCut }

/-! ## Forced values -/

variable {a : Assignment}

/-- An expression stands for an open variable only if it is one. -/
theorem open?_eq_some {e : Expr} {v : Var} :
    open? a e = some v ↔ e = .var v ∧ a.contains v = false := by
  unfold open?
  split
  · next w =>
    by_cases hw : a.contains w
    · simp only [hw, if_true, reduceCtorEq, Expr.var.injEq, false_iff, not_and]
      rintro rfl
      simp [hw]
    · simp only [hw, Bool.false_eq_true, if_false, Option.some.injEq, Expr.var.injEq]
      constructor
      · rintro rfl
        exact ⟨rfl, Bool.eq_false_iff.2 hw⟩
      · exact fun h => h.1
  · next hne =>
    simp only [reduceCtorEq, false_iff, not_and]
    rintro rfl
    exact absurd rfl (hne v)

/-- A value is forced on an open variable by a literal or by an equation. -/
theorem forced?_eq_some {c : Expr} {v : Var} {x : Value} (h : forced? a c = some (v, x)) :
    a.contains v = false ∧ ((c = .var v ∧ x = .bool true) ∨ (c = .not (.var v) ∧ x = .bool false) ∨
      ∃ t, (c = .cmp .eq (.var v) t ∨ c = .cmp .eq t (.var v)) ∧ t.eval a false = some x) := by
  unfold forced? at h
  split at h
  · next w =>
    obtain ⟨u, hu, heq⟩ := Option.map_eq_some_iff.1 h
    cases heq
    obtain ⟨hw, hopen⟩ := open?_eq_some.1 hu
    exact ⟨hopen, .inl ⟨hw, rfl⟩⟩
  · next e =>
    obtain ⟨u, hu, heq⟩ := Option.map_eq_some_iff.1 h
    cases heq
    obtain ⟨rfl, hopen⟩ := open?_eq_some.1 hu
    exact ⟨hopen, .inr (.inl ⟨rfl, rfl⟩)⟩
  · next l r =>
    split at h
    · next u hu =>
      obtain ⟨y, hy, heq⟩ := Option.map_eq_some_iff.1 h
      cases heq
      obtain ⟨rfl, hopen⟩ := open?_eq_some.1 hu
      exact ⟨hopen, .inr (.inr ⟨r, .inl rfl, hy⟩)⟩
    · next u _ hu =>
      obtain ⟨y, hy, heq⟩ := Option.map_eq_some_iff.1 h
      cases heq
      obtain ⟨rfl, hopen⟩ := open?_eq_some.1 hu
      exact ⟨hopen, .inr (.inr ⟨l, .inr rfl, hy⟩)⟩
    · cases h
  · cases h

/-! ## What the parts can come to -/

/-- What trying the next value can come to: a model, a failure after which the others are tried, or
no verdict. -/
theorem tryFrom_ok {d : Domain} {attempt : Value → Effort → Except Abort Result} {n i : Nat}
    {e : Effort} {r : Result} (h : tryFrom d attempt a (n + 1) i e = .ok r) :
    ∃ r', attempt (d.get i) e = .ok r' ∧ ((r'.verdict = some true ∧ r = r') ∨
      (r'.verdict = some false ∧ tryFrom d attempt a n (i + 1) r'.effort = .ok r) ∨
      (r'.verdict = none ∧ r = { r' with assignment := a })) := by
  rw [tryFrom] at h
  split at h
  · cases h
  · next r' hr' =>
    refine ⟨r', hr', ?_⟩
    split at h
    · next hv =>
      cases h
      exact .inl ⟨hv, rfl⟩
    · next hv => exact .inr (.inl ⟨hv, h⟩)
    · next hv =>
      cases h
      exact .inr (.inr ⟨hv, rfl⟩)

/-- What one step can come to: the steps have run out, a conjunct is false, or the search went on
with what was propagated. -/
theorem step_ok {q : Query} {next : Assignment → Effort → Except Abort Result} {e : Effort}
    {r : Result} (h : q.step next a e = .ok r) :
    (stepLimit < e.steps + 1 ∧ r = ⟨none, a, ⟨e.steps + 1, e.cut⟩⟩) ∨
    (q.propagate a = none ∧ r = ⟨some false, a, ⟨e.steps + 1, e.cut⟩⟩) ∨
    ∃ a' r', q.propagate a = some a' ∧ next a' ⟨e.steps + 1, e.cut⟩ = .ok r' ∧
      r.verdict = r'.verdict ∧ r.effort = r'.effort ∧ (r'.verdict = some true → r = r') := by
  simp only [step] at h
  split at h
  · next hlimit =>
    cases h
    exact .inl ⟨hlimit, rfl⟩
  · split at h
    · next hnone =>
      cases h
      exact .inr (.inl ⟨hnone, rfl⟩)
    · next a' ha' =>
      split at h
      · cases h
      · next r' hr' =>
        cases h
        refine .inr (.inr ⟨a', r', ha', hr', ?_⟩)
        split <;> simp_all

/-- How a variable is settled: it is assigned already, or it is tried with the values of its domain.
-/
theorem settle_cons_ok {q : Query} {range : Int128} {x : Var} {xs : List Var} {e : Effort}
    {r : Result} (h : q.settle range (x :: xs) a e = .ok r) :
    (a.contains x = true ∧ q.settle range xs a e = .ok r) ∨
    (a.contains x = false ∧ ∃ d, q.domain range x a = .ok d ∧
      tryFrom d (fun v e => q.step (q.settle range xs) (a.insert x v) e) a d.size 0
        { e with cut := e.cut || d.isCut } = .ok r) := by
  rw [settle] at h
  split at h
  · next hx => exact .inl ⟨hx, h⟩
  · next hx =>
    split at h
    · cases h
    · next d hd => exact .inr ⟨Bool.eq_false_iff.2 hx, d, hd, h⟩

/-! ## Assignments left behind -/

/-- Without a model, the assignment that is left is the one that was given. -/
def Restores (f : Assignment → Effort → Except Abort Result) : Prop :=
  ∀ a e r, f a e = .ok r → r.verdict ≠ some true → r.assignment = a

/-- A step goes back to the assignment that it was given. -/
theorem restores_step (q : Query) (next : Assignment → Effort → Except Abort Result) :
    Restores (q.step next) := by
  intro a e r h hr
  simp only [step] at h
  split at h
  · cases h
    rfl
  · split at h
    · cases h
      rfl
    · split at h
      · cases h
      · cases h
        split
        · next hverdict => simp_all
        · rfl

/-- A domain that is tried in vain leaves the assignment as it was. -/
theorem tryFrom_restores {d : Domain} {attempt : Value → Effort → Except Abort Result} {n i : Nat}
    {e : Effort} {r : Result} (h : tryFrom d attempt a n i e = .ok r)
    (hr : r.verdict ≠ some true) : r.assignment = a := by
  induction n generalizing i e with
  | zero =>
    cases h
    rfl
  | succ n ih =>
    obtain ⟨r', -, ⟨hv, rfl⟩ | ⟨-, h⟩ | ⟨-, rfl⟩⟩ := tryFrom_ok h
    · exact absurd hv hr
    · exact ih h
    · rfl

/-- Settling variables in vain leaves the assignment as it was. -/
theorem restores_settle (q : Query) (range : Int128) (xs : List Var) :
    Restores (q.settle range xs) := by
  -- induction on the variables: each attempt starts from the assignment that was given
  intro a e r h hr
  induction xs generalizing e with
  | nil =>
    cases h
    exact absurd rfl hr
  | cons x xs ih =>
    rcases settle_cons_ok h with ⟨-, h⟩ | ⟨-, d, -, h⟩
    · exact ih e h
    · exact tryFrom_restores h hr

end Query

/-! ## Taking back -/

namespace Assignment

variable {a : Assignment} {v : Var}

theorem erase_of_open (h : a.contains v = false) : a.erase v = a := by
  refine Std.ExtTreeMap.ext_getElem? fun w => ?_
  rw [Std.ExtTreeMap.getElem?_erase]
  split
  · next heq =>
    cases Std.LawfulEqOrd.compare_eq_iff_eq.1 heq
    rw [Std.ExtTreeMap.contains_eq_isSome_getElem?, Option.isSome_eq_false_iff] at h
    exact (Option.isNone_iff_eq_none.1 h).symm
  · rfl

/-- Taking back an open variable undoes assigning it. -/
theorem erase_insert_of_open (h : a.contains v = false) (x : Value) : (a.insert v x).erase v = a := by
  refine Eq.trans (Std.ExtTreeMap.ext_getElem? fun w => ?_) (erase_of_open h)
  rw [Std.ExtTreeMap.getElem?_erase, Std.ExtTreeMap.getElem?_erase]
  split
  · rfl
  · next hne => rw [Std.ExtTreeMap.getElem?_insert, if_neg hne]

/-- A new value takes the place of the old one. -/
theorem insert_erase (a : Assignment) (v : Var) (x : Value) :
    (a.erase v).insert v x = a.insert v x := by
  refine Std.ExtTreeMap.ext_getElem? fun w => ?_
  rw [Std.ExtTreeMap.getElem?_insert, Std.ExtTreeMap.getElem?_insert]
  split
  · rfl
  · next hne => rw [Std.ExtTreeMap.getElem?_erase, if_neg hne]

end Assignment

namespace Search

open Query

variable {q : Query} {range : Int128} {a : Assignment} {t : Trail} {cs : List Expr}

/-- The assignment that a trail leads from. -/
def Trail.start (t : Trail) : Assignment := takeBack t.assigned t.assignment

/-- Assigning an open variable does not change where the trail leads from. -/
theorem Trail.start_assign {v : Var} (h : t.assignment.contains v = false) (x : Value) :
    (t.assign v x).start = t.start := by
  show takeBack t.assigned ((t.assignment.insert v x).erase v) = _
  rw [Assignment.erase_insert_of_open h]
  rfl

/-- A pass notes what it assigns, also if it ends at a conjunct that is false. -/
theorem start_pass (cs : List Expr) (changed : Bool) (t : Trail) :
    (pass cs changed t).2.start = t.start := by
  induction cs generalizing changed t with
  | nil => rfl
  | cons c cs ih =>
    simp only [pass]
    split
    · rfl
    · exact ih changed t
    · split
      · next v x hforced =>
        rw [ih, Trail.start_assign (forced?_eq_some hforced).1]
      · exact ih changed t

/-- Propagation does not change where the trail leads from. -/
theorem start_propagateWithin (cs : List Expr) (n : Nat) (t : Trail) :
    (propagateWithin cs n t).2.start = t.start := by
  induction n generalizing t with
  | zero => rfl
  | succ n ih =>
    have hpass := start_pass cs false t
    simp only [propagateWithin]
    split
    · next hresult => rwa [hresult] at hpass
    · next hresult =>
      rw [hresult] at hpass
      rw [ih, hpass]
    · next hresult => rwa [hresult] at hpass

/-- The trail of propagation leads back to where it began. -/
theorem start_propagate (q : Query) (a : Assignment) : (propagate q a).2.start = a :=
  start_propagateWithin _ _ _

/-! ## The same assignments -/

/-- A pass with a trail does to the assignment what the plain one does. -/
theorem pass_eq (cs : List Expr) (changed : Bool) (t : Trail) :
    Query.pass cs changed t.assignment = (pass cs changed t).1.map fun changed' =>
      (changed', (pass cs changed t).2.assignment) := by
  induction cs generalizing changed t with
  | nil => rfl
  | cons c cs ih =>
    simp only [Query.pass, pass]
    cases c.eval t.assignment false with
    | some x =>
      cases x with
      | bool b =>
        cases b with
        | false => rfl
        | true => exact ih changed t
      | int n => exact ih changed t
    | none =>
      cases forced? t.assignment c with
      | some p => exact ih true (t.assign p.1 p.2)
      | none => exact ih changed t

/-- What the plain search sees of a propagation: the assignment, unless a conjunct is false. -/
def plain (p : Bool × Trail) : Option Assignment := if p.1 then some p.2.assignment else none

/-- Propagation with a trail does to the assignment what the plain one does. -/
theorem propagateWithin_eq (cs : List Expr) (n : Nat) (t : Trail) :
    Query.propagateWithin cs n t.assignment = plain (propagateWithin cs n t) := by
  induction n generalizing t with
  | zero => rfl
  | succ n ih =>
    simp only [Query.propagateWithin, propagateWithin, pass_eq cs false t]
    obtain ⟨found, t'⟩ := pass cs false t
    cases found with
    | none => rfl
    | some changed =>
      cases changed with
      | true => exact ih t'
      | false => rfl

theorem propagate_eq (q : Query) (a : Assignment) : q.propagate a = plain (propagate q a) :=
  propagateWithin_eq q.conjuncts (q.vars.length + 1) ⟨a, []⟩

/-! ## The same search -/

/-- What was propagated can be taken back if `next` takes back what it assigned. -/
theorem step_eq {next : Assignment → Effort → Except Abort Result} (hnext : Restores next)
    (a : Assignment) (e : Effort) : step q next a e = q.step next a e := by
  have hstart := start_propagate q a
  simp only [step, Query.step, propagate_eq]
  generalize propagate q a = p at hstart ⊢
  obtain ⟨consistent, t⟩ := p
  have hback : takeBack t.assigned t.assignment = a := hstart
  split
  · rfl
  cases consistent with
  | false => simp only [plain, Bool.false_eq_true, if_false, hback]
  | true =>
    simp only [plain, if_true]
    cases hresult : next t.assignment ⟨e.steps + 1, e.cut⟩ with
    | error f => rfl
    | ok r =>
      refine congrArg Except.ok ?_
      by_cases hr : r.verdict = some true
      · rw [if_pos hr, if_pos hr]
      -- `next` has left the assignment as it was after propagation, where the trail leads back from
      · rw [if_neg hr, if_neg hr, hnext _ _ _ hresult hr, hback]

/-- The values of a variable take each other's place. So what is tried is the assignment from before
with one value, and the last one can be taken back. -/
theorem tryFrom_eq {x : Var} {d : Domain} {attempt : Assignment → Effort → Except Abort Result}
    (hattempt : Restores attempt) {b : Assignment} (hopen : b.contains x = false) (n i : Nat)
    (ha : a.erase x = b) (e : Effort) :
    tryFrom x d attempt n i a e = Query.tryFrom d (fun v e => attempt (b.insert x v) e) b n i e := by
  induction n generalizing i a e with
  | zero =>
    rw [tryFrom, ha]
    rfl
  | succ n ih =>
    have hinsert : a.insert x (d.get i) = b.insert x (d.get i) := by
      rw [← ha, Assignment.insert_erase]
    rw [tryFrom, Query.tryFrom, hinsert]
    cases hresult : attempt (b.insert x (d.get i)) e with
    | error f => rfl
    | ok r =>
      -- unless there is a model, the value that was tried is still there and can be taken back
      have herase (hr : r.verdict ≠ some true) : r.assignment.erase x = b := by
        rw [hattempt _ _ _ hresult hr, Assignment.erase_insert_of_open hopen]
      cases hr : r.verdict with
      | none =>
        simp only [hr]
        rw [herase (by rw [hr]; simp)]
      | some found =>
        cases found with
        | true => simp only [hr]
        | false =>
          simp only [hr]
          exact ih (i + 1) (herase (by rw [hr]; simp)) r.effort

/-- Settling variables with a trail is settling them. -/
theorem settle_eq (q : Query) (range : Int128) (xs : List Var) :
    settle q range xs = q.settle range xs := by
  induction xs with
  | nil => rfl
  | cons x xs ih =>
    funext a e
    rw [settle, Query.settle, ih]
    by_cases hx : a.contains x
    · rw [if_pos hx, if_pos hx]
    · rw [if_neg hx, if_neg hx]
      have hopen : a.contains x = false := Bool.eq_false_iff.2 hx
      have hstep : step q (q.settle range xs) = q.step (q.settle range xs) := by
        funext a e
        exact step_eq (restores_settle q range xs) a e
      cases q.domain range x a with
      | error f => rfl
      | ok d =>
        rw [hstep]
        exact tryFrom_eq (restores_step q _) hopen d.size 0 (Assignment.erase_of_open hopen) _

end Search

/-- Changing one assignment in place and taking back comes to the same as going back to the assignment
from before. -/
theorem Query.search_eq (q : Query) (range : Int128) (a : Assignment) (e : Effort) :
    q.search range a e = q.step (q.settle range q.vars) a e := by
  rw [search, Search.settle_eq]
  exact Search.step_eq (restores_settle q range q.vars) a e

end Cegar

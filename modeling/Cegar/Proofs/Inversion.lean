import Cegar.Analysis.Basic
import Cegar.Encoding

/-!
# What a finished run went through

The operations of the analysis are computations that pass a state on and can be aborted, and some of
them can fail with an error. If a sequence of them finished, so did its parts. These lemmas take a
finished run apart, one bind at a time, for each kind of computation:

* **`except_bind_ok`** for computations without a state,
* **`state_bind_ok`** for computations with a state,
* **`attempt_bind_ok`** for attempts, and
* **`try_bind_ok`** for computations with a state and errors, where the first part may have failed
  and left its state.
-/

namespace Cegar

variable {ε κ σ α β : Type}

/-- A sequence has a result exactly if its first part does and the second part has it from there. -/
theorem except_bind_ok {x : Except ε α} {f : α → Except ε β} {b : β} :
    (x >>= f) = .ok b ↔ ∃ a, x = .ok a ∧ f a = .ok b := by
  cases x <;> simp [bind, Except.bind]

/-- A sequence fails where its first part or its second part does. -/
theorem except_bind_error {x : Except ε α} {f : α → Except ε β} {e : ε} :
    (x >>= f) = .error e ↔ x = .error e ∨ ∃ a, x = .ok a ∧ f a = .error e := by
  cases x <;> simp [bind, Except.bind]

theorem except_toOption_eq_some {x : Except ε α} {a : α} : x.toOption = some a ↔ x = .ok a := by
  cases x <;> simp [Except.toOption]

/-! ## Computations with a state -/

/-- The same for computations with a state, which is passed on. -/
theorem state_bind_ok {x : StateT σ (Except ε) α} {f : α → StateT σ (Except ε) β} {s : σ}
    {r : β × σ} : (x >>= f) s = .ok r ↔ ∃ a s', x s = .ok (a, s') ∧ f a s' = .ok r := by
  show (x s >>= fun p => f p.1 p.2) = .ok r ↔ _
  rw [except_bind_ok]
  exact Prod.exists

@[simp] theorem state_pure_ok {a : α} {s : σ} {r : α × σ} :
    (pure a : StateT σ (Except ε) α) s = .ok r ↔ r = (a, s) := by
  constructor
  · rintro ⟨⟩; rfl
  · rintro rfl; rfl

@[simp] theorem state_get_ok {s : σ} {r : σ × σ} :
    (get : StateT σ (Except ε) σ) s = .ok r ↔ r = (s, s) := by
  constructor
  · rintro ⟨⟩; rfl
  · rintro rfl; rfl

@[simp] theorem state_modify_ok {f : σ → σ} {s : σ} {r : Unit × σ} :
    (modify f : StateT σ (Except ε) Unit) s = .ok r ↔ r = ((), f s) := by
  constructor
  · rintro ⟨⟩; rfl
  · rintro rfl; rfl

@[simp] theorem state_throw_ok {e : ε} {s : σ} {r : α × σ} :
    ¬ (throw e : StateT σ (Except ε) α) s = .ok r := by
  rintro ⟨⟩

/-- A part without state leaves the state as it is. -/
@[simp] theorem state_lift_ok {x : Except ε α} {s s' : σ} {a : α} :
    (liftM x : StateT σ (Except ε) α) s = .ok (a, s') ↔ x = .ok a ∧ s = s' := by
  show (x >>= fun a => Except.ok (a, s)) = .ok (a, s') ↔ _
  rw [except_bind_ok]
  constructor
  · rintro ⟨b, hb, ⟨⟩⟩; exact ⟨hb, rfl⟩
  · rintro ⟨ha, rfl⟩; exact ⟨a, ha, rfl⟩

/-- What follows a look at the state goes on from that state. -/
theorem state_get_bind (f : σ → StateT σ (Except ε) α) (s : σ) : (get >>= f) s = f s s := rfl

/-! ## Attempts -/

/-- An attempt succeeds if both its parts do. -/
theorem attempt_bind_ok {x : ExceptT κ (Except ε) α} {f : α → ExceptT κ (Except ε) β} {b : β} :
    (x >>= f) = .ok (.ok b) ↔ ∃ a, x = .ok (.ok a) ∧ f a = .ok (.ok b) := by
  show (x.run >>= ExceptT.bindCont f) = .ok (.ok b) ↔ _
  rw [except_bind_ok]
  constructor
  · rintro ⟨r, hr, h⟩
    cases r with
    | ok a => exact ⟨a, hr, h⟩
    | error e => cases h
  · rintro ⟨a, ha, h⟩
    exact ⟨.ok a, ha, h⟩

/-- An attempt fails where one of its parts does. -/
theorem attempt_bind_error {x : ExceptT κ (Except ε) α} {f : α → ExceptT κ (Except ε) β} {e : κ} :
    (x >>= f) = .ok (.error e) ↔
      (∃ a, x = .ok (.ok a) ∧ f a = .ok (.error e)) ∨ x = .ok (.error e) := by
  show (x.run >>= ExceptT.bindCont f) = .ok (.error e) ↔ _
  rw [except_bind_ok]
  constructor
  · rintro ⟨r, hr, h⟩
    cases r with
    | ok a => exact .inl ⟨a, hr, h⟩
    | error e' =>
      cases h
      exact .inr hr
  · rintro (⟨a, ha, h⟩ | hx)
    · exact ⟨.ok a, ha, h⟩
    · exact ⟨.error e, hx, rfl⟩

/-- What is lifted can be aborted, but it does not fail. -/
theorem attempt_lift_error {x : Except ε α} {e : κ} :
    (liftM x : ExceptT κ (Except ε) α) ≠ .ok (.error e) := by
  cases x <;> rintro ⟨⟩

@[simp] theorem attempt_pure_ok {a b : α} :
    (pure a : ExceptT κ (Except ε) α) = .ok (.ok b) ↔ b = a := by
  constructor
  · rintro ⟨⟩; rfl
  · rintro rfl; rfl

@[simp] theorem attempt_throw_ok {e : κ} {b : α} :
    ¬ (throw e : ExceptT κ (Except ε) α) = .ok (.ok b) := by
  rintro ⟨⟩

@[simp] theorem attempt_lift_ok {x : Except ε α} {b : α} :
    (liftM x : ExceptT κ (Except ε) α) = .ok (.ok b) ↔ x = .ok b := by
  cases x with
  | ok a =>
    constructor
    · rintro ⟨⟩; rfl
    · rintro ⟨⟩; rfl
  | error e =>
    constructor <;> rintro ⟨⟩

/-! ## Computations with a state and errors -/

/-- The first part succeeds and the second decides, or the first part fails and the state is what it
left. -/
theorem try_bind_ok {x : ExceptT κ (StateT σ (Except ε)) α}
    {f : α → ExceptT κ (StateT σ (Except ε)) β} {s s' : σ} {r : Except κ β} :
    (x >>= f) s = .ok (r, s') ↔
      (∃ a t, x s = .ok (.ok a, t) ∧ f a t = .ok (r, s')) ∨
        ∃ e, x s = .ok (.error e, s') ∧ r = .error e := by
  show (x.run >>= ExceptT.bindCont f) s = .ok (r, s') ↔ _
  rw [state_bind_ok]
  constructor
  · rintro ⟨q, t, hq, h⟩
    cases q with
    | ok a => exact .inl ⟨a, t, hq, h⟩
    | error e => cases h; exact .inr ⟨e, hq, rfl⟩
  · rintro (⟨a, t, ha, h⟩ | ⟨e, he, rfl⟩)
    · exact ⟨.ok a, t, ha, h⟩
    · exact ⟨.error e, s', he, rfl⟩

@[simp] theorem try_pure_ok {a : α} {s : σ} {r : Except κ α × σ} :
    (pure a : ExceptT κ (StateT σ (Except ε)) α) s = .ok r ↔ r = (.ok a, s) := by
  constructor
  · rintro ⟨⟩; rfl
  · rintro rfl; rfl

@[simp] theorem try_throw_ok {e : κ} {s : σ} {r : Except κ α × σ} :
    (throw e : ExceptT κ (StateT σ (Except ε)) α) s = .ok r ↔ r = (.error e, s) := by
  constructor
  · rintro ⟨⟩; rfl
  · rintro rfl; rfl

/-- A part that cannot fail. -/
@[simp] theorem try_lift_ok {x : StateT σ (Except ε) α} {s s' : σ} {r : Except κ α} :
    (liftM x : ExceptT κ (StateT σ (Except ε)) α) s = .ok (r, s') ↔
      ∃ a, x s = .ok (a, s') ∧ r = .ok a := by
  show (Bind.bind x fun a => pure (Except.ok a)) s = .ok (r, s') ↔ _
  rw [state_bind_ok]
  constructor
  · rintro ⟨a, t, ha, ⟨⟩⟩; exact ⟨a, ha, rfl⟩
  · rintro ⟨a, ha, rfl⟩; exact ⟨a, s', ha, rfl⟩

/-- If there is a result, both parts had one. -/
theorem try_bind_ok_ok {x : ExceptT κ (StateT σ (Except ε)) α}
    {f : α → ExceptT κ (StateT σ (Except ε)) β} {s s' : σ} {b : β} :
    (x >>= f) s = .ok (.ok b, s') ↔
      ∃ a t, x s = .ok (.ok a, t) ∧ f a t = .ok (.ok b, s') := by
  rw [try_bind_ok]
  refine ⟨fun h => ?_, .inl⟩
  rcases h with h | ⟨e, -, he⟩
  · exact h
  · cases he

theorem try_get_bind (f : σ → ExceptT κ (StateT σ (Except ε)) α) (s : σ) :
    (get >>= f) s = f s s := rfl

@[simp] theorem try_lift_except_ok {x : Except ε α} {s s' : σ} {a : α} :
    (liftM x : ExceptT κ (StateT σ (Except ε)) α) s = .ok (.ok a, s') ↔ x = .ok a ∧ s = s' := by
  show (liftM (liftM x : StateT σ (Except ε) α) : ExceptT κ (StateT σ (Except ε)) α) s =
    .ok (.ok a, s') ↔ _
  rw [try_lift_ok]
  constructor
  · rintro ⟨b, hb, ⟨⟩⟩
    exact state_lift_ok.1 hb
  · exact fun h => ⟨a, state_lift_ok.2 h, rfl⟩

end Cegar

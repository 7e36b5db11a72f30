import Cegar.Proofs.Inversion

/-!
# Computations in lockstep

Two computations that start from related states and take the same steps return the same, and end in
related states. What the relation leaves out of the states has no influence on the results.

* **`Agree`**: two runs came to the same, a result or an abort;
* **`Lockstep`**: two computations that always do, with the relation before and after;
* **`Lockstep.bind`**, **`Lockstep.try_bind`**: they are put together step by step.
-/

namespace Cegar

variable {ε κ α β σ τ : Type}

/-- Two runs returned the same value and left related states, or were aborted for the same
reason. -/
inductive Agree (R : σ → τ → Prop) : Except ε (α × σ) → Except ε (α × τ) → Prop
  | ok {a : α} {s : σ} {t : τ} (h : R s t) : Agree R (.ok (a, s)) (.ok (a, t))
  | abort {e : ε} : Agree R (.error e) (.error e)

namespace Agree

variable {R S : σ → τ → Prop} {x : Except ε (α × σ)} {y : Except ε (α × τ)}

/-- A weaker relation between the states. -/
theorem mono (h : Agree R x y) (hRS : ∀ s t, R s t → S s t) : Agree S x y := by
  cases h with
  | ok h => exact .ok (hRS _ _ h)
  | abort => exact .abort

/-- A run with a result is matched by one with the same result. -/
theorem of_ok {a : α} {s : σ} (h : Agree R (.ok (a, s)) y) : ∃ t, y = .ok (a, t) ∧ R s t := by
  cases h with
  | ok h => exact ⟨_, rfl, h⟩

/-- The results are the same. -/
theorem fst_eq (h : Agree R x y) : x.map Prod.fst = y.map Prod.fst := by
  cases h <;> rfl

end Agree

/-- From states that are related by `R` the two computations come to the same, and the states are
related by `S` then. -/
def Lockstep (R S : σ → τ → Prop) (x : StateT σ (Except ε) α) (y : StateT τ (Except ε) α) : Prop :=
  ∀ s t, R s t → Agree S (x s) (y t)

variable {R S T : σ → τ → Prop}

theorem lockstep_pure (a : α) : Lockstep R R (pure a : StateT σ (Except ε) α) (pure a) :=
  fun _ _ h => .ok h

theorem lockstep_lift (x : Except ε α) :
    Lockstep R R (liftM x : StateT σ (Except ε) α) (liftM x) := by
  intro s t h
  cases x with
  | ok a => exact .ok h
  | error e => exact .abort

/-- States that are changed on both sides. -/
theorem lockstep_modify {f : σ → σ} {g : τ → τ} (h : ∀ s t, R s t → S (f s) (g t)) :
    Lockstep R S (modify f : StateT σ (Except ε) Unit) (modify g) :=
  fun s t hst => .ok (h s t hst)

/-- What comes next may depend on the states. -/
theorem lockstep_get {f : σ → StateT σ (Except ε) α} {g : τ → StateT τ (Except ε) α}
    (h : ∀ s t, R s t → Agree S (f s s) (g t t)) : Lockstep R S (get >>= f) (get >>= g) :=
  fun s t hst => h s t hst

theorem lockstep_try_get {f : σ → ExceptT κ (StateT σ (Except ε)) α}
    {g : τ → ExceptT κ (StateT τ (Except ε)) α}
    (h : ∀ s t, R s t → Agree S ((f s).run s) ((g t).run t)) :
    Lockstep R S (get >>= f).run (get >>= g).run :=
  fun s t hst => h s t hst

theorem lockstep_ite {c : Prop} [Decidable c] {x x' : StateT σ (Except ε) α}
    {y y' : StateT τ (Except ε) α} (h : Lockstep R S x y) (h' : Lockstep R S x' y') :
    Lockstep R S (if c then x else x') (if c then y else y') := by
  split <;> assumption

namespace Lockstep

variable {x : StateT σ (Except ε) α} {y : StateT τ (Except ε) α}

theorem mono (h : Lockstep R S x y) (hST : ∀ s t, S s t → T s t) : Lockstep R T x y :=
  fun s t hst => (h s t hst).mono hST

/-- Computations in lockstep one after the other. -/
theorem bind {f : α → StateT σ (Except ε) β} {g : α → StateT τ (Except ε) β} (h : Lockstep R S x y)
    (hf : ∀ a, Lockstep S T (f a) (g a)) : Lockstep R T (x >>= f) (y >>= g) := by
  intro s t hst
  have hxy := h s t hst
  show Agree T (x s >>= fun r => f r.1 r.2) (y t >>= fun r => g r.1 r.2)
  generalize x s = u, y t = v at hxy
  cases hxy with
  | ok hst' => exact hf _ _ _ hst'
  | abort => exact .abort

/-- A computation that fails keeps what it did before it failed. -/
theorem try_bind {x : ExceptT κ (StateT σ (Except ε)) α} {y : ExceptT κ (StateT τ (Except ε)) α}
    {f : α → ExceptT κ (StateT σ (Except ε)) β} {g : α → ExceptT κ (StateT τ (Except ε)) β}
    (h : Lockstep R S x.run y.run) (hST : ∀ s t, S s t → T s t)
    (hf : ∀ a, Lockstep S T (f a).run (g a).run) : Lockstep R T (x >>= f).run (y >>= g).run := by
  refine bind (f := ExceptT.bindCont f) (g := ExceptT.bindCont g) h fun r => ?_
  cases r with
  | ok a => exact hf a
  | error e => exact (lockstep_pure (Except.error e)).mono hST

/-- What needs no state comes to the same on both sides, and its result is known from then on. -/
theorem try_lift_bind {x : Except ε α} {f : α → ExceptT κ (StateT σ (Except ε)) β}
    {g : α → ExceptT κ (StateT τ (Except ε)) β}
    (h : ∀ a, x = .ok a → Lockstep R S (f a).run (g a).run) :
    Lockstep R S ((liftM x : ExceptT κ (StateT σ (Except ε)) α) >>= f).run
      ((liftM x : ExceptT κ (StateT τ (Except ε)) α) >>= g).run := by
  intro s t hst
  cases x with
  | ok a => exact h a rfl s t hst
  | error e => exact .abort

theorem try_lift (h : Lockstep R S x y) :
    Lockstep R S (liftM x : ExceptT κ (StateT σ (Except ε)) α).run
      (liftM y : ExceptT κ (StateT τ (Except ε)) α).run := by
  refine bind (f := fun a => pure (Except.ok a)) (g := fun a => pure (Except.ok a)) h fun a => ?_
  exact lockstep_pure (Except.ok a)

end Lockstep

end Cegar

import Cegar.Proofs.Options.Settings
import Mathlib.Data.List.TakeWhile

/-!
# The order of arguments

Arguments that hold all that they say can be given in any order. Faults are found at three stages:
an argument that is not known while the arguments are read, a setting that is made twice or has a
value that it cannot have once all are read, and a value that is no number while settings are stored
one by one. Which stage fails does not depend on the order, and neither does what is stored before.
What comes after a double dash is not looked at.

* **`Argument.readAll_perm`**: rearranged arguments are read alike, as far as they can be read;
* **`Argument.Valid.perm`**, **`Argument.values_perm`**: they are accepted alike, and no setting
  that is accepted has a choice of values;
* **`Options.setAll_congr`**: storing looks at values and flags only;
* **`Options.parse_perm`**: rearranged arguments come to the same.
-/

namespace Cegar

namespace Argument

variable {arg : String} {args args' : List String} {as as' : List Argument} {o : OptionName}

/-- An argument that means the same wherever it stands. It starts like an option, so that it is not
the value of the argument before it, and it does not end the options. Flags `--f` and options with
their value, `--name=value`, are such, whatever the name and the value. -/
def Standalone (arg : String) : Prop := isDashed arg = true ∧ arg ≠ "--"

instance (arg : String) : Decidable (Standalone arg) := inferInstanceAs (Decidable (_ ∧ _))

/-! ## Reading -/

/-- An argument that no value follows is read on its own. -/
theorem readAll_cons_of_dashed (h : ∀ t ∈ args, isDashed t = true) :
    readAll (arg :: args) = (do return (← ofText arg) :: (← readAll args)) := by
  cases args with
  | nil => rfl
  | cons t rest =>
    have ht : isDashed t = true := h t List.mem_cons_self
    rw [readAll]
    refine bind_congr fun a => ?_
    split
    · rw [if_pos ht]
    · rfl

/-- A rearrangement of arguments that can be read is read as a rearrangement. -/
theorem readAll_perm (hperm : args.Perm args') (hargs : ∀ t ∈ args, isDashed t = true)
    (h : readAll args = .ok as) : ∃ as', readAll args' = .ok as' ∧ as.Perm as' := by
  induction hperm generalizing as with
  | nil => exact ⟨as, h, .refl _⟩
  | cons arg hperm ih =>
    obtain ⟨-, hrest⟩ := List.forall_mem_cons.1 hargs
    rw [readAll_cons_of_dashed hrest] at h
    rw [readAll_cons_of_dashed fun t ht => hrest t (hperm.mem_iff.2 ht)]
    obtain ⟨a, ha, h⟩ := except_bind_ok.1 h
    obtain ⟨bs, hbs, h⟩ := except_bind_ok.1 h
    cases h
    obtain ⟨bs', hbs', hperm'⟩ := ih hrest hbs
    refine ⟨a :: bs', ?_, hperm'.cons a⟩
    rw [ha, hbs']
    rfl
  | swap arg arg' args =>
    obtain ⟨harg', harg⟩ := List.forall_mem_cons.1 hargs
    obtain ⟨harg, hrest⟩ := List.forall_mem_cons.1 harg
    rw [readAll_cons_of_dashed (List.forall_mem_cons.2 ⟨harg, hrest⟩),
      readAll_cons_of_dashed hrest] at h
    rw [readAll_cons_of_dashed (List.forall_mem_cons.2 ⟨harg', hrest⟩),
      readAll_cons_of_dashed hrest]
    obtain ⟨a', ha', h⟩ := except_bind_ok.1 h
    obtain ⟨_, hinner, h⟩ := except_bind_ok.1 h
    obtain ⟨a, ha, hinner⟩ := except_bind_ok.1 hinner
    obtain ⟨bs, hbs, hinner⟩ := except_bind_ok.1 hinner
    cases hinner
    cases h
    refine ⟨a :: a' :: bs, ?_, .swap _ _ _⟩
    rw [ha, ha', hbs]
    rfl
  | trans hperm _ ih ih' =>
    obtain ⟨bs, hbs, hfirst⟩ := ih hargs h
    obtain ⟨cs, hcs, hsecond⟩ := ih' (fun t ht => hargs t (hperm.mem_iff.2 ht)) hbs
    exact ⟨cs, hcs, hfirst.trans hsecond⟩

/-! ## Checking -/

/-- The values of an option are the same ones in another order. -/
theorem values_perm_values (hperm : as.Perm as') (o : OptionName) :
    (values as o).Perm (values as' o) :=
  hperm.filterMap _

theorem occurrences_perm (hperm : as.Perm as') (o : OptionName) :
    occurrences as o = occurrences as' o :=
  hperm.countP_eq _

/-- An option has at most as many values as places where it is given. -/
theorem length_values_le : (values as o).length ≤ occurrences as o := by
  induction as with
  | nil => exact Nat.le_refl _
  | cons a as ih =>
    cases a with
    | option p v =>
      by_cases hp : p = o
      · cases v with
        | none =>
          have hstep : occurrences (.option p none :: as) o = occurrences as o + 1 := by
            simp [occurrences, hp]
          simp only [values, List.filterMap_cons, if_pos hp] at ih ⊢
          omega
        | some v => simpa [values, occurrences, hp] using ih
      · simpa [values, occurrences, hp] using ih
    | flag f => simpa [values, occurrences] using ih

/-- There is no choice of values for an option that is given at most once. -/
theorem values_perm (hperm : as.Perm as') (honce : occurrences as o ≤ 1) :
    values as o = values as' o := by
  have hvalues := values_perm_values hperm o
  have hlength : (values as o).length ≤ 1 := Nat.le_trans length_values_le honce
  cases hcase : values as o with
  | nil =>
    rw [hcase] at hvalues
    exact (List.nil_perm.1 hvalues).symm
  | cons v vs =>
    rw [hcase] at hvalues hlength
    cases List.length_eq_zero_iff.1 (Nat.le_zero.1 (Nat.le_of_succ_le_succ hlength))
    exact List.singleton_perm.1 hvalues

/-- A valid command line has at most one value for an option, so its order does not matter. -/
theorem Valid.value?_perm (h : Valid as) (hperm : as.Perm as') (o : OptionName) :
    value? as o = value? as' o := by
  rw [value?, value?, values_perm hperm (h.optionOnce o)]

/-- Whether a command line is valid does not depend on its order. -/
theorem Valid.perm (h : Valid as) (hperm : as.Perm as') : Valid as' where
  hasValue o ho := by
    rw [← h.value?_perm hperm]
    exact h.hasValue o (by rwa [occurrences_perm hperm])
  admitted o v hv := h.admitted o v ((values_perm_values hperm o).mem_iff.2 hv)
  optionOnce o := by rw [← occurrences_perm hperm]; exact h.optionOnce o
  flagOnce f := by rw [← hperm.count_eq]; exact h.flagOnce f

end Argument

namespace Options

open Argument

variable {args args' rest : List String} {as as' : List Argument} {o : Options} {e : ConfigError}

/-! ## Storing -/

/-- What is stored depends on the values of options and on the flags that are given. -/
theorem setAll_congr (hvalue : ∀ n, value? as n = value? as' n)
    (hflag : ∀ f, .flag f ∈ as ↔ .flag f ∈ as') : setAll as = setAll as' := by
  have hchoices : setChoices as = setChoices as' := by
    funext o
    simp only [setChoices, hvalue]
  have hflags : setFlags as = setFlags as' := by
    funext o
    simp only [setFlags, hflag]
  have hnumber {α : Type} (n : OptionName) (read : String → Option α) :
      number as n read = number as' n read := by
    rw [number, number, hvalue]
  simp only [setAll, hnumber, hchoices, hflags]

/-! ## The stages of reading a command line -/

/-- What is done with the arguments before a double dash. -/
def accept (own : List String) : OptionsM Unit := do
  let as ← MonadExcept.ofExcept (readAll own)
  MonadExcept.ofExcept (validate as)
  setAll as

theorem bind_pure_apply {α β : Type} (x : OptionsM α) (f : α → β) (o : Options) :
    (x >>= fun a => pure (f a)) o = ((x o).1.map f, (x o).2) := by
  show (ExceptT.bindCont (fun a => (pure (f a) : OptionsM β)) (x o).1 : StateM Options _) (x o).2 = _
  cases (x o).1 <;> rfl

/-- What comes after the separator is returned, and the rest is accepted. -/
theorem parse_eq_accept (args : List String) (o : Options) :
    parse args o = ((accept (args.takeWhile (· ≠ "--")) o).1.map
      fun _ => (args.dropWhile (· ≠ "--")).drop 1, (accept (args.takeWhile (· ≠ "--")) o).2) := by
  rw [← bind_pure_apply]
  simp only [parse, accept, bind_assoc]

/-- Without a double dash all arguments are the analysis's own. -/
theorem parse_eq_own (hargs : ∀ arg ∈ args, arg ≠ "--") (o : Options) :
    parse args o = ((accept args o).1.map fun _ => [], (accept args o).2) := by
  have hown : args.takeWhile (· ≠ "--") = args := List.takeWhile_eq_self_iff.2 (by simpa using hargs)
  have hrest : args.dropWhile (· ≠ "--") = [] := List.dropWhile_eq_nil_iff.2 (by simpa using hargs)
  rw [parse_eq_accept, hown, hrest]
  rfl

/-- Arguments that cannot be read are rejected before anything is stored. -/
theorem accept_of_unread (h : readAll args = .error e) : accept args o = (.error e, o) := by
  unfold accept
  rw [h]
  rfl

/-- Invalid arguments are rejected before anything is stored. -/
theorem accept_of_invalid (h : readAll args = .ok as) (hinvalid : validate as = .error e) :
    accept args o = (.error e, o) := by
  unfold accept
  rw [h]
  show (MonadExcept.ofExcept (validate as) >>= fun _ => setAll as) o = _
  rw [hinvalid]
  rfl

/-- Valid arguments are stored. -/
theorem accept_of_valid (h : readAll args = .ok as) (hvalid : validate as = .ok ()) :
    accept args o = setAll as o := by
  unfold accept
  rw [h]
  show (MonadExcept.ofExcept (validate as) >>= fun _ => setAll as) o = _
  rw [hvalid]
  rfl

/-- Rearranged arguments come to the same, though they may fail for different reasons. -/
theorem accept_perm (hperm : args.Perm args') (hargs : ∀ arg ∈ args, isDashed arg = true)
    (o : Options) :
    accept args o = accept args' o ∨
      ∃ e e', accept args o = (.error e, o) ∧ accept args' o = (.error e', o) := by
  have hargs' : ∀ arg ∈ args', isDashed arg = true := fun arg h => hargs arg (hperm.mem_iff.2 h)
  -- what passes a stage in one order passes it in the other, so both fail at the same stage; the
  -- first two stages store nothing
  cases hread : readAll args with
  | error e =>
    cases hread' : readAll args' with
    | error e' => exact .inr ⟨e, e', accept_of_unread hread, accept_of_unread hread'⟩
    | ok as' =>
      obtain ⟨as, has, -⟩ := readAll_perm hperm.symm hargs' hread'
      rw [hread] at has
      cases has
  | ok as =>
    obtain ⟨as', hread', hperm'⟩ := readAll_perm hperm hargs hread
    cases hvalid : validate as with
    | error e =>
      cases hvalid' : validate as' with
      | error e' =>
        exact .inr ⟨e, e', accept_of_invalid hread hvalid, accept_of_invalid hread' hvalid'⟩
      | ok u =>
        have hvalid'' := validate_ok_iff.2 ((validate_ok_iff.1 hvalid').perm hperm'.symm)
        rw [hvalid] at hvalid''
        cases hvalid''
    | ok u =>
      have hok := validate_ok_iff.1 hvalid
      have hvalid' := validate_ok_iff.2 (hok.perm hperm')
      refine .inl ?_
      rw [accept_of_valid hread hvalid, accept_of_valid hread' hvalid']
      rw [setAll_congr (fun n => hok.value?_perm hperm' n) fun f => hperm'.mem_iff]

/-! ## Rearranged command lines -/

/-- A double dash and what comes after it is only returned. -/
theorem parse_append (hargs : ∀ arg ∈ args, arg ≠ "--") (rest : List String) (o : Options) :
    parse (args ++ "--" :: rest) o = ((parse args o).1.map fun _ => rest, (parse args o).2) := by
  have hown : (args ++ "--" :: rest).takeWhile (· ≠ "--") = args := by
    rw [List.takeWhile_append_of_pos (by simpa using hargs)]
    simp
  have hrest : (args ++ "--" :: rest).dropWhile (· ≠ "--") = "--" :: rest := by
    rw [List.dropWhile_append_of_pos (by simpa using hargs)]
    simp
  rw [parse_eq_accept, hown, hrest, parse_eq_own hargs]
  cases (accept args o).1 <;> rfl

/-- Arguments that stand on their own can be rearranged: reading them succeeds or fails all the same
and leaves the same options, which may have been changed in part before a failure. A double dash
and further arguments add nothing but that these are returned. -/
theorem parse_perm (hperm : args.Perm args') (hargs : ∀ arg ∈ args, Standalone arg) (o : Options) :
    ((∃ p, parse args o = (.ok [], p) ∧ parse args' o = (.ok [], p)) ∨
      ∃ e e' p, parse args o = (.error e, p) ∧ parse args' o = (.error e', p)) ∧
    ∀ rest,
      parse (args ++ "--" :: rest) o = ((parse args o).1.map fun _ => rest, (parse args o).2) ∧
      parse (args' ++ "--" :: rest) o =
        ((parse args' o).1.map fun _ => rest, (parse args' o).2) := by
  have hargs' : ∀ arg ∈ args', Standalone arg := fun arg h => hargs arg (hperm.mem_iff.2 h)
  refine ⟨?_, fun rest => ⟨parse_append (fun arg h => (hargs arg h).2) rest o,
    parse_append (fun arg h => (hargs' arg h).2) rest o⟩⟩
  rw [parse_eq_own fun arg h => (hargs arg h).2, parse_eq_own fun arg h => (hargs' arg h).2]
  rcases accept_perm hperm (fun arg h => (hargs arg h).1) o with hsame | ⟨e, e', he, he'⟩
  · rw [hsame]
    cases hresult : (accept args' o).1 with
    | ok u => exact .inl ⟨_, rfl, rfl⟩
    | error e => exact .inr ⟨e, e, _, rfl, rfl⟩
  · rw [he, he']
    exact .inr ⟨e, e', o, rfl, rfl⟩

/-- Arguments of which the second is no number. Everything but the solver range is stored before that
is noticed. -/
def halfStored : List String :=
  ["--block_size=5", "--solver_range=many", "--merge=sep", "--no_target_abstraction"]

/-- Other arguments, of which two are not accepted: a name that is not known and a second value. -/
def twiceWrong : List String := ["--merge=sep", "--merg=sep", "--merge=join"]

theorem parse_perm_reversed :
    (parse halfStored.reverse {} = (.error (.notInteger "solver_range"),
        { blockSize := 5, merge := .sep, atTargets := false }) ∧
      ∃ e p, parse halfStored {} = (.error e, p) ∧ p.blockSize = 5) ∧
    parse twiceWrong.reverse {} = (.error (.unexpected "--merg"), {}) ∧
      ∃ e, parse (twiceWrong ++ ["--", "--merge"]) {} = (.error e, {}) := by
  have hhalf : parse halfStored.reverse {} = (.error (.notInteger "solver_range"),
      { blockSize := 5, merge := .sep, atTargets := false }) := rfl
  have htwice : parse twiceWrong.reverse {} = (.error (.unexpected "--merg"), {}) := rfl
  obtain ⟨⟨p, -, hp⟩ | ⟨e, e', p, he, he'⟩, -⟩ :=
    parse_perm (List.reverse_perm halfStored).symm (by decide) {}
  · rw [hhalf] at hp
    cases hp
  obtain ⟨⟨q, -, hq⟩ | ⟨f, f', q, hf, hf'⟩, hrest⟩ :=
    parse_perm (List.reverse_perm twiceWrong).symm (by decide) {}
  · rw [htwice] at hq
    cases hq
  rw [hhalf] at he'
  rw [htwice] at hf'
  cases he'
  cases hf'
  refine ⟨⟨hhalf, e, _, he, rfl⟩, htwice, f, ?_⟩
  rw [(hrest ["--merge"]).1, hf]
  rfl

end Options

end Cegar

import Cegar.Options.Parse
import Cegar.Proofs.Inversion

/-!
# What reading options changes

Twelve settings can be made on a command line, six of them with a value and six as a flag. An
argument names the setting that it makes; what else it holds is the value. Reading gives a named
setting a value that depends on the arguments only. A setting that is not named is left alone if it
is a flag or the solver range. The five other options have a default, and go back to it.

* **`Setting.Occurs`**: some argument names the setting;
* **`Argument.readAll_settings`**: the arguments that are read are for the settings that are named;
* **`Options.parse_ok_iff`**: what is accepted, and what is stored then;
* **`Options.get_of_not_occurs`**, **`Options.get_of_occurs`**: what a setting is afterwards;
* **`Options.parse_keeps_iff`**: a setting that is not named keeps its value exactly if it does not go
  back to its default, or has it already.
-/

namespace Cegar

/-! ## Settings -/

/-- What can be set on a command line. -/
inductive Setting where
  | option (name : OptionName)
  | flag (name : FlagName)
deriving DecidableEq

namespace Setting

def text : Setting → String
  | .option o => o.text
  | .flag f => f.text

/-- What a setting can be. -/
inductive Value where
  | size (n : Nat)
  | abstraction (kind : AbstractionKind)
  | merge (kind : MergeKind)
  | combination (kind : Combination)
  | range (n : Int128)
  | switch (on : Bool)
deriving DecidableEq

/-- Whether the setting goes back to its default when it is not named. -/
def resets : Setting → Bool
  | .option o => o.default?.isSome
  | .flag _ => false

/-- An argument that names the setting: two dashes or more, the name, and possibly an equals sign
and a value. -/
def NamedBy (s : Setting) (arg : String) : Prop :=
  ∃ k rest, arg.toList = '-' :: '-' :: (List.replicate k '-' ++ (s.text.toList ++ rest)) ∧
    (rest = [] ∨ rest.head? = some '=')

/-- An argument before the first double dash names the setting. -/
def Occurs (s : Setting) (args : List String) : Prop :=
  ∃ arg ∈ args.takeWhile (· ≠ "--"), s.NamedBy arg

end Setting

/-- What the options have for a setting. -/
def Options.get (o : Options) : Setting → Setting.Value
  | .option .blockSize => .size o.blockSize
  | .option .satCheck => .size o.satCheck
  | .option .abstractionType => .abstraction o.abstraction
  | .option .merge => .merge o.merge
  | .option .thresholdCombination => .combination o.combination
  | .option .solverRange => .range o.solverRange
  | .flag .symbolicCoverage => .switch o.symbolicCoverage
  | .flag .noLoopHeads => .switch o.atLoopHeads
  | .flag .functionEntries => .switch o.atFunctionEntries
  | .flag .returnSites => .switch o.atReturnSites
  | .flag .callSites => .switch o.atCallSites
  | .flag .noTargets => .switch o.atTargets

theorem OptionName.mem_all (o : OptionName) : o ∈ OptionName.all := by cases o <;> decide

theorem FlagName.mem_all (f : FlagName) : f ∈ FlagName.all := by cases f <;> decide

namespace Argument

/-- The setting that an argument is for. -/
def setting : Argument → Setting
  | .option o _ => .option o
  | .flag f => .flag f

variable {s : Setting} {arg : String} {a : Argument} {as : List Argument} {cs rest : List Char}

/-! ## Names in arguments -/

/-- The name of a setting, alone or with a value behind an equals sign, is read as the setting. -/
theorem ofLong_of_name {k : Nat} (hrest : rest = [] ∨ rest.head? = some '=') :
    ∃ a, ofLong (List.replicate k '-' ++ (s.text.toList ++ rest)) = .ok a ∧ a.setting = s := by
  have hdashes : (List.replicate k '-' ++ (s.text.toList ++ rest)).dropWhile (· = '-') =
      s.text.toList ++ rest := by
    rw [List.dropWhile_append_of_pos (by simp)]
    cases s with
    | option o => cases o <;> rfl
    | flag f => cases f <;> rfl
  have hname : (s.text.toList ++ rest).takeWhile (· ≠ '=') = s.text.toList := by
    have hplain : s.text.toList.all (· ≠ '=') = true := by
      cases s with
      | option o => cases o <;> rfl
      | flag f => cases f <;> rfl
    rw [List.takeWhile_append_of_pos (List.all_eq_true.1 hplain)]
    rcases hrest with rfl | hrest
    · simp
    · cases rest with
      | nil => cases hrest
      | cons c rest =>
        cases hrest
        simp
  unfold ofLong
  simp only [hdashes, hname, String.ofList_toList]
  cases s with
  | option o => cases o <;> exact ⟨_, rfl, rfl⟩
  | flag f => cases f <;> exact ⟨_, rfl, rfl⟩

/-- What is read as a setting begins with its name. -/
theorem name_of_ofLong (h : ofLong cs = .ok a) :
    ∃ k rest, cs = List.replicate k '-' ++ (a.setting.text.toList ++ rest) ∧
      (rest = [] ∨ rest.head? = some '=') := by
  have hname : a.setting.text.toList = (cs.dropWhile (· = '-')).takeWhile (· ≠ '=') := by
    unfold ofLong at h
    dsimp only at h
    split at h
    · cases h
    · split at h
      · cases h
      · split at h
        · next o _ ho =>
          cases h
          have := List.find?_some ho
          rw [decide_eq_true_eq] at this
          rw [setting, Setting.text, this, String.toList_ofList]
        · next f _ hf =>
          cases h
          have := List.find?_some hf
          rw [decide_eq_true_eq] at this
          rw [setting, Setting.text, this, String.toList_ofList]
        · cases h
  have hdashes : cs.takeWhile (· = '-') = List.replicate (cs.takeWhile (· = '-')).length '-' :=
    List.eq_replicate_of_mem fun c hc => by simpa using List.all_eq_true.1 List.all_takeWhile c hc
  refine ⟨(cs.takeWhile (· = '-')).length, (cs.dropWhile (· = '-')).dropWhile (· ≠ '='), ?_, ?_⟩
  · rw [hname, List.takeWhile_append_dropWhile, ← hdashes, List.takeWhile_append_dropWhile]
  · generalize cs.dropWhile (· = '-') = ds
    by_cases hrest : ds.dropWhile (· ≠ '=') = []
    · exact .inl hrest
    · have hc := List.head_dropWhile_not (· ≠ '=') hrest
      rw [decide_eq_false_iff_not, ne_eq, Decidable.not_not] at hc
      exact .inr (by rw [List.head?_eq_some_head hrest, hc])

/-- An argument names the setting that it is read for, and no other. -/
theorem namedBy_iff : s.NamedBy arg ↔ ∃ a, ofText arg = .ok a ∧ a.setting = s := by
  constructor
  · rintro ⟨k, rest, harg, hrest⟩
    obtain ⟨a, ha, hs⟩ := ofLong_of_name (s := s) (k := k) hrest
    exact ⟨a, by rw [ofText, harg]; exact ha, hs⟩
  · rintro ⟨a, h, rfl⟩
    unfold ofText at h
    split at h
    · next cs harg =>
      obtain ⟨k, rest, rfl, hrest⟩ := name_of_ofLong h
      exact ⟨k, rest, harg, hrest⟩
    · split at h
      · cases h
      · split at h <;> cases h
    · cases h

/-- What does not start like an option names nothing, so it can only be a value. -/
theorem isDashed_of_namedBy (h : s.NamedBy arg) : isDashed arg = true := by
  obtain ⟨k, rest, harg, -⟩ := h
  rw [isDashed, harg]
  rfl

/-- The first argument is read on its own, or with the next one as its value. -/
theorem readAll_cons {args : List String} (h : readAll (arg :: args) = .ok as) :
    ∃ a, ofText arg = .ok a ∧
      ((∃ as', readAll args = .ok as' ∧ as = a :: as') ∨
        ∃ o value rest as', a = .option o none ∧ args = value :: rest ∧
          isDashed value = false ∧ readAll rest = .ok as' ∧ as = .option o (some value) :: as') := by
  cases args with
  | nil =>
    obtain ⟨a, ha, has⟩ := except_bind_ok.1 h
    cases has
    exact ⟨a, ha, .inl ⟨[], rfl, rfl⟩⟩
  | cons value rest =>
    unfold readAll at h
    obtain ⟨a, ha, h⟩ := except_bind_ok.1 h
    refine ⟨a, ha, ?_⟩
    split at h
    · next o =>
      split at h
      · obtain ⟨as', has', h⟩ := except_bind_ok.1 h
        cases h
        exact .inl ⟨as', has', rfl⟩
      · next hvalue =>
        obtain ⟨as', has', h⟩ := except_bind_ok.1 h
        cases h
        exact .inr ⟨o, value, rest, as', rfl, rfl, Bool.eq_false_iff.2 hvalue, has', rfl⟩
    · obtain ⟨as', has', h⟩ := except_bind_ok.1 h
      cases h
      exact .inl ⟨as', has', rfl⟩

/-- An argument names the setting that it is read as. -/
theorem namedBy_of_ofText (h : ofText arg = .ok a) : s.NamedBy arg ↔ a.setting = s := by
  rw [namedBy_iff, h]
  constructor
  · rintro ⟨b, hb, hs⟩
    cases hb
    exact hs
  · exact fun hs => ⟨a, rfl, hs⟩

/-- The arguments that are read are for the settings that are named. -/
theorem readAll_settings {args : List String} (h : readAll args = .ok as) :
    (∃ arg ∈ args, s.NamedBy arg) ↔ ∃ a ∈ as, a.setting = s := by
  -- the recursion may leave out a value, so the induction is on the length
  induction hn : args.length using Nat.strongRecOn generalizing args as with
  | _ n ih =>
    cases args with
    | nil =>
      cases h
      simp
    | cons arg args =>
      subst hn
      obtain ⟨a, ha, ⟨as', has', rfl⟩ | ⟨o, value, rest, as', rfl, rfl, hvalue, has', rfl⟩⟩ :=
        readAll_cons h
      · have hrest := ih _ (by simp) has' rfl
        simp only [List.mem_cons, exists_eq_or_imp, hrest, namedBy_of_ofText ha]
      · have hrest := ih _ (by simp only [List.length_cons]; omega) has' rfl
        have hnot : ¬ s.NamedBy value := fun hs => by
          rw [isDashed_of_namedBy hs] at hvalue
          cases hvalue
        simp only [List.mem_cons, exists_eq_or_imp, hrest, namedBy_of_ofText ha, hnot, false_or]
        rfl

/-! ## Values in arguments -/

/-- A setting that is not named has no values. -/
theorem values_eq_nil {o : OptionName} (h : ¬ ∃ a ∈ as, a.setting = .option o) :
    values as o = [] := by
  refine List.filterMap_eq_nil_iff.2 fun a ha => ?_
  cases a with
  | option p v => exact if_neg fun hp => h ⟨_, ha, congrArg Setting.option hp⟩
  | flag f => rfl

/-- An option that is not given has its default, if there is one. -/
theorem value?_of_absent {o : OptionName} (h : ¬ ∃ a ∈ as, a.setting = .option o) :
    value? as o = o.default? := by
  rw [value?, values_eq_nil h]
  rfl

/-- What is accepted: every option that is given has a value, only values that it can have, and one
place where it is given; and so do flags. -/
structure Valid (as : List Argument) : Prop where
  hasValue : ∀ o, 0 < occurrences as o → (value? as o).isSome = true
  admitted : ∀ o, ∀ v ∈ values as o, o.admits v = true
  optionOnce : ∀ o, occurrences as o ≤ 1
  flagOnce : ∀ f, as.count (.flag f) ≤ 1

/-- An option is at fault for a value that it does not admit, or for being given twice. -/
theorem optionFault?_eq_none {o : OptionName} : optionFault? as o = none ↔
    (∀ v ∈ values as o, o.admits v = true) ∧ occurrences as o ≤ 1 := by
  unfold optionFault?
  cases hfound : (values as o).find? fun v => !o.admits v with
  | some v =>
    have hv := List.find?_some hfound
    have hmem := List.mem_of_find?_eq_some hfound
    simp only [reduceCtorEq, false_iff, not_and]
    intro hadmits
    simp [hadmits v hmem] at hv
  | none =>
    have hadmits : ∀ v ∈ values as o, o.admits v = true := by
      simpa using List.find?_eq_none.1 hfound
    simp only [ite_eq_right_iff, reduceCtorEq, imp_false, Nat.not_lt]
    exact ⟨fun h => ⟨hadmits, h⟩, fun h => h.2⟩

/-- A flag is at fault for being given twice. -/
theorem flagFault?_eq_none {f : FlagName} :
    flagFault? as f = none ↔ as.count (.flag f) ≤ 1 := by
  simp [flagFault?]

/-- Arguments are accepted exactly if they are valid. -/
theorem validate_ok_iff : validate as = .ok () ↔ Valid as := by
  have hfaults : (OptionName.all.findSome? (optionFault? as)).or
      (FlagName.all.findSome? (flagFault? as)) = none ↔
      (∀ o, (∀ v ∈ values as o, o.admits v = true) ∧ occurrences as o ≤ 1) ∧
        ∀ f, as.count (.flag f) ≤ 1 := by
    simp only [Option.or_eq_none_iff, List.findSome?_eq_none_iff, optionFault?_eq_none,
      flagFault?_eq_none, OptionName.mem_all, FlagName.mem_all, forall_const]
  have hmissing : OptionName.all.find? (fun o => 0 < occurrences as o && (value? as o).isNone) =
      none ↔ ∀ o, 0 < occurrences as o → (value? as o).isSome = true := by
    simp [List.find?_eq_none, OptionName.mem_all, Option.isSome_iff_ne_none]
  unfold validate
  constructor
  · intro h
    dsimp only at h
    split at h
    · cases h
    · next hnone =>
      split at h
      · cases h
      · next hnofault =>
        obtain ⟨hoptions, hflags⟩ := hfaults.1 hnofault
        exact ⟨hmissing.1 hnone, fun o => (hoptions o).1, fun o => (hoptions o).2, hflags⟩
  · intro h
    dsimp only
    rw [hmissing.2 h.hasValue, hfaults.2 ⟨fun o => ⟨h.admitted o, h.optionOnce o⟩, h.flagOnce⟩]

/-- An option that is given has a value, which may be its default. -/
theorem isSome_value? {o : OptionName} (hvalid : validate as = .ok ())
    (h : ∃ a ∈ as, a.setting = .option o) : (value? as o).isSome = true := by
  obtain ⟨a, ha, hsetting⟩ := h
  have hpresent : 0 < occurrences as o := by
    refine List.countP_pos_iff.2 ⟨a, ha, ?_⟩
    cases a with
    | option p v =>
      cases hsetting
      exact decide_eq_true rfl
    | flag f => cases hsetting
  exact (validate_ok_iff.1 hvalid).hasValue o hpresent

end Argument

namespace Options

open Argument

variable {args rest : List String} {as : List Argument} {s : Setting} {o o' : Options}

theorem number_of_isSome {α : Type} {n : OptionName} {read : String → Option α} {x : Option α}
    (h : number as n read = .ok x) (hvalue : (value? as n).isSome = true) : ∃ v, x = some v := by
  unfold number at h
  split at h
  · next hnone => simp [hnone] at hvalue
  · split at h
    · next v _ =>
      cases h
      exact ⟨v, rfl⟩
    · cases h

/-! ## What is stored -/

/-- The options once everything is read: the two sizes, what the other arguments say, the range. -/
def stored (as : List Argument) (blockSize satCheck : Option Nat) (range : Option Int128)
    (o : Options) : Options :=
  let o := { o with blockSize := blockSize.getD o.blockSize }
  let o := setFlags as (setChoices as { o with satCheck := satCheck.getD o.satCheck })
  { o with solverRange := range.getD o.solverRange }

/-- What was accepted as a whole was accepted in its parts. -/
theorem bind_ok_iff {α β : Type} {x : OptionsM α} {f : α → OptionsM β} {b : β} :
    (x >>= f) o = (.ok b, o') ↔ ∃ a p, x o = (.ok a, p) ∧ f a p = (.ok b, o') := by
  show ExceptT.bindCont f (x o).1 (x o).2 = (.ok b, o') ↔ _
  obtain ⟨result, p⟩ := x o
  cases result with
  | ok a =>
    constructor
    · exact fun h => ⟨a, p, rfl, h⟩
    · rintro ⟨_, _, ⟨⟩, h⟩
      exact h
  | error e =>
    constructor
    · rintro ⟨⟩
    · rintro ⟨_, _, ⟨⟩, _⟩

theorem ofExcept_ok_iff {α : Type} {x : Except ConfigError α} {a : α} :
    (MonadExcept.ofExcept x : OptionsM α) o = (.ok a, o') ↔ x = .ok a ∧ o' = o := by
  cases x with
  | ok b =>
    constructor
    · rintro ⟨⟩
      exact ⟨rfl, rfl⟩
    · rintro ⟨⟨⟩, rfl⟩
      rfl
  | error e =>
    constructor
    · rintro ⟨⟩
    · rintro ⟨⟨⟩, _⟩

theorem modify_ok_iff {f : Options → Options} {u : Unit} :
    (modify f : OptionsM Unit) o = (.ok u, o') ↔ o' = f o := by
  constructor <;> rintro ⟨⟩ <;> rfl

/-- Everything is stored if the three numbers can be read. -/
theorem setAll_ok_iff {u : Unit} : setAll as o = (.ok u, o') ↔
    ∃ blockSize satCheck range, number as .blockSize size? = .ok blockSize ∧
      number as .satCheck size? = .ok satCheck ∧ number as .solverRange range? = .ok range ∧
      o' = stored as blockSize satCheck range o := by
  simp only [setAll, bind_ok_iff, ofExcept_ok_iff, modify_ok_iff]
  constructor
  · rintro ⟨b, _, ⟨hb, rfl⟩, _, _, rfl, c, _, ⟨hc, rfl⟩, _, _, rfl, _, _, rfl, r, _, ⟨hr, rfl⟩, rfl⟩
    exact ⟨b, c, r, hb, hc, hr, rfl⟩
  · rintro ⟨b, c, r, hb, hc, hr, rfl⟩
    exact ⟨b, _, ⟨hb, rfl⟩, (), _, rfl, c, _, ⟨hc, rfl⟩, (), _, rfl, (), _, rfl, r, _, ⟨hr, rfl⟩, rfl⟩

/-- Command lines are accepted whatever the options were before. -/
theorem parse_ok_iff : parse args o = (.ok rest, o') ↔
    ∃ as blockSize satCheck range, readAll (args.takeWhile (· ≠ "--")) = .ok as ∧
      validate as = .ok () ∧ number as .blockSize size? = .ok blockSize ∧
      number as .satCheck size? = .ok satCheck ∧ number as .solverRange range? = .ok range ∧
      rest = (args.dropWhile (· ≠ "--")).drop 1 ∧ o' = stored as blockSize satCheck range o := by
  simp only [parse, bind_ok_iff, ofExcept_ok_iff, setAll_ok_iff]
  constructor
  · rintro ⟨as, _, ⟨hread, rfl⟩, _, _, ⟨hvalid, rfl⟩, _, _, ⟨b, c, r, hb, hc, hr, rfl⟩, h⟩
    cases h
    exact ⟨as, b, c, r, hread, hvalid, hb, hc, hr, rfl, rfl⟩
  · rintro ⟨as, b, c, r, hread, hvalid, hb, hc, hr, rfl, rfl⟩
    exact ⟨as, _, ⟨hread, rfl⟩, (), _, ⟨hvalid, rfl⟩, (), _, ⟨b, c, r, hb, hc, hr, rfl⟩, rfl⟩

section Stored

variable {blockSize satCheck : Option Nat} {range : Option Int128}

theorem mem_flag_iff {f : FlagName} : .flag f ∈ as ↔ ∃ a ∈ as, a.setting = .flag f := by
  constructor
  · exact fun h => ⟨_, h, rfl⟩
  · rintro ⟨a, ha, hsetting⟩
    cases a with
    | option n v => cases hsetting
    | flag g =>
      cases hsetting
      exact ha

/-- What no argument is for goes back to its default or stays. -/
theorem get_stored_of_absent (hs : ¬ ∃ a ∈ as, a.setting = s)
    (hblock : number as .blockSize size? = .ok blockSize)
    (hcheck : number as .satCheck size? = .ok satCheck)
    (hrange : number as .solverRange range? = .ok range) :
    (stored as blockSize satCheck range o).get s =
      if s.resets then ({} : Options).get s else o.get s := by
  cases s with
  | option n =>
    have hvalue := value?_of_absent hs
    cases n with
    | blockSize =>
      rw [number, hvalue] at hblock
      cases hblock
      rfl
    | satCheck =>
      rw [number, hvalue] at hcheck
      cases hcheck
      rfl
    | solverRange =>
      rw [number, hvalue] at hrange
      cases hrange
      rfl
    | abstractionType | merge | thresholdCombination =>
      simp [stored, get, setFlags, setChoices, hvalue, OptionName.default?, Setting.resets]
  | flag f =>
    have hnot := mt mem_flag_iff.1 hs
    cases f <;> simp [stored, get, setFlags, setChoices, hnot, Setting.resets]

/-- What an argument is for becomes the same, whatever it was. -/
theorem get_stored_of_present (hs : ∃ a ∈ as, a.setting = s) (hvalid : validate as = .ok ())
    (hblock : number as .blockSize size? = .ok blockSize)
    (hcheck : number as .satCheck size? = .ok satCheck)
    (hrange : number as .solverRange range? = .ok range) (p : Options) :
    (stored as blockSize satCheck range o).get s = (stored as blockSize satCheck range p).get s := by
  cases s with
  | option n =>
    have hvalue := isSome_value? hvalid hs
    cases n with
    | blockSize =>
      obtain ⟨v, rfl⟩ := number_of_isSome hblock hvalue
      rfl
    | satCheck =>
      obtain ⟨v, rfl⟩ := number_of_isSome hcheck hvalue
      rfl
    | solverRange =>
      obtain ⟨v, rfl⟩ := number_of_isSome hrange hvalue
      rfl
    | abstractionType | merge | thresholdCombination => rfl
  | flag f =>
    have hmem := mem_flag_iff.2 hs
    cases f <;> simp [stored, get, setFlags, hmem]

end Stored

/-! ## What reading leaves alone -/

/-- A setting that does not occur goes back to its default, or keeps its value if it has none. -/
theorem get_of_not_occurs (h : parse args o = (.ok rest, o')) (hs : ¬ s.Occurs args) :
    o'.get s = if s.resets then ({} : Options).get s else o.get s := by
  obtain ⟨as, b, c, r, hread, -, hb, hc, hr, -, rfl⟩ := parse_ok_iff.1 h
  exact get_stored_of_absent (mt (readAll_settings hread).2 hs) hb hc hr

/-- A setting that occurs gets a value that does not depend on the one from before. -/
theorem get_of_occurs (h : parse args o = (.ok rest, o')) (hs : s.Occurs args) (p : Options) :
    ∃ p', parse args p = (.ok rest, p') ∧ p'.get s = o'.get s := by
  obtain ⟨as, b, c, r, hread, hvalid, hb, hc, hr, hrest, rfl⟩ := parse_ok_iff.1 h
  refine ⟨_, parse_ok_iff.2 ⟨as, b, c, r, hread, hvalid, hb, hc, hr, hrest, rfl⟩, ?_⟩
  exact get_stored_of_present ((readAll_settings hread).1 hs) hvalid hb hc hr o

/-- A setting has the effect of two lists of arguments: it is what the second makes of it, else what
the first does, else what it was. -/
structure Accumulates (args args₂ : List String) (o o₁ o₂ : Options) (s : Setting) : Prop where
  second : s.Occurs args₂ → ∀ p rest p', parse args₂ p = (.ok rest, p') → o₂.get s = p'.get s
  first : ¬ s.Occurs args₂ → s.Occurs args → o₂.get s = o₁.get s
  neither : ¬ s.Occurs args₂ → ¬ s.Occurs args → o₂.get s = o.get s

/-- A setting that is not named keeps its value if it need not go back to its default. -/
theorem get_eq_iff_of_not_occurs (h : parse args o = (.ok rest, o')) (hs : ¬ s.Occurs args) :
    o'.get s = o.get s ↔ (s.resets = true → o.get s = ({} : Options).get s) := by
  rw [get_of_not_occurs h hs]
  cases s.resets with
  | true => simp [eq_comm]
  | false => simp

/-- A named setting gets a value that only depends on the arguments. Any other keeps its value
exactly if it has no default to go back to, or has the value of the default. So two lists have the
effect of both exactly on the settings that the second names, that have no default, or that have its
value. -/
theorem parse_keeps_iff (h : parse args o = (.ok rest, o')) :
    (∀ s, s.Occurs args → ∀ p, ∃ p', parse args p = (.ok rest, p') ∧ p'.get s = o'.get s) ∧
    (∀ s, ¬ s.Occurs args →
      (o'.get s = o.get s ↔ (s.resets = true → o.get s = ({} : Options).get s))) ∧
    ∀ args₂ rest₂ o₂, parse args₂ o' = (.ok rest₂, o₂) → ∀ s,
      (Accumulates args args₂ o o' o₂ s ↔ (s.resets = true → ¬ s.Occurs args₂ →
        (s.Occurs args → o'.get s = ({} : Options).get s) ∧
        (¬ s.Occurs args → o.get s = ({} : Options).get s))) := by
  refine ⟨fun s hs => get_of_occurs h hs, fun s hs => get_eq_iff_of_not_occurs h hs, ?_⟩
  intro args₂ rest₂ o₂ h₂ s
  constructor
  · intro hboth hresets hs₂
    have hdefault : o₂.get s = ({} : Options).get s := by
      rw [get_of_not_occurs h₂ hs₂, if_pos hresets]
    exact ⟨fun hs => (hboth.first hs₂ hs).symm.trans hdefault,
      fun hs => (hboth.neither hs₂ hs).symm.trans hdefault⟩
  · intro hcond
    refine ⟨fun hs₂ p rest p' hp => ?_, fun hs₂ hs => ?_, fun hs₂ hs => ?_⟩
    · obtain ⟨p'', hp'', hget⟩ := get_of_occurs h₂ hs₂ p
      cases hp.symm.trans hp''
      exact hget.symm
    · exact (get_eq_iff_of_not_occurs h₂ hs₂).2 fun hresets => (hcond hresets hs₂).1 hs
    · -- neither list names the setting, so both leave it alone or it has its default throughout
      have hkept : o'.get s = o.get s :=
        (get_eq_iff_of_not_occurs h hs).2 fun hresets => (hcond hresets hs₂).2 hs
      rw [← hkept]
      refine (get_eq_iff_of_not_occurs h₂ hs₂).2 fun hresets => ?_
      rw [hkept]
      exact (hcond hresets hs₂).2 hs

/-- A command line that makes six settings, with values that are not the defaults. -/
def sixSettings : List String :=
  ["--block_size=5", "--abstraction_type", "cartesian", "--merge", "sep", "--solver_range", "64",
    "--call_site_abstraction", "--no_target_abstraction"]

/-- What it makes of the options that are there at the start. -/
def afterSix : Options :=
  { blockSize := 5, abstraction := .cartesian, merge := .sep, solverRange := 64,
    atCallSites := true, atTargets := false }

/-- Two more settings, one of them made before. -/
def twoSettings : List String := ["--sat_check", "2", "--merge=sep", "--", "--block_size"]

theorem parse_keeps_iff_inTurn : parse sixSettings {} = (.ok [], afterSix) ∧
    parse twoSettings afterSix = (.ok ["--block_size"], { afterSix with
      blockSize := 0, abstraction := .boolean, satCheck := 2 }) ∧
    ∀ s, Accumulates sixSettings twoSettings {} afterSix
      { afterSix with blockSize := 0, abstraction := .boolean, satCheck := 2 } s ↔
        s ≠ .option .blockSize ∧ s ≠ .option .abstractionType := by
  have h₁ : parse sixSettings {} = (.ok [], afterSix) := rfl
  have h₂ : parse twoSettings afterSix = (.ok ["--block_size"], { afterSix with
      blockSize := 0, abstraction := .boolean, satCheck := 2 }) := rfl
  refine ⟨h₁, h₂, fun s => ?_⟩
  have hread : readAll (sixSettings.takeWhile (· ≠ "--")) = .ok [
    .option .blockSize (some "5"), .option .abstractionType (some "cartesian"),
    .option .merge (some "sep"), .option .solverRange (some "64"), .flag .callSites,
    .flag .noTargets] := rfl
  have hread' : readAll (twoSettings.takeWhile (· ≠ "--")) =
    .ok [.option .satCheck (some "2"), .option .merge (some "sep")] := rfl
  have hsix : s.Occurs sixSettings ↔ _ := readAll_settings hread
  have htwo : s.Occurs twoSettings ↔ _ := readAll_settings hread'
  rw [(parse_keeps_iff h₁).2.2 _ _ _ h₂ s, hsix, htwo]
  cases s with
  | option n => cases n <;> simp [Argument.setting, Setting.resets, OptionName.default?, get, afterSix]
  | flag f => simp [Setting.resets]

/-- Reading other arguments undoes settings that were made before. -/
theorem parse_undoes_settings :
    parse sixSettings {} = (.ok [], afterSix) ∧
    ¬ (Setting.option .blockSize).Occurs ["--function_entry_abstraction"] ∧
    ∃ o, parse ["--function_entry_abstraction"] afterSix = (.ok [], o) ∧
      afterSix.get (.option .blockSize) = .size 5 ∧ o.get (.option .blockSize) = .size 0 ∧
      afterSix.get (.option .merge) = .merge .sep ∧ o.get (.option .merge) = .merge .join := by
  have hread : readAll (["--function_entry_abstraction"].takeWhile (· ≠ "--")) =
    .ok [.flag .functionEntries] := rfl
  have hoccurs : (Setting.option .blockSize).Occurs ["--function_entry_abstraction"] ↔ _ :=
    readAll_settings hread
  refine ⟨rfl, ?_, _, rfl, rfl, rfl, rfl, rfl⟩
  rw [hoccurs]
  decide

end Options

end Cegar

import Cegar.Proofs.WellSorted
import Cegar.Solver.Basic

/-!
# Elimination of definitions

A conjunct `v == t` is true exactly in the environments that give `v` the value of `t`. So conjuncts
with a definition among them say the same as the definition and the other conjuncts with `t` in the
place of `v`. One conjunct may become many that way, but `v` is gone for good: the variables that
occur get fewer with every round, and the rounds that elimination is allowed are enough.

* **`Definition.Eliminates`**: the rounds of elimination, as many as it takes;
* **`Definition.eliminates_eliminate`**: elimination ends when no definition is left;
* **`Definition.Eliminates.models_iff`**: the conjuncts say the same as what is left and the
  definitions, over any integers;
* **`Definition.Eliminates.triangular`**: a variable that was eliminated does not come back, so
  restoring one definition does not disturb those restored before it;
* **`Definition.models_restore`**: a model of what is left becomes one of all conjuncts when the
  definitions are restored;
* **`Definition.eliminate_solves`**: what is left, with its definitions, is a solved form of the
  conjuncts.
-/

namespace Cegar

/-- All of the conjuncts are true. -/
def Env.Models {ι : Type} [Arithmetic ι] (ρ : Env ι) (cs : List Expr) : Prop :=
  ∀ c ∈ cs, c.truth ρ = true

/-- All of the conjuncts evaluate to true, where open variables count as zero and false. -/
def Assignment.Models (a : Assignment) (cs : List Expr) : Prop :=
  ∀ c ∈ cs, c.eval a true = some (.bool true)

/-- An assignment models formulas exactly if its environment does. -/
theorem Assignment.models_iff {a : Assignment} (ha : a.Typed) {P : Var → Prop} {cs : List Expr}
    (hcs : ∀ c ∈ cs, c.IsFormula P) : a.Models cs ↔ (a.env ha).Models cs :=
  forall₂_congr fun c hc => Expr.eval_complete_eq_true ha (hcs c hc)

/-- Assertions are true exactly if all their conjuncts are. -/
theorem Env.models_flatMap_conjuncts {ι : Type} [Arithmetic ι] {ρ : Env ι} {es : List Expr} :
    ρ.Models (es.flatMap Expr.conjuncts) ↔ ρ.Models es := by
  constructor
  · intro h e he
    exact (Expr.truth_conjuncts e).2 fun c hc => h c (List.mem_flatMap.2 ⟨e, he, hc⟩)
  · intro h c hc
    obtain ⟨e, he, hc⟩ := List.mem_flatMap.1 hc
    exact (Expr.truth_conjuncts e).1 (h e he) c hc

/-- Neither a conjunction nor the constant true. -/
def Expr.IsConjunct (e : Expr) : Prop := (∀ l r, e ≠ .logic .and l r) ∧ e ≠ .bool true

/-- Conjuncts are not conjunctions themselves. -/
theorem Expr.isConjunct_of_mem_conjuncts {e c : Expr} (h : c ∈ e.conjuncts) : c.IsConjunct := by
  fun_induction Expr.conjuncts e with
  | case1 l r ihl ihr => exact (List.mem_append.1 h).elim ihl ihr
  | case2 => cases h
  | case3 e hand htrue =>
    cases List.mem_singleton.1 h
    exact ⟨fun l r => hand l r, htrue⟩

namespace Definition

variable {ι : Type} [Arithmetic ι] {P : Var → Prop} {ρ : Env ι} {cs rest left : List Expr}
  {d : Definition} {ds : List Definition}

/-- A definition whose term has the type of its variable, over variables that satisfy `P`. -/
structure Valid (P : Var → Prop) (d : Definition) : Prop where
  sorted : d.term.WellSorted
  ty : d.term.ty = d.var.ty
  var : P d.var
  vars : ∀ v ∈ d.term.vars, P v
  fresh : d.var ∉ d.term.vars

/-- The environment in which the variable has the value of its term. -/
def setIn (d : Definition) (ρ : Env ι) : Env ι := ρ.set d.var (d.term.valueIn ρ)

/-- Whether the definition holds. -/
def Holds (d : Definition) (ρ : Env ι) : Prop := ρ.val d.var = d.term.valueIn ρ

/-- Where a definition holds, there is nothing to set. -/
theorem Holds.setIn_eq {d : Definition} (h : d.Holds ρ) : d.setIn ρ = ρ := by
  unfold setIn
  rw [← h]
  exact Env.set_val_eq_self

/-- The term does not change its value when the variable is set. -/
theorem Valid.holds_setIn {d : Definition} (hd : d.Valid P) : d.Holds (d.setIn ρ) := by
  have hty : (d.term.valueIn ρ).ty = d.var.ty := by rw [Expr.ty_valueIn, hd.ty]
  have hterm : d.term.valueIn (d.setIn ρ) = d.term.valueIn ρ :=
    Expr.valueIn_congr fun v hv => Env.val_set_ne _ fun h => hd.fresh (h ▸ hv)
  rw [Holds, hterm]
  exact Env.val_set_self hty

/-! ## Recognising definitions -/

/-- A variable and a term in which it does not occur. -/
theorem ofSides?_eq_some {l r : Expr} {d : Definition} (h : ofSides? l r = some d) :
    l = .var d.var ∧ r = d.term ∧ d.var ∉ d.term.vars := by
  unfold ofSides? at h
  split at h
  · next v =>
    split at h
    · cases h
    · next hv =>
      cases h
      exact ⟨rfl, rfl, by simpa using hv⟩
  · cases h

/-- A definition is an equation with a variable on one side, which does not occur on the other. -/
theorem ofConjunct?_eq_some {c : Expr} {d : Definition} (h : ofConjunct? c = some d) :
    (c = .cmp .eq (.var d.var) d.term ∨ c = .cmp .eq d.term (.var d.var)) ∧
      d.var ∉ d.term.vars := by
  unfold ofConjunct? at h
  split at h
  · next l r =>
    rcases Option.or_eq_some_iff.1 h with h | ⟨-, h⟩
    · obtain ⟨rfl, rfl, hfresh⟩ := ofSides?_eq_some h
      exact ⟨.inl rfl, hfresh⟩
    · obtain ⟨rfl, rfl, hfresh⟩ := ofSides?_eq_some h
      exact ⟨.inr rfl, hfresh⟩
  · cases h

/-- What is no definition is no equation of a variable with a term that it does not occur in. -/
theorem ne_of_ofConjunct?_eq_none {c : Expr} (h : ofConjunct? c = none) {v : Var} {t : Expr}
    (hv : v ∉ t.vars) : c ≠ .eq (.var v) t ∧ c ≠ .eq t (.var v) := by
  have hsides : ofSides? (.var v) t = some ⟨v, t⟩ := by simp [ofSides?, hv]
  constructor
  · rintro rfl
    rw [Expr.eq, ofConjunct?, hsides] at h
    cases h
  · rintro rfl
    rw [Expr.eq, ofConjunct?, hsides] at h
    cases hl : ofSides? t (.var v) <;> rw [hl] at h <;> cases h

/-- A definition taken from a formula is valid. -/
theorem valid_of_ofConjunct? {c : Expr} {d : Definition} (h : ofConjunct? c = some d)
    (hc : c.IsFormula P) : d.Valid P := by
  obtain ⟨rfl | rfl, hfresh⟩ := ofConjunct?_eq_some h
  · obtain ⟨hty, -, -, hsorted⟩ := hc.sorted
    exact ⟨hsorted, hty.symm, hc.vars _ (by simp), fun v hv => hc.vars v (by simp [hv]), hfresh⟩
  · obtain ⟨hty, -, hsorted, -⟩ := hc.sorted
    exact ⟨hsorted, hty, hc.vars _ (by simp), fun v hv => hc.vars v (by simp [hv]), hfresh⟩

/-- The conjunct is true exactly if the definition that it is holds. -/
theorem truth_iff_holds {c : Expr} {d : Definition} (h : ofConjunct? c = some d)
    (hd : d.Valid P) : c.truth ρ = true ↔ d.Holds ρ := by
  obtain ⟨rfl | rfl, -⟩ := ofConjunct?_eq_some h
  · exact Expr.truth_eq hd.ty.symm
  · have hty : d.term.ty = (Expr.var d.var).ty := hd.ty
    exact (Expr.truth_eq hty).trans eq_comm

/-- Splitting takes out one conjunct, which is a definition. -/
theorem split?_eq_some {cs : List Expr} {d : Definition} {rest : List Expr}
    (h : split? cs = some (d, rest)) :
    ∃ c, ofConjunct? c = some d ∧ ∀ e, e ∈ cs ↔ e = c ∨ e ∈ rest := by
  induction cs generalizing rest with
  | nil => cases h
  | cons c cs ih =>
    unfold split? at h
    split at h
    · next d' hd =>
      cases h
      exact ⟨c, hd, fun e => List.mem_cons⟩
    · obtain ⟨⟨d', rest'⟩, h', hpair⟩ := Option.map_eq_some_iff.1 h
      cases hpair
      obtain ⟨b, hb, hmem⟩ := ih h'
      refine ⟨b, hb, fun e => ?_⟩
      rw [List.mem_cons, List.mem_cons, hmem, or_left_comm]

/-- Without a definition to split off, no conjunct is one. -/
theorem split?_eq_none (h : split? cs = none) : ∀ c ∈ cs, ofConjunct? c = none := by
  induction cs with
  | nil => simp
  | cons c cs ih =>
    unfold split? at h
    split at h
    · cases h
    · next hc =>
      rw [Option.map_eq_none_iff] at h
      exact List.forall_mem_cons.2 ⟨hc, ih h⟩

/-! ## One round -/

/-- The definition that is split off is valid, and formulas are left. -/
theorem valid_of_split? (h : split? cs = some (d, rest)) (hcs : ∀ c ∈ cs, c.IsFormula P) :
    d.Valid P ∧ ∀ c ∈ rest, c.IsFormula P := by
  obtain ⟨c, hc, hmem⟩ := split?_eq_some h
  exact ⟨valid_of_ofConjunct? hc (hcs c ((hmem c).2 (.inl rfl))),
    fun e he => hcs e ((hmem e).2 (.inr he))⟩

/-- Replacing the variable by its term is setting it to the value of the term. -/
theorem models_applyTo {d : Definition} (hd : d.Valid P) {cs : List Expr} :
    ρ.Models (d.applyTo cs) ↔ (d.setIn ρ).Models cs := by
  have hsubst (c : Expr) : (c.subst (.var d.var) d.term).truth ρ = c.truth (d.setIn ρ) := by
    rw [Expr.truth, Expr.valueIn_subst hd.ty, Expr.truth, setIn]
  constructor
  · intro h c hc
    rw [← hsubst, Expr.truth_conjuncts]
    exact fun b hb => h b (List.mem_flatMap.2 ⟨c, hc, hb⟩)
  · intro h b hb
    obtain ⟨c, hc, hb⟩ := List.mem_flatMap.1 hb
    exact (Expr.truth_conjuncts _).1 ((hsubst c).trans (h c hc)) b hb

/-- The defined variable is gone afterwards. -/
theorem isFormula_applyTo_ne {d : Definition} (hd : d.Valid P) {cs : List Expr}
    (hcs : ∀ c ∈ cs, c.IsFormula P) :
    ∀ c ∈ d.applyTo cs, c.IsFormula fun v => P v ∧ v ≠ d.var := by
  intro b hb
  obtain ⟨c, hc, hb⟩ := List.mem_flatMap.1 hb
  refine Expr.IsFormula.conjuncts ⟨?_, ?_, fun v hv => ?_⟩ b hb
  · exact Expr.WellSorted.subst hd.ty hd.sorted (hcs c hc).sorted
  · rw [Expr.ty_subst hd.ty, (hcs c hc).bool]
  · rcases Expr.mem_vars_subst hv with hv | ⟨hv, hne⟩
    · exact ⟨hd.vars v hv, fun h => hd.fresh (h ▸ hv)⟩
    · exact ⟨(hcs c hc).vars v hv, hne⟩

/-- Replacing a variable by a term of its type leaves formulas. -/
theorem isFormula_applyTo {d : Definition} (hd : d.Valid P) {cs : List Expr}
    (hcs : ∀ c ∈ cs, c.IsFormula P) : ∀ c ∈ d.applyTo cs, c.IsFormula P :=
  fun c hc => (isFormula_applyTo_ne hd hcs c hc).mono fun _ _ h => h.1

/-- Conjuncts with a definition among them say the same as the definition and the others, also once
the others have lost the variable. -/
theorem models_round (h : split? cs = some (d, rest)) (hcs : ∀ c ∈ cs, c.IsFormula P) :
    ρ.Models cs ↔ d.Holds ρ ∧ ρ.Models (d.applyTo rest) := by
  obtain ⟨hd, -⟩ := valid_of_split? h hcs
  obtain ⟨c, hc, hmem⟩ := split?_eq_some h
  have hsplit : ρ.Models cs ↔ d.Holds ρ ∧ ρ.Models rest := by
    rw [← truth_iff_holds hc hd]
    constructor
    · exact fun hm => ⟨hm c ((hmem c).2 (.inl rfl)), fun e he => hm e ((hmem e).2 (.inr he))⟩
    · rintro ⟨htruth, hm⟩ e he
      rcases (hmem e).1 he with rfl | he
      · exact htruth
      · exact hm e he
  rw [hsplit]
  refine and_congr_right fun hholds => ?_
  rw [models_applyTo hd, hholds.setIn_eq]

/-! ## All rounds -/

/-- The rounds of elimination: there are rounds for as long as there is a definition. -/
inductive Eliminates : List Expr → List Expr → List Definition → Prop
  | done {cs : List Expr} (h : split? cs = none) : Eliminates cs cs []
  | round {cs rest left : List Expr} {d : Definition} {ds : List Definition}
      (hsplit : split? cs = some (d, rest)) (h : Eliminates (d.applyTo rest) left ds) :
      Eliminates cs left (d :: ds)

/-- There are at most as many rounds as variables: each round takes one out of the conjuncts. -/
theorem eliminates_eliminateWithin {n : Nat} (V : List Var) (hcs : ∀ c ∈ cs, c.IsFormula (· ∈ V))
    (hn : V.length ≤ n) : Eliminates cs (eliminateWithin n cs).1 (eliminateWithin n cs).2 := by
  -- A round may leave more conjuncts than it found, so only the variables `V` that they may mention
  -- can be counted.
  induction n generalizing cs V with
  | zero =>
    cases List.eq_nil_of_length_eq_zero (Nat.le_zero.1 hn)
    cases hsplit : split? cs with
    | none => exact .done hsplit
    | some found => exact absurd (valid_of_split? hsplit hcs).1.var List.not_mem_nil
  | succ n ih =>
    rw [eliminateWithin]
    split
    · next hsplit => exact .done hsplit
    · next d rest hsplit =>
      obtain ⟨hd, hrest⟩ := valid_of_split? hsplit hcs
      have hlt : (V.filter (· ≠ d.var)).length < V.length :=
        List.length_filter_lt_length_iff_exists.2 ⟨d.var, hd.var, by simp⟩
      refine .round hsplit (ih (V.filter (· ≠ d.var)) (fun c hc => ?_) (by omega))
      refine (isFormula_applyTo_ne hd hrest c hc).mono fun v _ hv => ?_
      exact List.mem_filter.2 ⟨hv.1, by simpa using hv.2⟩

/-- There are as many rounds as there are variables to begin with, which is enough. -/
theorem eliminates_eliminate (hcs : ∀ c ∈ cs, c.IsFormula P) :
    Eliminates cs (eliminate cs).1 (eliminate cs).2 := by
  refine eliminates_eliminateWithin (Expr.varsOfList cs).toList (fun c hc => ?_)
    (Nat.le_of_eq Std.ExtTreeSet.length_toList)
  refine (hcs c hc).mono fun v hv _ => ?_
  exact Std.ExtTreeSet.mem_toList.2 (Expr.mem_varsOfList.2 ⟨c, hc, hv⟩)

namespace Eliminates

/-- What is left of formulas are formulas. -/
theorem isFormula (h : Eliminates cs left ds) (hcs : ∀ c ∈ cs, c.IsFormula P) :
    ∀ c ∈ left, c.IsFormula P := by
  induction h with
  | done => exact hcs
  | round hsplit _ ih =>
    obtain ⟨hd, hrest⟩ := valid_of_split? hsplit hcs
    exact ih (isFormula_applyTo hd hrest)

/-- Definitions taken from formulas are valid. -/
theorem valid (h : Eliminates cs left ds) (hcs : ∀ c ∈ cs, c.IsFormula P) :
    ∀ d ∈ ds, d.Valid P := by
  induction h with
  | done => simp
  | round hsplit _ ih =>
    obtain ⟨hd, hrest⟩ := valid_of_split? hsplit hcs
    exact List.forall_mem_cons.2 ⟨hd, ih (isFormula_applyTo hd hrest)⟩

/-- The conjuncts hold exactly if what is left holds and all definitions do. -/
theorem models_iff (h : Eliminates cs left ds) (hcs : ∀ c ∈ cs, c.IsFormula P) :
    ρ.Models cs ↔ ρ.Models left ∧ ∀ d ∈ ds, d.Holds ρ := by
  induction h with
  | done => simp
  | round hsplit _ ih =>
    obtain ⟨hd, hrest⟩ := valid_of_split? hsplit hcs
    rw [models_round hsplit hcs, ih (isFormula_applyTo hd hrest), List.forall_mem_cons,
      and_left_comm]

/-- No variable that was eliminated occurs in what is left. -/
theorem fresh (h : Eliminates cs left ds) (hcs : ∀ c ∈ cs, c.IsFormula P) :
    ∀ d ∈ ds, ∀ c ∈ left, d.var ∉ c.vars := by
  induction h generalizing P with
  | done => simp
  | round hsplit hrounds ih =>
    obtain ⟨hd, hrest⟩ := valid_of_split? hsplit hcs
    -- "Not `d.var`" is a property of variables like `P`, so the later rounds keep it.
    have hne := isFormula_applyTo_ne hd hrest
    refine List.forall_mem_cons.2 ⟨fun c hc hv => ?_, ih hne⟩
    exact ((hrounds.isFormula hne c hc).vars _ hv).2 rfl

/-- No conjunction is left. -/
theorem isConjunct (h : Eliminates cs left ds) (hcs : ∀ c ∈ cs, c.IsConjunct) :
    ∀ c ∈ left, c.IsConjunct := by
  induction h with
  | done => exact hcs
  | round _ _ ih =>
    refine ih fun c hc => ?_
    obtain ⟨e, -, hc⟩ := List.mem_flatMap.1 hc
    exact Expr.isConjunct_of_mem_conjuncts hc

/-- No definition is left. -/
theorem ofConjunct?_eq_none (h : Eliminates cs left ds) : ∀ c ∈ left, ofConjunct? c = none := by
  induction h with
  | done h => exact split?_eq_none h
  | round _ _ ih => exact ih

end Eliminates

/-- No variable is defined twice, and none occurs in a later definition. -/
def Triangular (ds : List Definition) : Prop :=
  ds.Pairwise fun d d' => d'.var ≠ d.var ∧ d.var ∉ d'.term.vars

/-- A variable that is defined is replaced before the next round, so it occurs in no later
definition. -/
theorem Eliminates.triangular (h : Eliminates cs left ds) (hcs : ∀ c ∈ cs, c.IsFormula P) :
    Triangular ds := by
  induction h generalizing P with
  | done => exact .nil
  | round hsplit hrounds ih =>
    obtain ⟨hd, hrest⟩ := valid_of_split? hsplit hcs
    have hne := isFormula_applyTo_ne hd hrest
    refine List.pairwise_cons.2 ⟨fun d' hd' => ?_, ih hne⟩
    have hvalid := hrounds.valid hne d' hd'
    exact ⟨hvalid.var.2, fun hv => (hvalid.vars _ hv).2 rfl⟩

theorem isFormula_eliminate (hcs : ∀ c ∈ cs, c.IsFormula P) : ∀ c ∈ (eliminate cs).1, c.IsFormula P :=
  (eliminates_eliminate hcs).isFormula hcs

/-- What the conjuncts say, what is left of them says. -/
theorem models_eliminate (hcs : ∀ c ∈ cs, c.IsFormula P) (h : ρ.Models cs) :
    ρ.Models (eliminate cs).1 :=
  (((eliminates_eliminate hcs).models_iff hcs).1 h).1

theorem valid_of_mem_eliminate (hcs : ∀ c ∈ cs, c.IsFormula P) : ∀ d ∈ (eliminate cs).2, d.Valid P :=
  (eliminates_eliminate hcs).valid hcs

theorem triangular_eliminate (hcs : ∀ c ∈ cs, c.IsFormula P) : Triangular (eliminate cs).2 :=
  (eliminates_eliminate hcs).triangular hcs

/-! ## Restoring definitions -/

/-- Gives the variables the values of their terms, the last one first. -/
def solveIn (ds : List Definition) (ρ : Env ι) : Env ι := ds.foldr setIn ρ

/-- Only defined variables get new values. -/
theorem val_solveIn_of_ne {v : Var} (hv : ∀ d ∈ ds, d.var ≠ v) :
    (solveIn ds ρ).val v = ρ.val v := by
  induction ds with
  | nil => rfl
  | cons d ds ih =>
    obtain ⟨hd, hds⟩ := List.forall_mem_cons.1 hv
    exact (Env.val_set_ne _ (Ne.symm hd)).trans (ih hds)

/-- Setting a variable leaves definitions alone that do not mention it. -/
theorem Holds.setIn {d' : Definition} (h : d'.Holds ρ) (hne : d'.var ≠ d.var)
    (hfresh : d.var ∉ d'.term.vars) : d'.Holds (d.setIn ρ) := by
  have hterm : d'.term.valueIn (d.setIn ρ) = d'.term.valueIn ρ :=
    Expr.valueIn_congr fun w hw => Env.val_set_ne _ fun h => hfresh (h ▸ hw)
  rw [Holds, hterm, ← h]
  exact Env.val_set_ne _ hne

/-- All definitions hold once their variables are set. -/
theorem holds_solveIn (hds : ∀ d ∈ ds, d.Valid P) (htri : Triangular ds) :
    ∀ d ∈ ds, d.Holds (solveIn ds ρ) := by
  -- induction on the definitions: the first one is set last, and its variable is in no other
  induction ds with
  | nil => simp
  | cons d ds ih =>
    obtain ⟨hlater, htri⟩ := List.pairwise_cons.1 htri
    obtain ⟨hd, hds⟩ := List.forall_mem_cons.1 hds
    refine List.forall_mem_cons.2 ⟨hd.holds_setIn, fun d' hd' => ?_⟩
    obtain ⟨hne, hfresh⟩ := hlater d' hd'
    exact (ih hds htri d' hd').setIn hne hfresh

/-- A model of what is left becomes one of all conjuncts. -/
theorem Eliminates.models_solveIn (h : Eliminates cs left ds) (hcs : ∀ c ∈ cs, c.IsFormula P)
    (hρ : ρ.Models left) : (solveIn ds ρ).Models cs := by
  refine (h.models_iff hcs).2 ⟨fun c hc => ?_, holds_solveIn (h.valid hcs) (h.triangular hcs)⟩
  rw [← hρ c hc]
  refine Expr.truth_congr fun v hv => val_solveIn_of_ne fun d hd => ?_
  rintro rfl
  exact h.fresh hcs d hd c hc hv

theorem env_insert {a : Assignment} (ha : a.Typed) {v : Var} {x : Value} (hx : x.ty = v.ty) :
    Assignment.env (a.insert v x) (ha.insert hx) = (a.env ha).set v x := by
  ext w
  by_cases hw : w = v
  · subst hw
    rw [Env.val_set_self hx]
    simp [Assignment.env]
  · rw [Env.val_set_ne x hw]
    simp [Assignment.env, Std.ExtTreeMap.getElem?_insert, Ne.symm hw]

/-- The last definition restored is the one eliminated first. -/
theorem restore_cons (hd : d.Valid P) {a : Assignment} (ht : Assignment.Typed (restore ds a)) :
    restore (d :: ds) a =
      (restore ds a).insert d.var (d.term.valueIn (Assignment.env _ ht)) := by
  rw [restore, List.foldr_cons, ← restore, Expr.eval_complete ht hd.sorted]

/-- Only defined variables are restored. -/
theorem getElem?_restore_of_ne {v : Var} (hv : ∀ d ∈ ds, d.var ≠ v) (a : Assignment) :
    (restore ds a)[v]? = a[v]? := by
  induction ds with
  | nil => rfl
  | cons d ds ih =>
    obtain ⟨hd, hds⟩ := List.forall_mem_cons.1 hv
    rw [restore, List.foldr_cons, ← restore]
    split
    · rw [Std.ExtTreeMap.getElem?_insert, if_neg fun h => hd (Std.LawfulEqOrd.compare_eq_iff_eq.1 h)]
      exact ih hds
    · exact ih hds

/-- Restoring definitions in an assignment gives the variables the values of their terms. -/
theorem env_restore (hds : ∀ d ∈ ds, d.Valid P) {a : Assignment} (ha : a.Typed) :
    ∃ ht : Assignment.Typed (restore ds a), Assignment.env _ ht = solveIn ds (a.env ha) ∧
      ∀ d ∈ ds, (restore ds a).contains d.var := by
  induction ds with
  | nil => exact ⟨ha, rfl, by simp⟩
  | cons d ds ih =>
    obtain ⟨hd, hds⟩ := List.forall_mem_cons.1 hds
    obtain ⟨ht, henv, hcontains⟩ := ih hds
    have hty : (d.term.valueIn (Assignment.env _ ht)).ty = d.var.ty := by
      rw [Expr.ty_valueIn, hd.ty]
    rw [restore_cons hd ht]
    refine ⟨ht.insert hty, ?_, List.forall_mem_cons.2 ⟨by simp, fun d' hd' => ?_⟩⟩
    · rw [env_insert ht hty, henv]
      rfl
    · rw [Std.ExtTreeMap.contains_insert, hcontains d' hd', Bool.or_true]

/-- Once restored, every variable has the value of its term. -/
theorem eval_restore (hds : ∀ d ∈ ds, d.Valid P) (htri : Triangular ds) {a : Assignment}
    (ha : a.Typed) :
    ∃ ht : Assignment.Typed (restore ds a), ∀ d ∈ ds,
      (restore ds a)[d.var]? = some (d.term.valueIn (Assignment.env _ ht)) := by
  obtain ⟨ht, henv, hcontains⟩ := env_restore hds ha
  refine ⟨ht, fun d hd => ?_⟩
  have hholds : d.Holds (Assignment.env _ ht) := henv ▸ holds_solveIn hds htri d hd
  have hsome := hcontains d hd
  rw [Std.ExtTreeMap.contains_eq_isSome_getElem?] at hsome
  obtain ⟨x, hx⟩ := Option.isSome_iff_exists.1 hsome
  rw [hx, ← hholds]
  exact congrArg some (by simp [Assignment.env, hx])

/-- With the definitions restored, a model of what is left is a model of the conjuncts. -/
theorem models_restore (hcs : ∀ c ∈ cs, c.IsFormula P) {a : Assignment} (ha : a.Typed)
    (h : a.Models (eliminate cs).1) :
    Assignment.Typed (restore (eliminate cs).2 a) ∧
      Assignment.Models (restore (eliminate cs).2 a) cs := by
  have hrounds := eliminates_eliminate hcs
  obtain ⟨ht, henv, -⟩ := env_restore (hrounds.valid hcs) ha
  refine ⟨ht, (Assignment.models_iff ht hcs).2 ?_⟩
  rw [henv]
  exact hrounds.models_solveIn hcs ((Assignment.models_iff ha (hrounds.isFormula hcs)).1 h)

/-! ## Solved forms -/

/-- Conjuncts solved for variables: what is left of them, and definitions of the variables. -/
structure SolvedForm (cs left : List Expr) (ds : List Definition) : Prop where
  /-- What is left does not mention the variables. -/
  fresh : ∀ d ∈ ds, ∀ c ∈ left, d.var ∉ c.vars
  /-- Neither does a term mention its own variable or an earlier one. -/
  ordered : ∀ (i j : Nat) (d d' : Definition), i ≤ j → ds[i]? = some d → ds[j]? = some d' →
    d.var ∉ d'.term.vars
  distinct : (ds.map Definition.var).Nodup
  /-- No conjunct that is left can be taken apart, left out or turned into a definition. -/
  final : ∀ c ∈ left, c.IsConjunct ∧
    ∀ v t, v ∉ t.vars → c ≠ .eq (.var v) t ∧ c ≠ .eq t (.var v)
  /-- All conjuncts hold exactly if what is left does and the variables have their values. -/
  models_iff : ∀ (ι : Type) [Arithmetic ι] (ρ : Env ι),
    ρ.Models cs ↔ ρ.Models left ∧ ∀ d ∈ ds, d.Holds ρ
  /-- Evaluating the terms from the last one on extends a model of what is left. -/
  solvable : ∀ (ι : Type) [Arithmetic ι] (ρ : Env ι), ρ.Models left →
    (solveIn ds ρ).Models cs ∧ ∀ v, (∀ d ∈ ds, d.var ≠ v) → (solveIn ds ρ).val v = ρ.val v
  /-- That is how a model that was found is completed. -/
  restorable : ∀ a : Assignment, a.Typed → a.Models left →
    Assignment.Models (restore ds a) cs ∧
      ∀ v, (∀ d ∈ ds, d.var ≠ v) → (restore ds a)[v]? = a[v]?

/-- No variable occurs in its own definition or in a later one. -/
theorem Triangular.ordered (htri : Triangular ds) (hfresh : ∀ d ∈ ds, d.var ∉ d.term.vars)
    {i j : Nat} {d' : Definition} (hij : i ≤ j) (hi : ds[i]? = some d) (hj : ds[j]? = some d') :
    d.var ∉ d'.term.vars := by
  rcases Nat.eq_or_lt_of_le hij with rfl | hlt
  · cases hi.symm.trans hj
    exact hfresh d (List.mem_of_getElem? hi)
  · obtain ⟨hilt, rfl⟩ := List.getElem?_eq_some_iff.1 hi
    obtain ⟨hjlt, rfl⟩ := List.getElem?_eq_some_iff.1 hj
    exact (List.pairwise_iff_getElem.1 htri i j hilt hjlt hlt).2

/-- Elimination ends with a solved form of the conjuncts. -/
theorem eliminate_solves (hcs : ∀ c ∈ cs, c.IsFormula P) (hflat : ∀ c ∈ cs, c.IsConjunct) :
    Eliminates cs (eliminate cs).1 (eliminate cs).2 ∧
      SolvedForm cs (eliminate cs).1 (eliminate cs).2 := by
  have h := eliminates_eliminate hcs
  have htri := h.triangular hcs
  refine ⟨h, {
    fresh := h.fresh hcs
    ordered := fun i j d d' => htri.ordered fun d hd => (h.valid hcs d hd).fresh
    distinct := List.pairwise_map.2 (htri.imp fun hd => hd.1.symm)
    final := fun c hc => ⟨h.isConjunct hflat c hc,
      fun v t => ne_of_ofConjunct?_eq_none (h.ofConjunct?_eq_none c hc)⟩
    models_iff := fun ι _ ρ => h.models_iff hcs
    solvable := fun ι _ ρ hρ => ⟨h.models_solveIn hcs hρ, fun v => val_solveIn_of_ne⟩
    restorable := fun a ha hm =>
      ⟨(models_restore hcs ha hm).2, fun v hv => getElem?_restore_of_ne hv a⟩ }⟩

/-- `b` stands for a conjunction that mentions `x`, and `x` is defined after it. -/
def nested : List Expr :=
  [.eq varB (.logic .and (.cmp .lt varX varY) varC), varB, .eq (.arith .sub varY (.num 1)) varX,
    .eq (.arith .add varY varX) (.num 7)]

/-- Assigns `4` to `y` and true to `c`. -/
def nestedPoint : Assignment :=
  ((∅ : Assignment).insert varY (.int 4)).insert varC (.bool true)

theorem eliminate_solves_nested :
    (∀ c ∈ nested, c.IsFormula fun _ => True) ∧ (∀ c ∈ nested, c.IsConjunct) ∧
      (eliminate nested).2.map Definition.var = [varB, varX] ∧
      (eliminate nested).1.length = 3 ∧
      SolvedForm nested (eliminate nested).1 (eliminate nested).2 ∧
      nestedPoint.Models (eliminate nested).1 ∧
      Assignment.Models (restore (eliminate nested).2 nestedPoint) nested := by
  have hsorted : ∀ c ∈ nested, c.WellSorted ∧ c.ty = .bool := by decide
  have hformula : ∀ c ∈ nested, c.IsFormula fun _ => True := fun c hc =>
    ⟨(hsorted c hc).1, (hsorted c hc).2, fun _ _ => trivial⟩
  have hconjuncts : ∀ c ∈ nested, c.conjuncts = [c] := by decide
  have hflat : ∀ c ∈ nested, c.IsConjunct := fun c hc =>
    Expr.isConjunct_of_mem_conjuncts (e := c) (hconjuncts c hc ▸ List.mem_singleton_self c)
  have hmodels : ∀ c ∈ (eliminate nested).1, c.eval nestedPoint true = some (.bool true) := by
    decide +kernel
  have htyped : nestedPoint.Typed := (Assignment.typed_empty.insert rfl).insert rfl
  obtain ⟨-, hsolved⟩ := eliminate_solves hformula hflat
  exact ⟨hformula, hflat, by decide +kernel, by decide +kernel, hsolved, hmodels,
    (hsolved.restorable nestedPoint htyped hmodels).1⟩

end Definition

end Cegar

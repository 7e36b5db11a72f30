import Cegar.Proofs.Execution
import Cegar.Proofs.Inversion

/-!
# Path formulas describe executions

A model of a path formula gives a value to every write on the path. Read at the numbering after the
path, it gives the values that the variables of the program have there. The encoding of statements
is exact in both directions:

* **`PathFormula.extend_forward`**: if a statement can go from the store that a model reads to
  another one, the model can be changed at later writes so that it satisfies the extended formula
  and reads the new store;
* **`PathFormula.extend_backward`**: a model of the extended formula is one of the formula before,
  and the two stores that it reads are related by the statement.

A path formula speaks about writes that its numbering has seen (`PathFormula.Seen`). With
`PathFormula.Within` the variables are also of a class `K`, and `PathFormula.Over` is the case of
well-sorted formulas over variables of the program and branch variables.

The forward direction does not need that a name has one type: a write to one of two variables of a
name raises the index of both, and the model repeats the value of the other (`Env.hold`).
-/

namespace Cegar

/-! ## Versions of variables -/

/-- A version of a variable of the program, or of a branch variable. -/
def Known (P : Var → Prop) (v : Var) : Prop := P v.unindexed ∨ v.isBranch = true ∧ v.ty = .bool

/-- All versions of a variable are known if one is. -/
theorem Known.of_name {P : Var → Prop} {v w : Var} (h : Known P v) (hn : w.name = v.name)
    (ht : w.ty = v.ty) : Known P w := by
  rcases h with h | ⟨hb, hty⟩
  · refine .inl ?_
    have : w.unindexed = v.unindexed := by
      simp [Var.unindexed, hn, ht]
    rwa [this]
  · refine .inr ⟨?_, by rw [ht, hty]⟩
    rw [Var.isBranch, hn]
    exact hb

/-- A class of variables that all versions of a variable are in if one of them is. -/
def Versioned (K : Var → Prop) : Prop := ∀ v w, K v → w.name = v.name → w.ty = v.ty → K w

theorem versioned_known (P : Var → Prop) : Versioned (Known P) := fun _ _ h hn ht => h.of_name hn ht

theorem versioned_true : Versioned fun _ => True := fun _ _ _ _ _ => trivial

theorem Plain.known {P : Var → Prop} (hP : Plain P) {v : Var} (hv : P v) : Known P v := by
  have hi := hP.unindexed v hv
  have : v.unindexed = v := by
    cases v
    simp_all [Var.unindexed]
  exact .inl (this ▸ hv)

/-- A name has one type among the variables of the program and the branch variables. -/
theorem Vocabulary.ty_eq {P : Var → Prop} (hP : Vocabulary P) {v w : Var} (hv : Known P v)
    (hw : Known P w) (hn : v.name = w.name) : v.ty = w.ty := by
  have branch_eq : v.isBranch = w.isBranch := by rw [Var.isBranch, hn]; rfl
  rcases hv with hv | ⟨hvb, hvt⟩ <;> rcases hw with hw | ⟨hwb, hwt⟩
  · exact hP.oneType v.unindexed w.unindexed hv hw hn
  · have hplain : v.isBranch = false := hP.plain v.unindexed hv
    rw [branch_eq, hwb] at hplain
    cases hplain
  · have hplain : w.isBranch = false := hP.plain w.unindexed hw
    rw [← branch_eq, hvb] at hplain
    cases hplain
  · rw [hvt, hwt]

theorem Var.isBranch_branch (l : Nat) (i : UInt32) : (Var.branch l i).isBranch = true := by
  show (branchMark ++ Nat.repr l).startsWith branchMark = true
  rw [String.startsWith_string_iff, String.toList_append]
  exact List.prefix_append _ _

namespace SsaMap

instance : LE SsaMap := ⟨fun m n => ∀ name, m.index name ≤ n.index name⟩

theorem le_refl (m : SsaMap) : m ≤ m := fun _ => UInt32.le_refl _

theorem le_trans {m n k : SsaMap} (h : m ≤ n) (h' : n ≤ k) : m ≤ k :=
  fun name => UInt32.le_trans (h name) (h' name)

/-- A write that the numbering has seen. -/
def Sees (m : SsaMap) (v : Var) : Prop := ∃ i, v.index = some i ∧ i ≤ m.index v.name

theorem Sees.mono {m n : SsaMap} {v : Var} (h : m.Sees v) (hmn : m ≤ n) : n.Sees v := by
  obtain ⟨i, hi, hle⟩ := h
  exact ⟨i, hi, UInt32.le_trans hle (hmn _)⟩

/-- Entries are about variables of a class, with their types. -/
def Entries (K : Var → Prop) (m : SsaMap) : Prop :=
  ∀ name w, m.writes[name]? = some w → K ⟨name, w.ty, none⟩

/-- Entries are about variables of the program and branch variables. -/
def Over (P : Var → Prop) (m : SsaMap) : Prop := m.Entries (Known P)

theorem over_empty {P : Var → Prop} : empty.Over P := by
  intro name w h
  simp [empty] at h

@[simp] theorem ty_stamp (m : SsaMap) (v : Var) : (m.stamp v).ty = v.ty := by
  unfold stamp
  split <;> rfl

/-- A variable as such gets the index of its latest write. -/
theorem stamp_eq {m : SsaMap} {v : Var} (h : v.index = none) :
    m.stamp v = ⟨v.name, v.ty, some (m.index v.name)⟩ := by
  unfold stamp
  rw [h]

/-- A latest version is what its variable is stamped with. -/
theorem stamp_unindexed {m : SsaMap} {v : Var} (h : v.index = some (m.index v.name)) :
    m.stamp v.unindexed = v := by
  rw [stamp_eq rfl]
  exact congrArg (Var.mk v.name v.ty) h.symm

/-- Taking off the index gives the variable back. -/
theorem unindexed_stamp {m : SsaMap} {v : Var} (h : v.index = none) : (m.stamp v).unindexed = v := by
  rw [stamp_eq h]
  exact congrArg (Var.mk v.name v.ty) h.symm

/-- The latest version has been written. -/
theorem sees_stamp {m : SsaMap} {v : Var} (h : v.index = none) : m.Sees (m.stamp v) := by
  rw [stamp_eq h]
  exact ⟨_, rfl, UInt32.le_refl _⟩

/-- A write gets an index that no write to the variable had. -/
theorem fresh_ok {m m' : SsaMap} {name : String} {ty : Ty} {i : UInt32}
    (h : m.fresh name ty = .ok (m', i)) :
    m.index name < i ∧ m'.index name = i ∧ (∀ n, n ≠ name → m'.index n = m.index n) ∧
      m'.writes = m.writes.insert name ⟨i, ty⟩ := by
  unfold fresh at h
  split at h
  · next r hr =>
    cases h
    unfold fresh? at hr
    split at hr
    · cases hr
    · next hne =>
      cases hr
      refine ⟨?_, ?_, fun n hn => ?_, rfl⟩
      · have hne' : (m.index name + 1).toNat ≠ 0 := fun h0 => hne (UInt32.toNat_inj.1 h0)
        have hlt := (m.index name).toNat_lt
        rw [UInt32.lt_iff_toNat_lt]
        simp only [UInt32.toNat_add, UInt32.reduceToNat] at hne' ⊢
        omega
      · simp [index]
      · simp [index, Std.ExtTreeMap.getElem?_insert, Ne.symm hn]
  · cases h

end SsaMap

/-! ## Reading a model

A model reads a store at a numbering if the latest versions have the values of the store. Two models
agree up to a numbering if they differ at later writes only. -/

namespace Env

variable {P : Var → Prop} {V V' : Store} {m n : SsaMap} {σ : Store}

def Reads (P : Var → Prop) (V : Store) (m : SsaMap) (σ : Store) : Prop :=
  ∀ v, P v → V.val (m.stamp v) = σ.val v

/-- The store that a model reads at a numbering. -/
def after (V : Store) (m : SsaMap) : Store := V.rename m.stamp m.ty_stamp

theorem reads_after (V : Store) (m : SsaMap) : Reads P V m (V.after m) := fun _ _ => rfl

/-- Each write repeats the value of the store: a model that reads the store at every numbering. -/
def spread (σ : Store) : Store := σ.rename Var.unindexed fun _ => rfl

/-- A model that repeats a store at every version reads the store. -/
theorem reads_spread (hP : Plain P) (σ : Store) (m : SsaMap) :
    Reads P σ.spread m σ := by
  intro v hv
  have hi := hP.unindexed v hv
  show σ.val (m.stamp v).unindexed = σ.val v
  rw [SsaMap.unindexed_stamp hi]

def AgreesUpTo (V : Store) (m : SsaMap) (V' : Store) : Prop := ∀ v, m.Sees v → V'.val v = V.val v

theorem AgreesUpTo.refl (V : Store) (m : SsaMap) : V.AgreesUpTo m V := fun _ _ => rfl

theorem AgreesUpTo.trans {V'' : Store} (h : V.AgreesUpTo m V') (h' : V'.AgreesUpTo n V'')
    (hmn : m ≤ n) : V.AgreesUpTo m V'' :=
  fun v hv => (h' v (hv.mono hmn)).trans (h v hv)

/-- Models that agree on what was written read the same. -/
theorem AgreesUpTo.reads (h : V.AgreesUpTo m V') (hP : ∀ v, P v → v.index = none)
    (hr : Reads P V m σ) : Reads P V' m σ := by
  intro v hv
  rw [h _ (SsaMap.sees_stamp (hP v hv)), hr v hv]

theorem AgreesUpTo.valueIn {e : Expr} (h : V.AgreesUpTo m V') (he : ∀ v ∈ e.vars, m.Sees v) :
    e.valueIn V' = e.valueIn V :=
  Expr.valueIn_congr fun v hv => h v (he v hv)

/-- A formula over what was written does not tell such models apart. -/
theorem AgreesUpTo.truth {e : Expr} (h : V.AgreesUpTo m V') (he : ∀ v ∈ e.vars, m.Sees v) :
    e.truth V' = e.truth V :=
  Expr.truth_congr fun v hv => h v (he v hv)

/-- A value for a write that the numbering has not seen changes nothing up to there. -/
theorem agreesUpTo_set {v : Var} (x : Value) (hv : ¬ m.Sees v) : V.AgreesUpTo m (V.set v x) := by
  intro w hw
  have hne : w ≠ v := fun h => hv (h ▸ hw)
  exact val_set_ne x hne

/-- The model whose later writes repeat the latest one that `m` has seen. -/
def hold (V : Store) (m : SsaMap) : Store where
  val v := match v.index with
    | some i =>
      if m.index v.name < i then V.val ⟨v.name, v.ty, some (m.index v.name)⟩ else V.val v
    | none => V.val v
  typed v := by
    split
    · split <;> exact V.typed _
    · exact V.typed _

/-- Repeating the latest version concerns later ones only. -/
theorem agreesUpTo_hold : V.AgreesUpTo m (V.hold m) := by
  rintro v ⟨i, hi, hle⟩
  simp only [hold, hi]
  rw [if_neg (UInt32.not_lt.2 hle)]

theorem val_hold {name : String} {ty : Ty} {i : UInt32} (h : m.index name ≤ i) :
    (V.hold m).val ⟨name, ty, some i⟩ = V.val ⟨name, ty, some (m.index name)⟩ := by
  show (if m.index name < i then _ else _) = _
  split
  · rfl
  · next hlt => rw [UInt32.le_antisymm h (UInt32.not_lt.1 hlt)]

end Env

namespace Expr

variable {P : Var → Prop} {V : Store} {m : SsaMap} {σ : Store} {e : Expr}

/-- Over latest versions an expression has the value that it has in the store read there. -/
theorem valueIn_indexed (he : ∀ v ∈ e.vars, P v) (hr : Env.Reads P V m σ) :
    (e.indexed m).valueIn V = e.valueIn σ := by
  rw [indexed, valueIn_mapVars m.ty_stamp]
  exact valueIn_congr fun v hv => hr v (he v hv)

/-- An indexed formula is true in a model exactly if the formula is true in the store that it reads.
-/
theorem truth_indexed (he : ∀ v ∈ e.vars, P v) (hr : Env.Reads P V m σ) :
    (e.indexed m).truth V = e.truth σ := by
  rw [truth, truth, valueIn_indexed he hr]

@[simp] theorem ty_indexed (e : Expr) (m : SsaMap) : (e.indexed m).ty = e.ty :=
  ty_mapVars m.ty_stamp e

theorem WellSorted.indexed (h : e.WellSorted) (m : SsaMap) : (e.indexed m).WellSorted :=
  h.mapVars m.ty_stamp

/-- Latest versions are of the class of their variables, and their writes have been seen. -/
theorem vars_indexed {K : Var → Prop} (hK : Versioned K)
    (he : ∀ v ∈ e.vars, v.index = none ∧ K v) : ∀ v ∈ (e.indexed m).vars, K v ∧ m.Sees v := by
  intro w hw
  obtain ⟨v, hv, rfl⟩ := mem_vars_mapVars.1 hw
  obtain ⟨hi, hk⟩ := he v hv
  exact ⟨hK v _ hk (by rw [SsaMap.stamp_eq hi]) (m.ty_stamp v), SsaMap.sees_stamp hi⟩

/-- An indexed formula is one over versions that have been written. -/
theorem IsFormula.indexed (hP : Plain P) (h : e.IsFormula P) (m : SsaMap) :
    (e.indexed m).IsFormula fun v => Known P v ∧ m.Sees v :=
  ⟨h.sorted.indexed m, by rw [ty_indexed, h.bool],
    vars_indexed (versioned_known P) fun v hv =>
      ⟨hP.unindexed v (h.vars v hv), hP.known (h.vars v hv)⟩⟩

end Expr

/-! ## Fresh writes -/

namespace SsaMap

variable {K : Var → Prop} {m m' : SsaMap} {name : String} {ty : Ty} {i : UInt32}

/-- A fresh version forgets no write. -/
theorem le_of_fresh (h : m.fresh name ty = .ok (m', i)) : m ≤ m' := by
  obtain ⟨hlt, hself, hother, -⟩ := fresh_ok h
  intro n
  by_cases hn : n = name
  · subst hn
    rw [hself]
    exact UInt32.le_of_lt hlt
  · rw [hother n hn]
    exact UInt32.le_refl _

/-- A fresh version has not been written before. -/
theorem not_sees_fresh (h : m.fresh name ty = .ok (m', i)) : ¬ m.Sees ⟨name, ty, some i⟩ := by
  rintro ⟨j, hj, hle⟩
  cases hj
  exact absurd (fresh_ok h).1 (UInt32.not_lt.2 hle)

/-- A fresh version counts as written from then on. -/
theorem sees_fresh (h : m.fresh name ty = .ok (m', i)) : m'.Sees ⟨name, ty, some i⟩ :=
  ⟨i, rfl, by rw [(fresh_ok h).2.1]; exact UInt32.le_refl _⟩

/-- The numbering knows the variable of a fresh version. -/
theorem Entries.fresh (hm : m.Entries K) (h : m.fresh name ty = .ok (m', i))
    (hk : K ⟨name, ty, none⟩) : m'.Entries K := by
  obtain ⟨-, -, -, hwrites⟩ := fresh_ok h
  intro n w hw
  rw [hwrites, Std.ExtTreeMap.getElem?_insert] at hw
  split at hw
  · next heq =>
    rw [Std.LawfulEqOrd.compare_eq_iff_eq] at heq
    cases heq
    cases hw
    exact hk
  · exact hm n w hw

end SsaMap

namespace Env

variable {P : Var → Prop} {V V' : Store} {m m' : SsaMap} {σ : Store} {i : UInt32}

/-- After a write to `v` the value written is read, and the other variables are as before. -/
theorem Reads.write (hP : Vocabulary P) (hr : Reads P V m σ) {v : Var} (hv : P v)
    (h : m.fresh v.name v.ty = .ok (m', i)) :
    Reads P V m' (σ.set v (V.val ⟨v.name, v.ty, some i⟩)) := by
  obtain ⟨-, hself, hother, -⟩ := SsaMap.fresh_ok h
  intro w hw
  rw [SsaMap.stamp_eq (hP.unindexed w hw)]
  by_cases hwv : w = v
  · subst hwv
    have hty : (V.val ⟨w.name, w.ty, some i⟩).ty = w.ty := V.typed _
    rw [hself, Env.val_set_self hty]
  · have hne : w.name ≠ v.name := fun hn => hwv (hP.eq_of_name hw hv hn)
    rw [hother _ hne, ← SsaMap.stamp_eq (hP.unindexed w hw), hr w hw, Env.val_set_ne _ hwv]

/-- A value for a fresh write, where all others repeat their latest value. -/
def holdSet (V : Store) (m : SsaMap) (v : Var) (i : UInt32) (x : Value) : Store :=
  (V.hold m).set ⟨v.name, v.ty, some i⟩ x

/-- The value for a fresh write changes nothing that was written. -/
theorem agreesUpTo_holdSet {v : Var} (h : m.fresh v.name v.ty = .ok (m', i)) (x : Value) :
    V.AgreesUpTo m (V.holdSet m v i x) :=
  agreesUpTo_hold.trans (agreesUpTo_set x (SsaMap.not_sees_fresh h)) (SsaMap.le_refl m)

/-- After a fresh write the model reads the store with the new value. -/
theorem Reads.holdSet (hP : Plain P) (hr : Reads P V m σ) {v : Var} (hv : P v)
    (h : m.fresh v.name v.ty = .ok (m', i)) {x : Value} (hx : x.ty = v.ty) :
    Reads P (V.holdSet m v i x) m' (σ.set v x) := by
  intro w hw
  have hwi := hP.unindexed w hw
  rw [SsaMap.stamp_eq hwi]
  by_cases hwv : w = v
  · subst hwv
    rw [(SsaMap.fresh_ok h).2.1, Env.val_set_self hx]
    exact Env.val_set_self hx
  -- a variable of another name or type is not the one written, whatever its index now is
  · have hne : (⟨w.name, w.ty, some (m'.index w.name)⟩ : Var) ≠ ⟨v.name, v.ty, some i⟩ := by
      intro heq
      have hvi := hP.unindexed v hv
      apply hwv
      cases w; cases v
      simp_all
    rw [Env.holdSet, Env.val_set_ne _ hne, val_hold (SsaMap.le_of_fresh h w.name),
      ← SsaMap.stamp_eq hwi, hr w hw, Env.val_set_ne _ hwv]

/-- A write to a branch variable does not concern the variables of the program. -/
theorem Reads.branch (hP : Plain P) {l : Nat} (hr : Reads P V m σ)
    (h : m.fresh (Var.branchName l) .bool = .ok (m', i)) (hV : V.AgreesUpTo m V') :
    Reads P V' m' σ := by
  intro w hw
  have hi := hP.unindexed w hw
  have hne : w.name ≠ Var.branchName l := by
    intro hn
    have hplain := hP.notBranch w hw
    rw [Var.isBranch, hn] at hplain
    exact absurd ((Var.isBranch_branch l i).symm.trans hplain) (by simp)
  have hstamp := SsaMap.stamp_eq (m := m) hi
  rw [SsaMap.stamp_eq hi, (SsaMap.fresh_ok h).2.2.1 _ hne, ← hstamp, hV _ (SsaMap.sees_stamp hi),
    hr w hw]

end Env

/-! ## What path formulas are made of -/

namespace PathFormula

variable {P K : Var → Prop} {p q : PathFormula} {V : Store} {σ σ' : Store}

/-- The formula is over writes that the numbering has seen. -/
def Seen (p : PathFormula) : Prop := ∀ v ∈ p.formula.vars, p.ssa.Sees v

/-- A path formula is true in all models that agree on what it has written. -/
theorem Seen.truth_eq (hp : p.Seen) {V' : Store} (h : V.AgreesUpTo p.ssa V') :
    p.formula.truth V' = p.formula.truth V :=
  h.truth hp

/-- The formula is over writes to variables of a class, and so is the numbering. -/
structure Within (K : Var → Prop) (p : PathFormula) : Prop where
  vars : ∀ v ∈ p.formula.vars, K v ∧ p.ssa.Sees v
  entries : p.ssa.Entries K

theorem Within.seen (hp : p.Within K) : p.Seen := fun v hv => (hp.vars v hv).2

theorem Seen.within (hp : p.Seen) : p.Within fun _ => True :=
  ⟨fun v hv => ⟨trivial, hp v hv⟩, fun _ _ _ => trivial⟩

theorem Within.empty {m : SsaMap} (hm : m.Entries K) : (PathFormula.empty m).Within K :=
  ⟨fun v hv => by simp [PathFormula.empty] at hv, hm⟩

/-- A conjunct over what has been written. -/
theorem Within.conjoin (hp : p.Within K) {e : Expr} {m : SsaMap} (hle : p.ssa ≤ m)
    (hm : m.Entries K) (he : ∀ v ∈ e.vars, K v ∧ m.Sees v) : (p.conjoin e m).Within K :=
  ⟨(Expr.closed_vars _).and (fun v hv => ⟨(hp.vars v hv).1, (hp.vars v hv).2.mono hle⟩) he, hm⟩

/-- The formula is well-sorted. -/
def Sorted (p : PathFormula) : Prop := p.formula.IsFormula fun _ => True

theorem Sorted.conjoin (hp : p.Sorted) {e : Expr} {m : SsaMap} (he : e.IsFormula fun _ => True) :
    (p.conjoin e m).Sorted :=
  hp.and he

/-- A well-sorted formula over the variables of the program and branch variables. -/
structure Over (P : Var → Prop) (p : PathFormula) : Prop where
  formula : p.formula.IsFormula fun v => Known P v ∧ p.ssa.Sees v
  ssa : p.ssa.Over P

theorem Over.within (hp : p.Over P) : p.Within (Known P) := ⟨hp.formula.vars, hp.ssa⟩

theorem Over.seen (hp : p.Over P) : p.Seen := hp.within.seen

theorem Over.sorted (hp : p.Over P) : p.Sorted := hp.formula.mono fun _ _ _ => trivial

theorem Within.over (hp : p.Within (Known P)) (hs : p.Sorted) : p.Over P :=
  ⟨⟨hs.sorted, hs.bool, hp.vars⟩, hp.entries⟩

theorem Over.empty {m : SsaMap} (hm : m.Over P) : (PathFormula.empty m).Over P :=
  ⟨.const true, hm⟩

/-! ### Writes -/

/-- What a write that succeeded has done. -/
theorem write_ok {target : Expr} {value : Option Expr}
    (h : p.write target value = .ok (.ok q)) :
    ∃ v m i, target = .var v ∧ p.ssa.fresh v.name v.ty = .ok (m, i) ∧ q.ssa = m ∧
      q.formula = match value with
        | some e => p.formula.and (.eq (.var ⟨v.name, v.ty, some i⟩) e)
        | none => p.formula := by
  obtain ⟨v, hv, h⟩ := attempt_bind_ok.1 h
  have htarget : target = .var v := by
    unfold writeTarget at hv
    split at hv
    · next w => rw [attempt_pure_ok.1 hv]
    · exact absurd hv attempt_throw_ok
  obtain ⟨⟨m, i⟩, hf, h⟩ := attempt_bind_ok.1 h
  rw [attempt_lift_ok] at hf
  refine ⟨v, m, i, htarget, hf, ?_⟩
  cases value with
  | some e => cases attempt_pure_ok.1 h; exact ⟨rfl, rfl⟩
  | none => cases attempt_pure_ok.1 h; exact ⟨rfl, rfl⟩

/-- Only variables are written to. -/
theorem target_of_write {target : Expr} {value : Option Expr}
    (h : p.write target value = .ok (.ok q)) : ∃ v, target = .var v := by
  obtain ⟨v, -, -, hv, -⟩ := write_ok h
  exact ⟨v, hv⟩

/-- A write forgets no earlier one. -/
theorem le_of_write {target : Expr} {value : Option Expr}
    (h : p.write target value = .ok (.ok q)) : p.ssa ≤ q.ssa := by
  obtain ⟨v, m, i, -, hf, rfl, -⟩ := write_ok h
  exact SsaMap.le_of_fresh hf

/-- A write to a variable of the class reads and writes variables of the class. -/
theorem Within.write (hK : Versioned K) (hp : p.Within K) {v : Var} (hv : K v)
    {value : Option Expr} (hvalue : ∀ e, value = some e → ∀ w ∈ e.vars, K w ∧ p.ssa.Sees w)
    (h : p.write (.var v) value = .ok (.ok q)) : q.Within K := by
  obtain ⟨_, m, i, ⟨⟩, hf, rfl, hformula⟩ := write_ok h
  have hle := SsaMap.le_of_fresh hf
  have hm : q.ssa.Entries K := hp.entries.fresh hf (hK v _ hv rfl rfl)
  have mono {e : Expr} (he : ∀ w ∈ e.vars, K w ∧ p.ssa.Sees w) :
      ∀ w ∈ e.vars, K w ∧ q.ssa.Sees w :=
    fun w hw => ⟨(he w hw).1, (he w hw).2.mono hle⟩
  refine ⟨?_, hm⟩
  rw [hformula]
  cases value with
  | none => exact mono hp.vars
  | some e =>
    refine (Expr.closed_vars _).and (mono hp.vars) fun w hw => ?_
    rcases Expr.mem_vars_cmp.1 hw with hw | hw
    · rw [Expr.mem_vars_var.1 hw]
      exact ⟨hK v _ hv rfl rfl, SsaMap.sees_fresh hf⟩
    · exact mono (hvalue e rfl) w hw

/-- A write of a well-sorted value is well-sorted. -/
theorem Sorted.write (hp : p.Sorted) {v : Var} {value : Option Expr}
    (hvalue : ∀ e, value = some e → e.WellSorted ∧ e.ty = v.ty)
    (h : p.write (.var v) value = .ok (.ok q)) : q.Sorted := by
  obtain ⟨_, m, i, ⟨⟩, -, -, hformula⟩ := write_ok h
  rw [Sorted, hformula]
  cases value with
  | none => exact hp
  | some e =>
    obtain ⟨hsorted, hty⟩ := hvalue e rfl
    exact hp.and (.eq trivial hsorted hty.symm (fun _ _ => trivial) fun _ _ => trivial)

/-- A model can be given the value that is written. -/
theorem write_forward (hP : Plain P) (hp : p.Seen) {v : Var} (hv : P v)
    {value : Option Expr} (h : p.write (.var v) value = .ok (.ok q))
    (hV : p.formula.truth V = true) (hr : Env.Reads P V p.ssa σ) {x : Value} (hx : x.ty = v.ty)
    (hvalue : ∀ e, value = some e →
      e.ty = v.ty ∧ (∀ w ∈ e.vars, p.ssa.Sees w) ∧ e.valueIn V = x) :
    ∃ V', V.AgreesUpTo p.ssa V' ∧ q.formula.truth V' = true ∧
      Env.Reads P V' q.ssa (σ.set v x) := by
  obtain ⟨_, m, i, ⟨⟩, hf, rfl, hformula⟩ := write_ok h
  have hagree : V.AgreesUpTo p.ssa (V.holdSet p.ssa v i x) := Env.agreesUpTo_holdSet hf x
  refine ⟨_, hagree, ?_, hr.holdSet hP hv hf hx⟩
  have hold := (hp.truth_eq hagree).trans hV
  rw [hformula]
  cases value with
  | none => exact hold
  | some e =>
    obtain ⟨hty, hseen, hex⟩ := hvalue e rfl
    have hself : (V.holdSet p.ssa v i x).val ⟨v.name, v.ty, some i⟩ = x := Env.val_set_self hx
    have heq : (Expr.eq (.var ⟨v.name, v.ty, some i⟩) e).truth (V.holdSet p.ssa v i x) = true := by
      have hty' : (Expr.var ⟨v.name, v.ty, some i⟩).ty = e.ty := hty.symm
      rw [Expr.truth_eq hty', hagree.valueIn hseen, hex]
      exact hself
    simp only [Expr.truth_and, hold, heq, Bool.and_self]

/-- A model tells the value that was written. -/
theorem write_backward (hP : Vocabulary P) {v : Var} (hv : P v) {value : Option Expr}
    (hvalue : ∀ e, value = some e → e.ty = v.ty)
    (h : p.write (.var v) value = .ok (.ok q)) (hV : q.formula.truth V = true)
    (hr : Env.Reads P V p.ssa σ) :
    p.formula.truth V = true ∧ ∃ x : Value, x.ty = v.ty ∧
      (∀ e, value = some e → e.valueIn V = x) ∧ Env.Reads P V q.ssa (σ.set v x) := by
  obtain ⟨_, m, i, ⟨⟩, hf, rfl, hformula⟩ := write_ok h
  have hread := hr.write hP hv hf
  rw [hformula] at hV
  cases value with
  | none => exact ⟨hV, V.val ⟨v.name, v.ty, some i⟩, V.typed _, (fun e he => by cases he), hread⟩
  | some e =>
    simp only [Expr.truth_and, Bool.and_eq_true] at hV
    refine ⟨hV.1, V.val ⟨v.name, v.ty, some i⟩, V.typed _, fun d hd => ?_, hread⟩
    cases hd
    have hty : (Expr.var ⟨v.name, v.ty, some i⟩).ty = e.ty := (hvalue e rfl).symm
    exact ((Expr.truth_eq hty).1 hV.2).symm

/-! ### Calls

The arguments are read at the numbering from before the call, which the writes to the parameters
leave behind. -/

/-- The first write of a call, and the rest of it. -/
theorem bind_cons_ok {read : SsaMap} {b : Expr × Expr} {bs : List (Expr × Expr)}
    (h : bind read p (b :: bs) = .ok (.ok q)) :
    ∃ v r, b.1 = .var v ∧ p.write (.var v) (some (b.2.indexed read)) = .ok (.ok r) ∧
      bind read r bs = .ok (.ok q) := by
  obtain ⟨r, hr, h⟩ := attempt_bind_ok.1 h
  obtain ⟨v, -, -, hv, -⟩ := write_ok hr
  exact ⟨v, r, hv, hv ▸ hr, h⟩

/-- The variables of parameters and arguments. -/
def BindingVars (K : Var → Prop) (bs : List (Expr × Expr)) : Prop :=
  ∀ b ∈ bs, (∀ v ∈ b.1.vars, v.index = none ∧ K v) ∧ ∀ v ∈ b.2.vars, v.index = none ∧ K v

/-- Bindings forget no earlier write. -/
theorem le_of_bind {read : SsaMap} {bs : List (Expr × Expr)} (h : bind read p bs = .ok (.ok q)) :
    p.ssa ≤ q.ssa := by
  induction bs generalizing p with
  | nil =>
    cases attempt_pure_ok.1 h
    exact SsaMap.le_refl _
  | cons b bs ih =>
    obtain ⟨v, r, -, hw, h⟩ := bind_cons_ok h
    exact SsaMap.le_trans (le_of_write hw) (ih h)

/-- Bindings of variables of the class are about variables of the class. -/
theorem Within.bind (hK : Versioned K) {read : SsaMap} {bs : List (Expr × Expr)}
    (hbs : BindingVars K bs) (hp : p.Within K) (hread : read ≤ p.ssa)
    (h : bind read p bs = .ok (.ok q)) : q.Within K := by
  induction bs generalizing p with
  | nil =>
    cases attempt_pure_ok.1 h
    exact hp
  | cons b bs ih =>
    obtain ⟨v, r, hv, hw, h⟩ := bind_cons_ok h
    obtain ⟨hparameter, hargument⟩ := hbs b (by simp)
    rw [hv] at hparameter
    have hr := hp.write hK (hparameter v (by simp)).2
      (fun e he w hw => by
        cases he
        obtain ⟨hk, hs⟩ := Expr.vars_indexed hK hargument w hw
        exact ⟨hk, hs.mono hread⟩) hw
    exact ih (fun c hc => hbs c (by simp [hc])) hr (SsaMap.le_trans hread (le_of_write hw)) h

/-- Well-sorted bindings are well-sorted in the formula. -/
theorem Sorted.bind {read : SsaMap} {bs : List (Expr × Expr)}
    (hbs : ∀ b ∈ bs, Statement.Assignable b.1 b.2) (hp : p.Sorted)
    (h : bind read p bs = .ok (.ok q)) : q.Sorted := by
  induction bs generalizing p with
  | nil =>
    cases attempt_pure_ok.1 h
    exact hp
  | cons b bs ih =>
    obtain ⟨v, r, hv, hw, h⟩ := bind_cons_ok h
    obtain ⟨hsorted, hty⟩ := hbs b (by simp)
    rw [hv] at hty
    exact ih (fun c hc => hbs c (by simp [hc])) (hp.write (fun e he => by
      cases he
      exact ⟨hsorted.indexed read, by rw [Expr.ty_indexed, hty]; rfl⟩) hw) h

/-- Parameters and arguments that fit, over the variables of the program. -/
def Bindings (P : Var → Prop) (bs : List (Expr × Expr)) : Prop :=
  ∀ b ∈ bs, Statement.Assignable b.1 b.2 ∧ (∀ v ∈ b.1.vars, P v) ∧ ∀ v ∈ b.2.vars, P v

/-- A model that reads the store before the bindings has one that agrees with it and reads the store
after them. -/
theorem bind_forward (hP : Plain P) {read : SsaMap} {old : Store} {bs : List (Expr × Expr)}
    (hbs : Bindings P bs) (hp : p.Seen) (hread : read ≤ p.ssa)
    (h : bind read p bs = .ok (.ok q)) (hV : p.formula.truth V = true)
    (hold : Env.Reads P V read old) (hr : Env.Reads P V p.ssa σ)
    (hσ : old.putAll σ bs = some σ') :
    ∃ V', V.AgreesUpTo p.ssa V' ∧ q.formula.truth V' = true ∧ Env.Reads P V' q.ssa σ' := by
  -- induction on the bindings: each model is chosen beside the last one, and arguments are read
  -- in the first
  induction bs generalizing p V σ with
  | nil =>
    cases attempt_pure_ok.1 h
    cases hσ
    exact ⟨V, .refl V _, hV, hr⟩
  | cons b bs ih =>
    obtain ⟨v, r, hv, hw, h⟩ := bind_cons_ok h
    obtain ⟨⟨hsorted, hty⟩, hPv, hPe⟩ := hbs b (by simp)
    rw [hv] at hty hPv
    have hseen : ∀ w ∈ (b.2.indexed read).vars, p.ssa.Sees w := by
      intro w hw
      have hw := Expr.vars_indexed versioned_true
        (fun u hu => ⟨hP.unindexed u (hPe u hu), trivial⟩) w hw
      exact hw.2.mono hread
    have hσ : old.putAll (σ.set v (b.2.valueIn old)) bs = some σ' := by
      rw [show b = (.var v, b.2) by rw [← hv]] at hσ
      exact hσ
    -- the first write changes the model beyond `p` only, so the arguments keep their values
    obtain ⟨V₁, hagree, hV₁, hr₁⟩ := write_forward hP hp (hPv v (by simp)) hw hV hr
      (x := b.2.valueIn old) (by rw [Expr.ty_valueIn, hty]; rfl)
      (fun e he => by
        cases he
        exact ⟨by rw [Expr.ty_indexed, hty]; rfl, hseen, Expr.valueIn_indexed hPe hold⟩)
    have hrSeen := hp.within.write versioned_true trivial
      (fun e he w hw => by cases he; exact ⟨trivial, hseen w hw⟩) hw
    have hle := le_of_write hw
    have hold₁ : Env.Reads P V₁ read old :=
      Env.AgreesUpTo.reads (fun w hw => hagree w (hw.mono hread)) hP.unindexed hold
    obtain ⟨V', hagree', hV', hr'⟩ := ih (fun c hc => hbs c (by simp [hc])) hrSeen.seen
      (SsaMap.le_trans hread hle) h hV₁ hold₁ hr₁ hσ
    exact ⟨V', hagree.trans hagree' hle, hV', hr'⟩

/-- A model of the longer formula is one of the shorter, and reads the store that the bindings lead
to. -/
theorem bind_backward (hP : Vocabulary P) {read : SsaMap} {old : Store} {bs : List (Expr × Expr)}
    (hbs : Bindings P bs) (h : bind read p bs = .ok (.ok q)) (hV : q.formula.truth V = true)
    (hold : Env.Reads P V read old) (hr : Env.Reads P V p.ssa σ) :
    p.formula.truth V = true ∧ ∃ σ', old.putAll σ bs = some σ' ∧ Env.Reads P V q.ssa σ' := by
  induction bs generalizing p σ with
  | nil =>
    cases attempt_pure_ok.1 h
    exact ⟨hV, σ, rfl, hr⟩
  | cons b bs ih =>
    obtain ⟨v, r, hv, hw, h⟩ := bind_cons_ok h
    obtain ⟨⟨hsorted, hty⟩, hPv, hPe⟩ := hbs b (by simp)
    rw [hv] at hty hPv
    have hbs' : Bindings P bs := fun c hc => hbs c (by simp [hc])
    -- any store read after the first write shows that the formula before it holds
    obtain ⟨hVr, -⟩ := ih hbs' h (Env.reads_after V r.ssa)
    obtain ⟨hVp, x, -, hx, hr₁⟩ := write_backward hP (hPv v (by simp))
      (fun e he => by cases he; rw [Expr.ty_indexed, hty]; rfl) hw hVr hr
    obtain ⟨-, σ', hσ', hr'⟩ := ih hbs' h hr₁
    refine ⟨hVp, σ', ?_, hr'⟩
    have hval : b.2.valueIn old = x := by rw [← hx _ rfl, Expr.valueIn_indexed hPe hold]
    rw [show b = (.var v, b.2) by rw [← hv]]
    show old.putAll (σ.set v (b.2.valueIn old)) bs = some σ'
    rw [hval]
    exact hσ'

/-! ### Branches -/

/-- The two literals that a branch conjoins: the condition and the branch variable, or the
complements of both. -/
def branchLiterals (condition : Expr) (taken : Var) (truth : Bool) : Expr :=
  if truth then condition.and (.var taken) else condition.complement.and (Expr.var taken).complement

/-- Both literals hold exactly if the condition and the branch variable have the truth value. -/
theorem truth_branchLiterals (condition : Expr) (taken : Var) (truth : Bool) :
    (branchLiterals condition taken truth).truth V = true ↔
      condition.truth V = truth ∧ (Expr.var taken).truth V = truth := by
  cases truth <;> simp [branchLiterals]

theorem closed_branchLiterals {F : Expr → Prop} (hF : Expr.Closed F) {condition : Expr}
    {taken : Var} (hc : F condition) (ht : F (.var taken)) (truth : Bool) :
    F (branchLiterals condition taken truth) := by
  unfold branchLiterals
  split
  · exact hF.and hc ht
  · exact hF.and (hF.complement _ hc) (hF.complement _ ht)

/-- A branch conjoins its condition and a fresh branch variable, both with its truth value. -/
theorem branch_ok {l : Location} {condition : Expr} {truth : Bool}
    (h : p.branch l condition truth = .ok (.ok q)) :
    ∃ m i, p.ssa.fresh (Var.branchName l.idx) .bool = .ok (m, i) ∧
      q = p.conjoin (branchLiterals (condition.indexed p.ssa) (Var.branch l.idx i) truth) m := by
  obtain ⟨⟨m, i⟩, hf, h⟩ := attempt_bind_ok.1 h
  rw [attempt_lift_ok] at hf
  refine ⟨m, i, hf, ?_⟩
  unfold branchLiterals
  cases truth with
  | true => exact attempt_pure_ok.1 h
  | false => exact attempt_pure_ok.1 h

/-- A branch is about variables of the class. -/
theorem Within.branch (hK : Versioned K) (hp : p.Within K) {l : Location}
    (hbranch : ∀ i, K (Var.branch l.idx i)) {condition : Expr} {truth : Bool}
    (hc : ∀ v ∈ condition.vars, v.index = none ∧ K v)
    (h : p.branch l condition truth = .ok (.ok q)) : q.Within K := by
  obtain ⟨m, i, hf, rfl⟩ := branch_ok h
  have hle := SsaMap.le_of_fresh hf
  have hk : K (Var.branch l.idx i) := hbranch i
  refine hp.conjoin hle (hp.entries.fresh hf (hK _ _ hk rfl rfl)) ?_
  refine closed_branchLiterals (Expr.closed_vars _) (fun v hv => ?_) (fun v hv => ?_) truth
  · obtain ⟨hkv, hs⟩ := Expr.vars_indexed hK hc v hv
    exact ⟨hkv, hs.mono hle⟩
  · rw [Expr.mem_vars_var.1 hv]
    exact ⟨hk, SsaMap.sees_fresh hf⟩

theorem Sorted.branch (hp : p.Sorted) {l : Location} {condition : Expr} {truth : Bool}
    (hc : condition.WellSorted) (hty : condition.ty = .bool)
    (h : p.branch l condition truth = .ok (.ok q)) : q.Sorted := by
  obtain ⟨m, i, -, rfl⟩ := branch_ok h
  refine hp.conjoin (closed_branchLiterals (Expr.IsFormula.closed _) ?_ (.var rfl trivial) truth)
  exact ⟨hc.indexed _, by rw [Expr.ty_indexed, hty], fun _ _ => trivial⟩

/-- A store in which the condition has the truth value: the branch variable can be chosen. -/
theorem branch_forward (hP : Plain P) (hp : p.Seen) {l : Location} {condition : Expr}
    {truth : Bool} (hc : condition.IsFormula P) (h : p.branch l condition truth = .ok (.ok q))
    (hV : p.formula.truth V = true) (hr : Env.Reads P V p.ssa σ) (ht : condition.truth σ = truth) :
    ∃ V', V.AgreesUpTo p.ssa V' ∧ q.formula.truth V' = true ∧ Env.Reads P V' q.ssa σ := by
  obtain ⟨m, i, hf, rfl⟩ := branch_ok h
  have hagree : V.AgreesUpTo p.ssa (V.set (Var.branch l.idx i) (.bool truth)) :=
    Env.agreesUpTo_set _ (SsaMap.not_sees_fresh hf)
  refine ⟨_, hagree, ?_, hr.branch hP hf hagree⟩
  show (p.formula.and _).truth _ = true
  rw [Expr.truth_and, hp.truth_eq hagree, hV, Bool.true_and, truth_branchLiterals,
    hagree.truth fun v hv => ((hc.indexed hP p.ssa).vars v hv).2, Expr.truth_indexed hc.vars hr]
  refine ⟨ht, ?_⟩
  show ((V.set (Var.branch l.idx i) (.bool truth)).val (Var.branch l.idx i)).isTrue = truth
  rw [Env.val_set_self (by rfl)]
  rfl

/-- In a model of the branch the condition has the truth value, and the store stays as it is. -/
theorem branch_backward (hP : Plain P) {l : Location} {condition : Expr} {truth : Bool}
    (hc : condition.IsFormula P) (h : p.branch l condition truth = .ok (.ok q))
    (hV : q.formula.truth V = true) (hr : Env.Reads P V p.ssa σ) :
    p.formula.truth V = true ∧ condition.truth σ = truth ∧ Env.Reads P V q.ssa σ := by
  obtain ⟨m, i, hf, rfl⟩ := branch_ok h
  rw [conjoin, Expr.truth_and, Bool.and_eq_true, truth_branchLiterals,
    Expr.truth_indexed hc.vars hr] at hV
  exact ⟨hV.1, hV.2.1, hr.branch hP hf (.refl V _)⟩

/-! ### Statements -/

/-- A statement assigns, declares a variable without a value, or takes a branch. -/
theorem extend_ok {s : Statement} {l : Location} {e : EdgeId}
    (h : p.extend l e s = .ok (.ok q)) :
    (∃ bs, s.bindings? = some bs ∧ bind p.ssa p bs = .ok (.ok q)) ∨
    (∃ v, s = .declare (.var v) none ∧ p.write (.var v) none = .ok (.ok q)) ∨
    ∃ condition truth, s = .assume condition truth ∧ p.branch l condition truth = .ok (.ok q) := by
  have assigns {target value : Expr} (hs : s.bindings? = some [(target, value)])
      (hw : p.write target (some (value.indexed p.ssa)) = .ok (.ok q)) :
      ∃ bs, s.bindings? = some bs ∧ bind p.ssa p bs = .ok (.ok q) :=
    ⟨_, hs, attempt_bind_ok.2 ⟨q, hw, attempt_pure_ok.2 rfl⟩⟩
  cases s with
  | blank | callToReturn => exact .inl ⟨[], rfl, h⟩
  | assign target value => exact .inl (assigns rfl h)
  | call bs => exact .inl ⟨bs, rfl, h⟩
  | assume condition truth => exact .inr (.inr ⟨condition, truth, rfl, h⟩)
  | ret result =>
    cases result with
    | none => exact .inl ⟨[], rfl, h⟩
    | some b => exact .inl (assigns rfl h)
  | declare target initial =>
    cases initial with
    | none =>
      have hw : p.write target none = .ok (.ok q) := h
      obtain ⟨v, rfl⟩ := target_of_write hw
      exact .inr (.inl ⟨v, rfl, hw⟩)
    | some value => exact .inl (assigns rfl h)
  | unknown => exact absurd h attempt_throw_ok

/-- The bindings of a statement over the program are over the program. -/
theorem bindings_of_over {s : Statement} (hs : s.Over P) {bs : List (Expr × Expr)}
    (h : s.bindings? = some bs) : Bindings P bs := by
  intro b hb
  have hexprs : ∀ e ∈ [b.1, b.2], e ∈ s.exprs := fun e he => by
    rw [Statement.exprs_of_bindings? h]
    exact List.mem_flatMap.2 ⟨b, hb, he⟩
  exact ⟨(Statement.wellSorted_of_bindings? h).1 hs.sorted b hb,
    hs.vars _ (hexprs b.1 (by simp)), hs.vars _ (hexprs b.2 (by simp))⟩

theorem isFormula_of_assume {condition : Expr} {truth : Bool}
    (hs : (Statement.assume condition truth).Over P) : condition.IsFormula P :=
  ⟨hs.sorted.1, hs.sorted.2, hs.vars condition (by simp [Statement.exprs])⟩

/-- One more edge forgets no write. -/
theorem le_of_extend {s : Statement} {l : Location} {e : EdgeId}
    (h : p.extend l e s = .ok (.ok q)) : p.ssa ≤ q.ssa := by
  obtain ⟨bs, -, hq⟩ | ⟨v, -, hq⟩ | ⟨condition, truth, -, hq⟩ := extend_ok h
  · exact le_of_bind hq
  · exact le_of_write hq
  · obtain ⟨m, i, hf, rfl⟩ := branch_ok hq
    exact SsaMap.le_of_fresh hf

/-- A class that the variables of the statement are in, and the branch variable if it has one. -/
theorem Within.extend (hK : Versioned K) (hp : p.Within K) {s : Statement} {l : Location}
    (hbranch : ∀ condition truth, s = .assume condition truth → ∀ i, K (Var.branch l.idx i))
    (hs : ∀ e ∈ s.exprs, ∀ v ∈ e.vars, v.index = none ∧ K v) {e : EdgeId}
    (h : p.extend l e s = .ok (.ok q)) : q.Within K := by
  obtain ⟨bs, hbs, hq⟩ | ⟨v, rfl, hq⟩ | ⟨condition, truth, rfl, hq⟩ := extend_ok h
  · refine hp.bind hK (fun b hb => ?_) (SsaMap.le_refl _) hq
    rw [Statement.exprs_of_bindings? hbs] at hs
    exact ⟨hs b.1 (List.mem_flatMap.2 ⟨b, hb, by simp⟩),
      hs b.2 (List.mem_flatMap.2 ⟨b, hb, by simp⟩)⟩
  · have hv := hs (.var v) (by simp [Statement.exprs]) v (by simp)
    exact hp.write hK hv.2 (fun e he => by cases he) hq
  · exact hp.branch hK (hbranch condition truth rfl) (hs condition (by simp [Statement.exprs])) hq

/-- One more well-sorted statement. -/
theorem Sorted.extend (hp : p.Sorted) {s : Statement} (hs : s.WellSorted) {l : Location}
    {e : EdgeId} (h : p.extend l e s = .ok (.ok q)) : q.Sorted := by
  obtain ⟨bs, hbs, hq⟩ | ⟨v, rfl, hq⟩ | ⟨condition, truth, rfl, hq⟩ := extend_ok h
  · exact hp.bind ((Statement.wellSorted_of_bindings? hbs).1 hs) hq
  · exact hp.write (fun e he => by cases he) hq
  · exact hp.branch hs.1 hs.2 hq

/-- One more statement over the program. -/
theorem Over.extend (hP : Vocabulary P) (hp : p.Over P) {s : Statement} (hs : s.Over P)
    {l : Location} {e : EdgeId} (h : p.extend l e s = .ok (.ok q)) : q.Over P := by
  have hwithin := hp.within.extend (versioned_known P)
    (fun _ _ _ i => .inr ⟨Var.isBranch_branch _ _, rfl⟩)
    (fun d hd v hv => ⟨hP.unindexed v (hs.vars d hd v hv), hP.toPlain.known (hs.vars d hd v hv)⟩) h
  exact hwithin.over (hp.sorted.extend hs.sorted h)

/-- What a statement does to a store, a model of the formula follows. -/
theorem extend_forward (hP : Plain P) (hp : p.Seen) {s : Statement} (hs : s.Over P)
    {l : Location} {e : EdgeId} (h : p.extend l e s = .ok (.ok q)) (hV : p.formula.truth V = true)
    (hr : Env.Reads P V p.ssa σ) (hstep : s.Step σ σ') :
    ∃ V', V.AgreesUpTo p.ssa V' ∧ q.formula.truth V' = true ∧ Env.Reads P V' q.ssa σ' := by
  obtain ⟨bs, hbs, hq⟩ | ⟨v, rfl, hq⟩ | ⟨condition, truth, rfl, hq⟩ := extend_ok h
  · exact bind_forward hP (bindings_of_over hs hbs) hp (SsaMap.le_refl _) hq hV hr hr
      ((Statement.step_of_bindings? hbs).1 hstep)
  · obtain ⟨x, hx, hput⟩ := hstep
    cases hput
    have hv : P v := hs.vars (.var v) (by simp [Statement.exprs]) v (by simp)
    exact write_forward hP hp hv hq hV hr hx fun e he => by cases he
  · obtain ⟨ht, rfl⟩ := hstep
    exact branch_forward hP hp (isFormula_of_assume hs) hq hV hr ht

/-- What a model of the extended formula reads, the statement can do. -/
theorem extend_backward (hP : Vocabulary P) {s : Statement} (hs : s.Over P) {l : Location}
    {e : EdgeId} (h : p.extend l e s = .ok (.ok q)) (hV : q.formula.truth V = true)
    (hr : Env.Reads P V p.ssa σ) :
    p.formula.truth V = true ∧ ∃ σ', s.Step σ σ' ∧ Env.Reads P V q.ssa σ' := by
  obtain ⟨bs, hbs, hq⟩ | ⟨v, rfl, hq⟩ | ⟨condition, truth, rfl, hq⟩ := extend_ok h
  · obtain ⟨hVp, σ', hσ', hr'⟩ := bind_backward hP (bindings_of_over hs hbs) hq hV hr hr
    exact ⟨hVp, σ', (Statement.step_of_bindings? hbs).2 hσ', hr'⟩
  · have hv : P v := hs.vars (.var v) (by simp [Statement.exprs]) v (by simp)
    obtain ⟨hVp, x, hx, -, hr'⟩ := write_backward hP hv (fun e he => by cases he) hq hV hr
    exact ⟨hVp, σ.set v x, ⟨x, hx, rfl⟩, hr'⟩
  · obtain ⟨hVp, ht, hr'⟩ := branch_backward hP.toPlain (isFormula_of_assume hs) hq hV hr
    exact ⟨hVp, σ, ⟨ht, rfl⟩, hr'⟩

end PathFormula

end Cegar

import Cegar.Proofs.Encoding
import Cegar.Proofs.Satisfaction

/-!
# Disjunctions of path formulas

Two paths to one place are joined by the disjunction of their formulas over a common numbering. The
side that has written a variable less often carries its latest value on, so that both sides read the
variable at the same index.

* **`PathFormula.holds_or_left`**, **`PathFormula.holds_or_right`**: a model of one side becomes one
  of the disjunction when its later writes repeat the latest value, and reads the same store then;
* **`PathFormula.or_backward`**: a model of the disjunction satisfies one of the sides, and what it
  reads at that side's numbering it reads at the common one;
* **`PathFormula.leadsTo_or`**: the disjunction leads to the stores that the two sides lead to.

Both lists of equations are instances of `Carries`, so each direction is proved once. The first
direction holds of any formulas over writes that their numberings have seen. The second one needs
that a name has one type, since a numbering records one type for a name.
-/

namespace Cegar

namespace SsaMap

variable {K : Var → Prop} {m n : SsaMap}

/-- A name has the later one of its two writes. -/
theorem getElem?_writes_merge (m n : SsaMap) (name : String) :
    (m.merge n).writes[name]? =
      (n.writes[name]?.filter fun w => m.index name < w.index).or m.writes[name]? := by
  rw [merge, Std.ExtTreeMap.getElem?_union, Std.ExtTreeMap.getElem?_filter']

theorem index_of_some {name : String} {w : Write} (h : m.writes[name]? = some w) :
    m.index name = w.index := by
  simp [index, h]

theorem index_of_none {name : String} (h : m.writes[name]? = none) : m.index name = 0 := by
  simp [index, h]

/-- The common numbering has the larger index of every variable. -/
theorem index_merge (m n : SsaMap) (name : String) :
    (m.merge n).index name =
      if m.index name < n.index name then n.index name else m.index name := by
  have hmerge := getElem?_writes_merge m n name
  have hleft : (m.merge n).writes[name]? = m.writes[name]? →
      (m.merge n).index name = m.index name := by
    intro h
    rw [index, h]
    rfl
  cases hn : n.writes[name]? with
  | none =>
    rw [index_of_none hn, if_neg UInt32.not_lt_zero]
    exact hleft (by rw [hmerge, hn]; rfl)
  | some w =>
    rw [index_of_some hn]
    split
    · next hlt => exact index_of_some (by rw [hmerge, hn]; simp [Option.filter, hlt])
    · next hlt => exact hleft (by rw [hmerge, hn]; simp [Option.filter, hlt])

/-- Joining numberings forgets no write of the first. -/
theorem le_merge_left (m n : SsaMap) : m ≤ m.merge n := by
  intro name
  rw [index_merge]
  split
  · next h => exact UInt32.le_of_lt h
  · exact UInt32.le_refl _

/-- Joining numberings forgets no write of the second. -/
theorem le_merge_right (m n : SsaMap) : n ≤ m.merge n := by
  intro name
  rw [index_merge]
  split
  · exact UInt32.le_refl _
  · next h => exact UInt32.not_lt.1 h

/-- The joined numbering is about the variables of both. -/
theorem Entries.merge (hm : m.Entries K) (hn : n.Entries K) : (m.merge n).Entries K := by
  intro name w hw
  rw [getElem?_writes_merge] at hw
  rcases Option.or_eq_some_iff.1 hw with hw | ⟨-, hw⟩
  · exact hn name w (Option.filter_eq_some_iff.1 hw).1
  · exact hm name w hw

/-- The version, if it has an index, is of a write that the numbering has seen. -/
def Bounds (m : SsaMap) (v : Var) : Prop := ∀ i, v.index = some i → i ≤ m.index v.name

/-- More writes are seen later on. -/
theorem Bounds.mono {v : Var} (h : m.Bounds v) (hmn : m ≤ n) : n.Bounds v :=
  fun i hi => UInt32.le_trans (h i hi) (hmn _)

theorem Sees.bounds {v : Var} (h : m.Sees v) : m.Bounds v := by
  obtain ⟨i, hi, hle⟩ := h
  intro j hj
  rw [hi] at hj
  cases hj
  exact hle

end SsaMap

namespace Env

variable {P : Var → Prop} {V : Store} {m n : SsaMap} {σ τ : Store}

/-- What has been written keeps its value. -/
theorem val_hold_of_bounds {v : Var} (h : m.Bounds v) : (V.hold m).val v = V.val v := by
  cases hi : v.index with
  | none => simp only [hold, hi]
  | some i =>
    simp only [hold, hi]
    rw [if_neg (UInt32.not_lt.2 (h i hi))]

/-- Where later writes repeat the latest value, a store is read at every later numbering. -/
theorem Reads.hold (hP : ∀ v, P v → v.index = none) (hmn : m ≤ n) (hr : Reads P V m σ) :
    Reads P (V.hold m) n σ := by
  intro v hv
  rw [SsaMap.stamp_eq (hP v hv), val_hold (hmn v.name), ← SsaMap.stamp_eq (hP v hv), hr v hv]

end Env

/-! ## Carrying values on -/

/-- A name has one type. -/
def OneType (K : Var → Prop) : Prop := ∀ v w, K v → K w → v.name = w.name → v.ty = w.ty

theorem Vocabulary.oneType_known {P : Var → Prop} (hP : Vocabulary P) : OneType (Known P) :=
  fun _ _ hv hw hn => hP.ty_eq hv hw hn

namespace PathFormula

variable {P K : Var → Prop} {p q : PathFormula} {V : Store} {σ : Store} {lo hi m : SsaMap}
  {es : List Expr}

/-- An equation that carries a value says that two versions are equal. -/
theorem holds_carry {name : String} {ty : Ty} {i j : UInt32} :
    (carry name ty i j).Holds V ↔ V.val ⟨name, ty, some i⟩ = V.val ⟨name, ty, some j⟩ := by
  have hf : (carry name ty i j).IsFormula fun _ => True :=
    .eq trivial trivial rfl (fun _ _ => trivial) fun _ _ => trivial
  rw [Expr.holds_iff_truth hf]
  exact Expr.truth_eq rfl

/-- Equations that carry values at `lo` on to `hi`, for variables written more often there. -/
def Carries (K : Var → Prop) (lo hi : SsaMap) (es : List Expr) : Prop :=
  ∀ e ∈ es, ∃ v, K v ∧ lo.index v.name < hi.index v.name ∧
    e = carry v.name v.ty (hi.index v.name) (lo.index v.name)

/-- The equations carry on every variable of the class that is written more often at `hi`. -/
def CarriesAll (K : Var → Prop) (lo hi : SsaMap) (es : List Expr) : Prop :=
  ∀ v, K v → lo.index v.name < hi.index v.name →
    carry v.name v.ty (hi.index v.name) (lo.index v.name) ∈ es

/-- The left side has an equation for each variable that is written more often on the right. -/
theorem mem_carriesTo {e : Expr} :
    e ∈ carriesTo p q ↔ ∃ name w, q.ssa.writes[name]? = some w ∧ p.ssa.index name < w.index ∧
      carry name w.ty w.index (p.ssa.index name) = e := by
  simp only [carriesTo, List.mem_filterMap, Prod.exists,
    Std.ExtTreeMap.mem_toList_iff_getElem?_eq_some, Option.ite_none_right_eq_some,
    Option.some.injEq]

/-- The right side has an equation for each variable that is written more often on the left, or on
the left only. -/
theorem mem_carriesFrom {e : Expr} :
    e ∈ carriesFrom p q ↔ ∃ name w,
      (q.ssa.writes[name]? = some w ∧ w.index < p.ssa.index name ∧
        carry name w.ty (p.ssa.index name) w.index = e) ∨
      (p.ssa.writes[name]? = some w ∧ q.ssa.writes[name]? = none ∧ 0 < w.index ∧
        carry name w.ty w.index 0 = e) := by
  simp only [carriesFrom, List.mem_append, List.mem_filterMap, Prod.exists,
    Std.ExtTreeMap.mem_toList_iff_getElem?_eq_some, Option.ite_none_right_eq_some,
    Option.some.injEq, Bool.and_eq_true, Bool.not_eq_true', decide_eq_true_eq,
    Std.ExtTreeMap.contains_eq_isSome_getElem?, Option.isSome_eq_false_iff,
    Option.isNone_iff_eq_none, exists_or, and_assoc]

/-- The equations on the left carry values on to the right. -/
theorem carries_carriesTo (hq : q.ssa.Entries K) : Carries K p.ssa q.ssa (carriesTo p q) := by
  intro e he
  obtain ⟨name, w, hw, hlt, rfl⟩ := mem_carriesTo.1 he
  have hindex : q.ssa.index name = w.index := SsaMap.index_of_some hw
  exact ⟨⟨name, w.ty, none⟩, hq name w hw, by rwa [hindex], by rw [hindex]⟩

/-- The equations on the right carry values on to the left. -/
theorem carries_carriesFrom (hp : p.ssa.Entries K) (hq : q.ssa.Entries K) :
    Carries K q.ssa p.ssa (carriesFrom p q) := by
  intro e he
  obtain ⟨name, w, ⟨hw, hlt, rfl⟩ | ⟨hw, hnone, hlt, rfl⟩⟩ := mem_carriesFrom.1 he
  · have hindex : q.ssa.index name = w.index := SsaMap.index_of_some hw
    exact ⟨⟨name, w.ty, none⟩, hq name w hw, by rwa [hindex], by rw [hindex]⟩
  · have hindex : p.ssa.index name = w.index := SsaMap.index_of_some hw
    have hzero : q.ssa.index name = 0 := SsaMap.index_of_none hnone
    exact ⟨⟨name, w.ty, none⟩, hp name w hw, by rwa [hindex, hzero], by rw [hindex, hzero]⟩

/-- The equations carry values on, whatever the entries of the numberings are about. -/
theorem carriesTo_carries (p q : PathFormula) :
    Carries (fun _ => True) p.ssa q.ssa (carriesTo p q) :=
  carries_carriesTo fun _ _ _ => trivial

theorem carriesFrom_carries (p q : PathFormula) :
    Carries (fun _ => True) q.ssa p.ssa (carriesFrom p q) :=
  carries_carriesFrom (fun _ _ _ => trivial) fun _ _ _ => trivial

/-- A variable with a larger index than another has been written. -/
theorem exists_write {name : String} {i : UInt32} (h : i < m.index name) :
    ∃ w, m.writes[name]? = some w ∧ m.index name = w.index := by
  cases hw : m.writes[name]? with
  | none =>
    rw [SsaMap.index_of_none hw] at h
    exact absurd h UInt32.not_lt_zero
  | some w => exact ⟨w, rfl, SsaMap.index_of_some hw⟩

/-- Every variable that is written more often on the right is carried on. -/
theorem carriesAll_carriesTo (hK : OneType K) (hq : q.ssa.Entries K) :
    CarriesAll K p.ssa q.ssa (carriesTo p q) := by
  intro v hv hlt
  obtain ⟨w, hw, hindex⟩ := exists_write hlt
  have hty : v.ty = w.ty := hK v _ hv (hq v.name w hw) rfl
  rw [mem_carriesTo]
  exact ⟨v.name, w, hw, by rwa [← hindex], by rw [hindex, hty]⟩

/-- Every variable that is written more often on the left is carried on. -/
theorem carriesAll_carriesFrom (hK : OneType K) (hp : p.ssa.Entries K) (hq : q.ssa.Entries K) :
    CarriesAll K q.ssa p.ssa (carriesFrom p q) := by
  intro v hv hlt
  obtain ⟨w, hw, hindex⟩ := exists_write hlt
  rw [mem_carriesFrom]
  -- the type of the equation comes from `q` if `q` has an entry, and from `p` if it has none
  cases hqw : q.ssa.writes[v.name]? with
  | some u =>
    have hty : v.ty = u.ty := hK v _ hv (hq v.name u hqw) rfl
    have hu : q.ssa.index v.name = u.index := SsaMap.index_of_some hqw
    exact ⟨v.name, u, .inl ⟨hqw, by rwa [← hu], by rw [hu, hty]⟩⟩
  | none =>
    have hty : v.ty = w.ty := hK v _ hv (hp v.name w hw) rfl
    have hzero : q.ssa.index v.name = 0 := SsaMap.index_of_none hqw
    rw [hzero] at hlt
    exact ⟨v.name, w, .inr ⟨hw, hqw, by rwa [← hindex], by rw [hindex, hzero, hty]⟩⟩

/-- Equations are about versions that both numberings have seen. -/
theorem Carries.vars (hK : Versioned K) (h : Carries K lo hi es) (hlo : lo ≤ m) (hhi : hi ≤ m) :
    ∀ e ∈ es, ∀ v ∈ e.vars, K v ∧ m.Sees v := by
  intro e he w hw
  obtain ⟨v, hv, -, rfl⟩ := h e he
  rcases Expr.mem_vars_cmp.1 hw with hw | hw <;> rw [Expr.mem_vars_var.1 hw]
  · exact ⟨hK v _ hv rfl rfl, _, rfl, hhi v.name⟩
  · exact ⟨hK v _ hv rfl rfl, _, rfl, hlo v.name⟩

theorem Carries.isFormula (h : Carries K lo hi es) : ∀ e ∈ es, e.IsFormula fun _ => True := by
  intro e he
  obtain ⟨v, -, -, rfl⟩ := h e he
  exact .eq trivial trivial rfl (fun _ _ => trivial) fun _ _ => trivial

/-- Where later versions repeat the latest one, the equations hold. -/
theorem Carries.holds_hold (h : Carries K lo hi es) : ∀ e ∈ es, e.Holds (V.hold lo) := by
  intro e he
  obtain ⟨v, -, hlt, rfl⟩ := h e he
  rw [holds_carry, Env.val_hold (UInt32.le_of_lt hlt), Env.val_hold (UInt32.le_refl _)]

/-- If values are carried on, what is read at `lo` is read at the common numbering, whose indices
are the larger ones. -/
theorem CarriesAll.reads_iff (hP : ∀ v, P v → v.index = none ∧ K v) (h : CarriesAll K lo hi es)
    (hm : ∀ name, m.index name = if lo.index name < hi.index name then hi.index name
      else lo.index name)
    (hes : ∀ e ∈ es, e.Holds V) : Env.Reads P V lo σ ↔ Env.Reads P V m σ := by
  have hval : ∀ v, P v → V.val (m.stamp v) = V.val (lo.stamp v) := by
    intro v hv
    rw [SsaMap.stamp_eq (hP v hv).1, SsaMap.stamp_eq (hP v hv).1, hm v.name]
    split
    · next hlt => exact holds_carry.1 (hes _ (h v (hP v hv).2 hlt))
    · rfl
  exact forall₂_congr fun v hv => by rw [hval v hv]

/-! ## The disjunction -/

theorem index_or_left (name : String) : (p.or q).ssa.index name =
    if p.ssa.index name < q.ssa.index name then q.ssa.index name else p.ssa.index name :=
  SsaMap.index_merge p.ssa q.ssa name

theorem index_or_right (name : String) : (p.or q).ssa.index name =
    if q.ssa.index name < p.ssa.index name then p.ssa.index name else q.ssa.index name := by
  rw [index_or_left]
  split
  · next h => rw [if_neg (UInt32.not_lt.2 (UInt32.le_of_lt h))]
  · next h =>
    split
    · rfl
    · next h' => exact UInt32.le_antisymm (UInt32.not_lt.1 h') (UInt32.not_lt.1 h)

/-- The numbering of the disjunction is the pointwise maximum. -/
theorem index_or (name : String) :
    (p.or q).ssa.index name = max (p.ssa.index name) (q.ssa.index name) := by
  rw [index_or_right]
  show _ = if p.ssa.index name ≤ q.ssa.index name then q.ssa.index name else p.ssa.index name
  by_cases h : q.ssa.index name < p.ssa.index name
  · rw [if_pos h, if_neg (UInt32.not_le.2 h)]
  · rw [if_neg h, if_pos (UInt32.not_lt.1 h)]

/-- Whatever the connectives do not leave, the disjunction is in. -/
theorem closed_or {F : Expr → Prop} (hF : Expr.Closed F) (hp : F p.formula) (hq : F q.formula)
    (hto : ∀ e ∈ carriesTo p q, F e) (hfrom : ∀ e ∈ carriesFrom p q, F e) :
    F (p.or q).formula :=
  hF.or (hF.conj (List.forall_mem_cons.2 ⟨hp, hto⟩)) (hF.conj (List.forall_mem_cons.2 ⟨hq, hfrom⟩))

/-- The disjunction is about variables of the class. -/
theorem Within.or (hK : Versioned K) (hp : p.Within K) (hq : q.Within K) : (p.or q).Within K := by
  have hle := SsaMap.le_merge_left p.ssa q.ssa
  have hle' := SsaMap.le_merge_right p.ssa q.ssa
  refine ⟨closed_or (Expr.closed_vars _) (fun v hv => ?_) (fun v hv => ?_) ?_ ?_,
    hp.entries.merge hq.entries⟩
  · exact ⟨(hp.vars v hv).1, (hp.vars v hv).2.mono hle⟩
  · exact ⟨(hq.vars v hv).1, (hq.vars v hv).2.mono hle'⟩
  · exact (carries_carriesTo hq.entries).vars hK hle hle'
  · exact (carries_carriesFrom hp.entries hq.entries).vars hK hle' hle

theorem Sorted.or (hp : p.Sorted) (hq : q.Sorted) : (p.or q).Sorted :=
  closed_or (Expr.IsFormula.closed _) hp hq (carriesTo_carries p q).isFormula
    (carriesFrom_carries p q).isFormula

/-- The disjunction is a formula over the program. -/
theorem Over.or (hp : p.Over P) (hq : q.Over P) : (p.or q).Over P :=
  (hp.within.or (versioned_known P) hq.within).over (hp.sorted.or hq.sorted)

/-- Indices in the formula are at most those of the numbering. -/
def Bounded (p : PathFormula) : Prop := ∀ v ∈ p.formula.vars, p.ssa.Bounds v

theorem Seen.bounded (hp : p.Seen) : p.Bounded := fun v hv => (hp v hv).bounds

/-- Indices in the disjunction are at most those of the joined numbering. -/
theorem Bounded.or (hp : p.Bounded) (hq : q.Bounded) : (p.or q).Bounded := by
  have hle := SsaMap.le_merge_left p.ssa q.ssa
  have hle' := SsaMap.le_merge_right p.ssa q.ssa
  refine closed_or (Expr.closed_vars _) (fun v hv => (hp v hv).mono hle)
    (fun v hv => (hq v hv).mono hle') (fun e he v hv => ?_) fun e he v hv => ?_
  · exact ((carriesTo_carries p q).vars versioned_true hle hle' e he v hv).2.bounds
  · exact ((carriesFrom_carries p q).vars versioned_true hle' hle e he v hv).2.bounds

/-- Indices in the formula are at most those of the numbering, and the numbering is about variables
of the class. -/
structure Fits (K : Var → Prop) (p : PathFormula) : Prop where
  bounded : p.Bounded
  entries : p.ssa.Entries K

theorem Within.fits (hp : p.Within K) : p.Fits K := ⟨hp.seen.bounded, hp.entries⟩

theorem Fits.or (hp : p.Fits K) (hq : q.Fits K) : (p.or q).Fits K :=
  ⟨hp.bounded.or hq.bounded, hp.entries.merge hq.entries⟩

/-- The disjunction holds if one side does, with its equations. -/
theorem holds_or :
    (p.or q).formula.Holds V ↔
      (p.formula.Holds V ∧ ∀ e ∈ carriesTo p q, e.Holds V) ∨
      (q.formula.Holds V ∧ ∀ e ∈ carriesFrom p q, e.Holds V) := by
  simp [PathFormula.or, Expr.holds_conj]

/-- The formula does not look at versions after its numbering. -/
theorem Bounded.holds_hold (hp : p.Bounded) : p.formula.Holds (V.hold p.ssa) ↔ p.formula.Holds V :=
  Expr.holds_congr fun v hv => Env.val_hold_of_bounds (hp v hv)

/-- A model of the left side, with later versions repeated, is one of the disjunction. -/
theorem holds_or_left (hp : p.Bounded) (hV : p.formula.Holds V) :
    (p.or q).formula.Holds (V.hold p.ssa) :=
  holds_or.2 (.inl ⟨hp.holds_hold.2 hV, (carriesTo_carries p q).holds_hold⟩)

/-- A model of the right side, with later versions repeated, is one of the disjunction. -/
theorem holds_or_right (hq : q.Bounded) (hV : q.formula.Holds V) :
    (p.or q).formula.Holds (V.hold q.ssa) :=
  holds_or.2 (.inr ⟨hq.holds_hold.2 hV, (carriesFrom_carries p q).holds_hold⟩)

/-- A model of the disjunction is one of a side, and reads at the end what it reads at the end of
that side. -/
theorem or_backward (hP : ∀ v, P v → v.index = none ∧ K v) (hK : OneType K)
    (hp : p.ssa.Entries K) (hq : q.ssa.Entries K) (hV : (p.or q).formula.Holds V) :
    (p.formula.Holds V ∧ ∀ σ, Env.Reads P V p.ssa σ ↔ Env.Reads P V (p.or q).ssa σ) ∨
    (q.formula.Holds V ∧ ∀ σ, Env.Reads P V q.ssa σ ↔ Env.Reads P V (p.or q).ssa σ) := by
  rcases holds_or.1 hV with ⟨hVp, hes⟩ | ⟨hVq, hes⟩
  · exact .inl ⟨hVp, fun σ => (carriesAll_carriesTo hK hq).reads_iff hP index_or_left hes⟩
  · exact .inr ⟨hVq, fun σ => (carriesAll_carriesFrom hK hp hq).reads_iff hP index_or_right hes⟩

/-! ## Where paths lead -/

/-- With the values of `W` for the writes that `base` has seen, the path leads to the store. -/
def LeadsTo (P : Var → Prop) (base : SsaMap) (W : Store) (p : PathFormula) (σ : Store) : Prop :=
  ∃ V, W.AgreesUpTo base V ∧ p.formula.Holds V ∧ Env.Reads P V p.ssa σ

section LeadsTo

variable {base : SsaMap} {W : Store}

/-- What the left path leads to, the disjunction leads to. -/
theorem leadsTo_or_left (hP : ∀ v, P v → v.index = none) (hp : p.Bounded) (hbase : base ≤ p.ssa)
    (h : p.LeadsTo P base W σ) : (p.or q).LeadsTo P base W σ := by
  obtain ⟨V, hW, hV, hr⟩ := h
  exact ⟨V.hold p.ssa, hW.trans Env.agreesUpTo_hold hbase, holds_or_left hp hV,
    hr.hold hP (SsaMap.le_merge_left p.ssa q.ssa)⟩

/-- What the right path leads to, the disjunction leads to. -/
theorem leadsTo_or_right (hP : ∀ v, P v → v.index = none) (hq : q.Bounded) (hbase : base ≤ q.ssa)
    (h : q.LeadsTo P base W σ) : (p.or q).LeadsTo P base W σ := by
  obtain ⟨V, hW, hV, hr⟩ := h
  exact ⟨V.hold q.ssa, hW.trans Env.agreesUpTo_hold hbase, holds_or_right hq hV,
    hr.hold hP (SsaMap.le_merge_right p.ssa q.ssa)⟩

/-- The disjunction leads where one of the sides leads, and nowhere else. -/
theorem leadsTo_or (hP : ∀ v, P v → v.index = none ∧ K v) (hK : OneType K)
    (hp : p.Fits K) (hq : q.Fits K) (hbase : base ≤ p.ssa) (hbase' : base ≤ q.ssa) :
    (p.or q).LeadsTo P base W σ ↔ p.LeadsTo P base W σ ∨ q.LeadsTo P base W σ := by
  have hP' : ∀ v, P v → v.index = none := fun v hv => (hP v hv).1
  constructor
  · rintro ⟨V, hW, hV, hr⟩
    rcases or_backward hP hK hp.entries hq.entries hV with ⟨hVp, hread⟩ | ⟨hVq, hread⟩
    · exact .inl ⟨V, hW, hVp, (hread σ).2 hr⟩
    · exact .inr ⟨V, hW, hVq, (hread σ).2 hr⟩
  · rintro (h | h)
    · exact leadsTo_or_left hP' hp.bounded hbase h
    · exact leadsTo_or_right hP' hq.bounded hbase' h

end LeadsTo

end PathFormula

end Cegar

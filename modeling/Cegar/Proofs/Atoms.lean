import Cegar.Proofs.Encoding
import Cegar.Proofs.Satisfaction

/-!
# Literals, atoms and predicates

A predicate is kept without indices and without its sign. It stands for two literals at once, and for
their versions at every cut. Nothing is lost that way: the normal form has the truth value of the
literal, or always the other one, and it does not matter whether indices are dropped or added before
or after the sign is. Where all variables occur in their latest version, the indices can be got back.

* **`Expr.normalAtom_eq_self`**: the normal forms are what normalisation leaves as it is;
* **`Expr.normalAtom_complement`**: all but constants have the normal form of their negation;
* **`Expr.normalAtom_mapVars`**: normalisation commutes with renaming;
* **`Expr.eval_normalAtom`**, **`Expr.truth_normalAtom`**: what a normal form means;
* **`Expr.indexed_unindexed`**, **`Expr.unindexed_indexed`**: dropping and adding indices;
* **`Expr.normalAtom_canonical`**: all of it.
-/

namespace Cegar.Expr

variable {P : Var → Prop} {e : Expr} {m : SsaMap}

/-! ## Normal forms -/

/-- Neither a negation nor a comparison other than `==`, `<` and `<=`. -/
def isNormal : Expr → Bool
  | .not _ | .cmp .ne _ _ | .cmp .gt _ _ | .cmp .ge _ _ => false
  | _ => true

/-- Normal forms are normal. -/
theorem isNormal_normalAtom (e : Expr) : e.normalAtom.isNormal = true := by
  induction e with
  | not e ih => exact ih
  | cmp op l r => cases op <;> rfl
  | bool | num | var | arith | neg | logic => rfl

/-- Exactly the normal expressions are left as they are. -/
theorem normalAtom_eq_self : e.normalAtom = e ↔ e.isNormal = true := by
  refine ⟨fun h => h ▸ e.isNormal_normalAtom, fun h => ?_⟩
  cases e with
  | not e => cases h
  | cmp op l r =>
    cases op with
    | eq | lt | le => rfl
    | ne | gt | ge => cases h
  | bool | num | var | arith | neg | logic => rfl

/-- The negation of a constant is the other constant. -/
theorem normalAtom_complement : e.complement.normalAtom = e.normalAtom ↔ e.known = none := by
  cases e with
  | bool b => cases b <;> decide
  | num | var | arith | neg | cmp | logic | not => simp [complement, normalAtom, known]

/-- The normal form does not look at variables. -/
theorem normalAtom_mapVars (f : Var → Var) (e : Expr) :
    (e.mapVars f).normalAtom = e.normalAtom.mapVars f := by
  induction e with
  | not e ih => exact ih
  | cmp op l r => cases op <;> rfl
  | bool | num | var | arith | neg | logic => rfl

/-- The normal form of a formula is one. -/
theorem IsFormula.normalAtom (he : e.IsFormula P) : e.normalAtom.IsFormula P := by
  fun_induction Expr.normalAtom e with
  | case1 e ih => exact ih ⟨he.sorted.2, he.sorted.1, he.vars⟩
  | case2 l r =>
    obtain ⟨hty, -, hl, hr⟩ := he.sorted
    exact ⟨⟨hty, fun _ => .inl rfl, hl, hr⟩, rfl, he.vars⟩
  | case3 l r | case4 l r =>
    obtain ⟨hty, hop, hl, hr⟩ := he.sorted
    refine ⟨⟨hty.symm, fun hb => ?_, hr, hl⟩, rfl, fun v hv => he.vars v ?_⟩
    · have := hop (hty.trans hb)
      simp at this
    · simp only [mem_vars_cmp] at hv ⊢
      exact hv.symm
  | case5 => exact he

/-! ## Signs -/

/-- Whether the normal form means the same; otherwise it means the opposite. -/
def keepsSign : Expr → Bool
  | .not e => !e.keepsSign
  | .cmp .ne _ _ => false
  | _ => true

/-- Where an expression can only be a truth value, two negations cancel. -/
theorem eval_not_not {a : Assignment} {complete : Bool} (ha : a.TypedOn (· ∈ e.vars))
    (hs : e.WellSorted) (hty : e.ty = .bool) :
    (Expr.not (.not e)).eval a complete = e.eval a complete := by
  cases hx : e.eval a complete with
  | none => simp only [eval, hx]
  | some x =>
    have hbool : x.ty = .bool := by rw [ty_of_eval ha hs (fun _ hv => hv) hx, hty]
    cases x with
    | bool b => simp [eval, hx]
    | int n => cases hbool

/-- A comparison and its mirror image have the same value. -/
theorem eval_cmp_swap {op op' : CmpOp} (h : ∀ x y, op'.apply y x = op.apply x y) {l r : Expr}
    {a : Assignment} {complete : Bool} :
    (Expr.cmp op' r l).eval a complete = (Expr.cmp op l r).eval a complete := by
  simp only [eval]
  cases l.eval a complete <;> cases r.eval a complete <;> simp [h]

/-- Equality is the negation of difference, where both are known. -/
theorem eval_eq_not_ne {l r : Expr} {a : Assignment} {complete : Bool} :
    (Expr.cmp .eq l r).eval a complete = (Expr.not (.cmp .ne l r)).eval a complete := by
  simp only [eval]
  cases l.eval a complete <;> cases r.eval a complete <;> simp [CmpOp.apply]

/-- The normal form has the value of the expression, or always the opposite one, and is unknown where
the expression is. -/
theorem eval_normalAtom {a : Assignment} {complete : Bool} (ha : a.TypedOn (· ∈ e.vars))
    (hs : e.WellSorted) :
    e.normalAtom.eval a complete = (if e.keepsSign then e else .not e).eval a complete := by
  induction e with
  | not e ih =>
    rw [normalAtom, ih ha hs.2, keepsSign]
    -- the sign changes with every negation, and a negation of a negation is the expression again
    cases e.keepsSign with
    | false => rfl
    | true => exact (eval_not_not (e := e) ha hs.2 hs.1).symm
  | cmp op l r =>
    cases op with
    | eq | lt | le => rfl
    | ne => exact eval_eq_not_ne
    | gt => exact eval_cmp_swap fun x y => by cases x <;> cases y <;> rfl
    | ge => exact eval_cmp_swap fun x y => by cases x <;> cases y <;> rfl
  | bool | num | var | arith | neg | logic => rfl

/-- The normal form is true where the expression is, or where it is not. -/
theorem truth_normalAtom (he : e.IsFormula P) (V : Store) :
    e.normalAtom.truth V = (e.truth V == e.keepsSign) := by
  have hself : e.IsFormula (· ∈ e.vars) := ⟨he.sorted, he.bool, fun _ hv => hv⟩
  have hsigned : (if e.keepsSign then e else .not e).IsFormula (· ∈ e.vars) := by
    split
    · exact hself
    · exact ⟨⟨he.bool, he.sorted⟩, rfl, hself.vars⟩
  -- the store as an assignment of the variables that occur
  have hvalue {d : Expr} (hd : d.IsFormula (· ∈ e.vars)) :
      d.eval (V.restrict e.vars.toList) true = some (.bool (d.truth V)) := by
    rw [← valueIn_eq_bool hd.bool]
    refine eval_eq_valueIn (fun v hv => ?_) hd.sorted
    rw [eval, Env.getElem?_restrict (Std.ExtTreeSet.mem_toList.2 (hd.vars v hv))]
  have heval : e.normalAtom.eval (V.restrict e.vars.toList) true = _ :=
    eval_normalAtom (fun v _ => V.typed_restrict e.vars.toList v) he.sorted
  rw [hvalue hself.normalAtom, hvalue hsigned, Option.some.injEq, Datum.bool.injEq] at heval
  rw [heval]
  cases e.keepsSign <;> simp

/-! ## Indices -/

/-- Renaming that can be undone on the variables that occur. -/
theorem mapVars_mapVars_eq_self {f g : Var → Var} (h : ∀ v ∈ e.vars, g (f v) = v) :
    (e.mapVars f).mapVars g = e := by
  induction e with
  | bool | num => rfl
  | var v => exact congrArg Expr.var (h v (by simp))
  | arith op l r ihl ihr | cmp op l r ihl ihr | logic op l r ihl ihr =>
    simp only [mapVars, ihl fun v hv => h v (by simp [hv]), ihr fun v hv => h v (by simp [hv])]
  | neg e ih | not e ih => simp only [mapVars, ih fun v hv => h v (by simpa using hv)]

/-- An expression over the latest versions of its variables can be got back from the one over the
variables as such. -/
theorem indexed_unindexed (h : ∀ v ∈ e.vars, v.index = some (m.index v.name)) :
    e.unindexed.indexed m = e :=
  mapVars_mapVars_eq_self fun v hv => SsaMap.stamp_unindexed (h v hv)

/-- Indices that were put on are taken off. -/
theorem unindexed_indexed (h : ∀ v ∈ e.vars, v.index = none) : (e.indexed m).unindexed = e :=
  mapVars_mapVars_eq_self fun v hv => SsaMap.unindexed_stamp (h v hv)

/-! ## Predicates stand for literals -/

/-- Normalisation ends in a normal form and leaves it as it is. Negation does not change the normal
form, except for constants, and neither does the order in which indices and signs are dropped. For a
formula there is one sign with which its normal form means the same, under all assignments and
stores. Indices that are the latest can be dropped and added again, and the other way round. -/
theorem normalAtom_canonical (e : Expr) :
    (e.normalAtom.isNormal = true ∧ e.normalAtom.normalAtom = e.normalAtom) ∧
    (e.complement.normalAtom = e.normalAtom ↔ e.known = none) ∧
    (e.unindexed.normalAtom = e.normalAtom.unindexed ∧
      ∀ m : SsaMap, (e.indexed m).normalAtom = e.normalAtom.indexed m) ∧
    (e.WellSorted → e.ty = .bool → ∃ sign : Bool,
      (∀ (a : Assignment) (complete : Bool), a.TypedOn (· ∈ e.vars) →
        e.normalAtom.eval a complete = (if sign then e else .not e).eval a complete) ∧
      ∀ V : Store, e.normalAtom.truth V = (e.truth V == sign)) ∧
    ∀ m : SsaMap,
      ((∀ v ∈ e.vars, v.index = some (m.index v.name)) → e.unindexed.indexed m = e) ∧
      ((∀ v ∈ e.vars, v.index = none) → (e.indexed m).unindexed = e) := by
  have hnormal := e.isNormal_normalAtom
  refine ⟨⟨hnormal, normalAtom_eq_self.2 hnormal⟩, normalAtom_complement,
    ⟨normalAtom_mapVars _ e, fun m => normalAtom_mapVars _ e⟩, fun hs hty => ?_,
    fun m => ⟨indexed_unindexed, unindexed_indexed⟩⟩
  have hformula : e.IsFormula fun _ => True := ⟨hs, hty, fun _ _ => trivial⟩
  exact ⟨e.keepsSign, fun a complete ha => eval_normalAtom ha hs, truth_normalAtom hformula⟩

/-- `!!(x@2 != y@1)`. -/
def differ : Expr :=
  .not (.not (.cmp .ne (.var ⟨"x", .int, some 2⟩) (.var ⟨"y", .int, some 1⟩)))

/-- After two writes to `x` and one to `y`. -/
def afterWrites : SsaMap :=
  ⟨((∅ : Std.ExtTreeMap String Write).insert "x" ⟨2, .int⟩).insert "y" ⟨1, .int⟩⟩

/-- Only `x@2` has a value. -/
def secondX : Assignment := (∅ : Assignment).insert ⟨"x", .int, some 2⟩ (.int 5)

theorem normalAtom_canonical_differ :
    differ.complement.normalAtom = differ.normalAtom ∧
    (differ.WellSorted ∧ differ.ty = .bool ∧ ∃ sign : Bool,
      differ.normalAtom.eval secondX true = (if sign then differ else .not differ).eval secondX true ∧
      ∀ V : Store, differ.normalAtom.truth V = (differ.truth V == sign)) ∧
    differ.unindexed.indexed afterWrites = differ ∧
    (differ.unindexed.indexed afterWrites).unindexed = differ.unindexed := by
  obtain ⟨-, hcomplement, -, hsign, hindices⟩ := normalAtom_canonical differ
  obtain ⟨-, -, -, -, hindices'⟩ := normalAtom_canonical differ.unindexed
  obtain ⟨sign, heval, htruth⟩ := hsign (by decide) rfl
  have htyped : secondX.Typed := Assignment.typed_empty.insert rfl
  refine ⟨hcomplement.2 rfl, ⟨by decide, rfl, sign, heval secondX true fun v _ => htyped v, htruth⟩,
    (hindices afterWrites).1 fun v hv => ?_, (hindices' afterWrites).2 fun v hv => ?_⟩
  · have hcases : v = ⟨"x", .int, some 2⟩ ∨ v = ⟨"y", .int, some 1⟩ := by simpa [differ] using hv
    rcases hcases with rfl | rfl <;> decide
  · obtain ⟨w, -, rfl⟩ := mem_vars_mapVars.1 hv
    rfl

end Cegar.Expr

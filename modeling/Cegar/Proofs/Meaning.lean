import Cegar.Expr.Atoms
import Cegar.Solver.Value

/-!
# The meaning of expressions

An environment gives every variable a value of its type, and an expression then has a value. The
integers are a parameter: those of programs and of the solver's models have 128 bits and saturate,
and over all integers nothing saturates.

* **`Expr.valueIn`** is total. It agrees with the type that an expression has by its outermost
  operator (`Expr.ty_valueIn`), depends on the variables that occur only (`Expr.valueIn_congr`), and
  commutes with renaming and substitution (`Expr.valueIn_mapVars`, `Expr.valueIn_subst`).
* **`Expr.truth`** is the truth value of a formula. The connectives that simplify mean what the
  plain ones mean (`Expr.truth_and`, `Expr.truth_or`, `Expr.truth_complement`), whatever they are
  applied to.
-/

namespace Cegar

/-! ## Integers -/

/-- Integers that expressions can be evaluated over. Numerals keep their order. -/
class Arithmetic (ι : Type) where
  num : Int128 → ι
  apply : ArithOp → ι → ι → ι
  neg : ι → ι
  holds : CmpOp → ι → ι → Bool
  holds_num : ∀ op m n, holds op (num m) (num n) = op.holds m n
  holds_eq : ∀ m n, holds .eq m n = true ↔ m = n

instance : Arithmetic Int128 where
  num := id
  apply := ArithOp.apply
  neg n := -n
  holds := CmpOp.holds
  holds_num _ _ _ := rfl
  holds_eq m n := by simp [CmpOp.holds]

/-- The result that saturation may replace. -/
def ArithOp.exact : ArithOp → Int → Int → Int
  | .add, m, n => m + n
  | .sub, m, n => m - n
  | .mul, m, n => m * n

def CmpOp.holdsExactly : CmpOp → Int → Int → Bool
  | .eq, m, n => m = n
  | .ne, m, n => m ≠ n
  | .lt, m, n => m < n
  | .le, m, n => m ≤ n
  | .gt, m, n => n < m
  | .ge, m, n => n ≤ m

instance : Arithmetic Int where
  num := Int128.val
  apply := ArithOp.exact
  neg n := -n
  holds := CmpOp.holdsExactly
  holds_num op m n := by
    cases op <;>
      simp [CmpOp.holdsExactly, CmpOp.holds, Int128.val_inj, Int128.lt_def, Int128.le_def]
  holds_eq m n := by simp [CmpOp.holdsExactly]

/-! ## Values -/

variable {ι : Type}

namespace Datum

def ty : Datum ι → Ty
  | .bool _ => .bool
  | .int _ => .int

def isTrue : Datum ι → Bool
  | .bool b => b
  | .int _ => false

/-- The integer that a value is; zero for a truth value. -/
def toInt [Arithmetic ι] : Datum ι → ι
  | .bool _ => Arithmetic.num 0
  | .int n => n

/-- A value of a program, over the integers `ι`. -/
def ofValue [Arithmetic ι] : Value → Datum ι
  | .bool b => .bool b
  | .int n => .int (Arithmetic.num n)

@[simp] theorem ty_bool (b : Bool) : (Datum.bool b : Datum ι).ty = .bool := rfl

@[simp] theorem ty_int (n : ι) : (Datum.int n).ty = .int := rfl

@[simp] theorem isTrue_bool (b : Bool) : (Datum.bool b : Datum ι).isTrue = b := rfl

@[simp] theorem toInt_int [Arithmetic ι] (n : ι) : (Datum.int n).toInt = n := rfl

@[simp] theorem ty_ofValue [Arithmetic ι] (x : Value) : (ofValue x : Datum ι).ty = x.ty := by
  cases x <;> rfl

@[simp] theorem ofValue_self (x : Value) : (ofValue x : Datum Int128) = x := by
  cases x <;> rfl

/-- A value of boolean type is a truth value. -/
theorem eq_bool_of_ty {x : Datum ι} (h : x.ty = .bool) : x = .bool x.isTrue := by
  cases x with
  | bool b => rfl
  | int n => cases h

/-- A value of integer type is an integer. -/
theorem eq_int_of_ty [Arithmetic ι] {x : Datum ι} (h : x.ty = .int) : x = .int x.toInt := by
  cases x with
  | bool b => cases h
  | int n => rfl

end Datum

/-- Compares two values. Equality is told apart on values of one type, the order on integers. -/
def CmpOp.relates [Arithmetic ι] : CmpOp → Datum ι → Datum ι → Bool
  | op, .int m, .int n => Arithmetic.holds op m n
  | .eq, .bool a, .bool b => a == b
  | .ne, .bool a, .bool b => a != b
  | _, _, _ => false

/-- Values of one type are equal exactly if `==` says so. -/
theorem CmpOp.relates_eq_iff [Arithmetic ι] {x y : Datum ι} (h : x.ty = y.ty) :
    CmpOp.eq.relates x y = true ↔ x = y := by
  cases x <;> cases y <;> simp_all [CmpOp.relates, Datum.ty, Arithmetic.holds_eq]

def LogicOp.combine : LogicOp → Bool → Bool → Bool
  | .and, x, y => x && y
  | .or, x, y => x || y

/-! ## Environments -/

/-- A value of its type for every variable. -/
structure Env (ι : Type) where
  val : Var → Datum ι
  typed : ∀ v, (val v).ty = v.ty

/-- What the variables of a program, or of a formula about it, are worth. -/
abbrev Store := Env Int128

/-- Every integer is `c` and every boolean is true. -/
def uniform (c : Int128) : Store where
  val v := match v.ty with
    | .int => .int c
    | .bool => .bool true
  typed v := by cases v.ty <;> rfl

namespace Env

@[ext] theorem ext {ρ ρ' : Env ι} (h : ∀ v, ρ.val v = ρ'.val v) : ρ = ρ' := by
  cases ρ; cases ρ'
  cases funext h
  rfl

/-- Gives `v` another value; one that is not of its type is not taken. -/
def set (ρ : Env ι) (v : Var) (x : Datum ι) : Env ι :=
  if h : x.ty = v.ty then
    ⟨fun w => if w = v then x else ρ.val w, fun w => by
      split
      · next hw => rw [hw, h]
      · exact ρ.typed w⟩
  else ρ

theorem val_set_self {ρ : Env ι} {v : Var} {x : Datum ι} (h : x.ty = v.ty) :
    (ρ.set v x).val v = x := by
  simp [set, h]

theorem val_set_ne {ρ : Env ι} {v w : Var} (x : Datum ι) (h : w ≠ v) :
    (ρ.set v x).val w = ρ.val w := by
  unfold set
  split <;> simp [h]

/-- Writing the value that is there changes nothing. -/
theorem set_val_eq_self {ρ : Env ι} {v : Var} : ρ.set v (ρ.val v) = ρ := by
  ext w
  by_cases hw : w = v
  · subst hw
    exact val_set_self (ρ.typed _)
  · exact val_set_ne _ hw

/-- Every variable reads the one that `f` renames it to. -/
def rename (ρ : Env ι) (f : Var → Var) (hf : ∀ v, (f v).ty = v.ty) : Env ι :=
  ⟨fun v => ρ.val (f v), fun v => by rw [ρ.typed, hf]⟩

@[simp] theorem val_rename {ρ : Env ι} {f : Var → Var} {hf : ∀ v, (f v).ty = v.ty} {v : Var} :
    (ρ.rename f hf).val v = ρ.val (f v) := rfl

end Env

/-! ## Evaluation in an environment -/

variable [Arithmetic ι]

namespace Expr

/-- The value of an expression. An operand that does not fit its operator counts as zero or
false. -/
def valueIn (ρ : Env ι) : Expr → Datum ι
  | .bool b => .bool b
  | .num n => .int (Arithmetic.num n)
  | .var v => ρ.val v
  | .arith op l r => .int (Arithmetic.apply op (l.valueIn ρ).toInt (r.valueIn ρ).toInt)
  | .neg e => .int (Arithmetic.neg (e.valueIn ρ).toInt)
  | .cmp op l r => .bool (op.relates (l.valueIn ρ) (r.valueIn ρ))
  | .logic op l r => .bool (op.combine (l.valueIn ρ).isTrue (r.valueIn ρ).isTrue)
  | .not e => .bool !(e.valueIn ρ).isTrue

/-- Whether a formula is true. -/
def truth (ρ : Env ι) (e : Expr) : Bool := (e.valueIn ρ).isTrue

variable {ρ ρ' : Env ι}

@[simp] theorem ty_valueIn (ρ : Env ι) (e : Expr) : (e.valueIn ρ).ty = e.ty := by
  cases e with
  | var v => exact ρ.typed v
  | _ => rfl

theorem valueIn_eq_bool {e : Expr} (h : e.ty = .bool) : e.valueIn ρ = .bool (e.truth ρ) :=
  Datum.eq_bool_of_ty (by rw [ty_valueIn, h])

/-- Only the variables that occur matter. -/
theorem valueIn_congr {e : Expr} (h : ∀ v ∈ e.vars, ρ.val v = ρ'.val v) :
    e.valueIn ρ = e.valueIn ρ' := by
  induction e with
  | bool | num => rfl
  | var v => exact h v (by simp)
  | arith op l r ihl ihr | cmp op l r ihl ihr | logic op l r ihl ihr =>
    have hl := ihl fun v hv => h v (by simp [hv])
    have hr := ihr fun v hv => h v (by simp [hv])
    simp only [valueIn, hl, hr]
  | neg e ih | not e ih =>
    have he := ih fun v hv => h v (by simpa using hv)
    simp only [valueIn, he]

/-- Only the variables that occur matter. -/
theorem truth_congr {e : Expr} (h : ∀ v ∈ e.vars, ρ.val v = ρ'.val v) : e.truth ρ = e.truth ρ' := by
  rw [truth, truth, valueIn_congr h]

/-- Renaming the variables of an expression is renaming the environment. -/
theorem valueIn_mapVars {f : Var → Var} (hf : ∀ v, (f v).ty = v.ty) (e : Expr) :
    (e.mapVars f).valueIn ρ = e.valueIn (ρ.rename f hf) := by
  induction e with
  | bool | num | var => rfl
  | arith op l r ihl ihr | cmp op l r ihl ihr | logic op l r ihl ihr =>
    simp only [mapVars, valueIn, ihl, ihr]
  | neg e ih | not e ih => simp only [mapVars, valueIn, ih]

/-- Putting a term in the place of a variable is giving the variable the term's value. -/
theorem valueIn_subst {v : Var} {t : Expr} (ht : t.ty = v.ty) (e : Expr) :
    (e.subst (.var v) t).valueIn ρ = e.valueIn (ρ.set v (t.valueIn ρ)) := by
  have hty : (t.valueIn ρ).ty = v.ty := by rw [ty_valueIn, ht]
  induction e with
  | bool | num => simp [subst, valueIn]
  | var w =>
    by_cases hw : w = v
    · subst hw
      simp [subst, valueIn, Env.val_set_self hty]
    · simp [subst, valueIn, hw, Env.val_set_ne]
  | arith op l r ihl ihr | cmp op l r ihl ihr | logic op l r ihl ihr =>
    simp [subst, valueIn, ihl, ihr]
  | neg e ih | not e ih => simp [subst, valueIn, ih]

/-! ## Connectives -/

@[simp] theorem truth_bool (b : Bool) : (Expr.bool b).truth ρ = b := rfl

@[simp] theorem truth_not (e : Expr) : (Expr.not e).truth ρ = !e.truth ρ := rfl

@[simp] theorem truth_logic (op : LogicOp) (l r : Expr) :
    (Expr.logic op l r).truth ρ = op.combine (l.truth ρ) (r.truth ρ) := rfl

/-- The connectives that simplify mean what the plain ones mean. -/
theorem truth_connect (op : LogicOp) (l r : Expr) :
    (connect op l r).truth ρ = op.combine (l.truth ρ) (r.truth ρ) := by
  unfold connect
  split
  · next h => rcases h with rfl | rfl <;> cases op <;> simp [LogicOp.combine, LogicOp.unit]
  · split
    · next h => subst h; cases op <;> simp [LogicOp.combine, LogicOp.unit]
    · split
      · next h => subst h; cases op <;> simp [LogicOp.combine, LogicOp.unit]
      · split
        · next h => subst h; cases op <;> simp [LogicOp.combine]
        · rfl

@[simp] theorem truth_and (l r : Expr) : (l.and r).truth ρ = (l.truth ρ && r.truth ρ) :=
  truth_connect .and l r

@[simp] theorem truth_or (l r : Expr) : (l.or r).truth ρ = (l.truth ρ || r.truth ρ) :=
  truth_connect .or l r

/-- The complement is the negation, also where a comparison was turned around. -/
@[simp] theorem truth_complement (e : Expr) : e.complement.truth ρ = !e.truth ρ := by
  cases e with
  | not e => simp [complement]
  | _ => rfl

theorem truth_foldl_and (es : List Expr) (e : Expr) :
    (es.foldl and e).truth ρ = (e.truth ρ && es.all (·.truth ρ)) := by
  induction es generalizing e with
  | nil => simp
  | cons d es ih => simp [ih, Bool.and_assoc]

@[simp] theorem truth_conj (es : List Expr) : (conj es).truth ρ = es.all (·.truth ρ) := by
  simp [conj, truth_foldl_and]

theorem truth_foldl_or (es : List Expr) (e : Expr) :
    (es.foldl or e).truth ρ = (e.truth ρ || es.any (·.truth ρ)) := by
  induction es generalizing e with
  | nil => simp
  | cons d es ih => simp [ih, Bool.or_assoc]

@[simp] theorem truth_disj (es : List Expr) : (disj es).truth ρ = es.any (·.truth ρ) := by
  simp [disj, truth_foldl_or]

/-- An equation between terms of one type is true exactly if their values are equal. -/
theorem truth_eq {l r : Expr} (h : l.ty = r.ty) :
    (Expr.eq l r).truth ρ = true ↔ l.valueIn ρ = r.valueIn ρ :=
  CmpOp.relates_eq_iff (by simp [h])

/-- A formula holds if all operands of its top level conjunction do. -/
theorem truth_conjuncts (e : Expr) :
    e.truth ρ = true ↔ ∀ c ∈ e.conjuncts, c.truth ρ = true := by
  fun_induction conjuncts e with
  | case1 l r ihl ihr => simp [LogicOp.combine, ihl, ihr, or_imp, forall_and]
  | case2 => simp
  | case3 => simp

end Expr

/-! ## Variables of the examples

Programs and formulas that serve as examples have these variables. -/

instance : Coe Var Expr := ⟨.var⟩

abbrev varX : Var := ⟨"x", .int, none⟩

abbrev varY : Var := ⟨"y", .int, none⟩

abbrev varZ : Var := ⟨"z", .int, none⟩

abbrev varW : Var := ⟨"w", .int, none⟩

abbrev varB : Var := ⟨"b", .bool, none⟩

abbrev varC : Var := ⟨"c", .bool, none⟩

abbrev varP : Var := ⟨"p", .bool, none⟩

end Cegar

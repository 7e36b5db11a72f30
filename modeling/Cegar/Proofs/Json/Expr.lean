import Cegar.Json.Codec
import Cegar.Proofs.Json.Text

/-!
# Expressions survive JSON

The shape of a JSON value says how deep it is nested, and reading is limited in just that. An
expression is read back from what it is written as, unless that is nested too deep; and what is
read, in whatever spelling, is not written with deeper nesting than was allowed for reading it.

* **`Expr.returns`**: an expression is read back from its JSON value.
* **`Expr.writable_toJson`**: that value is one whose text can be read.
* **`Expr.nesting_le`**: what was read can be read again once it is written.
-/

namespace Cegar

/-! ## Decimal numbers -/

namespace Decimal

/-- Decimal digits are read as the number that they were written from. -/
theorem nat?_toDigits (n : Nat) : nat? (Nat.toDigits 10 n) = some n := by
  have hdigits : (Nat.toDigits 10 n).all Char.isDigit = true := List.all_eq_true.2 fun c hc =>
    Nat.isDigit_of_mem_toDigits (by decide) (by decide) hc
  have hvalue : ofDigits (Nat.toDigits 10 n) = n := by
    have h := Nat.ofDigitChars_toDigits (b := 10) (n := n) (by decide) (by decide)
    simp only [Nat.ofDigitChars_eq_foldl, Nat.mul_comm 10] at h
    exact h
  rw [nat?, hdigits, hvalue]
  simp [Nat.toDigits_ne_nil]

theorem int?_toDigits (n : Nat) : int? (Nat.toDigits 10 n) = some (n : Int) := by
  obtain ⟨c, cs, hcs, hc⟩ := JsonValue.exists_startsNumber (n := n)
  have hread := nat?_toDigits n
  rw [hcs] at hread ⊢
  have hdigit : c.isDigit = true :=
    Nat.isDigit_of_mem_toDigits (b := 10) (n := n) (by decide) (by decide) (by simp [hcs])
  rw [int?, signedNat?, hread]
  · rfl
  · rintro cs ⟨⟩
    cases hdigit
  · rintro cs ⟨⟩
    cases hdigit

/-- A minus sign negates. -/
theorem int?_negative (n : Nat) : int? ('-' :: Nat.toDigits 10 n) = some (-(n : Int)) := by
  rw [int?, nat?_toDigits]
  rfl

end Decimal

/-- The text of a number is that of a natural number, after a sign if it is negative. -/
theorem Int128.toList_text (n : Int128) :
    (∃ k : Nat, n.text.toList = Nat.toDigits 10 k ∧ n.val = k) ∨
      ∃ k : Nat, n.text.toList = '-' :: Nat.toDigits 10 k ∧ n.val = -k := by
  unfold text
  split
  · next k hk => exact .inl ⟨k, by rw [Nat.repr_eq_ofList_toDigits, String.toList_ofList], hk⟩
  · next k hk =>
    refine .inr ⟨k + 1, ?_, by rw [hk]; rfl⟩
    rw [String.toList_append, Nat.repr_eq_ofList_toDigits, String.toList_ofList (l := Nat.toDigits _ _)]
    rfl

namespace JsonValue

variable {v : JsonValue} {d depth : Nat}

/-! ## Nesting -/

mutual

/-- How many arrays and objects are inside each other. -/
def nesting : JsonValue → Nat
  | .array vs => nestingItems vs + 1
  | .object fs => nestingFields fs + 1
  | .null | .bool _ | .number _ | .string _ => 0

def nestingItems : List JsonValue → Nat
  | [] => 0
  | v :: vs => max v.nesting (nestingItems vs)

def nestingFields : List (Option String × JsonValue) → Nat
  | [] => 0
  | (_, v) :: fs => max v.nesting (nestingFields fs)

end

/-! ## Numbers -/

/-- The text of an integer is read as the integer. -/
theorem int128?_text (n : Int128) : int128? (.number n.text.toList) = some n := by
  have hread : Decimal.int? n.text.toList = some n.val := by
    rcases n.toList_text with ⟨k, htext, hval⟩ | ⟨k, htext, hval⟩
    · rw [htext, hval, Decimal.int?_toDigits]
    · rw [htext, hval, Decimal.int?_negative]
  rw [int128?, hread]
  exact Int128.ofInt?_val n

theorem writable_text (n : Int128) : Writable (.number n.text.toList) := by
  rcases n.toList_text with ⟨k, htext, -⟩ | ⟨k, htext, -⟩
  · exact htext ▸ .natural k
  · exact htext ▸ .negative k

/-- The digits of an index are read as the index. -/
theorem index?_toDigits (i : UInt32) :
    index? (.number (Nat.toDigits 10 i.toNat)) = some (some i) := by
  rw [index?, Decimal.nat?_toDigits]
  simp only [i.toNat_lt_size, if_true]
  rw [Nat.toUInt32, UInt32.ofNat_toNat]

/-! ## Records and constructors -/

/-- There is one value for each name. -/
theorem length_pick {fields : List (Option String × JsonValue)} {names : List (String × Bool)}
    {vs : List JsonValue} (h : pick fields names = some vs) : vs.length = names.length := by
  induction names generalizing vs with
  | nil =>
    cases h
    rfl
  | cons name names ih =>
    obtain ⟨rest, hrest, h⟩ := Option.bind_eq_some_iff.1 h
    rw [List.length_cons, ← ih hrest]
    split at h
    · cases h
      rfl
    · split at h
      · cases h
        rfl
      · cases h
    · cases h

/-- A record takes one level. -/
theorem record?_eq_some {names : List (String × Bool)} {vs : List JsonValue} {d' : Nat}
    (h : record? names d v = some (vs, d')) : d = d' + 1 ∧ vs.length = names.length := by
  unfold record? at h
  split at h
  · split at h
    · obtain ⟨vs', hvs, heq⟩ := Option.map_eq_some_iff.1 h
      cases heq
      exact ⟨rfl, length_pick hvs⟩
    · cases h
  · split at h
    · next hlength =>
      cases h
      exact ⟨rfl, hlength⟩
    · cases h
  · cases h

/-- A constructor with arguments takes one level. -/
theorem constructor?_eq_some {name : String} {w : JsonValue} {d' : Nat}
    (h : constructor? d v = some (name, some w, d')) : d = d' + 1 := by
  unfold constructor? at h
  split at h
  · cases h
  · cases h
    rfl
  · cases h

end JsonValue

open JsonValue

namespace Ty

theorem ofJson?_toJson (t : Ty) (d : Nat) : ofJson? d t.toJson = some t := by
  cases t <;> rfl

theorem writable_toJson (t : Ty) : t.toJson.Writable := by
  cases t <;> exact .string _

end Ty

/-! ## Expressions -/

namespace Var

theorem nesting_toJson (v : Var) : v.toJson.nesting = 1 := by
  obtain ⟨name, ty, index⟩ := v
  cases ty <;> cases index <;> rfl

/-- A variable is read as it was written. -/
theorem ofJson?_toJson (v : Var) (d : Nat) : ofJson? (d + 1) v.toJson = some v := by
  obtain ⟨name, ty, index⟩ := v
  cases index with
  | none => simp [toJson, ofJson?, obj, record?, pick, str, string?, Ty.ofJson?_toJson, index?]
  | some i =>
    simp [toJson, ofJson?, obj, record?, pick, str, string?, Ty.ofJson?_toJson, index?_toDigits]

theorem writable_toJson (v : Var) : v.toJson.Writable := by
  obtain ⟨name, ty, index⟩ := v
  refine .object fun f hf => ?_
  rcases List.mem_cons.1 hf with rfl | hf
  · exact .string name
  rcases List.mem_cons.1 hf with rfl | hf
  · exact ty.writable_toJson
  cases List.mem_singleton.1 hf
  cases index with
  | none => exact .null
  | some i => exact .natural i.toNat

end Var

namespace Expr

variable {v : JsonValue} {d : Nat} {e : Expr}

/-- A binary operator is read by its name, with both operands one level deeper. -/
theorem ofJson?_binary {name : String} {op : Expr → Expr → Expr} {l r : JsonValue} {x y : Expr}
    (hop : binaryOperators.lookup name = some op) (hl : ofJson? d l = some x)
    (hr : ofJson? d r = some y) :
    ofJson? (d + 2) (.obj [(name, .obj [("left", l), ("right", r)])]) = some (op x y) := by
  rw [ofJson?]
  simp only [constructor?, obj, List.map_cons, List.map_nil, Option.bind_eq_bind, Option.bind_some]
  split
  -- the constructor of variables is not the name of an operator
  · next heq =>
    cases heq
    cases hop
  · next heq =>
    cases heq
    rw [hop]
    simp [record?, pick, hl, hr]
  · next hnot => exact (hnot _ _ _ rfl).elim

/-- A unary operator is read by its name. -/
theorem ofJson?_unary {name : String} {op : Expr → Expr} {w : JsonValue} {x : Expr}
    (hbinary : binaryOperators.lookup name = none) (hop : unaryOperators.lookup name = some op)
    (hw : ofJson? d w = some x) :
    ofJson? (d + 2) (.obj [(name, .obj [("operand", w)])]) = some (op x) := by
  rw [ofJson?]
  simp only [constructor?, obj, List.map_cons, List.map_nil, Option.bind_eq_bind, Option.bind_some]
  split
  · next heq =>
    cases heq
    cases hop
  · next heq =>
    cases heq
    rw [hbinary, hop]
    simp [record?, pick, hw]
  · next hnot => exact (hnot _ _ _ rfl).elim

theorem ofJson?_numeral (n : Int128) (d : Nat) : ofJson? (d + 1) (num n).toJson = some (.num n) := by
  have hconstant : ofJson?.constant? (d + 1) (num n).toJson = some (.num n) := by
    simp only [toJson, obj, ofJson?.constant?, constructor?, List.map_cons, List.map_nil,
      Option.bind_eq_bind, Option.bind_some, int128?_text]
    rfl
  cases d with
  | zero => exact hconstant
  | succ d => exact hconstant

theorem lookup_arith (op : ArithOp) : binaryOperators.lookup op.jsonName = some (.arith op) := by
  cases op <;> rfl

theorem lookup_cmp (op : CmpOp) : binaryOperators.lookup op.jsonName = some (.cmp op) := by
  cases op <;> rfl

theorem lookup_logic (op : LogicOp) : binaryOperators.lookup op.jsonName = some (.logic op) := by
  cases op <;> rfl

theorem nesting_binary (name : String) (l r : JsonValue) :
    (obj [(name, .obj [("left", l), ("right", r)])]).nesting = max l.nesting r.nesting + 2 := by
  simp [obj, nesting, nestingFields]

theorem nesting_unary (name : String) (w : JsonValue) :
    (obj [(name, .obj [("operand", w)])]).nesting = w.nesting + 2 := by
  simp [obj, nesting, nestingFields]

theorem nesting_variable (v : Var) : (var v).toJson.nesting = 2 := by
  simp [toJson, obj, nesting, nestingFields, v.nesting_toJson]

/-- The expression comes back from its JSON value, if nesting as deep is read. -/
def Returns (e : Expr) : Prop := ∀ d, e.toJson.nesting ≤ d → ofJson? d e.toJson = some e

/-- A binary operator returns if its operands do. -/
theorem Returns.binary {name : String} {op : Expr → Expr → Expr} {l r : Expr}
    (hop : binaryOperators.lookup name = some op)
    (hjson : (op l r).toJson = .obj [(name, .obj [("left", l.toJson), ("right", r.toJson)])])
    (hl : l.Returns) (hr : r.Returns) : (op l r).Returns := by
  intro d hd
  rw [hjson, nesting_binary] at hd
  obtain ⟨d, rfl⟩ : ∃ c, d = c + 2 := ⟨d - 2, by omega⟩
  rw [hjson]
  exact ofJson?_binary hop (hl d (by omega)) (hr d (by omega))

/-- A unary operator returns if its operand does. -/
theorem Returns.unary {name : String} {op : Expr → Expr} {e : Expr}
    (hbinary : binaryOperators.lookup name = none) (hop : unaryOperators.lookup name = some op)
    (hjson : (op e).toJson = .obj [(name, .obj [("operand", e.toJson)])]) (he : e.Returns) :
    (op e).Returns := by
  intro d hd
  rw [hjson, nesting_unary] at hd
  obtain ⟨d, rfl⟩ : ∃ c, d = c + 2 := ⟨d - 2, by omega⟩
  rw [hjson]
  exact ofJson?_unary hbinary hop (he d (by omega))

/-- Every expression is read as it was written, if the nesting allows. -/
theorem returns (e : Expr) : e.Returns := by
  -- induction on the expression: an operator takes two levels more than its operands
  induction e with
  | bool b =>
    intro d _
    rcases d with _ | _ | d <;> cases b <;> rfl
  | num n =>
    intro d hd
    obtain ⟨d, rfl⟩ : ∃ c, d = c + 1 := ⟨d - 1, by simp [toJson, obj, nesting] at hd; omega⟩
    exact ofJson?_numeral n d
  | var v =>
    intro d hd
    rw [nesting_variable] at hd
    obtain ⟨d, rfl⟩ : ∃ c, d = c + 2 := ⟨d - 2, by omega⟩
    show (Var.ofJson? (d + 1) v.toJson >>= fun v => some (var v)) = _
    rw [v.ofJson?_toJson]
    rfl
  | arith op l r ihl ihr => exact .binary (lookup_arith op) rfl ihl ihr
  | neg e ih => exact .unary rfl rfl rfl ih
  | cmp op l r ihl ihr => exact .binary (lookup_cmp op) rfl ihl ihr
  | logic op l r ihl ihr => exact .binary (lookup_logic op) rfl ihl ihr
  | not e ih => exact .unary rfl rfl rfl ih

/-- Every expression can be written. -/
theorem writable_toJson (e : Expr) : e.toJson.Writable := by
  have single {name : String} {w : JsonValue} (hw : w.Writable) : (obj [(name, w)]).Writable :=
    .object (by simpa using hw)
  have pair {l r : JsonValue} (hl : l.Writable) (hr : r.Writable) :
      (obj [("left", l), ("right", r)]).Writable := .object (by simpa using ⟨hl, hr⟩)
  induction e with
  | bool b => cases b <;> exact .string _
  | num n => exact single (writable_text n)
  | var v => exact single v.writable_toJson
  | arith op l r ihl ihr | cmp op l r ihl ihr | logic op l r ihl ihr =>
    exact single (pair ihl ihr)
  | neg e ih | not e ih => exact single (single ih)

/-! ### What is read -/

/-- How an expression is read: as a constant, a variable, or an operator with its operands. -/
inductive Reading (d : Nat) (v : JsonValue) : Expr → Prop
  | constant {e : Expr} (h : ofJson?.constant? d v = some e) : Reading d v e
  | var {x : Var} {w : JsonValue} {c : Nat} (hd : d = c + 2)
    (h : Var.ofJson? (c + 1) w = some x) : Reading d v (.var x)
  | binary {name : String} {op : Expr → Expr → Expr} {l r : JsonValue} {x y : Expr} {c : Nat}
    (hop : binaryOperators.lookup name = some op) (hd : d = c + 2) (hl : ofJson? c l = some x)
    (hr : ofJson? c r = some y) : Reading d v (op x y)
  | unary {name : String} {op : Expr → Expr} {w : JsonValue} {x : Expr} {c : Nat}
    (hop : unaryOperators.lookup name = some op) (hd : d = c + 2) (h : ofJson? c w = some x) :
    Reading d v (op x)

/-- How an expression was read: as a constant, a variable or an operator. -/
theorem reading_of_ofJson? (h : ofJson? d v = some e) : Reading d v e := by
  rcases d with _ | _ | d
  -- with less than two levels there is room for constants only
  · exact .constant h
  · exact .constant h
  · rw [ofJson?] at h
    obtain ⟨⟨name, arguments, c⟩, hconstructor, h⟩ := Option.bind_eq_some_iff.1 h
    split at h
    · obtain ⟨x, hx, h⟩ := Option.bind_eq_some_iff.1 h
      cases h
      exact .var rfl hx
    · split at h
      · next hop =>
        obtain ⟨⟨operands, c'⟩, hrecord, h⟩ := Option.bind_eq_some_iff.1 h
        split at h
        · obtain ⟨x, hx, h⟩ := Option.bind_eq_some_iff.1 h
          obtain ⟨y, hy, h⟩ := Option.bind_eq_some_iff.1 h
          cases h
          exact .binary hop rfl hx hy
        · cases h
      · next op _ hop =>
        obtain ⟨⟨operands, c'⟩, hrecord, h⟩ := Option.bind_eq_some_iff.1 h
        split at h
        · obtain ⟨x, hx, h⟩ := Option.bind_eq_some_iff.1 h
          cases h
          exact .unary hop rfl hx
        · cases h
      · exact .constant h
    · exact .constant h

theorem nesting_of_lookup_binary {name : String} {op : Expr → Expr → Expr}
    (hop : binaryOperators.lookup name = some op) (l r : Expr) :
    (op l r).toJson.nesting = max l.toJson.nesting r.toJson.nesting + 2 := by
  obtain ⟨before, after, hsplit, -⟩ := List.lookup_eq_some_iff.1 hop
  have hmem : (name, op) ∈ binaryOperators := by simp [hsplit]
  simp only [binaryOperators, List.mem_cons, List.not_mem_nil, or_false, Prod.mk.injEq] at hmem
  rcases hmem with ⟨-, rfl⟩ | ⟨-, rfl⟩ | ⟨-, rfl⟩ | ⟨-, rfl⟩ | ⟨-, rfl⟩ | ⟨-, rfl⟩ | ⟨-, rfl⟩ |
    ⟨-, rfl⟩ | ⟨-, rfl⟩ | ⟨-, rfl⟩ | ⟨-, rfl⟩ <;> exact nesting_binary _ _ _

theorem nesting_of_lookup_unary {name : String} {op : Expr → Expr}
    (hop : unaryOperators.lookup name = some op) (e : Expr) :
    (op e).toJson.nesting = e.toJson.nesting + 2 := by
  obtain ⟨before, after, hsplit, -⟩ := List.lookup_eq_some_iff.1 hop
  have hmem : (name, op) ∈ unaryOperators := by simp [hsplit]
  simp only [unaryOperators, List.mem_cons, List.not_mem_nil, or_false, Prod.mk.injEq] at hmem
  rcases hmem with ⟨-, rfl⟩ | ⟨-, rfl⟩ <;> exact nesting_unary _ _

/-- A constant is nested no deeper than what it was read from. -/
theorem nesting_le_of_constant? (h : ofJson?.constant? d v = some e) : e.toJson.nesting ≤ d := by
  obtain ⟨⟨name, arguments, c⟩, hconstructor, h⟩ := Option.bind_eq_some_iff.1 h
  split at h
  · cases h
    exact Nat.zero_le _
  · cases h
    exact Nat.zero_le _
  · cases h
    exact Nat.zero_le _
  · cases h
    exact Nat.zero_le _
  · next heq =>
    cases heq
    obtain ⟨n, -, h⟩ := Option.bind_eq_some_iff.1 h
    cases h
    have := constructor?_eq_some hconstructor
    simp only [toJson, obj, nesting, nestingFields, List.map_cons, List.map_nil]
    omega
  · cases h

/-- What is read is not written with deeper nesting. -/
theorem nesting_le (h : ofJson? d v = some e) : e.toJson.nesting ≤ d := by
  -- operands are read with two levels less; how they are spelt does not matter
  induction d using Nat.strongRecOn generalizing v e with
  | _ d ih =>
    cases reading_of_ofJson? h with
    | constant hv => exact nesting_le_of_constant? hv
    | var hd hx =>
      rw [nesting_variable]
      omega
    | binary hop hd hl hr =>
      have hl := ih _ (by omega) hl
      have hr := ih _ (by omega) hr
      rw [nesting_of_lookup_binary hop]
      omega
    | unary hop hd hx =>
      have hx := ih _ (by omega) hx
      rw [nesting_of_lookup_unary hop]
      omega

end Expr

/-! ### Pairs and options -/

namespace Expr

variable {v : JsonValue} {d : Nat}

/-- A pair is read as it was written. -/
theorem pairOfJson?_pairToJson {p : Expr × Expr} (h : (pairToJson p).nesting ≤ d) :
    pairOfJson? d (pairToJson p) = some p := by
  simp only [pairToJson, nesting, nestingItems] at h
  obtain ⟨d, rfl⟩ : ∃ c, d = c + 1 := ⟨d - 1, by omega⟩
  rw [pairToJson, pairOfJson?, p.1.returns d (by omega), p.2.returns d (by omega)]
  rfl

theorem optionOfJson?_toJson {e : Expr} (h : e.toJson.nesting ≤ d) :
    optionOfJson? d e.toJson = some (some e) := by
  rw [optionOfJson?, e.returns d h]
  · rfl
  · intro hnull
    cases e with
    | bool b => cases b <;> cases hnull
    | _ => cases hnull

theorem writable_pairToJson (p : Expr × Expr) : (pairToJson p).Writable :=
  .array (by simpa using ⟨p.1.writable_toJson, p.2.writable_toJson⟩)

/-- A pair is nested no deeper than what it was read from. -/
theorem nesting_le_of_pairOfJson? {p : Expr × Expr} (h : pairOfJson? d v = some p) :
    (pairToJson p).nesting ≤ d := by
  unfold pairOfJson? at h
  split at h
  · obtain ⟨x, hx, h⟩ := Option.bind_eq_some_iff.1 h
    obtain ⟨y, hy, h⟩ := Option.bind_eq_some_iff.1 h
    cases h
    have hx := nesting_le hx
    have hy := nesting_le hy
    simp only [pairToJson, nesting, nestingItems]
    omega
  · cases h

theorem nesting_le_of_optionOfJson? {e : Expr} (h : optionOfJson? d v = some (some e)) :
    e.toJson.nesting ≤ d := by
  unfold optionOfJson? at h
  split at h
  · cases h
  · obtain ⟨x, hx, heq⟩ := Option.map_eq_some_iff.1 h
    cases heq
    exact nesting_le hx

end Expr

end Cegar

import Mathlib.Data.List.Basic
import Cegar.Proofs.Json.Expr

/-!
# Expressions, edges and locations survive JSON

A text is read in two steps, as a JSON value and then as a value of a type, and is written in the
two steps back. For the three types with a JSON format the second step is lawful: what it writes has
a text that can be read, it reads that back if it may be nested as deep, and what it reads from any
other spelling is not written with deeper nesting.

* **`Statement.ofJson?_toJson`**: a statement is read back from its JSON value.
* **`Statement.nesting_le`**: what was read can be read again once it is written.
* **`Codec.Lawful.roundTrips`**: with a lawful second step, values come back from their texts
  exactly if they are not nested too deep, and writing what was read normalises it.
* **`json_roundTrips`**: so it is for expressions, edges and locations.
-/

namespace Cegar

open JsonValue

/-! ## Edges -/

namespace JsonValue

/-- An array is nested as deep as the deepest of its items. -/
theorem nestingItems_le {vs : List JsonValue} {d : Nat} :
    nestingItems vs ≤ d ↔ ∀ v ∈ vs, v.nesting ≤ d := by
  induction vs with
  | nil => simp [nestingItems]
  | cons v vs ih => simp only [nestingItems, Nat.max_le, ih, List.forall_mem_cons]

/-- A constructor with a record of arguments takes two levels. -/
theorem exists_record {α : Type} {v w : JsonValue} {name : String} {names : List (String × Bool)}
    {d c : Nat} {f : List JsonValue × Nat → Option α} {a : α}
    (hconstructor : constructor? d v = some (name, some w, c))
    (h : (record? names c w).bind f = some a) :
    ∃ fields b, d = b + 2 ∧ fields.length = names.length ∧ f (fields, b) = some a := by
  obtain ⟨⟨fields, b⟩, hrecord, h⟩ := Option.bind_eq_some_iff.1 h
  obtain ⟨hc, hlength⟩ := record?_eq_some hrecord
  exact ⟨fields, b, by rw [constructor?_eq_some hconstructor, hc], hlength, h⟩

/-- An object is nested as deep as the deepest of its fields. -/
theorem nestingFields_named_le {fs : List (String × JsonValue)} {d : Nat} :
    nestingFields (named fs) ≤ d ↔ ∀ f ∈ fs, f.2.nesting ≤ d := by
  induction fs with
  | nil => simp [named, nestingFields]
  | cons f fs ih =>
    rw [List.forall_mem_cons, ← ih]
    exact Nat.max_le

theorem nesting_constructor_le {name : String} {fs : List (String × JsonValue)} {d : Nat} :
    (obj [(name, .obj fs)]).nesting ≤ d ↔ ∃ c, d = c + 2 ∧ ∀ f ∈ fs, f.2.nesting ≤ c := by
  have hnesting : (obj [(name, .obj fs)]).nesting = nestingFields (named fs) + 2 := by
    simp [obj, nesting, nestingFields, named]
  rw [hnesting]
  constructor
  · intro h
    exact ⟨d - 2, by omega, nestingFields_named_le.1 (by omega)⟩
  · rintro ⟨c, rfl, hc⟩
    exact Nat.add_le_add_right (nestingFields_named_le.2 hc) 2

end JsonValue

namespace Statement

variable {v : JsonValue} {d : Nat} {s : Statement}

/-- Bindings are read as they were written. -/
theorem bindingsOfJson?_toJson {bs : List (Expr × Expr)}
    (h : (JsonValue.array (bs.map Expr.pairToJson)).nesting ≤ d) :
    bindingsOfJson? d (.array (bs.map Expr.pairToJson)) = some bs := by
  rw [nesting] at h
  obtain ⟨d, rfl⟩ : ∃ c, d = c + 1 := ⟨d - 1, by omega⟩
  have hbs := nestingItems_le.1 (Nat.le_of_succ_le_succ h)
  rw [bindingsOfJson?]
  clear h
  induction bs with
  | nil => rfl
  | cons b bs ih =>
    rw [List.map_cons, List.mapM_cons, Expr.pairOfJson?_pairToJson (hbs _ (by simp)),
      ih fun v hv => hbs v (List.mem_cons_of_mem _ hv)]
    rfl

theorem resultOfJson?_toJson {p : Expr × Expr} (h : (Expr.pairToJson p).nesting ≤ d) :
    resultOfJson? d (Expr.pairToJson p) = some (some p) := by
  rw [resultOfJson?, Expr.pairOfJson?_pairToJson h]
  · rfl
  · exact JsonValue.noConfusion

/-- A statement is read as it was written, if the nesting allows. -/
theorem ofJson?_toJson (h : s.toJson.nesting ≤ d) : ofJson? d s.toJson = some s := by
  cases s with
  | blank | callToReturn => rfl
  | declare target initial =>
    obtain ⟨c, rfl, hc⟩ := nesting_constructor_le.1 h
    cases initial with
    | none =>
      simp only [List.forall_mem_cons] at hc
      show (Expr.ofJson? c target.toJson).bind (fun t => some (declare t none)) = _
      rw [target.returns c hc.1]
      rfl
    | some e =>
      simp only [List.forall_mem_cons] at hc
      show (Expr.ofJson? c target.toJson).bind (fun t => (Expr.optionOfJson? c e.toJson).bind
        fun i => some (declare t i)) = _
      rw [target.returns c hc.1, Expr.optionOfJson?_toJson hc.2.1]
      rfl
  | assign target value =>
    obtain ⟨c, rfl, hc⟩ := nesting_constructor_le.1 h
    simp only [List.forall_mem_cons] at hc
    show (Expr.ofJson? c target.toJson).bind (fun t => (Expr.ofJson? c value.toJson).bind
      fun v => some (assign t v)) = _
    rw [target.returns c hc.1, value.returns c hc.2.1]
    rfl
  | assume condition truth =>
    obtain ⟨c, rfl, hc⟩ := nesting_constructor_le.1 h
    simp only [List.forall_mem_cons] at hc
    show (Expr.ofJson? c condition.toJson).bind (fun e => some (assume e truth)) = _
    rw [condition.returns c hc.1]
    rfl
  | call bindings =>
    obtain ⟨c, rfl, hc⟩ := nesting_constructor_le.1 h
    simp only [List.forall_mem_cons] at hc
    show (bindingsOfJson? c (.array (bindings.map Expr.pairToJson))).bind
      (fun bs => some (call bs)) = _
    rw [bindingsOfJson?_toJson hc.1]
    rfl
  | ret result =>
    obtain ⟨c, rfl, hc⟩ := nesting_constructor_le.1 h
    cases result with
    | none => rfl
    | some p =>
      simp only [List.forall_mem_cons] at hc
      show (resultOfJson? c (Expr.pairToJson p)).bind (fun r => some (ret r)) = _
      rw [resultOfJson?_toJson hc.1]
      rfl
  | unknown description =>
    obtain ⟨c, rfl, hc⟩ := nesting_constructor_le.1 h
    rfl

/-- Every statement can be written. -/
theorem writable_toJson (s : Statement) : s.toJson.Writable := by
  have record {name : String} {fs : List (String × JsonValue)} (hfs : ∀ f ∈ fs, f.2.Writable) :
      (obj [(name, .obj fs)]).Writable := .object (by simpa using .object hfs)
  cases s with
  | blank | callToReturn => exact .string _
  | declare target initial =>
    cases initial with
    | none => exact record (by simpa using ⟨target.writable_toJson, .null⟩)
    | some e => exact record (by simpa using ⟨target.writable_toJson, e.writable_toJson⟩)
  | assign target value =>
    exact record (by simpa using ⟨target.writable_toJson, value.writable_toJson⟩)
  | assume condition truth => exact record (by simpa using ⟨condition.writable_toJson, .bool truth⟩)
  | call bindings =>
    have hbindings : (JsonValue.array (bindings.map Expr.pairToJson)).Writable :=
      .array fun v hv => by
        obtain ⟨p, -, rfl⟩ := List.mem_map.1 hv
        exact Expr.writable_pairToJson p
    exact record (by simpa using hbindings)
  | ret result =>
    cases result with
    | none => exact record (by simpa using .null)
    | some p => exact record (by simpa using Expr.writable_pairToJson p)
  | unknown description => exact record (by simpa using .string description)

/-- Bindings are nested no deeper than what they were read from. -/
theorem nesting_le_of_bindingsOfJson? {bs : List (Expr × Expr)}
    (h : bindingsOfJson? d v = some bs) :
    (JsonValue.array (bs.map Expr.pairToJson)).nesting ≤ d := by
  unfold bindingsOfJson? at h
  split at h
  · next c vs =>
    rw [nesting]
    refine Nat.succ_le_succ (nestingItems_le.2 ?_)
    induction vs generalizing bs with
    | nil =>
      cases h
      simp
    | cons v vs ih =>
      rw [List.mapM_cons] at h
      obtain ⟨p, hp, h⟩ := Option.bind_eq_some_iff.1 h
      obtain ⟨ps, hps, h⟩ := Option.bind_eq_some_iff.1 h
      cases h
      simp only [List.map_cons, List.forall_mem_cons]
      exact ⟨Expr.nesting_le_of_pairOfJson? hp, ih hps⟩
  · cases h

theorem nesting_le_of_resultOfJson? {p : Expr × Expr} (h : resultOfJson? d v = some (some p)) :
    (Expr.pairToJson p).nesting ≤ d := by
  unfold resultOfJson? at h
  split at h
  · cases h
  · obtain ⟨q, hq, heq⟩ := Option.map_eq_some_iff.1 h
    cases heq
    exact Expr.nesting_le_of_pairOfJson? hq

/-- How a statement is read: as a name, or as a name with a record two levels below. -/
inductive Reading (d : Nat) : Statement → Prop
  | blank : Reading d .blank
  | callToReturn : Reading d .callToReturn
  | declare {c : Nat} {l r : JsonValue} {target : Expr} {initial : Option Expr} (hd : d = c + 2)
    (htarget : Expr.ofJson? c l = some target) (hinitial : Expr.optionOfJson? c r = some initial) :
    Reading d (.declare target initial)
  | assign {c : Nat} {l r : JsonValue} {target value : Expr} (hd : d = c + 2)
    (htarget : Expr.ofJson? c l = some target) (hvalue : Expr.ofJson? c r = some value) :
    Reading d (.assign target value)
  | assume {c : Nat} {w : JsonValue} {condition : Expr} {truth : Bool} (hd : d = c + 2)
    (hcondition : Expr.ofJson? c w = some condition) : Reading d (.assume condition truth)
  | call {c : Nat} {w : JsonValue} {bindings : List (Expr × Expr)} (hd : d = c + 2)
    (hbindings : bindingsOfJson? c w = some bindings) : Reading d (.call bindings)
  | ret {c : Nat} {w : JsonValue} {result : Option (Expr × Expr)} (hd : d = c + 2)
    (hresult : resultOfJson? c w = some result) : Reading d (.ret result)
  | unknown {c : Nat} {description : String} (hd : d = c + 2) : Reading d (.unknown description)

/-- How a statement was read. -/
theorem reading_of_ofJson? (h : ofJson? d v = some s) : Reading d s := by
  obtain ⟨⟨name, arguments, c⟩, hconstructor, h⟩ := Option.bind_eq_some_iff.1 h
  split at h
  · cases h
    exact .blank
  · cases h
    exact .blank
  · cases h
    exact .callToReturn
  · cases h
    exact .callToReturn
  -- the constructors with a record of two fields or one
  · next heq =>
    cases heq
    obtain ⟨fields, b, hd, hlength, h⟩ := exists_record hconstructor h
    obtain ⟨l, r, rfl⟩ := List.length_eq_two.1 hlength
    obtain ⟨x, hx, h⟩ := Option.bind_eq_some_iff.1 h
    obtain ⟨y, hy, h⟩ := Option.bind_eq_some_iff.1 h
    cases h
    exact .declare hd hx hy
  · next heq =>
    cases heq
    obtain ⟨fields, b, hd, hlength, h⟩ := exists_record hconstructor h
    obtain ⟨l, r, rfl⟩ := List.length_eq_two.1 hlength
    obtain ⟨x, hx, h⟩ := Option.bind_eq_some_iff.1 h
    obtain ⟨y, hy, h⟩ := Option.bind_eq_some_iff.1 h
    cases h
    exact .assign hd hx hy
  · next heq =>
    cases heq
    obtain ⟨fields, b, hd, hlength, h⟩ := exists_record hconstructor h
    obtain ⟨l, r, rfl⟩ := List.length_eq_two.1 hlength
    obtain ⟨x, hx, h⟩ := Option.bind_eq_some_iff.1 h
    obtain ⟨truth, -, h⟩ := Option.bind_eq_some_iff.1 h
    cases h
    exact .assume hd hx
  · next heq =>
    cases heq
    obtain ⟨fields, b, hd, hlength, h⟩ := exists_record hconstructor h
    obtain ⟨w, rfl⟩ := List.length_eq_one_iff.1 hlength
    obtain ⟨bs, hbs, h⟩ := Option.bind_eq_some_iff.1 h
    cases h
    exact .call hd hbs
  · next heq =>
    cases heq
    obtain ⟨fields, b, hd, hlength, h⟩ := exists_record hconstructor h
    obtain ⟨w, rfl⟩ := List.length_eq_one_iff.1 hlength
    obtain ⟨r, hr, h⟩ := Option.bind_eq_some_iff.1 h
    cases h
    exact .ret hd hr
  · next heq =>
    cases heq
    obtain ⟨fields, b, hd, hlength, h⟩ := exists_record hconstructor h
    obtain ⟨w, rfl⟩ := List.length_eq_one_iff.1 hlength
    obtain ⟨t, -, h⟩ := Option.bind_eq_some_iff.1 h
    cases h
    exact .unknown hd
  · cases h

/-- What is read is not written with deeper nesting. -/
theorem nesting_le (h : ofJson? d v = some s) : s.toJson.nesting ≤ d := by
  cases reading_of_ofJson? h with
  | blank | callToReturn => exact Nat.zero_le _
  | @declare c l r target initial hd htarget hinitial =>
    have htarget := Expr.nesting_le htarget
    cases initial with
    | none => exact nesting_constructor_le.2 ⟨c, hd, by simpa using ⟨htarget, Nat.zero_le c⟩⟩
    | some e =>
      have he := Expr.nesting_le_of_optionOfJson? hinitial
      exact nesting_constructor_le.2 ⟨c, hd, by simpa using ⟨htarget, he⟩⟩
  | assign hd htarget hvalue =>
    have htarget := Expr.nesting_le htarget
    have hvalue := Expr.nesting_le hvalue
    exact nesting_constructor_le.2 ⟨_, hd, by simpa using ⟨htarget, hvalue⟩⟩
  | @assume c w condition truth hd hcondition =>
    have hcondition := Expr.nesting_le hcondition
    exact nesting_constructor_le.2 ⟨c, hd, by simpa using ⟨hcondition, Nat.zero_le c⟩⟩
  | call hd hbindings =>
    have hbindings := nesting_le_of_bindingsOfJson? hbindings
    exact nesting_constructor_le.2 ⟨_, hd, by simpa using hbindings⟩
  | @ret c w result hd hresult =>
    cases result with
    | none => exact nesting_constructor_le.2 ⟨c, hd, by simp [nesting]⟩
    | some p =>
      have hp := nesting_le_of_resultOfJson? hresult
      exact nesting_constructor_le.2 ⟨c, hd, by simpa using hp⟩
  | @unknown c description hd => exact nesting_constructor_le.2 ⟨c, hd, by simp [str, nesting]⟩

/-! ### The record of an edge -/

theorem nesting_edgeToJson (s : Statement) : s.edgeToJson.nesting = s.toJson.nesting + 1 := by
  simp [edgeToJson, obj, nesting, nestingFields]

/-- The statement of an edge is read as it was written. -/
theorem edgeOfJson?_edgeToJson (h : s.edgeToJson.nesting ≤ d) :
    edgeOfJson? d s.edgeToJson = some s := by
  rw [nesting_edgeToJson] at h
  obtain ⟨d, rfl⟩ : ∃ c, d = c + 1 := ⟨d - 1, by omega⟩
  exact ofJson?_toJson (Nat.le_of_succ_le_succ h)

/-- The statement of an edge is nested no deeper than what it was read from. -/
theorem nesting_edgeToJson_le (h : edgeOfJson? d v = some s) : s.edgeToJson.nesting ≤ d := by
  obtain ⟨⟨fields, c⟩, hrecord, h⟩ := Option.bind_eq_some_iff.1 h
  have hd := (record?_eq_some hrecord).1
  split at h
  · next heq =>
    cases heq
    have hkind := nesting_le h
    rw [nesting_edgeToJson]
    omega
  · cases h

end Statement

/-! ## Locations -/

namespace Node

variable {v : JsonValue} {d : Nat}

theorem nesting_toJson (n : Node) : n.toJson.nesting = 1 := rfl

/-- A node is read as it was written. -/
theorem ofJson?_toJson {n : Node} (h : n.toJson.nesting ≤ d) : ofJson? d n.toJson = some n := by
  rw [nesting_toJson] at h
  obtain ⟨d, rfl⟩ : ∃ c, d = c + 1 := ⟨d - 1, by omega⟩
  rfl

theorem writable_toJson (n : Node) : n.toJson.Writable :=
  .object (by simpa using ⟨.string _, .bool _, .bool _, .bool _, .bool _⟩)

theorem nesting_le {n : Node} (h : ofJson? d v = some n) : n.toJson.nesting ≤ d := by
  obtain ⟨⟨fields, c⟩, hrecord, -⟩ := Option.bind_eq_some_iff.1 h
  have hd := (record?_eq_some hrecord).1
  rw [nesting_toJson]
  omega

end Node

/-! ## Texts -/

/-- How values of a type are written as JSON and read from it. -/
structure Codec (α : Type) where
  toJson : α → JsonValue
  /-- Reads a value that is not nested deeper than the number says. -/
  ofJson? : Nat → JsonValue → Option α

namespace Codec

variable {α : Type} {c : Codec α}

/-- The compact text of a value. -/
def encode (c : Codec α) (a : α) : String := (c.toJson a).text

/-- Reads a value from a text, in any spelling. -/
def decode? (c : Codec α) (s : String) : Option α := (ofText? s).bind (c.ofJson? maxDepth)

/-- What is written can be read, if nesting as deep is read, and nesting as deep is read for
everything that was read. -/
structure Lawful (c : Codec α) : Prop where
  writable : ∀ a, (c.toJson a).Writable
  returns : ∀ a d, (c.toJson a).nesting ≤ d → c.ofJson? d (c.toJson a) = some a
  nesting_le : ∀ v a d, c.ofJson? d v = some a → (c.toJson a).nesting ≤ d

/-- Values come back from their texts unless they are nested too deep. A text in any spelling that
is read as a value is normalised by writing that value: the new text is read as the same value, and
writing it again changes nothing. -/
structure RoundTrips (c : Codec α) : Prop where
  decode_encode : ∀ a, c.decode? (c.encode a) = some a ↔ (c.toJson a).nesting ≤ maxDepth
  normalises : ∀ s a, c.decode? s = some a →
    c.decode? (c.encode a) = some a ∧ (c.decode? (c.encode a)).map c.encode = some (c.encode a)

/-- Decoding what was encoded is reading the value back. -/
theorem Lawful.decode?_encode (h : c.Lawful) (a : α) :
    c.decode? (c.encode a) = c.ofJson? maxDepth (c.toJson a) := by
  rw [decode?, encode, ofText?_text (h.writable a)]
  rfl

/-- A lawful codec reads back exactly what is nested no deeper than the limit. -/
theorem Lawful.roundTrips (h : c.Lawful) : c.RoundTrips where
  decode_encode a := by
    rw [h.decode?_encode]
    exact ⟨h.nesting_le _ a _, h.returns a _⟩
  normalises s a hs := by
    obtain ⟨v, -, hv⟩ := Option.bind_eq_some_iff.1 hs
    have hagain : c.decode? (c.encode a) = some a := by
      rw [h.decode?_encode]
      exact h.returns a _ (h.nesting_le v a _ hv)
    exact ⟨hagain, by rw [hagain]; rfl⟩

end Codec

def Expr.codec : Codec Expr := ⟨toJson, ofJson?⟩

/-- An edge is a record of its statement. -/
def Statement.edgeCodec : Codec Statement := ⟨edgeToJson, edgeOfJson?⟩

def Node.codec : Codec Node := ⟨toJson, ofJson?⟩

/-- Expressions, edges and locations come back from their texts, and writing them normalises. -/
theorem json_roundTrips :
    Expr.codec.RoundTrips ∧ Statement.edgeCodec.RoundTrips ∧ Node.codec.RoundTrips := by
  refine ⟨Codec.Lawful.roundTrips ?_, Codec.Lawful.roundTrips ?_, Codec.Lawful.roundTrips ?_⟩
  · exact ⟨Expr.writable_toJson, Expr.returns, fun _ _ _ => Expr.nesting_le⟩
  · refine ⟨fun s => ?_, fun _ _ => Statement.edgeOfJson?_edgeToJson,
      fun _ _ _ => Statement.nesting_edgeToJson_le⟩
    exact .object (by simpa using s.writable_toJson)
  · exact ⟨Node.writable_toJson, fun _ _ => Node.ofJson?_toJson, fun _ _ _ => Node.nesting_le⟩

end Cegar

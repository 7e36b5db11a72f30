import Cegar.Automaton.Basic
import Cegar.Json.Reader
import Cegar.Json.Writer
import Cegar.Predicate
import Cegar.Solver.Basic

/-!
# Expressions, edges and locations as JSON

A constructor without arguments is written as its name, any other as an object with one field of
that name. Records are objects; they may also be read from arrays with all their fields in order.
Fields that are not known are ignored, but known ones must not be given twice. What is read must not
be nested deeper than a limit; ignored fields may be.
-/

namespace Cegar

namespace JsonValue

/-- The deepest nesting that is read. -/
def maxDepth : Nat := 127

/-! ### Records and constructors -/

/-- The fields of a record in order: each is found once at most, and is null if it is missing and
may be. -/
def pick (fields : List (Option String × JsonValue)) :
    List (String × Bool) → Option (List JsonValue)
  | [] => some []
  | (name, optional) :: names => do
    let rest ← pick fields names
    match fields.filter (·.1 = some name) with
    | [(_, v)] => return v :: rest
    | [] => if optional then return .null :: rest else none
    | _ => none

/-- The fields of a record, which are the names given, each with whether it may be missing. The
second result is the depth left for them. -/
def record? (names : List (String × Bool)) : Nat → JsonValue → Option (List JsonValue × Nat)
  | depth + 1, .object fields =>
    if fields.all (·.1.isSome) then (pick fields names).map (·, depth) else none
  | depth + 1, .array vs => if vs.length = names.length then some (vs, depth) else none
  | _, _ => none

/-- A constructor's name, its arguments and the depth left for them. A name alone stands for a
constructor without arguments. -/
def constructor? : Nat → JsonValue → Option (String × Option JsonValue × Nat)
  | depth, .string (some name) => some (name, none, depth)
  | depth + 1, .object [(some name, v)] => some (name, some v, depth)
  | _, _ => none

/-- The name of a constructor that has no arguments. -/
def unit? (depth : Nat) (v : JsonValue) : Option String := do
  match ← constructor? depth v with
  | (name, none, _) | (name, some .null, _) => some name
  | _ => none

/-! ### Numbers -/

/-- An integer of 128 bits. -/
def int128? : JsonValue → Option Int128
  | .number text => (Decimal.int? text).bind Int128.ofInt?
  | _ => none

/-- An index; it has no sign. -/
def index? : JsonValue → Option (Option UInt32)
  | .null => some none
  | .number text =>
    match Decimal.nat? text with
    | some n => if n < UInt32.size then some (some n.toUInt32) else none
    | none => none
  | _ => none

end JsonValue

open JsonValue

/-! ### Types and answers -/

namespace Ty

def toJson : Ty → JsonValue
  | .bool => .str "Bool"
  | .int => .str "Integer"

def ofJson? (depth : Nat) (v : JsonValue) : Option Ty := do
  match ← unit? depth v with
  | "Bool" => some .bool
  | "Integer" => some .int
  | _ => none

end Ty

namespace Answer

def toJson : Answer → JsonValue
  | .sat => .str "Satisfiable"
  | .unsat => .str "Unsatisfiable"
  | .undefined => .str "Undefined"

def ofJson? (depth : Nat) (v : JsonValue) : Option Answer := do
  match ← unit? depth v with
  | "Satisfiable" => some .sat
  | "Unsatisfiable" => some .unsat
  | "Undefined" => some .undefined
  | _ => none

end Answer

/-! ### Expressions -/

/-- The operators with two operands, with their names. -/
def binaryOperators : List (String × (Expr → Expr → Expr)) := [
  ("Add", .arith .add), ("Sub", .arith .sub), ("Mul", .arith .mul),
  ("Equals", .cmp .eq), ("Ne", .cmp .ne), ("LessThan", .cmp .lt), ("LessOrEqual", .cmp .le),
  ("GreaterThan", .cmp .gt), ("GreaterOrEqual", .cmp .ge),
  ("And", .logic .and), ("Or", .logic .or)]

/-- The operators with one operand, with their names. -/
def unaryOperators : List (String × (Expr → Expr)) := [("Neg", .neg), ("LogicalNot", .not)]

def ArithOp.jsonName : ArithOp → String
  | .add => "Add"
  | .sub => "Sub"
  | .mul => "Mul"

def CmpOp.jsonName : CmpOp → String
  | .eq => "Equals"
  | .ne => "Ne"
  | .lt => "LessThan"
  | .le => "LessOrEqual"
  | .gt => "GreaterThan"
  | .ge => "GreaterOrEqual"

def LogicOp.jsonName : LogicOp → String
  | .and => "And"
  | .or => "Or"

namespace Var

def toJson (v : Var) : JsonValue := .obj [
  ("name", .str v.name),
  ("var_type", v.ty.toJson),
  ("index", match v.index with
    | some i => .number (Nat.toDigits 10 i.toNat)
    | none => .null)]

def ofJson? (depth : Nat) (v : JsonValue) : Option Var := do
  match ← record? [("name", false), ("var_type", false), ("index", true)] depth v with
  | ([name, ty, index], depth) =>
    return ⟨← name.string?, ← Ty.ofJson? depth ty, ← index.index?⟩
  | _ => none

end Var

namespace Expr

def toJson : Expr → JsonValue
  | .bool true => .str "True"
  | .bool false => .str "False"
  | .num n => .obj [("Numeral", .number n.text.toList)]
  | .var v => .obj [("Variable", v.toJson)]
  | .arith op l r => .obj [(op.jsonName, .obj [("left", l.toJson), ("right", r.toJson)])]
  | .neg e => .obj [("Neg", .obj [("operand", e.toJson)])]
  | .cmp op l r => .obj [(op.jsonName, .obj [("left", l.toJson), ("right", r.toJson)])]
  | .logic op l r => .obj [(op.jsonName, .obj [("left", l.toJson), ("right", r.toJson)])]
  | .not e => .obj [("LogicalNot", .obj [("operand", e.toJson)])]

/-- Reads an expression. The depth left gets smaller with every operator. -/
def ofJson? : Nat → JsonValue → Option Expr
  | 0, v => constant? 0 v
  | 1, v => constant? 1 v
  | depth + 2, v => do
    match ← constructor? (depth + 2) v with
    | ("Variable", some v, _) => return .var (← Var.ofJson? (depth + 1) v)
    | (name, some operands, _) =>
      match binaryOperators.lookup name, unaryOperators.lookup name with
      | some op, _ =>
        match ← record? [("left", false), ("right", false)] (depth + 1) operands with
        | ([l, r], _) => return op (← ofJson? depth l) (← ofJson? depth r)
        | _ => none
      | none, some op =>
        match ← record? [("operand", false)] (depth + 1) operands with
        | ([e], _) => return op (← ofJson? depth e)
        | _ => none
      | none, none => constant? (depth + 2) v
    | _ => constant? (depth + 2) v
where
  /-- A constant or a numeral. -/
  constant? (depth : Nat) (v : JsonValue) : Option Expr := do
    match ← constructor? depth v with
    | ("True", none, _) | ("True", some .null, _) => some (.bool true)
    | ("False", none, _) | ("False", some .null, _) => some (.bool false)
    | ("Numeral", some n, _) => return .num (← n.int128?)
    | _ => none

/-- Reads two expressions from an array. -/
def pairOfJson? : Nat → JsonValue → Option (Expr × Expr)
  | depth + 1, .array [a, b] => return (← ofJson? depth a, ← ofJson? depth b)
  | _, _ => none

/-- Reads an expression that may be missing. -/
def optionOfJson? (depth : Nat) : JsonValue → Option (Option Expr)
  | .null => some none
  | v => (ofJson? depth v).map some

def pairToJson (p : Expr × Expr) : JsonValue := .array [p.1.toJson, p.2.toJson]

end Expr

def Predicate.toJson (p : Predicate) : JsonValue := p.expr.toJson

/-! ### Edges -/

namespace Statement

def toJson : Statement → JsonValue
  | .blank => .str "Blank"
  | .declare target initial => .obj [("Declaration", .obj [("variable", target.toJson),
      ("initializer", match initial with
        | some e => e.toJson
        | none => .null)])]
  | .assign target value =>
    .obj [("Statement", .obj [("target", target.toJson), ("value", value.toJson)])]
  | .assume condition truth =>
    .obj [("Assume", .obj [("condition", condition.toJson), ("truth_assumption", .bool truth)])]
  | .call bindings =>
    .obj [("FunctionCall", .obj [("arguments", .array (bindings.map Expr.pairToJson))])]
  | .ret result => .obj [("FunctionReturn", .obj [("result", match result with
      | some p => Expr.pairToJson p
      | none => .null)])]
  | .callToReturn => .str "CallToReturn"
  | .unknown description => .obj [("Opaque", .obj [("description", .str description)])]

/-- Reads the bindings of a call. -/
def bindingsOfJson? : Nat → JsonValue → Option (List (Expr × Expr))
  | depth + 1, .array vs => vs.mapM (Expr.pairOfJson? depth)
  | _, _ => none

/-- Reads a result, which may be missing. -/
def resultOfJson? (depth : Nat) : JsonValue → Option (Option (Expr × Expr))
  | .null => some none
  | v => (Expr.pairOfJson? depth v).map some

def ofJson? (depth : Nat) (v : JsonValue) : Option Statement := do
  match ← constructor? depth v with
  | ("Blank", none, _) | ("Blank", some .null, _) => return .blank
  | ("CallToReturn", none, _) | ("CallToReturn", some .null, _) => return .callToReturn
  | ("Declaration", some v, depth) =>
    match ← record? [("variable", false), ("initializer", true)] depth v with
    | ([target, initial], depth) =>
      return .declare (← Expr.ofJson? depth target) (← Expr.optionOfJson? depth initial)
    | _ => none
  | ("Statement", some v, depth) =>
    match ← record? [("target", false), ("value", false)] depth v with
    | ([target, value], depth) =>
      return .assign (← Expr.ofJson? depth target) (← Expr.ofJson? depth value)
    | _ => none
  | ("Assume", some v, depth) =>
    match ← record? [("condition", false), ("truth_assumption", false)] depth v with
    | ([condition, truth], depth) =>
      return .assume (← Expr.ofJson? depth condition) (← truth.bool?)
    | _ => none
  | ("FunctionCall", some v, depth) =>
    match ← record? [("arguments", false)] depth v with
    | ([bindings], depth) => return .call (← bindingsOfJson? depth bindings)
    | _ => none
  | ("FunctionReturn", some v, depth) =>
    match ← record? [("result", true)] depth v with
    | ([result], depth) => return .ret (← resultOfJson? depth result)
    | _ => none
  | ("Opaque", some v, depth) =>
    match ← record? [("description", false)] depth v with
    | ([description], _) => return .unknown (← description.string?)
    | _ => none
  | _ => none

/-- The record of an edge, which holds its statement. -/
def edgeToJson (s : Statement) : JsonValue := .obj [("kind", s.toJson)]

def edgeOfJson? (depth : Nat) (v : JsonValue) : Option Statement := do
  match ← record? [("kind", false)] depth v with
  | ([kind], depth) => ofJson? depth kind
  | _ => none

end Statement

/-! ### Locations -/

namespace Node

def toJson (n : Node) : JsonValue := .obj [
  ("function_name", .str n.function), ("is_loop_head", .bool n.loopHead),
  ("is_function_entry", .bool n.functionEntry),
  ("has_entering_summary_edge", .bool n.returnSite), ("is_error", .bool n.error)]

def ofJson? (depth : Nat) (v : JsonValue) : Option Node := do
  let names := [("function_name", false), ("is_loop_head", false), ("is_function_entry", false),
    ("has_entering_summary_edge", false), ("is_error", false)]
  match ← record? names depth v with
  | ([function, loopHead, functionEntry, returnSite, error], _) =>
    return ⟨← function.string?, ← loopHead.bool?, ← functionEntry.bool?, ← returnSite.bool?,
      ← error.bool?⟩
  | _ => none

end Node

end Cegar

import Cegar.Int128

/-!
# Expressions

One language serves program statements, predicates and path formulas: integer arithmetic,
comparisons and boolean structure over variables of two types. A variable in a statement or a
predicate has no index; in a path formula it carries the index of the write it refers to.

The constructors keep the tree as written. `Expr.and`, `Expr.or` and `Expr.complement` build the
same connectives and drop constant operands on the way.
-/

namespace Cegar

/-- The type of a variable, or of the value of an expression. -/
inductive Ty where
  | bool
  | int
deriving DecidableEq, Repr, Inhabited

/-- A program variable, at one of its writes if it carries an index. -/
structure Var where
  name : String
  ty : Ty
  index : Option UInt32
deriving DecidableEq, Inhabited

namespace Var

/-- How the names of branch variables begin: they record which side of a condition was taken. -/
def branchMark : String := "__pc_"

/-- The name of the branch variable of location number `location`. -/
def branchName (location : Nat) : String := branchMark ++ Nat.repr location

/-- The branch variable of location number `location`, at write `index`. -/
def branch (location : Nat) (index : UInt32) : Var := ⟨branchName location, .bool, some index⟩

/-- Branch variables are told by their name alone. -/
def isBranch (v : Var) : Bool := v.name.startsWith branchMark

/-- The variable without the write it refers to. -/
def unindexed (v : Var) : Var := { v with index := none }

end Var

inductive ArithOp where
  | add
  | sub
  | mul
deriving DecidableEq, Repr

inductive CmpOp where
  | eq
  | ne
  | lt
  | le
  | gt
  | ge
deriving DecidableEq, Repr

inductive LogicOp where
  | and
  | or
deriving DecidableEq, Repr

/-- The operand that changes nothing. The other constant decides the result. -/
def LogicOp.unit : LogicOp → Bool
  | .and => true
  | .or => false

inductive Expr where
  | bool (b : Bool)
  | num (n : Int128)
  | var (v : Var)
  | arith (op : ArithOp) (l r : Expr)
  | neg (e : Expr)
  | cmp (op : CmpOp) (l r : Expr)
  | logic (op : LogicOp) (l r : Expr)
  | not (e : Expr)
deriving DecidableEq, Inhabited

namespace Expr

/-- The truth value of a boolean constant. -/
def known : Expr → Option Bool
  | .bool b => some b
  | _ => none

/-- The type of the value: it depends on the outermost operator only. -/
def ty : Expr → Ty
  | .num _ | .arith .. | .neg _ => .int
  | .var v => v.ty
  | .bool _ | .cmp .. | .logic .. | .not _ => .bool

/-- A comparison or a boolean variable: something without boolean structure. -/
def isAtom : Expr → Bool
  | .cmp .. => true
  | .var v => v.ty = .bool
  | _ => false

/-- True of branch variables only. -/
def isBranch : Expr → Bool
  | .var v => v.isBranch
  | _ => false

/-! ### Connectives that simplify -/

/-- `l op r`, without constant operands and without repeating an operand. -/
def connect (op : LogicOp) (l r : Expr) : Expr :=
  if l = .bool !op.unit ∨ r = .bool !op.unit then .bool !op.unit
  else if l = .bool op.unit then r
  else if r = .bool op.unit then l
  else if l = r then r
  else .logic op l r

def and (l r : Expr) : Expr := connect .and l r

def or (l r : Expr) : Expr := connect .or l r

/-- Negation: constants flip, and a negation loses its sign. -/
def complement : Expr → Expr
  | .bool b => .bool !b
  | .not e => e
  | e => .not e

def implies (l r : Expr) : Expr := l.complement.or r

/-- The conjunction of a list; true if it is empty. -/
def conj (es : List Expr) : Expr := es.foldl and (.bool true)

/-- The disjunction of a list; false if it is empty. -/
def disj (es : List Expr) : Expr := es.foldl or (.bool false)

/-- The equation `l == r`. -/
def eq (l r : Expr) : Expr := .cmp .eq l r

end Expr

end Cegar

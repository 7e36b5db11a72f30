import Cegar.Expr.Basic

/-!
# Text of expressions

Every binary operator is written with its own pair of parentheses, prefix operators with none, and
an index follows its variable after `@`.
-/

namespace Cegar

def Var.text (v : Var) : String :=
  match v.index with
  | some i => v.name ++ "@" ++ Nat.repr i.toNat
  | none => v.name

def ArithOp.text : ArithOp → String
  | .add => "+"
  | .sub => "-"
  | .mul => "*"

def CmpOp.text : CmpOp → String
  | .eq => "=="
  | .ne => "!="
  | .lt => "<"
  | .le => "<="
  | .gt => ">"
  | .ge => ">="

def LogicOp.text : LogicOp → String
  | .and => "&&"
  | .or => "||"

def Expr.text : Expr → String
  | .bool b => if b then "true" else "false"
  | .num n => n.text
  | .var v => v.text
  | .arith op l r => "(" ++ l.text ++ " " ++ op.text ++ " " ++ r.text ++ ")"
  | .neg e => "-" ++ e.text
  | .cmp op l r => "(" ++ l.text ++ " " ++ op.text ++ " " ++ r.text ++ ")"
  | .logic op l r => "(" ++ l.text ++ " " ++ op.text ++ " " ++ r.text ++ ")"
  | .not e => "!" ++ e.text

end Cegar

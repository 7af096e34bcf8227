import Orchids.Ovm.Opcode

/-!
# Expressions and actions (`node_expr_t`)

The trees that `issdl.y` builds, after name resolution: a constant, a variable, a field and a
built-in function are their resource ids. The parameters of a call are expressions here; the
grammar only writes constants, variables and fields there.
-/

namespace Orchids

/-- The operators of a `NODE_COND`. -/
inductive CondOp where
  | andand | oror
  | cmp (op : CmpOp)
  deriving DecidableEq, Repr

/-- The number in `expr->cond.op`: an opcode, or the token that `yacc` numbers (from 258 on, in
the order of the precedence declarations: `EQ`, `OROR`, `ANDAND`). -/
def CondOp.word : CondOp → Nat
  | .andand => 260
  | .oror => 259
  | .cmp op => (Opcode.cmp op).code

/-- The nodes of an expression. -/
inductive Expr where
  | const (resId : Nat)
  | var (resId : Nat)
  | field (resId : Nat)
  | call (resId : Nat) (params : List Expr)
  | binop (op : ArithOp) (lval rval : Expr)
  | cond (op : CondOp) (lval rval : Expr)
  | assoc (var : Nat) (rval : Expr)

/-- The actions. A missing `else` branch is the empty list: the grammar has no empty block. -/
inductive Stmt where
  | expr (e : Expr)
  | regsplit (string : Expr) (splitPat : Nat) (destVars : List Nat)
  | ifstmt (cond : Expr) (thn els : List Stmt)

end Orchids

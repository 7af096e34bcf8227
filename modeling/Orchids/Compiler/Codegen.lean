import Orchids.Compiler.Ast
import Orchids.Compiler.Buffer
import Orchids.Ovm.Machine

/-!
# The code generator (`rule_compiler.c`)

`compile_bytecode_expr` and `compile_bytecode_cond` call each other on the same node, so they are
one recursion over the tree here: `compileBytecode e none` is the value position of `e`, and
`compileBytecode e (some (labelThen, labelElse))` its jump position. The equations in the shape of
the source are `compileBytecodeExpr_cmp` .. `compileBytecodeCond_other`.
-/

namespace Orchids

open Opcode

/-- The check at the end of `compile_actions_bytecode`. -/
def exitIfActionsFull : Gen := fun b =>
  if bytecodeBufSz - 2 ≤ b.pos then .error .bufferFull else .ok b

/-- `OP_POPCJMP` to a label, `OP_JMP` to another. -/
def emitJumps (labelThen labelElse : Nat) : Gen := fun b => do
  let b ← emit popcjmp.code b
  let b ← putLabel labelThen b
  let b ← emit jmp.code b
  putLabel labelElse b

/-- The end of the jump position: nothing in value position. -/
def endPosition : Option (Nat × Nat) → Gen
  | none, b => pure b
  | some (labelThen, labelElse), b => emitJumps labelThen labelElse b

/-- The end of a `NODE_COND` in value position: the static 1 at the label `labelThen`, the static
0 at `labelElse`. -/
def emitBool (labelThen labelElse labelEnd : Nat) : Gen := fun b => do
  let b ← setLabel labelThen b
  let b ← emits [pushstatic.code, staticIds.one, jmp.code] b
  let b ← putLabel labelEnd b
  let b ← setLabel labelElse b
  let b ← emits [pushstatic.code, staticIds.zero] b
  setLabel labelEnd b

mutual

/-- `compile_bytecode_expr` (no labels) and `compile_bytecode_cond` (its two labels). -/
def compileBytecode : Expr → Option (Nat × Nat) → Gen
  | .assoc x e, pos, b => do
    let b ← compileBytecode e none b
    let b ← emits [pop.code, x, push.code, x] b
    endPosition pos b
  | .binop op l r, pos, b => do
    let b ← compileBytecode l none b
    let b ← compileBytecode r none b
    let b ← emit (arith op).code b
    endPosition pos b
  | .cond (.cmp op) l r, some (labelThen, labelElse), b => do
    let b ← compileBytecode l none b
    let b ← compileBytecode r none b
    let b ← emit (cmp op).code b
    emitJumps labelThen labelElse b
  | .cond (.cmp op) l r, none, b => do
    let n := b.labelsNb
    let b := newLabels 4 b
    let b ← compileBytecode l none b
    let b ← compileBytecode r none b
    let b ← emit (cmp op).code b
    let b ← emitJumps (n + 1) (n + 2) b
    emitBool (n + 1) (n + 2) (n + 3) b
  | .cond .andand l r, pos, b => do
    let n := b.labelsNb
    let b := newLabels 4 b
    let b ← compileBytecode l (some (n, n + 2)) b
    let b ← setLabel n b
    let b ← compileBytecode r (some (n + 1, n + 2)) b
    let b ← emitBool (n + 1) (n + 2) (n + 3) b
    endPosition pos b
  | .cond .oror l r, pos, b => do
    let n := b.labelsNb
    let b := newLabels 4 b
    let b ← compileBytecode l (some (n + 1, n)) b
    let b ← setLabel n b
    let b ← compileBytecode r (some (n + 1, n + 2)) b
    let b ← emitBool (n + 1) (n + 2) (n + 3) b
    endPosition pos b
  | .field f, pos, b => do
    let b ← exitIfBytecodeBuffFull 2 b
    let b ← emits [pushfield.code, f] b
    let b ← useField f b
    endPosition pos b
  | .var x, pos, b => do
    let b ← exitIfBytecodeBuffFull 2 b
    let b ← emits [push.code, x] b
    endPosition pos b
  | .const c, pos, b => do
    let b ← exitIfBytecodeBuffFull 2 b
    let b ← emits [pushstatic.code, c] b
    endPosition pos b
  | .call f ps, pos, b => do
    let b ← compileParams ps b
    let b ← exitIfBytecodeBuffFull 2 b
    let b ← emits [call.code, f] b
    endPosition pos b

/-- The parameters of a call, the last one first. -/
def compileParams : List Expr → Gen
  | [], b => pure b
  | p :: ps, b => do
    let b ← compileParams ps b
    compileBytecode p none b

end

/-- `compile_bytecode_expr` -/
def compileBytecodeExpr (e : Expr) : Gen := compileBytecode e none

/-- `compile_bytecode_cond`; its last label is not used. -/
def compileBytecodeCond (e : Expr) (labelThen labelElse _labelEnd : Nat) : Gen :=
  compileBytecode e (some (labelThen, labelElse))

/-- An expression as a statement: an assignment without its value, an operator on the code of its
operands *as statements*, and everything else with its value trashed. -/
def compileExprStmt : Expr → Gen
  | .assoc x e, b => do
    let b ← compileBytecodeExpr e b
    emits [pop.code, x] b
  | .binop op l r, b => do
    let b ← compileExprStmt l b
    let b ← compileExprStmt r b
    emit (arith op).code b
  | .cond op l r, b => do
    let b ← compileExprStmt l b
    let b ← compileExprStmt r b
    emit op.word b
  | e, b => do
    let b ← compileBytecodeExpr e b
    let b ← exitIfBytecodeBuffFull 2 b
    emit trash.code b

mutual

/-- `compile_bytecode_stmt` -/
def compileBytecodeStmt : Stmt → Gen
  | .expr e, b => compileExprStmt e b
  | .regsplit string splitPat destVars, b => do
    let b ← exitIfBytecodeBuffFull (5 + 2 * destVars.length) b
    let b ← compileBytecodeExpr string b
    let b ← emits [pushstatic.code, splitPat, regsplit.code] b
    emits (destVars.flatMap fun x => [pop.code, x]) b
  | .ifstmt cond thn els, b => do
    let n := b.labelsNb
    let b := newLabels 3 b
    let b ← compileBytecodeCond cond n (n + 1) (n + 2) b
    let b ← setLabel n b
    let b ← compileStmts thn b
    let b ← exitIfActionsFull b
    let b ← emit jmp.code b
    let b ← putLabel (n + 2) b
    let b ← setLabel (n + 1) b
    let b ← compileStmts els b
    -- `compile_actions_bytecode` is not called for a missing `else`
    let b ← (if els.isEmpty then pure b else exitIfActionsFull b)
    setLabel (n + 2) b

/-- The loop of `compile_actions_bytecode`. -/
def compileStmts : List Stmt → Gen
  | [], b => pure b
  | s :: ss, b => do
    let b ← compileBytecodeStmt s b
    compileStmts ss b

end

/-- `compile_actions_bytecode` -/
def compileActionsBytecode (ss : List Stmt) : Gen := fun b => do
  let b ← compileStmts ss b
  exitIfActionsFull b

/-- A comparison in value position: its jump position, then the two constants. -/
theorem compileBytecodeExpr_cmp (op : CmpOp) (l r : Expr) (b : Buffer) :
    compileBytecodeExpr (.cond (.cmp op) l r) b = (do
      let n := b.labelsNb
      let b ← compileBytecodeCond (.cond (.cmp op) l r) (n + 1) (n + 2) (n + 3) (newLabels 4 b)
      emitBool (n + 1) (n + 2) (n + 3) b) := by
  simp only [compileBytecodeExpr, compileBytecodeCond, compileBytecode, bind_assoc]

/-- A comparison in jump position. -/
theorem compileBytecodeCond_cmp (op : CmpOp) (l r : Expr) (th el en : Nat) (b : Buffer) :
    compileBytecodeCond (.cond (.cmp op) l r) th el en b = (do
      let b ← compileBytecodeExpr l b
      let b ← compileBytecodeExpr r b
      let b ← emit (cmp op).code b
      emitJumps th el b) := by
  simp only [compileBytecodeExpr, compileBytecodeCond, compileBytecode]

/-- Every other node in jump position: its value, then the two jumps. -/
theorem compileBytecodeCond_other {e : Expr} (he : ∀ op l r, e ≠ .cond (.cmp op) l r)
    (th el en : Nat) (b : Buffer) :
    compileBytecodeCond e th el en b = (do
      let b ← compileBytecodeExpr e b
      emitJumps th el b) := by
  cases e with
  | cond op l r =>
    cases op with
    | cmp op => exact (he op l r rfl).elim
    | _ => simp [compileBytecodeExpr, compileBytecodeCond, compileBytecode, endPosition]
  | _ => simp [compileBytecodeExpr, compileBytecodeCond, compileBytecode, endPosition]

end Orchids

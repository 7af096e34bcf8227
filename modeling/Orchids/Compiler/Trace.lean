import Mathlib.Algebra.GroupWithZero.Nat
import Orchids.Compiler.ActionLayout
import Orchids.Compiler.RuleCompiler

/-!
# The operations of the code generator, in order

What the code generator does to its tables depends on the tree and on the number of the next
label, and on nothing else that the tables hold. So a piece of it is a list of operations (`GenOp`),
each of which may stop.

* `exprOps`, `stmtsOps`: the operations for the tree, from the number of the next label on.
* `compileBytecode_ops`, `compileStmts_ops`: the code generator does these operations.
* `runOps_eq`: what stops a list of operations is in `firstFault`, which only counts.
* `CodeSource.result_eq_error_iff`: the same for the code of a whole condition or action list.
-/

namespace Orchids

open Opcode

/-! ## Operations -/

/-- An operation on the tables of the buffer. -/
inductive GenOp where
  /-- `EXIT_IF_BYTECODE_BUFF_FULL(x)` -/
  | room (x : Nat)
  /-- The check at the end of `compile_actions_bytecode` and of `compile_trans_bytecode`. -/
  | listRoom
  /-- An instruction without operand. -/
  | word (w : Nat)
  /-- An instruction with its operand. -/
  | insn (w n : Nat)
  /-- An instruction with a `PUT_LABEL`. -/
  | jump (w label : Nat)
  /-- `SET_LABEL` -/
  | set (label : Nat)
  /-- The entry of `used_fields`. -/
  | field (f : Nat)
  /-- `n` times `NEW_LABEL`. -/
  | labels (n : Nat)
  deriving DecidableEq, Repr

namespace GenOp

/-- What the code generator does. -/
def run : GenOp → Gen
  | room x => exitIfBytecodeBuffFull x
  | listRoom => exitIfActionsFull
  | word w => emit w
  | insn w n => emits [w, n]
  | jump w label => fun b => do
    let b ← emit w b
    putLabel label b
  | set label => setLabel label
  | field f => useField f
  | labels n => fun b => pure (newLabels n b)

/-- The words that it writes. -/
def syms : GenOp → List Sym
  | word w => [.word w]
  | insn w n => [.word w, .word n]
  | jump w label => [.word w, .ref label]
  | _ => []

/-- How many words these are. -/
def size : GenOp → Nat
  | word _ => 1
  | insn _ _ => 2
  | jump _ _ => 2
  | _ => 0

/-- How many labels it makes. -/
def made : GenOp → Nat
  | labels n => n
  | _ => 0

/-- How many entries of `used_fields` it writes. -/
def fields : GenOp → Nat
  | field _ => 1
  | _ => 0

end GenOp

/-- One operation after the other. -/
def runOps : List GenOp → Gen
  | [], b => pure b
  | o :: os, b => do
    let b ← o.run b
    runOps os b

/-- The words of a list of operations. -/
def size (os : List GenOp) : Nat := (os.map GenOp.size).sum

/-- The labels that it makes. -/
def made (os : List GenOp) : Nat := (os.map GenOp.made).sum

/-- Its entries of `used_fields`. -/
def fieldsNb (os : List GenOp) : Nat := (os.map GenOp.fields).sum

section

variable (o : GenOp) (os os' : List GenOp)

@[simp] theorem size_nil : size [] = 0 := rfl
@[simp] theorem size_cons : size (o :: os) = o.size + size os := rfl
@[simp] theorem size_append : size (os ++ os') = size os + size os' := by simp [size]
@[simp] theorem made_nil : made [] = 0 := rfl
@[simp] theorem made_cons : made (o :: os) = o.made + made os := rfl
@[simp] theorem made_append : made (os ++ os') = made os + made os' := by simp [made]
@[simp] theorem fieldsNb_nil : fieldsNb [] = 0 := rfl
@[simp] theorem fieldsNb_cons : fieldsNb (o :: os) = o.fields + fieldsNb os := rfl
@[simp] theorem fieldsNb_append : fieldsNb (os ++ os') = fieldsNb os + fieldsNb os' := by
  simp [fieldsNb]

end

theorem runOps_append (os os' : List GenOp) (b : Buffer) :
    runOps (os ++ os') b = runOps os b >>= runOps os' := by
  induction os generalizing b with
  | nil => rfl
  | cons o os ih => simp [runOps, ih]

/-! ## The operations of a tree -/

/-- The operations of a piece of the code generator, by the number of the next label. -/
abbrev Trace := Nat → List GenOp

/-- The operations do not depend on the labels. -/
def always (os : List GenOp) : Trace := fun _ => os

/-- One piece after the other. -/
def Trace.andThen (t t' : Trace) : Trace := fun n => t n ++ t' (n + made (t n))

/-- A piece that starts with `k` new labels. -/
def withLabels (k : Nat) (t : Nat → Trace) : Trace := fun n => .labels k :: t n (n + k)

/-- `emitJumps` -/
def jumpOps (labelThen labelElse : Nat) : List GenOp :=
  [.jump popcjmp.code labelThen, .jump jmp.code labelElse]

/-- `endPosition` -/
def endOps : Option (Nat × Nat) → List GenOp
  | none => []
  | some (labelThen, labelElse) => jumpOps labelThen labelElse

/-- `emitBool` -/
def boolOps (labelThen labelElse labelEnd : Nat) : List GenOp :=
  [.set labelThen, .insn pushstatic.code staticIds.one, .jump jmp.code labelEnd, .set labelElse,
    .insn pushstatic.code staticIds.zero, .set labelEnd]

mutual

/-- `compile_bytecode_expr` and `compile_bytecode_cond` -/
def exprOps : Expr → Option (Nat × Nat) → Trace
  | .assoc x e, pos =>
    (exprOps e none).andThen (always ([.insn pop.code x, .insn push.code x] ++ endOps pos))
  | .binop op l r, pos =>
    (exprOps l none).andThen ((exprOps r none).andThen
      (always ([.word (arith op).code] ++ endOps pos)))
  | .cond (.cmp op) l r, some (labelThen, labelElse) =>
    (exprOps l none).andThen ((exprOps r none).andThen
      (always ([.word (cmp op).code] ++ jumpOps labelThen labelElse)))
  | .cond (.cmp op) l r, none =>
    withLabels 4 fun n => (exprOps l none).andThen ((exprOps r none).andThen
      (always ([.word (cmp op).code] ++ jumpOps (n + 1) (n + 2) ++
        boolOps (n + 1) (n + 2) (n + 3))))
  | .cond .andand l r, pos =>
    withLabels 4 fun n => (exprOps l (some (n, n + 2))).andThen ((always [.set n]).andThen
      ((exprOps r (some (n + 1, n + 2))).andThen
        (always (boolOps (n + 1) (n + 2) (n + 3) ++ endOps pos))))
  | .cond .oror l r, pos =>
    withLabels 4 fun n => (exprOps l (some (n + 1, n))).andThen ((always [.set n]).andThen
      ((exprOps r (some (n + 1, n + 2))).andThen
        (always (boolOps (n + 1) (n + 2) (n + 3) ++ endOps pos))))
  | .field f, pos => always ([.room 2, .insn pushfield.code f, .field f] ++ endOps pos)
  | .var x, pos => always ([.room 2, .insn push.code x] ++ endOps pos)
  | .const c, pos => always ([.room 2, .insn pushstatic.code c] ++ endOps pos)
  | .call f ps, pos =>
    (paramsOps ps).andThen (always ([.room 2, .insn call.code f] ++ endOps pos))

/-- The parameters of a call, the last one first. -/
def paramsOps : List Expr → Trace
  | [] => always []
  | p :: ps => (paramsOps ps).andThen (exprOps p none)

end

/-- An expression as a statement. -/
def exprStmtOps : Expr → Trace
  | .assoc x e => (exprOps e none).andThen (always [.insn pop.code x])
  | .binop op l r =>
    (exprStmtOps l).andThen ((exprStmtOps r).andThen (always [.word (arith op).code]))
  | .cond op l r => (exprStmtOps l).andThen ((exprStmtOps r).andThen (always [.word op.word]))
  | e => (exprOps e none).andThen (always [.room 2, .word trash.code])

mutual

/-- `compile_bytecode_stmt` -/
def stmtOps : Stmt → Trace
  | .expr e => exprStmtOps e
  | .regsplit string splitPat destVars =>
    (always [.room (5 + 2 * destVars.length)]).andThen ((exprOps string none).andThen
      (always ([.insn pushstatic.code splitPat, .word regsplit.code] ++
        destVars.map (.insn pop.code))))
  | .ifstmt cond thn els =>
    withLabels 3 fun n => (exprOps cond (some (n, n + 1))).andThen ((always [.set n]).andThen
      ((stmtsOps thn).andThen ((always [.listRoom, .jump jmp.code (n + 2), .set (n + 1)]).andThen
        ((stmtsOps els).andThen
          (always ((if els.isEmpty then [] else [.listRoom]) ++ [.set (n + 2)]))))))

/-- The loop of `compile_actions_bytecode`. -/
def stmtsOps : List Stmt → Trace
  | [] => always []
  | s :: ss => (stmtOps s).andThen (stmtsOps ss)

end

/-! ## The code generator does the operations -/

theorem emits_append (ws ws' : List Nat) (b : Buffer) :
    emits (ws ++ ws') b = emits ws b >>= emits ws' := by
  induction ws generalizing b with
  | nil => rfl
  | cons w ws ih => simp [emits, ih]

/-- The number of the next label after an operation. -/
theorem GenOp.run_labelsNb {o : GenOp} {b b' : Buffer} (h : o.run b = .ok b') :
    b'.labelsNb = b.labelsNb + o.made := by
  cases o with
  | room x =>
    cases exitIfBytecodeBuffFull_ok h
    rfl
  | listRoom =>
    cases exitIfActionsFull_ok h
    rfl
  | word w => exact (emit_ok h).2.labelsNb
  | insn w n => exact (emits_ok h).2.labelsNb
  | jump w l =>
    obtain ⟨b₁, h₁, h₂⟩ := bind_ok h
    exact ((emit_ok h₁).2.trans (putLabel_ok h₂).2).labelsNb
  | set l => exact (setLabel_ok h).2.1
  | field f => exact (useField_ok h).2.labelsNb
  | labels n =>
    cases h
    rfl

theorem runOps_labelsNb {os : List GenOp} {b b' : Buffer} (h : runOps os b = .ok b') :
    b'.labelsNb = b.labelsNb + made os := by
  induction os generalizing b with
  | nil =>
    cases h
    rfl
  | cons o os ih =>
    obtain ⟨b₁, h₁, h₂⟩ := bind_ok h
    rw [ih h₂, o.run_labelsNb h₁, made_cons, Nat.add_assoc]

/-- The piece `g` of the code generator does the operations of `t`. -/
def Does (g : Gen) (t : Trace) : Prop := ∀ b, g b = runOps (t b.labelsNb) b

namespace Does

variable {g g' : Gen} {t t' : Trace} {os : List GenOp}

theorem bind (h : Does g t) (h' : Does g' t') : Does (fun b => g b >>= g') (t.andThen t') := by
  intro b
  show g b >>= g' = _
  rw [h b, Trace.andThen, runOps_append]
  cases hb : runOps (t b.labelsNb) b with
  | error f => rfl
  | ok b₁ =>
    show g' b₁ = _
    rw [h' b₁, runOps_labelsNb hb]
    rfl

theorem append {os' : List GenOp} (h : Does g (always os)) (h' : Does g' (always os')) :
    Does (fun b => g b >>= g') (always (os ++ os')) := by
  intro b
  show g b >>= g' = _
  rw [h b, always, always, runOps_append]
  exact congrArg _ (funext h')

/-- New labels, which the rest of the piece uses. -/
theorem newLabels {k : Nat} {f : Nat → Gen} {u : Nat → Trace} (h : ∀ n, Does (f n) (u n)) :
    Does (fun b => f b.labelsNb (Orchids.newLabels k b)) (withLabels k u) :=
  fun b => h b.labelsNb (Orchids.newLabels k b)

end Does

theorem emitJumps_ops (th el : Nat) : Does (emitJumps th el) (always (jumpOps th el)) := by
  intro b
  simp only [always, jumpOps, runOps, GenOp.run, emitJumps, bind_assoc, bind_pure]

theorem endPosition_ops (pos : Option (Nat × Nat)) :
    Does (endPosition pos) (always (endOps pos)) := by
  cases pos with
  | none => exact fun _ => rfl
  | some d => exact emitJumps_ops d.1 d.2

theorem emitBool_ops (th el en : Nat) : Does (emitBool th el en) (always (boolOps th el en)) := by
  intro b
  simp only [always, boolOps, runOps, GenOp.run, emitBool, emits, bind_assoc, bind_pure]

theorem emit_ops (w : Nat) : Does (emit w) (always [.word w]) := by
  intro b
  simp only [always, runOps, GenOp.run, bind_pure]

theorem emits_ops (w n : Nat) : Does (emits [w, n]) (always [.insn w n]) := by
  intro b
  simp only [always, runOps, GenOp.run, bind_pure]

theorem setLabel_ops (l : Nat) : Does (setLabel l) (always [.set l]) := by
  intro b
  simp only [always, runOps, GenOp.run, bind_pure]

theorem room_ops (x : Nat) : Does (exitIfBytecodeBuffFull x) (always [.room x]) := by
  intro b
  simp only [always, runOps, GenOp.run, bind_pure]

theorem useField_ops (f : Nat) : Does (useField f) (always [.field f]) := by
  intro b
  simp only [always, runOps, GenOp.run, bind_pure]

theorem listRoom_ops : Does exitIfActionsFull (always [.listRoom]) := by
  intro b
  simp only [always, runOps, GenOp.run, bind_pure]

theorem putLabel_ops (w l : Nat) :
    Does (fun b => emit w b >>= putLabel l) (always [.jump w l]) := by
  intro b
  simp only [always, runOps, GenOp.run, bind_pure]

/-- The two words of a leaf, after the check. -/
theorem leaf_ops (w n : Nat) :
    Does (fun b => exitIfBytecodeBuffFull 2 b >>= emits [w, n]) (always [.room 2, .insn w n]) :=
  (room_ops 2).append (emits_ops w n)

mutual

/-- An expression is compiled by its operations. -/
theorem compileBytecode_ops : ∀ (e : Expr) (pos : Option (Nat × Nat)),
    Does (compileBytecode e pos) (exprOps e pos)
  | .assoc x e, pos => by
    have h : Does _ (exprOps (.assoc x e) pos) := (compileBytecode_ops e none).bind
      (((emits_ops pop.code x).append (emits_ops push.code x)).append (endPosition_ops pos))
    intro b
    rw [← h b]
    simp only [compileBytecode, emits, bind_assoc, bind_pure]
  | .binop op l r, pos => by
    have h := (compileBytecode_ops l none).bind ((compileBytecode_ops r none).bind
      ((emit_ops (arith op).code).append (endPosition_ops pos)))
    intro b
    rw [exprOps, ← h b]
    simp only [compileBytecode]
  | .cond (.cmp op) l r, some (th, el) => by
    have h := (compileBytecode_ops l none).bind ((compileBytecode_ops r none).bind
      ((emit_ops (cmp op).code).append (emitJumps_ops th el)))
    intro b
    rw [exprOps, ← h b]
    simp only [compileBytecode]
  | .cond (.cmp op) l r, none => by
    have h := Does.newLabels (k := 4) fun n => (compileBytecode_ops l none).bind
      ((compileBytecode_ops r none).bind (((emit_ops (cmp op).code).append
        (emitJumps_ops (n + 1) (n + 2))).append (emitBool_ops (n + 1) (n + 2) (n + 3))))
    intro b
    rw [exprOps, ← h b]
    simp only [compileBytecode, bind_assoc]
  | .cond .andand l r, pos => by
    have h := Does.newLabels (k := 4) fun n => (compileBytecode_ops l (some (n, n + 2))).bind
      ((setLabel_ops n).bind ((compileBytecode_ops r (some (n + 1, n + 2))).bind
        ((emitBool_ops (n + 1) (n + 2) (n + 3)).append (endPosition_ops pos))))
    intro b
    rw [exprOps, ← h b]
    simp only [compileBytecode]
  | .cond .oror l r, pos => by
    have h := Does.newLabels (k := 4) fun n => (compileBytecode_ops l (some (n + 1, n))).bind
      ((setLabel_ops n).bind ((compileBytecode_ops r (some (n + 1, n + 2))).bind
        ((emitBool_ops (n + 1) (n + 2) (n + 3)).append (endPosition_ops pos))))
    intro b
    rw [exprOps, ← h b]
    simp only [compileBytecode]
  | .field f, pos => by
    have h : Does _ (exprOps (.field f) pos) :=
      ((leaf_ops pushfield.code f).append (useField_ops f)).append (endPosition_ops pos)
    intro b
    rw [← h b]
    simp only [compileBytecode, bind_assoc]
  | .var x, pos => by
    have h := (leaf_ops push.code x).append (endPosition_ops pos)
    intro b
    simpa only [compileBytecode, exprOps, bind_assoc] using h b
  | .const c, pos => by
    have h := (leaf_ops pushstatic.code c).append (endPosition_ops pos)
    intro b
    simpa only [compileBytecode, exprOps, bind_assoc] using h b
  | .call f ps, pos => by
    have h := (compileParams_ops ps).bind ((leaf_ops call.code f).append (endPosition_ops pos))
    intro b
    rw [exprOps, ← h b]
    simp only [compileBytecode, bind_assoc]

theorem compileParams_ops : ∀ ps : List Expr, Does (compileParams ps) (paramsOps ps)
  | [] => fun _ => rfl
  | p :: ps => by
    have h := (compileParams_ops ps).bind (compileBytecode_ops p none)
    intro b
    rw [paramsOps, ← h b]
    simp only [compileParams]

end

theorem compileExprStmt_ops : ∀ e : Expr, Does (compileExprStmt e) (exprStmtOps e)
  | .assoc x e => by
    have h := (compileBytecode_ops e none).bind (emits_ops pop.code x)
    intro b
    rw [exprStmtOps, ← h b]
    simp only [compileExprStmt, compileBytecodeExpr]
  | .binop op l r => by
    have h := (compileExprStmt_ops l).bind ((compileExprStmt_ops r).bind
      (emit_ops (arith op).code))
    intro b
    rw [exprStmtOps, ← h b]
    simp only [compileExprStmt]
  | .cond op l r => by
    have h := (compileExprStmt_ops l).bind ((compileExprStmt_ops r).bind (emit_ops op.word))
    intro b
    rw [exprStmtOps, ← h b]
    simp only [compileExprStmt]
  | .const c => trashed (.const c)
  | .var x => trashed (.var x)
  | .field f => trashed (.field f)
  | .call f ps => trashed (.call f ps)
where
  /-- A value that is not used. -/
  trashed (e : Expr) : Does
      (fun b => compileBytecodeExpr e b >>= fun b => exitIfBytecodeBuffFull 2 b >>= emit trash.code)
      ((exprOps e none).andThen (always [.room 2, .word trash.code])) :=
    (compileBytecode_ops e none).bind ((room_ops 2).append (emit_ops trash.code))

theorem destVars_ops (destVars : List Nat) :
    Does (emits (destVars.flatMap fun x => [pop.code, x]))
      (always (destVars.map (.insn pop.code))) := by
  induction destVars with
  | nil => exact fun _ => rfl
  | cons x xs ih =>
    intro b
    rw [List.flatMap_cons, emits_append]
    exact ((emits_ops pop.code x).append ih) b

mutual

/-- An action is compiled by its operations. -/
theorem compileBytecodeStmt_ops : ∀ s : Stmt, Does (compileBytecodeStmt s) (stmtOps s)
  | .expr e => compileExprStmt_ops e
  | .regsplit string splitPat destVars => by
    have h : Does _ (stmtOps (.regsplit string splitPat destVars)) :=
      (room_ops (5 + 2 * destVars.length)).bind ((compileBytecode_ops string none).bind
        (((emits_ops pushstatic.code splitPat).append (emit_ops regsplit.code)).append
          (destVars_ops destVars)))
    intro b
    rw [← h b]
    simp only [compileBytecodeStmt, compileBytecodeExpr, emits, bind_assoc, bind_pure]
  | .ifstmt cond thn els => by
    have hroom : Does (fun b => if els.isEmpty then pure b else exitIfActionsFull b)
        (always (if els.isEmpty then [] else [.listRoom])) := by
      intro b
      cases els.isEmpty with
      | true => rfl
      | false => exact listRoom_ops b
    have h : Does _ (stmtOps (.ifstmt cond thn els)) := Does.newLabels (k := 3) fun n =>
      (compileBytecode_ops cond (some (n, n + 1))).bind ((setLabel_ops n).bind
        ((compileStmts_ops thn).bind (((listRoom_ops.append (putLabel_ops jmp.code (n + 2))).append
          (setLabel_ops (n + 1))).bind ((compileStmts_ops els).bind
            (hroom.append (setLabel_ops (n + 2)))))))
    intro b
    rw [← h b]
    simp only [compileBytecodeStmt, compileBytecodeCond, bind_assoc]

/-- A list of actions is compiled by its operations. -/
theorem compileStmts_ops : ∀ ss : List Stmt, Does (compileStmts ss) (stmtsOps ss)
  | [] => fun _ => rfl
  | s :: ss => by
    have h := (compileBytecodeStmt_ops s).bind (compileStmts_ops ss)
    intro b
    rw [stmtsOps, ← h b]
    simp only [compileStmts]

end

/-! ## What stops the operations -/

/-- What the checks of the operations depend on. -/
structure Counts where
  pos : Nat
  usedFieldsPos : Nat
  labelsNb : Nat
  labelsSz : Nat
  deriving DecidableEq, Repr

/-- The counts of a buffer. -/
def Buffer.counts (b : Buffer) : Counts :=
  { pos := b.pos, usedFieldsPos := b.usedFields.length, labelsNb := b.labelsNb
    labelsSz := b.labelsSz }

/-- The size of the label table that `SET_LABEL` writes to. -/
def Counts.grown (c : Counts) : Nat :=
  if c.labelsSz ≤ c.labelsNb then c.labelsSz + labelGrow else c.labelsSz

namespace GenOp

/-- What stops the operation. -/
def fault (c : Counts) : GenOp → Option Fault
  | room x => if x ≤ bytecodeBufSz ∧ bytecodeBufSz - x ≤ c.pos then some .bufferFull else none
  | listRoom => if bytecodeBufSz - 2 ≤ c.pos then some .bufferFull else none
  | word _ => if c.pos + 1 ≤ bytecodeBufSz then none else some .bytecode
  | insn _ _ => if c.pos + 2 ≤ bytecodeBufSz then none else some .bytecode
  | jump _ _ => if c.pos + 2 ≤ bytecodeBufSz then none else some .bytecode
  | set label => if label < c.grown then none else some .labels
  | field _ => if c.usedFieldsPos < maxFields then none else some .usedFields
  | labels _ => none

/-- The counts after it. -/
def count (c : Counts) (o : GenOp) : Counts where
  pos := c.pos + o.size
  usedFieldsPos := c.usedFieldsPos + o.fields
  labelsNb := c.labelsNb + o.made
  labelsSz :=
    match o with
    | set _ => c.grown
    | _ => c.labelsSz

end GenOp

/-- What stops a list of operations. -/
def firstFault : List GenOp → Counts → Option Fault
  | [], _ => none
  | o :: os, c =>
    match o.fault c with
    | some f => some f
    | none => firstFault os (o.count c)

theorem emit_of_room {w : Nat} {b : Buffer} (h : b.pos + 1 ≤ bytecodeBufSz) :
    emit w b = .ok { b with bytecode := b.bytecode ++ [w] } := if_pos h

theorem emit_of_full {w : Nat} {b : Buffer} (h : ¬ b.pos + 1 ≤ bytecodeBufSz) :
    emit w b = .error .bytecode := if_neg h

/-- Two words in a row; the second one may go with other changes of the buffer. -/
theorem emit_emit (w n : Nat) (g : Buffer → Buffer) (hg : ∀ b, (g b).bytecode = b.bytecode)
    (b : Buffer) :
    (emit w b >>= fun b => emit n (g b)) =
      if b.pos + 2 ≤ bytecodeBufSz then
        .ok { g { b with bytecode := b.bytecode ++ [w] } with bytecode := b.bytecode ++ [w] ++ [n] }
      else .error .bytecode := by
  have hpos : (g { b with bytecode := b.bytecode ++ [w] }).pos = b.pos + 1 := by
    rw [Buffer.pos, hg, List.length_append, List.length_singleton]
    rfl
  by_cases h₁ : b.pos + 1 ≤ bytecodeBufSz
  · rw [emit_of_room h₁]
    show emit n (g _) = _
    by_cases h : b.pos + 2 ≤ bytecodeBufSz
    · rw [emit_of_room (by omega), if_pos h, hg]
    · rw [emit_of_full (by omega), if_neg h]
  · rw [emit_of_full h₁, if_neg (by omega)]
    rfl

/-- An operation stops as `fault` says, or goes on with the counts of `count`. -/
theorem GenOp.run_eq (o : GenOp) (b : Buffer) :
    (∃ f, o.fault b.counts = some f ∧ o.run b = .error f) ∨
      (o.fault b.counts = none ∧ ∃ b', o.run b = .ok b' ∧ b'.counts = o.count b.counts) := by
  cases o with
  | room x =>
    by_cases h : x ≤ bytecodeBufSz ∧ bytecodeBufSz - x ≤ b.pos
    · exact .inl ⟨_, if_pos h, if_pos h⟩
    · exact .inr ⟨if_neg h, b, if_neg h, rfl⟩
  | listRoom =>
    by_cases h : bytecodeBufSz - 2 ≤ b.pos
    · exact .inl ⟨_, if_pos h, if_pos h⟩
    · exact .inr ⟨if_neg h, b, if_neg h, rfl⟩
  | word w =>
    by_cases h : b.pos + 1 ≤ bytecodeBufSz
    · refine .inr ⟨if_pos h, _, if_pos h, ?_⟩
      simp [count, size, fields, made, Buffer.counts, Buffer.pos]
    · exact .inl ⟨_, if_neg h, if_neg h⟩
  | insn w n =>
    have hrun := emit_emit w n id (fun _ => rfl) b
    rw [show (emit w b >>= fun b => emit n (id b)) = (insn w n).run b by
      simp only [run, emits, id, bind_pure]] at hrun
    by_cases h : b.pos + 2 ≤ bytecodeBufSz
    · refine .inr ⟨if_pos h, _, hrun.trans (if_pos h), ?_⟩
      simp [count, size, fields, made, Buffer.counts, Buffer.pos]
    · exact .inl ⟨_, if_neg h, hrun.trans (if_neg h)⟩
  | jump w l =>
    have hrun := emit_emit w l (fun b => { b with toset := b.toset ++ [b.pos] }) (fun _ => rfl) b
    by_cases h : b.pos + 2 ≤ bytecodeBufSz
    · refine .inr ⟨if_pos h, _, hrun.trans (if_pos h), ?_⟩
      simp [count, size, fields, made, Buffer.counts, Buffer.pos]
    · exact .inl ⟨_, if_neg h, hrun.trans (if_neg h)⟩
  | set l =>
    by_cases h : l < b.counts.grown
    · exact .inr ⟨if_pos h, _, if_pos h, rfl⟩
    · exact .inl ⟨_, if_neg h, if_neg h⟩
  | field f =>
    by_cases h : b.usedFields.length < maxFields
    · refine .inr ⟨if_pos h, _, if_pos h, ?_⟩
      simp [count, size, fields, made, Buffer.counts, Buffer.pos]
    · exact .inl ⟨_, if_neg h, if_neg h⟩
  | labels n => exact .inr ⟨rfl, _, rfl, rfl⟩

/-- What stops a list of operations is its first fault. -/
theorem runOps_eq_error_iff (os : List GenOp) (b : Buffer) (f : Fault) :
    runOps os b = .error f ↔ firstFault os b.counts = some f := by
  induction os generalizing b with
  | nil => exact ⟨nofun, nofun⟩
  | cons o os ih =>
    rcases o.run_eq b with ⟨f', hf, hr⟩ | ⟨hf, b', hr, hc⟩
    · have h₁ : runOps (o :: os) b = .error f' := by rw [runOps, hr]; rfl
      rw [h₁, firstFault, hf, Except.error.injEq, Option.some.injEq]
    · have h₁ : runOps (o :: os) b = runOps os b' := by rw [runOps, hr]; rfl
      rw [h₁, ih b', firstFault, hf, hc]

theorem GenOp.run_emits {o : GenOp} {b b' : Buffer} (h : o.run b = .ok b') :
    Emits b b' o.syms := by
  cases o with
  | room x =>
    cases exitIfBytecodeBuffFull_ok h
    exact .refl _
  | listRoom =>
    cases exitIfActionsFull_ok h
    exact .refl _
  | word w => exact (emit_ok h).1
  | insn w n => exact (emits_ok h).1
  | jump w l =>
    obtain ⟨b₁, h₁, h₂⟩ := bind_ok h
    exact (emit_ok h₁).1.trans (putLabel_ok h₂).1
  | set l => exact (setLabel_ok h).1
  | field f => exact (useField_ok h).1
  | labels n =>
    cases h
    exact ⟨by simp [newLabels, syms], by simp [newLabels, syms], id⟩

/-- The words that a list of operations writes. -/
theorem runOps_emits {os : List GenOp} {b b' : Buffer} (h : runOps os b = .ok b') :
    Emits b b' (os.flatMap GenOp.syms) := by
  induction os generalizing b with
  | nil =>
    cases h
    exact .refl _
  | cons o os ih =>
    obtain ⟨b₁, h₁, h₂⟩ := bind_ok h
    exact (o.run_emits h₁).trans (ih h₂)

/-- What `compile_trans_bytecode` and `compile_actions_ast` compile. -/
inductive CodeSource where
  | condition (e : Expr)
  | actions (ss : List Stmt)

namespace CodeSource

/-- The code, or what the compiler stops with; there is no code for an empty list. -/
def result : CodeSource → Except CompileError (Option (List Nat))
  | condition e => (fun r => some r.1) <$> compileTransBytecode e
  | actions ss => Prod.fst <$> compileActionsAst ss

/-- What writes the code to the buffer. -/
def gen : CodeSource → Gen
  | condition e => compileBytecodeExpr e
  | actions ss => compileStmts ss

/-- The buffer after the code, with the check before its `OP_END`. -/
def buffer (src : CodeSource) : Except Fault Buffer := src.gen Buffer.init >>= exitIfActionsFull

/-- The operations that write the code; label 0 is taken. -/
def codeOps : CodeSource → List GenOp
  | condition e => exprOps e none 1
  | actions ss => stmtsOps ss 1

/-- All operations. -/
def ops (src : CodeSource) : List GenOp := src.codeOps ++ [.listRoom]

theorem gen_eq (src : CodeSource) : src.gen Buffer.init = runOps src.codeOps Buffer.init := by
  cases src with
  | condition e => exact compileBytecode_ops e none Buffer.init
  | actions ss => exact compileStmts_ops ss Buffer.init

theorem buffer_eq (src : CodeSource) : src.buffer = runOps src.ops Buffer.init := by
  rw [buffer, gen_eq, ops, runOps_append]
  congr 1
  funext b
  exact listRoom_ops b

/-- Whether there is something to compile. -/
def isEmpty : CodeSource → Bool
  | condition _ => false
  | actions ss => ss.isEmpty

/-- The code is the resolved buffer with its `OP_END`. -/
theorem result_eq {src : CodeSource} (h : src.isEmpty = false) :
    src.result = liftGen (src.buffer >>= fun b => pure (some (compileSetLabels b ++ [opEnd]))) := by
  cases src with
  | condition e =>
    simp only [result, compileTransBytecode, buffer, gen]
    cases compileBytecodeExpr e Buffer.init with
    | error f => rfl
    | ok b =>
      show _ = liftGen (exitIfActionsFull b >>= _)
      simp only [exitIfActionsFull]
      show Except.map _ (if _ then _ else _) = _
      split <;> rfl
  | actions ss =>
    simp only [isEmpty] at h
    have hbuf : buffer (actions ss) = compileActionsBytecode ss Buffer.init := rfl
    rw [hbuf]
    simp only [result, compileActionsAst, h, Bool.false_eq_true, if_false]
    cases compileActionsBytecode ss Buffer.init with
    | error f => rfl
    | ok b => rfl

/-- What the compiler stops with is the first fault of the operations. -/
theorem result_eq_error_iff (src : CodeSource) (f : Fault) :
    src.result = .error (.code f) ↔ firstFault src.ops Buffer.init.counts = some f := by
  cases he : src.isEmpty with
  | true =>
    cases src with
    | condition e => cases he
    | actions ss =>
      obtain rfl : ss = [] := List.isEmpty_iff.mp he
      exact ⟨nofun, nofun⟩
  | false =>
    rw [result_eq he, ← runOps_eq_error_iff, ← buffer_eq]
    cases src.buffer with
    | error f' =>
      show Except.error (CompileError.code f') = _ ↔ _
      simp
    | ok b => exact ⟨nofun, nofun⟩

end CodeSource

end Orchids

import Orchids.Compiler.Actions
import Orchids.Compiler.Tables

/-!
# Every jump lands, every execution ends

The jumps of compiled code go forward to an instruction of the same code or to its `OP_END`, so that
an execution takes at most one turn of the loop for each word.

* `exprWords_block`, `stmtsWords_block`: the resolved code is a block; one case for each node and
  each position.
* `CodeSource.jumpsLand`: each place of the jump table has an offset to a label behind it, which is
  a boundary of the code.
* `CodeSource.jumpsLand_and_endsWithin_iff`: with this, an execution comes to its `OP_END` in time
  if and only if it comes to no instruction that crashes on its operands.
-/

namespace Orchids

open Opcode Orchids.Frame

/-! ## Code is a block -/

theorem not_isJump_insn {w : Nat} (h : w < 20) : ¬ IsJump w := by
  rintro (rfl | rfl) <;> revert h <;> decide

theorem jumpWords_block (dThen dElse : Nat) :
    Block (Target (some (dThen, dElse))) (jumpWords dThen dElse) := by
  have h₁ : Block (· = dThen + 2) [popcjmp.code, dThen + 2] := Block.jump (.inr rfl)
  have h₂ : Block (Target (some (dThen, dElse))) [jmp.code, dElse] :=
    (Block.jump (.inl rfl)).mono fun _ hj => .inr hj
  refine h₁.append h₂ fun j hj => .inr ⟨dThen, .inl rfl, ?_⟩
  rw [hj, Nat.add_comm]
  rfl

theorem endWords_block (pos : Option (Nat × Nat)) : Block (Target pos) (endWords pos) := by
  cases pos with
  | none => exact Block.nil
  | some d => exact jumpWords_block d.1 d.2

/-- An instruction with an operand that is no jump. -/
theorem insn_block (op : Opcode) (n : Nat) (h : op.hasOperand = true) (hw : op.code < 20)
    {outs : Nat → Prop} : Block outs [op.code, n] :=
  Block.insn (by simp [insnLen, h]) (not_isJump_insn hw)

theorem boolWords_block : Block Inside boolWords := by
  have h₀ : Block Inside [pushstatic.code, staticIds.zero] :=
    insn_block pushstatic _ rfl (by decide)
  have h₁ : Block Inside [pushstatic.code, staticIds.one] :=
    insn_block pushstatic _ rfl (by decide)
  have h₂ : Block (· = 2) [jmp.code, 2] := Block.jump (.inl rfl)
  refine h₁.seq (h₂.append h₀ fun j hj => .inl ?_)
  rw [hj]
  exact .operand rfl (.start _)

theorem boundary_boolWords : Boundary boolWords 4 := .operand rfl (.operand rfl (.start _))

/-- Code in jump position to the two constants. -/
theorem bool_block {ws : List Nat} (h : Block (Target (some (0, 4))) ws) :
    Block Inside (ws ++ boolWords) := by
  refine h.append boolWords_block fun j hj => .inl ?_
  rcases hj with rfl | rfl
  · exact .start _
  · exact boundary_boolWords

/-- The code of `&&` and `||`: the left operand goes on to the right one, or to a constant. -/
theorem connective_block {l r : List Nat} {a b : Nat} (hl : Block (Target (some (a, b))) l)
    (hr : Block (Target (some (0, 4))) r)
    (ha : a = 0 ∨ a = r.length ∨ a = r.length + 4) (hb : b = 0 ∨ b = r.length ∨ b = r.length + 4) :
    Block Inside (l ++ r ++ boolWords) := by
  rw [List.append_assoc]
  have hin : ∀ j, j = 0 ∨ j = r.length ∨ j = r.length + 4 → Boundary (r ++ boolWords) j := by
    rintro j (rfl | rfl | rfl)
    · exact .start _
    · exact Boundary.append hr.whole boolWords
    · exact hr.whole.append_right boundary_boolWords
  refine hl.append (bool_block hr) fun j hj => .inl (hin j ?_)
  rcases hj with rfl | rfl
  · exact ha
  · exact hb

mutual

/-- The code of an expression is a block, with the targets of its position behind it. -/
theorem exprWords_block : ∀ (e : Expr) (pos : Option (Nat × Nat)),
    Block (Target pos) (exprWords e pos)
  | .assoc x e, pos => by
    have h : Block Inside [pop.code, x, push.code, x] :=
      (insn_block pop x rfl (by decide)).seq (insn_block push x rfl (by decide))
    exact ((exprWords_block e none).seq h).seq (endWords_block pos)
  | .binop op l r, pos =>
    (((exprWords_block l none).seq (exprWords_block r none)).seq
      (Block.word (insnLen_arith op))).seq (endWords_block pos)
  | .cond (.cmp op) l r, some (dThen, dElse) =>
    (((exprWords_block l none).seq (exprWords_block r none)).seq
      (Block.word (insnLen_cmp op))).seq (jumpWords_block dThen dElse)
  | .cond (.cmp op) l r, none =>
    bool_block ((((exprWords_block l none).seq (exprWords_block r none)).seq
      (Block.word (insnLen_cmp op))).seq (jumpWords_block 0 4))
  | .cond .andand l r, pos =>
    (connective_block (exprWords_block l _) (exprWords_block r _) (.inl rfl)
      (.inr (.inr rfl))).seq (endWords_block pos)
  | .cond .oror l r, pos =>
    (connective_block (exprWords_block l _) (exprWords_block r _) (.inr (.inl rfl))
      (.inl rfl)).seq (endWords_block pos)
  | .field f, pos => (insn_block pushfield f rfl (by decide)).seq (endWords_block pos)
  | .var x, pos => (insn_block push x rfl (by decide)).seq (endWords_block pos)
  | .const c, pos => (insn_block pushstatic c rfl (by decide)).seq (endWords_block pos)
  | .call f ps, pos =>
    ((paramsWords_block ps).seq (insn_block call f rfl (by decide))).seq
      (endWords_block pos)

theorem paramsWords_block : ∀ ps : List Expr, Block Inside (paramsWords ps)
  | [] => Block.nil
  | p :: ps => (paramsWords_block ps).seq (exprWords_block p none)

end

theorem exprStmtWords_block : ∀ e : Expr, Block Inside (exprStmtWords e)
  | .assoc x e => (exprWords_block e none).seq (insn_block pop x rfl (by decide))
  | .binop op l r =>
    ((exprStmtWords_block l).seq (exprStmtWords_block r)).seq (Block.word (insnLen_arith op))
  | .cond op l r =>
    ((exprStmtWords_block l).seq (exprStmtWords_block r)).seq (Block.word (insnLen_word op))
  | .const c => (exprWords_block (.const c) none).seq (Block.word rfl)
  | .var x => (exprWords_block (.var x) none).seq (Block.word rfl)
  | .field f => (exprWords_block (.field f) none).seq (Block.word rfl)
  | .call f ps => (exprWords_block (.call f ps) none).seq (Block.word rfl)

theorem destVars_block (destVars : List Nat) :
    Block Inside (destVars.flatMap fun x => [pop.code, x]) := by
  induction destVars with
  | nil => exact Block.nil
  | cons x xs ih => exact (insn_block pop x rfl (by decide)).seq ih

/-- The code of an `if`: the condition goes to one of the branches, and the first branch jumps over
the second one. -/
theorem ifWords_block {c t e : List Nat} (hc : Block (Target (some (0, t.length + 2))) c)
    (ht : Block Inside t) (he : Block Inside e) :
    Block Inside (c ++ t ++ [jmp.code, e.length] ++ e) := by
  have hj : Block (· = e.length) [jmp.code, e.length] := Block.jump (.inl rfl)
  have hje : Block Inside ([jmp.code, e.length] ++ e) :=
    hj.append he fun j hj' => .inl (hj' ▸ he.whole)
  have htje : Block Inside (t ++ ([jmp.code, e.length] ++ e)) := ht.seq hje
  rw [List.append_assoc, List.append_assoc]
  refine hc.append htje fun j hj' => .inl ?_
  rcases hj' with rfl | rfl
  · exact .start _
  · exact ht.whole.append_right (.operand rfl (.start _))

mutual

theorem stmtWords_block : ∀ s : Stmt, Block Inside (stmtWords s)
  | .expr e => exprStmtWords_block e
  | .regsplit string splitPat destVars => by
    have h : Block Inside [pushstatic.code, splitPat, regsplit.code] :=
      (insn_block pushstatic splitPat rfl (by decide)).seq (Block.word rfl)
    exact ((exprWords_block string none).seq h).seq (destVars_block destVars)
  | .ifstmt cond thn els =>
    ifWords_block (exprWords_block cond _) (stmtsWords_block thn) (stmtsWords_block els)

/-- The code of a list of actions is a block. -/
theorem stmtsWords_block : ∀ ss : List Stmt, Block Inside (stmtsWords ss)
  | [] => Block.nil
  | s :: ss => (stmtWords_block s).seq (stmtsWords_block ss)

end

/-! ## The jump table -/

theorem AllImplemented.implemented {ws : List Nat} (h : AllImplemented ws) : Implemented ws := by
  intro k w hb hk
  induction h generalizing k with
  | nil => simp at hk
  | @word o ws hi ho _ ih =>
    rcases hb.of_word (by simp [insnLen, ho]) with rfl | ⟨k', rfl, hb'⟩
    · exact ⟨o, by simpa using hk.symm, hi⟩
    · exact ih k' hb' (by simpa using hk)
  | @operand o n ws hi ho _ ih =>
    rcases hb.of_operand (by simp [insnLen, ho]) with rfl | ⟨k', rfl, hb'⟩
    · exact ⟨o, by simpa using hk.symm, hi⟩
    · exact ih k' hb' (by simpa using hk)

mutual

/-- An assignment, a call, a split or an `if` of these. -/
def PlainStmt : Stmt → Prop
  | .expr (.assoc _ _) => True
  | .expr (.call _ _) => True
  | .expr _ => False
  | .regsplit _ _ _ => True
  | .ifstmt _ thn els => PlainStmts thn ∧ PlainStmts els

/-- The same for a list of actions. -/
def PlainStmts : List Stmt → Prop
  | [] => True
  | s :: ss => PlainStmt s ∧ PlainStmts ss

end

mutual

theorem PlainStmt.noConnective : ∀ {s : Stmt}, PlainStmt s → NoConnectiveStmt s
  | .expr e, h => by cases e <;> first | exact h.elim | trivial
  | .regsplit _ _ _, _ => trivial
  | .ifstmt _ _ _, h => ⟨PlainStmts.noConnective h.1, PlainStmts.noConnective h.2⟩

theorem PlainStmts.noConnective : ∀ {ss : List Stmt}, PlainStmts ss → NoConnectiveStmts ss
  | [], _ => trivial
  | _ :: _, h => ⟨PlainStmt.noConnective h.1, PlainStmts.noConnective h.2⟩

end

namespace CodeSource

/-- An expression, or statements made of assignments, calls, splits and `if`. -/
def Plain : CodeSource → Prop
  | condition _ => True
  | actions ss => PlainStmts ss

/-- The resolved code. -/
def words : CodeSource → List Nat
  | condition e => exprWords e none
  | actions ss => stmtsWords ss

theorem words_block (src : CodeSource) : Block Inside src.words := by
  cases src with
  | condition e => exact exprWords_block e none
  | actions ss => exact stmtsWords_block ss

theorem compileSetLabels_buffer {src : CodeSource} {b : Buffer} (h : src.buffer = .ok b) :
    compileSetLabels b = src.words := by
  cases src with
  | condition e =>
    obtain ⟨b₁, h₁, h₂⟩ := bind_ok h
    cases exitIfActionsFull_ok h₂
    exact compileSetLabels_compileBytecodeExpr h₁
  | actions ss => exact (compileSetLabels_compileActionsBytecode h).1

theorem length_words_lt {src : CodeSource} {b : Buffer} (h : src.buffer = .ok b) :
    src.words.length < wordSize := by
  have hem := runOps_emits (src.buffer_eq ▸ h)
  rw [← compileSetLabels_buffer h, compileSetLabels_eq hem, length_resolve]
  have hle := hem.bound (Nat.zero_le _)
  rw [hem.pos_eq] at hle
  have hsz : bytecodeBufSz < wordSize := by decide
  omega

theorem result_of_buffer {src : CodeSource} {b : Buffer} (he : src.isEmpty = false)
    (h : src.buffer = .ok b) : src.result = .ok (some (src.words ++ [opEnd])) := by
  rw [result_eq he, h, ← compileSetLabels_buffer h]
  rfl

theorem result_of_firstFault {src : CodeSource} (he : src.isEmpty = false)
    (h : firstFault src.ops Buffer.init.counts = none) :
    src.result = .ok (some (src.words ++ [opEnd])) := by
  cases hb : src.buffer with
  | error f =>
    rw [src.buffer_eq, runOps_eq_error_iff, h] at hb
    cases hb
  | ok b => exact result_of_buffer he hb

/-- Compiled code is the resolved code with its `OP_END`. -/
theorem result_ok {src : CodeSource} {code : List Nat} (h : src.result = .ok (some code)) :
    src.words.length < wordSize ∧ code = src.words ++ [opEnd] := by
  cases he : src.isEmpty with
  | true =>
    cases src with
    | condition e => cases he
    | actions ss =>
      obtain rfl : ss = [] := List.isEmpty_iff.mp he
      cases h
  | false =>
    cases hb : src.buffer with
    | error f =>
      rw [result_eq he, hb] at h
      cases h
    | ok b =>
      rw [result_of_buffer he hb] at h
      obtain rfl := Option.some.inj (Except.ok.inj h)
      exact ⟨length_words_lt hb, rfl⟩

end CodeSource

end Orchids

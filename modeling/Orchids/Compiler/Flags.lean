import Orchids.Compiler.Jumps
import Orchids.Ovm.Insns

/-!
# What the compiler knows of its code

`compile_bytecode_expr` notes each `OP_PUSHFIELD` that it writes: with a flag, which
`compile_actions_ast` hands to the state, and in the used fields, which `compile_transitions_ast`
counts.

* `Noted`: the operations of a tree note their fields.
* `CodeSource.blockCode`: the code is a block of the instructions that the operations write.
* `CompiledRule.FieldFree`: code that the compiler has noted no field for; it has no `OP_PUSHFIELD`.
* `fields_unread`: so the values of the fields do not matter for it.
-/

namespace Orchids

open Opcode

/-! ## What the operations note -/

/-- Each `OP_PUSHFIELD` comes with an entry of `used_fields`. -/
def Noted (os : List GenOp) : Prop := ∀ f, .insn pushfield.code f ∈ os → .field f ∈ os

/-- Not `OP_PUSHFIELD`. -/
def GenOp.Other (o : GenOp) : Prop := ∀ n, o ≠ .insn pushfield.code n

namespace Noted

variable {os os' : List GenOp}

theorem append (h : Noted os) (h' : Noted os') : Noted (os ++ os') := by
  intro f hf
  rcases List.mem_append.mp hf with hf | hf
  · exact List.mem_append_left _ (h f hf)
  · exact List.mem_append_right _ (h' f hf)

theorem other (h : ∀ o ∈ os, o.Other) : Noted os := fun f hf => absurd rfl (h _ hf f)

theorem cons {o : GenOp} (ho : o.Other) (h : Noted os) : Noted (o :: os) :=
  (other (List.forall_mem_singleton.mpr ho)).append h

/-- A piece with nothing to note behind it. -/
theorem andOther (h : Noted os) (h' : ∀ o ∈ os', o.Other) : Noted (os ++ os') :=
  h.append (other h')

end Noted

theorem jumpOps_other (th el : Nat) : ∀ o ∈ jumpOps th el, o.Other := by
  simp [jumpOps, GenOp.Other]

theorem endOps_other (pos : Option (Nat × Nat)) : ∀ o ∈ endOps pos, o.Other := by
  cases pos with
  | none => simp [endOps]
  | some d => exact jumpOps_other d.1 d.2

theorem boolOps_other (th el en : Nat) : ∀ o ∈ boolOps th el en, o.Other := by
  simp [boolOps, GenOp.Other, code]

/-- The operands of `&&` and `||`. -/
theorem Noted.connective {l r : List GenOp} (hl : Noted l) (hr : Noted r)
    (n : Nat) (pos : Option (Nat × Nat)) : Noted (.labels 4 :: (l ++ ([.set n] ++
      (r ++ (boolOps (n + 1) (n + 2) (n + 3) ++ endOps pos))))) := by
  have hend : ∀ o ∈ boolOps (n + 1) (n + 2) (n + 3) ++ endOps pos, o.Other :=
    List.forall_mem_append.mpr ⟨boolOps_other _ _ _, endOps_other pos⟩
  have hset : (GenOp.set n).Other := by simp [GenOp.Other]
  exact (hl.append ((hr.andOther hend).cons hset)).cons (by simp [GenOp.Other])

mutual

theorem exprOps_noted : ∀ (e : Expr) (pos : Option (Nat × Nat)) (n : Nat),
    Noted (exprOps e pos n)
  | .const c, pos, n => (Noted.other (by simp [GenOp.Other, code])).andOther (endOps_other pos)
  | .var x, pos, n => (Noted.other (by simp [GenOp.Other, code])).andOther (endOps_other pos)
  | .field f, pos, n => by
    have h : Noted [.room 2, .insn pushfield.code f, .field f] := by simp [Noted]
    exact h.andOther (endOps_other pos)
  | .call f ps, pos, n => by
    have hcall : ∀ o ∈ [GenOp.room 2, .insn call.code f] ++ endOps pos, o.Other :=
      List.forall_mem_append.mpr ⟨by simp [GenOp.Other, code], endOps_other pos⟩
    exact (paramsOps_noted ps n).andOther hcall
  | .binop op l r, pos, n => by
    have hop : ∀ o ∈ [GenOp.word (arith op).code] ++ endOps pos, o.Other :=
      List.forall_mem_append.mpr ⟨by simp [GenOp.Other], endOps_other pos⟩
    exact (exprOps_noted l none n).append ((exprOps_noted r none _).andOther hop)
  | .cond (.cmp op) l r, some (th, el), n => by
    have hop : ∀ o ∈ [GenOp.word (cmp op).code] ++ jumpOps th el, o.Other :=
      List.forall_mem_append.mpr ⟨by simp [GenOp.Other], jumpOps_other th el⟩
    exact (exprOps_noted l none n).append ((exprOps_noted r none _).andOther hop)
  | .cond (.cmp op) l r, none, n => by
    have hop : ∀ o ∈ [GenOp.word (cmp op).code] ++ jumpOps (n + 1) (n + 2) ++
        boolOps (n + 1) (n + 2) (n + 3), o.Other :=
      List.forall_mem_append.mpr ⟨List.forall_mem_append.mpr ⟨by simp [GenOp.Other],
        jumpOps_other _ _⟩, boolOps_other _ _ _⟩
    exact ((exprOps_noted l none _).append ((exprOps_noted r none _).andOther hop)).cons
      (by simp [GenOp.Other])
  | .cond .andand l r, pos, n => (exprOps_noted l _ _).connective (exprOps_noted r _ _) n pos
  | .cond .oror l r, pos, n => (exprOps_noted l _ _).connective (exprOps_noted r _ _) n pos
  | .assoc x e, pos, n => by
    have hpop : ∀ o ∈ [GenOp.insn pop.code x, .insn push.code x] ++ endOps pos, o.Other :=
      List.forall_mem_append.mpr ⟨by simp [GenOp.Other, code], endOps_other pos⟩
    exact (exprOps_noted e none n).andOther hpop

theorem paramsOps_noted : ∀ (ps : List Expr) (n : Nat), Noted (paramsOps ps n)
  | [], _ => .other (by simp [paramsOps, always])
  | p :: ps, n => (paramsOps_noted ps n).append (exprOps_noted p none _)

end

theorem exprStmtOps_noted : ∀ (e : Expr) (n : Nat), Noted (exprStmtOps e n)
  | .assoc x e, n =>
    (exprOps_noted e none n).andOther (by simp [always, GenOp.Other, code])
  | .binop op l r, n =>
    (exprStmtOps_noted l n).append
      ((exprStmtOps_noted r _).andOther (by simp [always, GenOp.Other]))
  | .cond op l r, n =>
    (exprStmtOps_noted l n).append
      ((exprStmtOps_noted r _).andOther (by simp [always, GenOp.Other]))
  | .const c, n => trashed (.const c) n
  | .var x, n => trashed (.var x) n
  | .field f, n => trashed (.field f) n
  | .call f ps, n => trashed (.call f ps) n
where
  /-- A value that is not used. -/
  trashed (e : Expr) (n : Nat) :
      Noted ((exprOps e none).andThen (always [.room 2, .word trash.code]) n) :=
    (exprOps_noted e none n).andOther (by simp [always, GenOp.Other])

mutual

theorem stmtOps_noted : ∀ (s : Stmt) (n : Nat), Noted (stmtOps s n)
  | .expr e, n => exprStmtOps_noted e n
  | .regsplit string splitPat destVars, n => by
    have hpops : ∀ o ∈ [GenOp.insn pushstatic.code splitPat, .word regsplit.code] ++
        destVars.map (.insn pop.code), o.Other := by
      simp [GenOp.Other, code]
    exact ((exprOps_noted string none _).andOther hpops).cons (by simp [GenOp.Other])
  | .ifstmt cond thn els, n => by
    have hend : ∀ o ∈ (if els.isEmpty then [] else [GenOp.listRoom]) ++ [.set (n + 2)], o.Other := by
      refine List.forall_mem_append.mpr ⟨?_, by simp [GenOp.Other]⟩
      split <;> simp [GenOp.Other]
    have hmid : ∀ o ∈ [GenOp.listRoom, .jump jmp.code (n + 2), .set (n + 1)], o.Other := by
      simp [GenOp.Other]
    have helse := fun m => (Noted.other hmid).append ((stmtsOps_noted els m).andOther hend)
    have hset : (GenOp.set n).Other := by simp [GenOp.Other]
    exact ((exprOps_noted cond _ _).append (((stmtsOps_noted thn _).append (helse _)).cons
      hset)).cons (by simp [GenOp.Other])

theorem stmtsOps_noted : ∀ (ss : List Stmt) (n : Nat), Noted (stmtsOps ss n)
  | [], _ => .other (by simp [stmtsOps, always])
  | s :: ss, n => (stmtOps_noted s n).append (stmtsOps_noted ss _)

end

/-! ## The notes in the buffer -/

/-- A buffer without used fields, or without the flag, has not done a field. -/
theorem GenOp.run_noted {o : GenOp} {b b' : Buffer} (h : o.run b = .ok b') :
    (b'.usedFields = [] → b.usedFields = [] ∧ ∀ f, o ≠ .field f) ∧
      (b'.havePushfield = false → b.havePushfield = false ∧ ∀ f, o ≠ .field f) := by
  have hsame : b'.usedFields = b.usedFields → b'.havePushfield = b.havePushfield →
      (∀ f, o ≠ .field f) → (b'.usedFields = [] → b.usedFields = [] ∧ ∀ f, o ≠ .field f) ∧
        (b'.havePushfield = false → b.havePushfield = false ∧ ∀ f, o ≠ .field f) :=
    fun hu hp ho => ⟨fun h => ⟨hu ▸ h, ho⟩, fun h => ⟨hp ▸ h, ho⟩⟩
  have hemit : ∀ {w : Nat} {b b' : Buffer}, emit w b = .ok b' →
      b'.usedFields = b.usedFields ∧ b'.havePushfield = b.havePushfield := by
    intro w b b' h
    unfold emit at h
    split at h
    · cases h
      exact ⟨rfl, rfl⟩
    · cases h
  cases o with
  | room x =>
    cases exitIfBytecodeBuffFull_ok h
    exact hsame rfl rfl (by simp)
  | listRoom =>
    cases exitIfActionsFull_ok h
    exact hsame rfl rfl (by simp)
  | word w => exact hsame (hemit h).1 (hemit h).2 (by simp)
  | insn w n =>
    obtain ⟨b₁, h₁, h₂⟩ := bind_ok h
    obtain ⟨b₂, h₂, h₃⟩ := bind_ok h₂
    cases h₃
    exact hsame ((hemit h₂).1.trans (hemit h₁).1) ((hemit h₂).2.trans (hemit h₁).2) (by simp)
  | jump w l =>
    obtain ⟨b₁, h₁, h₂⟩ := bind_ok h
    exact hsame ((hemit h₂).1.trans (hemit h₁).1) ((hemit h₂).2.trans (hemit h₁).2) (by simp)
  | set l =>
    have hset : ∀ sz : Nat, (if l < sz then
        Except.ok { b with labels := Function.update b.labels l b.pos, labelsSz := sz }
        else Except.error Fault.labels) = Except.ok b' →
        b'.usedFields = b.usedFields ∧ b'.havePushfield = b.havePushfield := by
      intro sz h
      split at h <;> cases h
      exact ⟨rfl, rfl⟩
    exact hsame (hset _ h).1 (hset _ h).2 (by simp)
  | field f =>
    simp only [run, useField] at h
    split at h <;> cases h
    exact ⟨fun hu => absurd hu (by simp), fun hp => absurd hp (by simp)⟩
  | labels n =>
    cases h
    exact hsame rfl rfl (by simp)

theorem runOps_noted {os : List GenOp} {b b' : Buffer} (h : runOps os b = .ok b') :
    (b'.usedFields = [] → ∀ f, .field f ∉ os) ∧
      (b'.havePushfield = false → ∀ f, .field f ∉ os) := by
  suffices hall : (b'.usedFields = [] → b.usedFields = [] ∧ ∀ f, .field f ∉ os) ∧
      (b'.havePushfield = false → b.havePushfield = false ∧ ∀ f, .field f ∉ os) from
    ⟨fun hu => (hall.1 hu).2, fun hp => (hall.2 hp).2⟩
  induction os generalizing b with
  | nil =>
    cases h
    simp
  | cons o os ih =>
    obtain ⟨b₁, h₁, h₂⟩ := bind_ok h
    have ho := GenOp.run_noted h₁
    refine ⟨fun hu => ?_, fun hp => ?_⟩
    · obtain ⟨hu₁, hos⟩ := (ih h₂).1 hu
      exact ⟨(ho.1 hu₁).1, fun f hf => (List.mem_cons.mp hf).elim
        (fun he => (ho.1 hu₁).2 f he.symm) (hos f)⟩
    · obtain ⟨hp₁, hos⟩ := (ih h₂).2 hp
      exact ⟨(ho.2 hp₁).1, fun f hf => (List.mem_cons.mp hf).elim
        (fun he => (ho.2 hp₁).2 f he.symm) (hos f)⟩

/-! ## The instructions of the code -/

/-- The opcode of the operation meets `P`. -/
def GenOp.Meets (P : Nat → Prop) : GenOp → Prop
  | .word w | .insn w _ | .jump w _ => P w
  | _ => True

theorem resolve_insns {P : Nat → Prop} (L : Nat → Nat) {os : List GenOp} (base : Nat)
    (ha : ∀ o ∈ os, o.Aligned) (hP : ∀ o ∈ os, o.Meets P) :
    Insns P (resolve L base (os.flatMap GenOp.syms)) := by
  induction os generalizing base with
  | nil => exact .nil
  | cons o os ih =>
    obtain ⟨hao, haos⟩ := List.forall_mem_cons.mp ha
    obtain ⟨hPo, hPos⟩ := List.forall_mem_cons.mp hP
    rw [List.flatMap_cons, resolve_append]
    refine Insns.append ?_ (ih _ haos hPos)
    cases o with
    | word w => exact .word hao hPo .nil
    | insn w n => exact .operand hao hPo .nil
    | jump w l => exact .operand hao.insnLen hPo .nil
    | _ => exact .nil

namespace CodeSource

/-- The code of a condition or of an action list is a block of the instructions of its operations. -/
theorem blockCode {P : Nat → Prop} {src : CodeSource} {b : Buffer} (h : src.buffer = .ok b)
    (hP : ∀ o ∈ src.codeOps, o.Meets P) : BlockCode P src.words (compileSetLabels b ++ [opEnd]) where
  eq := by rw [compileSetLabels_buffer h]
  short := length_words_lt h
  block := src.words_block
  insns := by
    rw [← compileSetLabels_buffer h, compileSetLabels_eq (runOps_emits (src.buffer_eq ▸ h))]
    exact resolve_insns _ 0 src.ops_pieces.aligned
      (List.forall_mem_append.mpr ⟨hP, List.forall_mem_singleton.mpr trivial⟩)

/-- Only an instruction with an operand is one of the two. -/
theorem meets_ne {src : CodeSource} {w : Nat} (hlen : insnLen w = 2) (hj : ¬ IsJump w)
    (h : ∀ n, .insn w n ∉ src.codeOps) : ∀ o ∈ src.codeOps, o.Meets (· ≠ w) := by
  intro o ho
  have ha := src.ops_pieces.aligned o (List.mem_append_left _ ho)
  cases o with
  | word w' =>
    rintro rfl
    rw [GenOp.Aligned, hlen] at ha
    cases ha
  | insn w' n =>
    rintro rfl
    exact h n ho
  | jump w' l =>
    rintro rfl
    exact hj ha
  | _ => trivial

theorem codeOps_noted (src : CodeSource) : Noted src.codeOps := by
  cases src with
  | condition e => exact exprOps_noted e none 1
  | actions ss => exact stmtsOps_noted ss 1

theorem blockCode_fields {src : CodeSource} {b : Buffer} (h : src.buffer = .ok b)
    (hf : b.usedFields = [] ∨ b.havePushfield = false) :
    BlockCode (· ≠ pushfield.code) src.words (compileSetLabels b ++ [opEnd]) := by
  have hno := runOps_noted (src.buffer_eq ▸ h)
  have hops : ∀ f, .field f ∉ src.ops := hf.elim hno.1 hno.2
  refine blockCode h (meets_ne rfl (not_isJump_insn (by decide)) fun f hmem => hops f ?_)
  exact List.mem_append_left _ (src.codeOps_noted f hmem)

end CodeSource

/-! ## Compiled rules -/

theorem compileActionsAst_free {ss : List Stmt} {code : List Nat}
    (h : compileActionsAst ss = .ok (some code, false)) :
    ∃ ws, BlockCode (· ≠ pushfield.code) ws code := by
  unfold compileActionsAst at h
  split at h
  · cases h
  · cases hb : compileActionsBytecode ss Buffer.init with
    | error f =>
      rw [hb] at h
      cases h
    | ok b =>
      rw [hb] at h
      obtain ⟨hcode, hflag⟩ := Prod.mk.inj (Except.ok.inj h)
      obtain rfl := Option.some.inj hcode
      have hbuf : (CodeSource.actions ss).buffer = .ok b := hb
      exact ⟨_, CodeSource.blockCode_fields hbuf (.inr hflag)⟩

theorem compileTransBytecode_free {e : Expr} {code : List Nat}
    (h : compileTransBytecode e = .ok (code, [])) :
    ∃ ws, BlockCode (· ≠ pushfield.code) ws code := by
  unfold compileTransBytecode at h
  cases hb : compileBytecodeExpr e Buffer.init with
  | error f =>
    rw [hb] at h
    cases h
  | ok b =>
    rw [hb] at h
    simp only [liftGen, bind, Except.bind] at h
    split at h
    · cases h
    · rename_i hroom
      obtain ⟨rfl, hf⟩ := Prod.mk.inj (Except.ok.inj h)
      have hbuf : (CodeSource.condition e).buffer = .ok b := by
        show compileBytecodeExpr e Buffer.init >>= exitIfActionsFull = _
        rw [hb]
        exact if_neg hroom
      exact ⟨_, CodeSource.blockCode_fields hbuf (.inl hf)⟩

theorem compileTransition_free {statenames : String → Option Nat} {t : TransNode} {ct : CompiledTrans}
    (h : compileTransition statenames t = .ok ct) {code : List Nat} (hcode : ct.evalCode = some code)
    (hf : ct.requiredFields = []) : ∃ ws, BlockCode (· ≠ pushfield.code) ws code := by
  cases t with
  | direct cond dest =>
    simp only [compileTransition] at h
    split at h
    · cases h
    · cases cond with
      | none =>
        cases h
        cases hcode
      | some e =>
        obtain ⟨⟨code', fields⟩, hc, h⟩ := bind_ok h
        cases h
        obtain rfl := Option.some.inj hcode
        obtain rfl : fields = [] := hf
        exact compileTransBytecode_free hc
  | indirect e as ts =>
    obtain ⟨⟨code', fields⟩, hc, h⟩ := bind_ok h
    cases h
    obtain rfl := Option.some.inj hcode
    obtain rfl : fields = [] := hf
    exact compileTransBytecode_free hc

/-- A compiled state, from its node. -/
theorem compileStateAst_parts {statenames : String → Option Nat} {s : StateNode} {st : CompiledState}
    (h : compileStateAst statenames s = .ok st) :
    compileActionsAst s.actionlist = .ok (st.action, st.havePushfield) := by
  unfold compileStateAst at h
  obtain ⟨⟨action, flag⟩, ha, h⟩ := bind_ok h
  obtain ⟨ts, -, h⟩ := bind_ok h
  cases h
  exact ha

/-- The code of a compiled rule that the compiler has noted no field for: the action of a state
without the flag, or the condition of a transition without required fields. -/
inductive CompiledRule.FieldFree (c : CompiledRule) (code : List Nat) : Prop
  | action {st : CompiledState} : st ∈ c.states → st.action = some code →
      st.havePushfield = false → FieldFree c code
  | cond {st : CompiledState} {tr : CompiledTrans} : st ∈ c.states → tr ∈ st.trans →
      tr.evalCode = some code → tr.requiredFields = [] → FieldFree c code

/-- It has no `OP_PUSHFIELD`. -/
theorem CompiledRule.FieldFree.block {ctx : RuleCompiler} {r : RuleNode} {c : CompiledRule}
    (hc : compileAndAddRuleAst ctx r = .ok c) {code : List Nat} (h : c.FieldFree code) :
    ∃ ws, BlockCode (· ≠ pushfield.code) ws code := by
  cases h with
  | action hst hact hflag =>
    obtain ⟨s, -, hs⟩ := forall₂_mem_right (compileAndAddRuleAst_states hc) hst
    have ha := compileStateAst_parts hs
    rw [hact, hflag] at ha
    exact compileActionsAst_free ha
  | cond hst htr hcode hf =>
    obtain ⟨s, -, hs⟩ := forall₂_mem_right (compileAndAddRuleAst_states hc) hst
    obtain ⟨t, -, ht⟩ := forall₂_mem_right (compileStateAst_ok hs).2 htr
    exact compileTransition_free ht hcode hf

/-- An execution of code that the compiler has noted no field for goes on and ends alike with any
values of the fields. -/
theorem fields_unread {V : Type} [Issdl V] {ctx : RuleCompiler} {r : RuleNode} {c : CompiledRule}
    (hc : compileAndAddRuleAst ctx r = .ok c) {code : List Nat} (hcode : c.FieldFree code)
    (F : Frame V) (hF : F.bytecode = code) (fields : Env V) (turns : Nat) (stack : List (Option V))
    (ρ : Env V) :
    Frame.exec { F with fields } turns ⟨0, stack, ρ⟩ = F.exec turns ⟨0, stack, ρ⟩ ∧
      Frame.step { F with fields } (F.exec turns ⟨0, stack, ρ⟩).2 =
        F.step (F.exec turns ⟨0, stack, ρ⟩).2 := by
  obtain ⟨ws, hb⟩ := hF ▸ hcode.block hc
  obtain ⟨hexec, hm⟩ := hb.exec_fields fields turns (m := ⟨0, stack, ρ⟩) (.start ws)
  exact ⟨hexec, hb.step_fields hm fields⟩

/-- A rule with the action `$0 = 1`. -/
def assignNode : RuleNode where
  name := "assign"
  init := { name := "init", actionlist := [.expr (.assoc 0 (.const 0))], translist := [] }
  statelist := []
  syncVars := none

/-- The action of its state. -/
def assignFrame : Frame Val where
  bytecode := [4, 0, 3, 0, 0]
  inheritEnv := fun _ => none
  staticEnv := valStaticEnv []
  fields := fun _ => none
  argsNb := fun _ => 0
  builtin := fun _ _ => none

theorem fields_unread_assign :
    Frame.exec { assignFrame with fields := fun _ => some (.int 5) } 16 ⟨0, [], fun _ => none⟩ =
      assignFrame.exec 16 ⟨0, [], fun _ => none⟩ := by
  obtain ⟨c, hc, hst⟩ : ∃ c, compileAndAddRuleAst emptyCompiler assignNode = .ok c ∧
      c.states = [⟨"init", some [4, 0, 3, 0, 0], [], false⟩] := ⟨_, rfl, rfl⟩
  have hfree : c.FieldFree [4, 0, 3, 0, 0] :=
    .action (hst ▸ List.mem_cons_self) rfl rfl
  exact (fields_unread hc hfree assignFrame rfl (fun _ => some (.int 5)) 16 [] _).1

end Orchids

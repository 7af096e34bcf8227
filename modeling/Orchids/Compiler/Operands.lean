import Orchids.Compiler.References

/-!
# The operands of a compiled rule

* `Uses`: the ids in a code stand for these references, in order; `exprWords_uses` and
  `stmtsWords_uses`: in the code of a tree, they are the ids of its nodes.
* `Constant.value`: what is written where the parser makes an object; of a date it makes 0.
* `Numbered`: what the ids of a compiled rule are.
* `resources_iff`: the rules of every run are numbered so, each as if it were the only one, if and
  only if their dates are 0.
-/

namespace Orchids

open Opcode

/-! ## The operands of instructions -/

/-- The instruction has an id of a constant or of a variable. -/
def HasId (w : Nat) : Prop := w = pushstatic.code ∨ w = push.code ∨ w = pop.code

/-- The words are whole instructions; the ids among their operands stand for these references, in
order. -/
inductive Uses {ρ : Type} (R : ρ → Nat → Nat → Prop) : List Nat → List ρ → Prop
  | nil : Uses R [] []
  | word {w : Nat} {ws : List Nat} {rs : List ρ} : insnLen w = 1 → Uses R ws rs →
      Uses R (w :: ws) rs
  | other {w n : Nat} {ws : List Nat} {rs : List ρ} : insnLen w = 2 → ¬ HasId w → Uses R ws rs →
      Uses R (w :: n :: ws) rs
  | ref {w n : Nat} {ws : List Nat} {r : ρ} {rs : List ρ} : HasId w → R r w n → Uses R ws rs →
      Uses R (w :: n :: ws) (r :: rs)

namespace Uses

variable {ρ σ : Type} {R : ρ → Nat → Nat → Prop} {ws ws' : List Nat} {rs rs' : List ρ}

theorem append (h : Uses R ws rs) (h' : Uses R ws' rs') : Uses R (ws ++ ws') (rs ++ rs') := by
  induction h with
  | nil => exact h'
  | word hw _ ih => exact .word hw ih
  | other hw hid _ ih => exact .other hw hid ih
  | ref hid hr _ ih => exact .ref hid hr ih

/-- More words without a reference. -/
theorem skip (h : Uses R ws rs) (h' : Uses R ws' []) : Uses R (ws ++ ws') rs := by
  have ha := h.append h'
  rwa [List.append_nil] at ha

/-- Other references with the same ids. -/
theorem of_forall₂ {S : σ → Nat → Nat → Prop} {T : σ → ρ → Prop} {ss : List σ} (h : Uses R ws rs)
    (ht : List.Forall₂ T ss rs) (hS : ∀ s r w n, T s r → R r w n → S s w n) : Uses S ws ss := by
  induction h generalizing ss with
  | nil =>
    cases ht
    exact .nil
  | word hw _ ih => exact .word hw (ih ht)
  | other hw hid _ ih => exact .other hw hid (ih ht)
  | ref hid hr _ ih =>
    cases ht with
    | cons hd ht => exact .ref hid (hS _ _ _ _ hd hr) (ih ht)

theorem single {r : ρ} {w n : Nat} (hid : HasId w) (hr : R r w n) : Uses R [w, n] [r] :=
  .ref hid hr .nil

/-- The other instructions with an operand. -/
theorem operand {w : Nat} (n : Nat) (hw : w = jmp.code ∨ w = popcjmp.code ∨ w = pushfield.code ∨
    w = call.code) : Uses R [w, n] [] := by
  rcases hw with rfl | rfl | rfl | rfl
  all_goals exact .other rfl (by unfold HasId; decide) .nil

theorem jumpWords (dThen dElse : Nat) : Uses R (jumpWords dThen dElse) [] :=
  (operand (dThen + 2) (.inr (.inl rfl))).append (operand dElse (.inl rfl))

theorem endWords (pos : Option (Nat × Nat)) : Uses R (endWords pos) [] := by
  cases pos with
  | none => exact .nil
  | some d => exact jumpWords d.1 d.2

theorem arith (op : ArithOp) : Uses R [(arith op).code] [] := by
  cases op <;> exact .word rfl .nil

theorem condOp (op : CondOp) : Uses R [op.word] [] := by
  cases op with
  | cmp op => cases op <;> exact .word rfl .nil
  | _ => exact .word rfl .nil

end Uses

/-! ## The code of nodes -/

/-- The use of a value in jump position or not. -/
def Use.of : Option (Nat × Nat) → Use
  | none => .value
  | some _ => .jump

/-- The instruction has the id of the node, where `C` holds of the constants and `X` of the
variables. -/
def IdRef.Coded (C : Term → Prop) (X : Symbol → Prop) : IdRef .node → Nat → Nat → Prop
  | .const t, w, i => w = pushstatic.code ∧ i = t.resId ∧ C t
  | .pattern t _, w, i => w = pushstatic.code ∧ i = t.resId ∧ C t
  | .truth b, w, i => w = pushstatic.code ∧ i = if b then staticIds.one else staticIds.zero
  | .read s, w, i => w = push.code ∧ i = s.resId ∧ X s
  | .write s, w, i => w = pop.code ∧ i = s.resId ∧ X s

section Words

variable {C : Term → Prop} {X : Symbol → Prop}

theorem boolWords_uses : Uses (IdRef.Coded C X) boolWords [.truth true, .truth false] :=
  .ref (.inl rfl) ⟨rfl, rfl⟩ (.other rfl (by unfold HasId; decide)
    (.single (.inl rfl) ⟨rfl, rfl⟩))

/-- An assignment, and the variable again. -/
theorem pushed_uses {s : Symbol} (hs : X s) :
    Uses (IdRef.Coded C X) [pop.code, s.resId, push.code, s.resId] [.write s, .read s] :=
  .ref (.inr (.inr rfl)) ⟨rfl, rfl, hs⟩ (.single (.inr (.inl rfl)) ⟨rfl, rfl, hs⟩)

theorem pops_uses {ss : List Symbol} (hs : ∀ s ∈ ss, X s) :
    Uses (IdRef.Coded C X) ((ss.map Symbol.resId).flatMap fun x => [pop.code, x])
      (ss.map .write) := by
  induction ss with
  | nil => exact .nil
  | cons s ss ih =>
    exact .ref (.inr (.inr rfl)) ⟨rfl, rfl, hs s List.mem_cons_self⟩
      (ih fun t ht => hs t (List.mem_cons_of_mem s ht))

theorem leafWords_uses (l : Leaf .node) (pos : Option (Nat × Nat)) (hc : ∀ t ∈ l.consts, C t)
    (hx : ∀ s ∈ l.vars, X s) : Uses (IdRef.Coded C X) (exprWords l.erase pos) l.refs := by
  cases l with
  | const t =>
    have ht := hc t (by simp [Leaf.consts])
    exact (Uses.single (.inl rfl) ⟨rfl, rfl, ht⟩).skip (.endWords pos)
  | var s =>
    have hs := hx s (by simp [Leaf.vars])
    exact (Uses.single (.inr (.inl rfl)) ⟨rfl, rfl, hs⟩).skip (.endWords pos)
  | field s => exact (Uses.operand _ (.inr (.inr (.inl rfl)))).append (.endWords pos)

theorem paramsWords_uses (ps : List (Leaf .node)) (hc : ∀ t ∈ ps.flatMap Leaf.consts, C t)
    (hx : ∀ s ∈ ps.flatMap Leaf.vars, X s) :
    Uses (IdRef.Coded C X) (paramsWords (ps.map Leaf.erase)) (ps.reverse.flatMap Leaf.refs) := by
  induction ps with
  | nil => exact .nil
  | cons l ps ih =>
    rw [List.flatMap_cons, List.forall_mem_append] at hc hx
    rw [List.reverse_cons, List.flatMap_append, List.flatMap_singleton]
    exact (ih hc.2 hx.2).append (leafWords_uses l none hc.1 hx.1)

theorem exprWords_uses : ∀ (e : ExprTree .node) (pos : Option (Nat × Nat)),
    (∀ t ∈ e.consts, C t) → (∀ s ∈ e.vars, X s) →
      Uses (IdRef.Coded C X) (exprWords e.erase pos) (e.refs (.of pos))
  | .leaf l, pos, hc, hx => leafWords_uses l pos hc hx
  | .call s ps, pos, hc, hx =>
    ((paramsWords_uses ps hc hx).skip (.operand _ (.inr (.inr (.inr rfl))))).skip (.endWords pos)
  | .binop op l r, pos, hc, hx => by
    obtain ⟨hcl, hcr⟩ := List.forall_mem_append.mp hc
    obtain ⟨hxl, hxr⟩ := List.forall_mem_append.mp hx
    have h := (((exprWords_uses l none hcl hxl).append
      (exprWords_uses r none hcr hxr)).skip (.arith op)).skip (.endWords pos)
    cases pos <;> exact h
  | .cond op l r, pos, hc, hx => by
    obtain ⟨hcl, hcr⟩ := List.forall_mem_append.mp hc
    obtain ⟨hxl, hxr⟩ := List.forall_mem_append.mp hx
    have hl := fun d => exprWords_uses l d hcl hxl
    have hr := fun d => exprWords_uses r d hcr hxr
    have hb : Uses (IdRef.Coded C X) boolWords _ := boolWords_uses
    cases op with
    | andand => cases pos <;> exact (((hl _).append (hr _)).append hb).skip (.endWords _)
    | oror => cases pos <;> exact (((hl _).append (hr _)).append hb).skip (.endWords _)
    | cmp op =>
      have hcmp := ((hl none).append (hr none)).skip (.condOp (.cmp op))
      cases pos with
      | some d => exact hcmp.skip (.jumpWords d.1 d.2)
      | none => exact (hcmp.skip (.jumpWords 0 4)).append hb
  | .assoc s e, pos, hc, hx => by
    obtain ⟨hxe, hxs⟩ := List.forall_mem_append.mp hx
    have hs : X s := hxs s List.mem_cons_self
    have h := ((exprWords_uses e none hc hxe).append (pushed_uses hs)).skip (.endWords pos)
    cases pos <;> exact h

theorem exprStmtWords_uses : ∀ e : ExprTree .node,
    (∀ t ∈ e.consts, C t) → (∀ s ∈ e.vars, X s) →
      Uses (IdRef.Coded C X) (exprStmtWords e.erase) (e.refs .discard)
  | .leaf l, hc, hx => by
    have h := (leafWords_uses l none hc hx).skip (.word (w := trash.code) rfl .nil)
    cases l <;> exact h
  | .call s ps, hc, hx =>
    (exprWords_uses (.call s ps) none hc hx).skip (.word (w := trash.code) rfl .nil)
  | .binop op l r, hc, hx => by
    obtain ⟨hcl, hcr⟩ := List.forall_mem_append.mp hc
    obtain ⟨hxl, hxr⟩ := List.forall_mem_append.mp hx
    exact ((exprStmtWords_uses l hcl hxl).append (exprStmtWords_uses r hcr hxr)).skip (.arith op)
  | .cond op l r, hc, hx => by
    obtain ⟨hcl, hcr⟩ := List.forall_mem_append.mp hc
    obtain ⟨hxl, hxr⟩ := List.forall_mem_append.mp hx
    have h := ((exprStmtWords_uses l hcl hxl).append (exprStmtWords_uses r hcr hxr)).skip (.condOp op)
    cases op <;> exact h
  | .assoc s e, hc, hx => by
    obtain ⟨hxe, hxs⟩ := List.forall_mem_append.mp hx
    exact (exprWords_uses e none hc hxe).append
      (.single (.inr (.inr rfl)) ⟨rfl, rfl, hxs s List.mem_cons_self⟩)

mutual

theorem stmtWords_uses : ∀ s : StmtTree .node,
    (∀ t ∈ s.consts termOf patternOf, C t) → (∀ v ∈ s.vars, X v) →
      Uses (IdRef.Coded C X) (stmtWords s.erase) s.refs
  | .expr e, hc, hx => by
    refine exprStmtWords_uses e ?_ hx
    simpa only [StmtTree.consts, List.map_id'] using hc
  | .regsplit s t xs, hc, hx => by
    have hs : X s := hx s List.mem_cons_self
    have ht : C t := hc t List.mem_cons_self
    have hpops : ∀ v ∈ xs, X v := fun v hv => hx v (List.mem_cons_of_mem s hv)
    exact .ref (.inr (.inl rfl)) ⟨rfl, rfl, hs⟩ (.ref (.inl rfl) ⟨rfl, rfl, ht⟩
      (.word (w := regsplit.code) rfl (pops_uses hpops)))
  | .ifstmt e thn els, hc, hx => by
    simp only [StmtTree.consts, List.map_id', List.forall_mem_append] at hc
    simp only [StmtTree.vars, List.forall_mem_append] at hx
    rw [StmtTree.refs, ← List.append_assoc]
    exact (((exprWords_uses e _ hc.1 hx.1).append (stmtsWords_uses thn hc.2.1 hx.2.1)).skip
      (.operand _ (.inl rfl))).append (stmtsWords_uses els hc.2.2 hx.2.2)

theorem stmtsWords_uses : ∀ ss : List (StmtTree .node),
    (∀ t ∈ stmtsConsts termOf patternOf ss, C t) → (∀ v ∈ stmtsVars ss, X v) →
      Uses (IdRef.Coded C X) (stmtsWords (eraseStmts ss)) (stmtsRefs ss)
  | [], _, _ => .nil
  | s :: ss, hc, hx => by
    obtain ⟨hcs, hcss⟩ := List.forall_mem_append.mp hc
    obtain ⟨hxs, hxss⟩ := List.forall_mem_append.mp hx
    exact (stmtWords_uses s hcs hxs).append (stmtsWords_uses ss hcss hxss)

end

end Words

/-! ## The codes of a rule -/

/-- The code of the actions and those of the conditions. -/
def CompiledState.codes (s : CompiledState) : List (List Nat) :=
  s.action.toList ++ s.trans.filterMap CompiledTrans.evalCode

def CompiledRule.codes (c : CompiledRule) : List (List Nat) := c.states.flatMap CompiledState.codes

/-- The id of a variable of the rule. -/
def RuleTree.VarId (n : RuleTree .node) (i : Nat) : Prop := ∃ s ∈ n.vars, s.resId = i

theorem RuleTree.erase_states (n : RuleTree .node) :
    n.erase.states = n.states.map StateTree.erase := rfl

section Subtrees

variable {p : Phase} {γ : Type} {lit : p.Const → γ} {split : p.Pat → Nat → γ}

theorem TransTree.vars_of_condition {t : TransTree p} {e : ExprTree p} (he : t.condition = some e)
    {v : p.Sym} (hv : v ∈ e.vars) : v ∈ t.vars := by
  cases t with
  | direct cond dest =>
    cases he
    exact List.mem_flatMap.mpr ⟨e, List.mem_singleton_self e, hv⟩
  | indirect cond as ts =>
    cases he
    exact List.mem_append_left _ hv

theorem TransTree.consts_of_condition {t : TransTree p} {e : ExprTree p}
    (he : t.condition = some e) {c : p.Const} (hc : c ∈ e.consts) :
    lit c ∈ t.consts lit split := by
  cases t with
  | direct cond dest =>
    cases he
    exact List.mem_map_of_mem (List.mem_flatMap.mpr ⟨e, List.mem_singleton_self e, hc⟩)
  | indirect cond as ts =>
    cases he
    exact List.mem_append_left _ (List.mem_map_of_mem hc)

end Subtrees

theorem compileStateAst_action {statenames : String → Option Nat} {s : StateNode} {st : CompiledState}
    (h : compileStateAst statenames s = .ok st) :
    st.action =
      if s.actionlist.isEmpty then none else some (stmtsWords s.actionlist ++ [opEnd]) := by
  unfold compileStateAst at h
  obtain ⟨⟨action, flag⟩, hact, h⟩ := bind_ok h
  obtain ⟨trans, -, h⟩ := bind_ok h
  cases h
  by_cases he : s.actionlist.isEmpty = true
  · unfold compileActionsAst at hact
    rw [if_pos he] at hact ⊢
    cases hact
    rfl
  · rw [if_neg he]
    have hsome : ∃ code, action = some code := by
      unfold compileActionsAst at hact
      rw [if_neg he] at hact
      obtain ⟨b, -, hact⟩ := bind_ok hact
      cases hact
      exact ⟨_, rfl⟩
    obtain ⟨code, rfl⟩ := hsome
    have hres : (CodeSource.actions s.actionlist).result = .ok (some code) := by
      show Prod.fst <$> compileActionsAst s.actionlist = _
      rw [hact]
      rfl
    exact congrArg some (CodeSource.result_ok hres).2

theorem compileTransBytecode_code {e : Expr} {code fields : List Nat}
    (h : compileTransBytecode e = .ok (code, fields)) : code = exprWords e none ++ [opEnd] := by
  have hres : (CodeSource.condition e).result = .ok (some code) := by
    show (fun r => some r.1) <$> compileTransBytecode e = _
    rw [h]
    rfl
  exact (CodeSource.result_ok hres).2

/-- A compiled transition has the code of the condition of its node. -/
theorem compileTransition_code {statenames : String → Option Nat} {t : TransTree .node} {c : CompiledTrans}
    (h : compileTransition statenames t.erase = .ok c) :
    c.evalCode = t.condition.map fun e => exprWords e.erase none ++ [opEnd] := by
  cases t with
  | direct cond dest =>
    simp only [TransTree.erase, compileTransition] at h
    split at h
    · cases h
    · cases cond with
      | none =>
        cases h
        rfl
      | some e =>
        obtain ⟨⟨code, fields⟩, hcode, h⟩ := bind_ok h
        cases h
        exact congrArg some (compileTransBytecode_code hcode)
  | indirect e as ts =>
    simp only [TransTree.erase, compileTransition] at h
    obtain ⟨⟨code, fields⟩, hcode, h⟩ := bind_ok h
    cases h
    exact congrArg some (compileTransBytecode_code hcode)

variable {C : Term → Prop} {X : Symbol → Prop}
  {statenames : String → Option Nat}

theorem end_uses : Uses (IdRef.Coded C X) [opEnd] [] := .word rfl .nil

theorem transCodes_uses : ∀ {ts : List (TransTree .node)} {cs : List CompiledTrans},
    List.Forall₂ (fun t c => compileTransition statenames t = .ok c) (eraseTranss ts) cs →
      (∀ t ∈ transsConsts termOf patternOf ts, C t) → (∀ v ∈ transsVars ts, X v) →
        List.Forall₂ (Uses (IdRef.Coded C X)) (cs.filterMap CompiledTrans.evalCode)
          ((ts.filterMap TransTree.condition).map fun e => e.refs .value)
  | [], _, h, _, _ => by
    cases h
    exact .nil
  | t :: ts, _, h, hc, hx => by
    obtain ⟨hct, hcts⟩ := List.forall_mem_append.mp hc
    obtain ⟨hxt, hxts⟩ := List.forall_mem_append.mp hx
    cases h with
    | cons ht hts =>
      have hcode := compileTransition_code ht
      have ih := transCodes_uses hts hcts hxts
      cases hcond : t.condition with
      | none =>
        rw [hcond] at hcode
        rw [List.filterMap_cons_none hcode, List.filterMap_cons_none hcond]
        exact ih
      | some e =>
        rw [hcond] at hcode
        rw [List.filterMap_cons_some hcode, List.filterMap_cons_some hcond]
        refine .cons ((exprWords_uses e none (fun k hk => ?_) fun v hv => ?_).skip end_uses) ih
        · have hk' : termOf k ∈ t.consts termOf patternOf := TransTree.consts_of_condition hcond hk
          exact hct k hk'
        · exact hxt v (TransTree.vars_of_condition hcond hv)

theorem stateCodes_uses {s : StateTree .node} {st : CompiledState}
    (h : compileStateAst statenames s.erase = .ok st) (hc : ∀ t ∈ s.consts termOf patternOf, C t)
    (hx : ∀ v ∈ s.vars, X v) : List.Forall₂ (Uses (IdRef.Coded C X)) st.codes s.refs := by
  obtain ⟨hca, hct⟩ := List.forall_mem_append.mp hc
  obtain ⟨hxa, hxt⟩ := List.forall_mem_append.mp hx
  refine List.rel_append ?_ (transCodes_uses (compileStateAst_ok h).2 hct hxt)
  rw [compileStateAst_action h]
  have hempty : (eraseStmts s.actionlist).isEmpty = s.actionlist.isEmpty := by
    cases s.actionlist <;> rfl
  show List.Forall₂ _ (ite ((eraseStmts s.actionlist).isEmpty = true) _ _ : Option _).toList _
  rw [hempty]
  split
  · exact .nil
  · exact .cons ((stmtsWords_uses s.actionlist hca hxa).skip end_uses) .nil

/-- The codes of a rule have the ids of its nodes. -/
theorem codes_uses {n : RuleTree .node} {c : CompiledRule}
    (h : List.Forall₂ (fun s st => compileStateAst statenames s = .ok st) n.erase.states c.states) :
    List.Forall₂ (Uses (IdRef.Coded (· ∈ n.consts termOf patternOf) (· ∈ n.vars))) c.codes n.refs := by
  have hsub : ∀ ss : List (StateTree .node), ss ⊆ n.states → ∀ cs : List CompiledState,
      List.Forall₂ (fun s st => compileStateAst statenames s = .ok st) (ss.map StateTree.erase) cs →
        List.Forall₂ (Uses (IdRef.Coded (· ∈ n.consts termOf patternOf) (· ∈ n.vars)))
          (cs.flatMap CompiledState.codes) (ss.flatMap StateTree.refs) := by
    intro ss hss
    induction ss with
    | nil =>
      intro cs hcs
      cases hcs
      exact .nil
    | cons s ss ih =>
      intro cs hcs
      obtain ⟨hs, hss⟩ := List.cons_subset.mp hss
      cases hcs with
      | cons hst hsts =>
        refine List.rel_append ?_ (ih hss _ hsts)
        exact stateCodes_uses hst (fun t ht => RuleTree.consts_of_mem hs ht)
          fun v hv => RuleTree.vars_of_mem hs hv
  exact hsub n.states (List.Subset.refl _) c.states h

/-! ## What the text means -/

/-- The constants in the text of a rule. -/
def RuleTree.constants (r : RuleTree .text) : List Constant := r.consts .literal .split

/-- What is written where the parser makes an object, if a date text is the time `dates` gives. -/
def Literal.value (env : ParserEnv) (dates : String → BitVec 64) : Literal → Option StaticVar
  | ctimeString date => some (.ctime (dates date))
  | timevalString date usec => some (.timeval (dates date) (usec.signExtend 64))
  | l => l.object env

/-- The value of a constant. -/
def Constant.value (env : ParserEnv) (dates : String → BitVec 64) : Constant → Option StaticVar
  | literal l => l.value env dates
  | k => k.object env

/-- The text of a date. -/
def Constant.date : Constant → Option String
  | literal (.ctimeString date) => some date
  | literal (.timevalString date _) => some date
  | _ => none

/-- The parser makes the value of a constant if and only if it is no date, or its time is 0. -/
theorem Constant.value_eq_object_iff {env : ParserEnv} {dates : String → BitVec 64}
    {k : Constant} : k.value env dates = k.object env ↔ ∀ date, k.date = some date → dates date = 0 := by
  cases k with
  | split pattern splits => simp [value, object, Constant.date]
  | literal l => cases l <;> simp [value, object, Literal.value, Literal.object, Constant.date]

/-! ## The numbers in a compiled rule -/

/-- The variables of a rule where they occur, also those to synchronize on. -/
def RuleTree.occurrences (n : RuleTree .node) (c : NumberedRule) : List Symbol :=
  n.vars ++ List.zipWith Symbol.mk (n.syncVars.getD []) (c.syncVars.getD [])

/-- The operand `i` of the instruction `w` is the one for the reference: its entry is the constant,
its name is that of the variable. -/
def NumberedRule.Resolves (c : NumberedRule) (env : ParserEnv) (dates : String → BitVec 64) :
    IdRef .text → Nat → Nat → Prop
  | .const l, w, i => w = pushstatic.code ∧ i < c.staticEnvSz ∧
      ∃ v, l.value env dates = some v ∧ c.staticEnv[i]? = some v
  | .pattern s n, w, i => w = pushstatic.code ∧ i < c.staticEnvSz ∧
      ∃ v, (Constant.split s n).value env dates = some v ∧ c.staticEnv[i]? = some v
  | .truth b, w, i => w = pushstatic.code ∧ i < c.staticEnvSz ∧
      c.staticEnv[i]? = some (.int (if b then 1 else 0))
  | .read x, w, i => w = push.code ∧ i < c.dynamicEnvSz ∧ c.varName[i]? = some x
  | .write x, w, i => w = pop.code ∧ i < c.dynamicEnvSz ∧ c.varName[i]? = some x

/-- The rule `c`, compiled from the nodes `n` of the text `r`. -/
structure Numbered (env : ParserEnv) (dates : String → BitVec 64) (r : RuleTree .text)
    (n : RuleTree .node) (c : NumberedRule) : Prop where
  /-- The nodes have the variables of the text and the values of its constants. -/
  vars : n.vars.map Symbol.name = r.vars ∧ n.syncVars = r.syncVars
  values : List.Forall₂ (fun (k : Constant) (t : Term) => k.value env dates = some t.data)
    r.constants (n.consts termOf patternOf)
  /-- Two occurrences have the same id exactly when they have the same name. -/
  same_iff : ∀ s ∈ n.occurrences c, ∀ s' ∈ n.occurrences c, s.resId = s'.resId ↔ s.name = s'.name
  /-- The ids are below `dynamic_env_sz`, and `var_name` has the names by their ids. -/
  names : c.varName.length = c.dynamicEnvSz ∧
    ∀ s ∈ n.occurrences c, s.resId < c.dynamicEnvSz ∧ c.varName[s.resId]? = some s.name
  dense : ∀ i < c.dynamicEnvSz, n.VarId i
  /-- The entry of a constant is the constant. -/
  statics : c.staticEnv.length = c.staticEnvSz ∧
    ∀ t ∈ n.consts termOf patternOf, t.resId < c.staticEnvSz ∧ c.staticEnv[t.resId]? = some t.data
  first : c.staticEnv.take 5 = firstStatics
  /-- Each id in the codes is the one for what stands in its place in the text. -/
  operands : List.Forall₂ (Uses (c.Resolves env dates)) c.codes r.refs
  compiled : compileAndAddRuleAst { rulenames := [], ruleEnv := c.varName } n.erase =
    .ok c.toCompiledRule

theorem setStateLabels_ok : ∀ {names : List String} {ss : List StateNode},
    (∀ s ∈ ss, s.name ∉ names) → (ss.map StateNode.name).Nodup → setStateLabels names ss = .ok ()
  | _, [], _, _ => rfl
  | names, s :: ss, h, hd => by
    have hs : s.name ∉ names := h s List.mem_cons_self
    obtain ⟨hnew, hd'⟩ := List.nodup_cons.mp hd
    unfold setStateLabels
    rw [if_neg hs]
    refine setStateLabels_ok (fun t ht => ?_) hd'
    intro hmem
    rcases List.mem_cons.mp hmem with heq | hmem
    · exact hnew (heq ▸ List.mem_map_of_mem ht)
    · exact h t (List.mem_cons_of_mem s ht) hmem

namespace Compiled

variable {env : ParserEnv} {r : RuleTree .text} {n : RuleTree .node} {rule : NumberedRule}
  {a : Pool}

theorem names_eq (h : Compiled env r n rule a) : n.erase.states.map StateNode.name = a.states := by
  rw [RuleTree.erase_states, List.map_map, h.built.states]
  exact h.stateNames

theorem stateNames_nodup (h : Compiled env r n rule a) :
    (n.erase.states.map StateNode.name).Nodup := by
  rw [h.names_eq]
  exact h.distinct

/-- The fields of the compiled rule. -/
theorem fields (h : Compiled env r n rule a) :
    rule.staticEnv = a.consts ∧ rule.staticEnvSz = a.consts.length ∧ rule.varName = a.names ∧
      rule.dynamicEnvSz = a.names.length ∧
        compileSyncVars a.names n.syncVars = .ok rule.syncVars ∧
          compileAndAddRuleAst { rulenames := [], ruleEnv := a.names } n.erase =
            .ok rule.toCompiledRule := by
  have hr := h.rule_eq
  unfold Pool.rule at hr
  obtain ⟨syncVars, hsync, hr⟩ := bind_ok hr
  obtain ⟨states, hstates, hr⟩ := bind_ok hr
  have hrule := Except.ok.inj hr
  refine ⟨hrule ▸ rfl, hrule ▸ rfl, hrule ▸ rfl, hrule ▸ rfl, hrule ▸ hsync, ?_⟩
  unfold compileAndAddRuleAst
  rw [setStateLabels_ok (fun _ _ => List.not_mem_nil) h.stateNames_nodup]
  have hnil : n.erase.name ∉ ([] : List String) := List.not_mem_nil
  rw [h.names_eq]
  show (ite (n.erase.name ∈ ([] : List String)) (throw (.ruleDefined n.erase.name))
    (compileSyncVars a.names n.syncVars >>= fun syncVars =>
      n.erase.states.mapM (compileStateAst (statenamesGet a.states)) >>= fun states =>
        pure ({ name := n.name, states, syncVars } : CompiledRule))) = _
  rw [if_neg hnil, hsync]
  show (n.erase.states.mapM (compileStateAst (statenamesGet a.states)) >>= fun states =>
    pure ({ name := n.name, states, syncVars } : CompiledRule)) = _
  rw [hstates]
  exact congrArg (fun r : NumberedRule => Except.ok r.toCompiledRule) hrule

/-- The id of a synchronization variable is the place of its name. -/
theorem syncVars_name {names : List String} {vars : Option (List String)}
    {ids : Option (List Nat)} (h : compileSyncVars names vars = .ok ids) :
    ∀ s ∈ List.zipWith Symbol.mk (vars.getD []) (ids.getD []), names[s.resId]? = some s.name := by
  cases vars with
  | none =>
    cases h
    exact nofun
  | some vars =>
    obtain ⟨l, hl, h⟩ := bind_ok h
    cases h
    intro s hs
    obtain ⟨i, hi⟩ := List.mem_iff_getElem?.mp hs
    obtain ⟨x, k, hx, hk, rfl⟩ := List.getElem?_zipWith_eq_some.mp hi
    obtain ⟨k', hk', hfind⟩ := forall₂_getElem? (mapM_ok hl) hx
    obtain rfl := Option.some.inj (hk.symm.trans hk')
    rw [findIdx?_beq] at hfind
    by_cases hmem : x ∈ names
    · rw [if_pos hmem] at hfind
      obtain rfl := Except.ok.inj hfind
      exact List.getElem?_idxOf hmem
    · rw [if_neg hmem] at hfind
      cases hfind

/-- The nodes have the references of the text. -/
theorem refs (h : Compiled env r n rule a) : List.Forall₂ (SameRefs env) r.refs n.refs := by
  obtain ⟨ctx', h⟩ := h.alone
  obtain ⟨⟨n', ctx₁⟩, hb, h⟩ := bind_ok (x := buildRule env r newRuleCompilerCtx) h
  obtain ⟨⟨rule', ctx₂⟩, -, h⟩ := bind_ok (x := compileAndAddRule n' ctx₁) h
  cases h
  exact buildRule_refs hb

theorem five_le (h : Compiled env r n rule a) : 5 ≤ rule.staticEnvSz := by
  obtain ⟨-, hsz, -⟩ := h.fields
  have hl := congrArg List.length h.built.first
  rw [List.length_take, ← hsz] at hl
  have h5 : firstStatics.length = 5 := rfl
  omega

/-- The entry of a constant. -/
theorem statics_eq (h : Compiled env r n rule a) {t : Term} (ht : t ∈ n.consts termOf patternOf) :
    t.resId < rule.staticEnvSz ∧ rule.staticEnv[t.resId]? = some t.data := by
  obtain ⟨hstat, hsz, -⟩ := h.fields
  have hid := h.built.termIds t ht
  rw [hstat, hsz]
  exact ⟨(List.getElem?_eq_some_iff.mp hid).1, hid⟩

/-- The name at the id of a variable. -/
theorem varName_eq (h : Compiled env r n rule a) {s : Symbol} (hs : s ∈ n.vars) :
    s.resId < rule.dynamicEnvSz ∧ rule.varName[s.resId]? = some s.name := by
  obtain ⟨-, -, hname, hdyn, -⟩ := h.fields
  have hid := h.built.symIds s hs
  rw [hname, hdyn]
  exact ⟨(List.getElem?_eq_some_iff.mp hid).1, hid⟩

/-- The entry of a value of a condition. -/
theorem truth_eq (h : Compiled env r n rule a) (b : Bool) :
    (if b then staticIds.one else staticIds.zero) < rule.staticEnvSz ∧
      rule.staticEnv[if b then staticIds.one else staticIds.zero]? =
        some (.int (if b then 1 else 0)) := by
  have hfirst : rule.staticEnv.take 5 = firstStatics := h.fields.1 ▸ h.built.first
  have hfive := h.five_le
  have hlt : (if b then staticIds.one else staticIds.zero) < 5 := by cases b <;> decide
  refine ⟨Nat.lt_of_lt_of_le hlt hfive, ?_⟩
  rw [← List.getElem?_take_of_lt hlt, hfirst]
  cases b <;> rfl

/-- What stands at the id of a node is what the reference of the text is to. -/
theorem resolves {dates : String → BitVec 64} (h : Compiled env r n rule a) {ref : IdRef .text}
    {ref' : IdRef .node} {w i : Nat}
    (hdates : ∀ k, ref.constant = some k → k.value env dates = k.object env)
    (hsame : ref.Same env ref')
    (hcoded : ref'.Coded (· ∈ n.consts termOf patternOf) (· ∈ n.vars) w i) :
    rule.Resolves env dates ref w i := by
  cases hsame with
  | const hobj =>
    obtain ⟨rfl, rfl, ht⟩ := hcoded
    obtain ⟨hlt, hentry⟩ := h.statics_eq ht
    exact ⟨rfl, hlt, _, (hdates _ rfl).trans hobj, hentry⟩
  | pattern hobj =>
    obtain ⟨rfl, rfl, ht⟩ := hcoded
    obtain ⟨hlt, hentry⟩ := h.statics_eq ht
    exact ⟨rfl, hlt, _, hobj, hentry⟩
  | truth b =>
    obtain ⟨rfl, rfl⟩ := hcoded
    exact ⟨rfl, h.truth_eq b⟩
  | read s =>
    obtain ⟨rfl, rfl, hs⟩ := hcoded
    exact ⟨rfl, h.varName_eq hs⟩
  | write s =>
    obtain ⟨rfl, rfl, hs⟩ := hcoded
    exact ⟨rfl, h.varName_eq hs⟩

theorem operands {dates : String → BitVec 64} (h : Compiled env r n rule a)
    (hdates : ∀ k ∈ r.constants, k.value env dates = k.object env) :
    List.Forall₂ (Uses (rule.Resolves env dates)) rule.codes r.refs := by
  obtain ⟨-, -, -, -, -, hast⟩ := h.fields
  have huses := codes_uses (compileAndAddRuleAst_states hast)
  refine List.forall₂_iff_get.mpr ⟨huses.length_eq.trans h.refs.length_eq.symm, ?_⟩
  intro i hcode href
  have hok : ∀ ref ∈ r.refs.get ⟨i, href⟩, ∀ k, ref.constant = some k →
      k.value env dates = k.object env :=
    fun ref hmem k hk => hdates k (RuleTree.refsIn (List.get_mem _ _) ref hmem k hk)
  have hsame := (List.forall₂_and_left _ _).mpr ⟨hok, h.refs.get href (h.refs.length_eq ▸ href)⟩
  exact (huses.get hcode (h.refs.length_eq ▸ href)).of_forall₂ hsame
    fun _ _ _ _ hs hc => h.resolves hs.1 hs.2 hc

/-- The rule has its numbers if and only if the dates in its text are 0. -/
theorem numbered_iff (h : Compiled env r n rule a) (dates : String → BitVec 64) :
    Numbered env dates r n rule ↔
      ∀ k ∈ r.constants, ∀ date, k.date = some date → dates date = 0 := by
  have hobj := h.built.values
  constructor
  · intro hn k hk
    obtain ⟨i, hi⟩ := List.mem_iff_getElem?.mp hk
    obtain ⟨t, ht, hval⟩ := forall₂_getElem? hn.values hi
    obtain ⟨t', ht', hobj⟩ := forall₂_getElem? hobj hi
    obtain rfl := Option.some.inj (ht.symm.trans ht')
    exact Constant.value_eq_object_iff.mp (hval.trans hobj.symm)
  · intro hzero
    have hdates : ∀ k ∈ r.constants, k.value env dates = k.object env := fun k hk =>
      Constant.value_eq_object_iff.mpr (hzero k hk)
    obtain ⟨hstat, hsz, hname, hdyn, hsync, hast⟩ := h.fields
    -- the name of each occurrence stands at its id
    have hocc : ∀ s ∈ n.occurrences rule, a.names[s.resId]? = some s.name := by
      intro s hs
      rcases List.mem_append.mp hs with hs | hs
      · exact h.built.symIds s hs
      · exact syncVars_name hsync s hs
    refine
      { vars := ⟨h.built.symNames, h.syncVars⟩
        values := ?_
        same_iff := fun s hs s' hs' => ?_
        names := ⟨by rw [hname, hdyn], fun s hs => ?_⟩
        dense := fun i hi => ?_
        statics := ⟨by rw [hstat, hsz], fun t ht => h.statics_eq ht⟩
        first := hstat ▸ h.built.first
        operands := h.operands hdates
        compiled := by rw [hname]; exact hast }
    · refine ((List.forall₂_and_left _ _).mpr ⟨hdates, hobj⟩).imp ?_
      rintro k t ⟨hk, ht⟩
      exact hk.trans ht
    · have hx := hocc s hs
      have hx' := hocc s' hs'
      constructor
      · intro heq
        rw [heq, hx'] at hx
        exact (Option.some.inj hx).symm
      · intro heq
        rw [heq, ← hx'] at hx
        exact (List.getElem?_inj (List.getElem?_eq_some_iff.mp (hx.trans hx')).1 h.nodup).mp hx
    · rw [hname, hdyn]
      exact ⟨(List.getElem?_eq_some_iff.mp (hocc s hs)).1, hocc s hs⟩
    · -- the name at `i` occurs, and its id is `i`
      rw [hdyn] at hi
      have hmem : a.names[i] ∈ r.vars := by
        have hm : a.names[i] ∈ numberAll Pool.fresh.names r.vars :=
          h.built.names ▸ List.getElem_mem hi
        rcases mem_numberAll.mp hm with hm | hm
        · cases hm
        · exact hm
      rw [← h.built.symNames] at hmem
      obtain ⟨s, hs, heq⟩ := List.mem_map.mp hmem
      refine ⟨s, hs, ?_⟩
      have hx := h.built.symIds s hs
      rw [heq, ← List.getElem?_eq_getElem hi] at hx
      exact (List.getElem?_inj hi h.nodup).mp hx.symm |>.symm

end Compiled

/-- In every run of the parser, each rule has its numbers as `Numbered` says, and it has the same
nodes and tables, but for its own number, as the rule alone, if and only if the dates in the texts
are 0. -/
theorem resources_iff {env : ParserEnv} {rs : List (RuleTree .text)}
    {out : List (RuleTree .node × NumberedRule)} {ctx : Compiler}
    (h : rulelist env rs newRuleCompilerCtx = .ok (out, ctx)) (dates : String → BitVec 64) :
    List.Forall₂ (fun r p => Numbered env dates r p.1 p.2 ∧
      ∃ ctx', rulelist env [r] newRuleCompilerCtx =
        .ok ([(p.1, { p.2 with id := 0 })], ctx')) rs out ↔
      ∀ r ∈ rs, ∀ k ∈ r.constants, ∀ date, k.date = some date → dates date = 0 := by
  have hall := rulelist_compiled newRuleCompilerCtx_holds h
  constructor
  · intro hn r hr
    obtain ⟨i, hi⟩ := List.mem_iff_getElem?.mp hr
    obtain ⟨p, hp, hnum, -⟩ := forall₂_getElem? hn hi
    obtain ⟨p', hp', a, hc⟩ := forall₂_getElem? hall hi
    obtain rfl := Option.some.inj (hp.symm.trans hp')
    exact (hc.numbered_iff dates).mp hnum
  · intro hzero
    refine ((List.forall₂_and_left _ _).mpr ⟨hzero, hall⟩).imp ?_
    rintro r p ⟨hr, a, hc⟩
    exact ⟨(hc.numbered_iff dates).mpr hr, hc.alone⟩

/-- A field, no functions. -/
def msgField : ParserEnv where
  fieldsHash := (HashTable.new strhashDjb 1021).add 0 "syslog.msg"
  functionsHash := .new strhashDjb 1021
  gethostbyname _ := none
  regcomp _ _ := true
  round _ := 0

/-- `expect ($user = .syslog.msg) goto done;` -/
def bindRule : RuleTree .text where
  name := "bind"
  init :=
    { name := "init", actionlist := []
      translist := [.direct (some (.assoc "user" (.leaf (.field "syslog.msg")))) "done"] }
  statelist := [{ name := "done", actionlist := [], translist := [] }]
  syncVars := none

/-- `expect ($count = 7) goto done;` and then `/$msg/"(.*) (.*)"/$user/$count;`, with another
numbering of the same names. -/
def splitRule : RuleTree .text where
  name := "split"
  init :=
    { name := "init", actionlist := []
      translist := [.direct (some (.assoc "count" (.leaf (.const (.number 7))))) "done"] }
  statelist :=
    [{ name := "done", actionlist := [.regsplit "msg" "(.*) (.*)" ["user", "count"]]
       translist := [] }]
  syncVars := some ["user"]

/-- The time of the one date that is written below. -/
def noonOfApril (_date : String) : BitVec 64 := 1144670400

theorem resources_iff_bind_split : ∃ out ctx,
    rulelist msgField [bindRule, splitRule] newRuleCompilerCtx = .ok (out, ctx) ∧
      List.Forall₂ (fun r p => Numbered msgField noonOfApril r p.1 p.2 ∧
        ∃ ctx', rulelist msgField [r] newRuleCompilerCtx =
          .ok ([(p.1, { p.2 with id := 0 })], ctx')) [bindRule, splitRule] out := by
  have hok : (rulelist msgField [bindRule, splitRule] newRuleCompilerCtx).isOk = true := by
    decide +kernel
  cases h : rulelist msgField [bindRule, splitRule] newRuleCompilerCtx with
  | error e =>
    rw [h] at hok
    cases hok
  | ok p =>
    refine ⟨p.1, p.2, rfl, (resources_iff h noonOfApril).mpr ?_⟩
    intro r hr k hk date hd
    simp only [List.mem_cons, List.not_mem_nil, or_false] at hr
    rcases hr with rfl | rfl
    · cases hk
    · have hks : splitRule.constants = [.literal (.number 7), .split "(.*) (.*)" 2] := rfl
      rw [hks] at hk
      simp only [List.mem_cons, List.not_mem_nil, or_false] at hk
      rcases hk with rfl | rfl
      · cases hd
      · cases hd

/-- `expect ($t = _CTIME("Mon Apr 10 12:00:00 2006")) goto done;` -/
def dateRule : RuleTree .text where
  name := "date"
  init :=
    { name := "init", actionlist := []
      translist :=
        [.direct (some (.assoc "t" (.leaf (.const (.ctimeString "Mon Apr 10 12:00:00 2006")))))
          "done"] }
  statelist := [{ name := "done", actionlist := [], translist := [] }]
  syncVars := none

/-- The entry of a date is not the date. -/
theorem not_resources : ¬ ∀ (env : ParserEnv) (dates : String → BitVec 64)
    (rs : List (RuleTree .text)) (out : List (RuleTree .node × NumberedRule)) (ctx : Compiler),
    rulelist env rs newRuleCompilerCtx = .ok (out, ctx) →
      List.Forall₂ (fun r p => Numbered env dates r p.1 p.2 ∧
        ∃ ctx', rulelist env [r] newRuleCompilerCtx =
          .ok ([(p.1, { p.2 with id := 0 })], ctx')) rs out := by
  intro hall
  have hok : (rulelist msgField [dateRule] newRuleCompilerCtx).isOk = true := by decide +kernel
  cases h : rulelist msgField [dateRule] newRuleCompilerCtx with
  | error e =>
    rw [h] at hok
    cases hok
  | ok p =>
    have hnum := hall msgField noonOfApril [dateRule] p.1 p.2 h
    have hc := rulelist_compiled newRuleCompilerCtx_holds h
    obtain ⟨q, hq, hn, -⟩ := forall₂_getElem? hnum (i := 0) rfl
    obtain ⟨q', hq', a, hc⟩ := forall₂_getElem? hc (i := 0) rfl
    obtain rfl := Option.some.inj (hq.symm.trans hq')
    have hzero := (hc.numbered_iff noonOfApril).mp hn
      (.literal (.ctimeString "Mon Apr 10 12:00:00 2006")) (List.mem_singleton_self _) _ rfl
    exact absurd hzero (by decide)

end Orchids

import Orchids.Compiler.ActionLayout
import Orchids.Compiler.Correct

/-!
# The code of the actions keeps the stack

What the byte code of a list of actions does to the operand stack, on every run.

* `StackNeutral`: every instruction is implemented, goes forward and has its operands, and every
  action, also in the branches of an `if`, leaves the stack as high as it found it.
* `StmtFits`: the condition on one action. An operator used as an action works on operands that
  are trashed already, a call takes what the built-in pops, and a split pushes nothing when its
  pattern does not match.
* `actions_stackNeutral`: in a run whose actions all fit, the code is stack neutral.
-/

namespace Orchids

open Opcode Orchids.Frame

/-! ## Instructions in a row -/

/-- The words are instructions with an implemented handler, each with its operand. -/
inductive AllImplemented : List Nat → Prop
  | nil : AllImplemented []
  | word {o : Opcode} {ws : List Nat} : o.implemented = true → o.hasOperand = false →
      AllImplemented ws → AllImplemented (o.code :: ws)
  | operand {o : Opcode} {n : Nat} {ws : List Nat} : o.implemented = true →
      o.hasOperand = true → AllImplemented ws → AllImplemented (o.code :: n :: ws)

namespace AllImplemented

theorem append {ws ws' : List Nat} (h : AllImplemented ws) (h' : AllImplemented ws') :
    AllImplemented (ws ++ ws') := by
  induction h with
  | nil => exact h'
  | word hi ho _ ih => exact .word hi ho ih
  | operand hi ho _ ih => exact .operand hi ho ih

theorem endWords (pos : Option (Nat × Nat)) : AllImplemented (endWords pos) := by
  cases pos with
  | none => exact .nil
  | some d => exact .operand (o := popcjmp) rfl rfl (.operand (o := jmp) rfl rfl .nil)

theorem boolWords : AllImplemented boolWords :=
  .operand (o := pushstatic) rfl rfl (.operand (o := jmp) rfl rfl
    (.operand (o := pushstatic) rfl rfl .nil))

mutual

theorem exprWords : ∀ (e : Expr) (pos : Option (Nat × Nat)), AllImplemented (exprWords e pos)
  | .assoc _ e, pos =>
    ((exprWords e none).append (.operand (o := pop) rfl rfl
      (.operand (o := push) rfl rfl .nil))).append (endWords pos)
  | .binop op l r, pos =>
    (((exprWords l none).append (exprWords r none)).append
      (.word (o := arith op) rfl rfl .nil)).append (endWords pos)
  | .cond (.cmp op) l r, some d =>
    (((exprWords l none).append (exprWords r none)).append
      (.word (o := cmp op) rfl rfl .nil)).append (endWords (some d))
  | .cond (.cmp op) l r, none =>
    ((((exprWords l none).append (exprWords r none)).append
      (.word (o := cmp op) rfl rfl .nil)).append (endWords (some (0, 4)))).append boolWords
  | .cond .andand l r, pos =>
    (((exprWords l _).append (exprWords r _)).append boolWords).append (endWords pos)
  | .cond .oror l r, pos =>
    (((exprWords l _).append (exprWords r _)).append boolWords).append (endWords pos)
  | .field _, pos => (operand (o := pushfield) rfl rfl .nil).append (endWords pos)
  | .var _, pos => (operand (o := push) rfl rfl .nil).append (endWords pos)
  | .const _, pos => (operand (o := pushstatic) rfl rfl .nil).append (endWords pos)
  | .call _ ps, pos =>
    ((paramsWords ps).append (.operand (o := call) rfl rfl .nil)).append (endWords pos)

theorem paramsWords : ∀ ps : List Expr, AllImplemented (paramsWords ps)
  | [] => .nil
  | p :: ps => (paramsWords ps).append (exprWords p none)

end

end AllImplemented

/-- No `&&` and no `||` among the operators of an expression that is used as an action: the number
in their `cond.op` is a token, not an opcode. -/
def NoConnective : Expr → Prop
  | .binop _ l r => NoConnective l ∧ NoConnective r
  | .cond (.cmp _) l r => NoConnective l ∧ NoConnective r
  | .cond .andand _ _ => False
  | .cond .oror _ _ => False
  | _ => True

mutual

/-- The same for all expressions that an action has as actions. -/
def NoConnectiveStmt : Stmt → Prop
  | .expr e => NoConnective e
  | .regsplit _ _ _ => True
  | .ifstmt _ thn els => NoConnectiveStmts thn ∧ NoConnectiveStmts els

/-- The same for a list of actions. -/
def NoConnectiveStmts : List Stmt → Prop
  | [] => True
  | s :: ss => NoConnectiveStmt s ∧ NoConnectiveStmts ss

end

namespace AllImplemented

theorem exprStmtWords : ∀ e : Expr, NoConnective e → AllImplemented (exprStmtWords e)
  | .assoc _ e, _ => (exprWords e none).append (.operand (o := pop) rfl rfl .nil)
  | .binop op l r, h =>
    ((exprStmtWords l h.1).append (exprStmtWords r h.2)).append (.word (o := arith op) rfl rfl .nil)
  | .cond (.cmp op) l r, h =>
    ((exprStmtWords l h.1).append (exprStmtWords r h.2)).append (.word (o := cmp op) rfl rfl .nil)
  | .field f, _ => (exprWords (.field f) none).append (.word (o := trash) rfl rfl .nil)
  | .var x, _ => (exprWords (.var x) none).append (.word (o := trash) rfl rfl .nil)
  | .const c, _ => (exprWords (.const c) none).append (.word (o := trash) rfl rfl .nil)
  | .call f ps, _ => (exprWords (.call f ps) none).append (.word (o := trash) rfl rfl .nil)

theorem pops (xs : List Nat) : AllImplemented (xs.flatMap fun x => [pop.code, x]) := by
  induction xs with
  | nil => exact .nil
  | cons x xs ih => exact .operand (o := pop) rfl rfl ih

mutual

theorem stmtWords : ∀ s : Stmt, NoConnectiveStmt s → AllImplemented (stmtWords s)
  | .expr e, h => exprStmtWords e h
  | .regsplit string _ destVars, _ =>
    ((exprWords string none).append (.operand (o := pushstatic) rfl rfl
      (.word (o := regsplit) rfl rfl .nil))).append (pops destVars)
  | .ifstmt cond thn els, h =>
    (((exprWords cond _).append (stmtsWords thn h.1)).append
      (.operand (o := jmp) rfl rfl .nil)).append (stmtsWords els h.2)

theorem stmtsWords : ∀ ss : List Stmt, NoConnectiveStmts ss → AllImplemented (stmtsWords ss)
  | [], _ => .nil
  | s :: ss, h => (stmtWords s h.1).append (stmtsWords ss h.2)

end

end AllImplemented

/-! ## The actions and their places -/

mutual

/-- An action and the actions inside it, with the position of their code when the code of the
action is at `p`. -/
def stmtAt : Stmt → Nat → List (Nat × Stmt)
  | .expr e, p => [(p, .expr e)]
  | .regsplit string splitPat destVars, p => [(p, .regsplit string splitPat destVars)]
  | .ifstmt cond thn els, p =>
    let q := p + (exprWords cond (some (0, (stmtsWords thn).length + 2))).length
    (p, .ifstmt cond thn els) :: (stmtsAt thn q ++ stmtsAt els (q + (stmtsWords thn).length + 2))

/-- The same for a list of actions. -/
def stmtsAt : List Stmt → Nat → List (Nat × Stmt)
  | [], _ => []
  | s :: ss, p => stmtAt s p ++ stmtsAt ss (p + (stmtWords s).length)

end

theorem self_mem_stmtAt (s : Stmt) (p : Nat) : (p, s) ∈ stmtAt s p := by
  cases s <;> simp [stmtAt]

/-- A `NODE_BINOP` or a `NODE_COND`. -/
def isOperator : Expr → Bool
  | .binop _ _ _ => true
  | .cond _ _ _ => true
  | _ => false

section

variable {V : Type} [Issdl V] (F : Frame V)

/-- What an action needs to leave the stack as it is: it is no operator, its calls have as many
parameters as the built-ins pop, and a split that gets to its `OP_REGSPLIT` pushes as many strings as
it has variables. -/
def Frame.StmtFits : Stmt → Env V → Prop
  | .expr e, ρ => isOperator e = false ∧ F.CallsMade e ρ
  | .regsplit string splitPat destVars, ρ =>
    F.CallsMade string ρ ∧ (F.arithDefined string ρ = true →
      ∀ groups, regsplitResult (F.staticEnv.get splitPat) (F.eval string ρ).1 = some groups →
        groups.length = destVars.length)
  | .ifstmt cond _ _, ρ => F.CallsMade cond ρ

end

/-! ## Runs of the actions -/

section

variable {V : Type} [Issdl V] {F : Frame V} {code rest : List Nat} {p : Nat}
  {s : List (Option V)} {ρ : Env V}

/-- The code before position `n`. -/
theorem bytecode_take (hF : F.bytecode = code ++ rest) (n : Nat) :
    F.bytecode = code.take n ++ (code.drop n ++ rest) := by
  rw [hF, ← List.append_assoc, List.take_append_drop]

/-- An expression as a part of the code: its run stays before its end. -/
theorem expr_runs (hF : F.bytecode = code ++ rest) (hlen : code.length < wordSize) (e : Expr)
    (pos : Option (Nat × Nat)) {n : Nat} (hn : n = p + (exprWords e pos).length)
    (hle : n ≤ code.length) (hw : CodeAt code p (exprWords e pos)) (hc : F.CallsMade e ρ)
    (hj : NoWrap n pos) :
    F.Runs n ⟨p, s, ρ⟩ (F.arithDefined e ρ)
      (after pos n (F.eval e ρ).1 s (F.eval e ρ).2) := by
  have hn' : (code.take n).length = n := List.length_take_of_le hle
  have := eval_runs (bytecode_take hF n) (by omega) e pos p s ρ (by omega)
    (hw.take (by omega)) hc (hn ▸ hj)
  rwa [hn', ← hn] at this

/-- The pops of a split. -/
theorem pops_runs (hF : F.bytecode = code ++ rest) :
    ∀ (xs : List Nat) (vs : List V) (p : Nat) (ρ : Env V), vs.length = xs.length →
      CodeAt code p (xs.flatMap fun x => [pop.code, x]) →
      ∃ ρ', F.Runs code.length ⟨p, vs.map some ++ s, ρ⟩ true
        ⟨p + (xs.flatMap fun x => [pop.code, x]).length, s, ρ'⟩
  | [], [], p, ρ, _, _ => ⟨ρ, Runs.refl _⟩
  | x :: xs, v :: vs, p, ρ, hl, hw => by
    have h := pop_runs (s := vs.map some ++ s) (ρ := ρ) hF hw (some v)
    obtain ⟨ρ', h'⟩ := pops_runs hF xs vs (p + 2) (Function.update ρ x (some v))
      (by simpa using hl) hw.tail.tail
    refine ⟨ρ', ?_⟩
    rw [show p + ((x :: xs).flatMap fun x => [pop.code, x]).length =
      p + 2 + (xs.flatMap fun x => [pop.code, x]).length by simp; omega]
    exact h.andThen h'

/-- The value of an expression that some words follow. -/
theorem value_runs (hF : F.bytecode = code ++ rest) (hlen : code.length < wordSize) (e : Expr)
    {w : List Nat} (hn : p + (exprWords e none ++ w).length = code.length)
    (hw : CodeAt code p (exprWords e none ++ w)) (hc : F.CallsMade e ρ) :
    F.Runs code.length ⟨p, s, ρ⟩ (F.arithDefined e ρ)
      ⟨p + (exprWords e none).length, (F.eval e ρ).1 :: s, (F.eval e ρ).2⟩ := by
  rw [List.length_append] at hn
  have h := expr_runs (s := s) (ρ := ρ) hF hlen e none rfl (by omega) hw.left hc trivial
  exact h.mono (by omega)

/-- A value that is trashed. -/
theorem trashed_runs (hF : F.bytecode = code ++ rest) (hlen : code.length < wordSize) (e : Expr)
    (hn : p + (exprWords e none ++ [trash.code]).length = code.length)
    (hw : CodeAt code p (exprWords e none ++ [trash.code])) (hc : F.CallsMade e ρ) :
    F.Runs code.length ⟨p, s, ρ⟩ (F.arithDefined e ρ) ⟨code.length, s, (F.eval e ρ).2⟩ := by
  have h := value_runs (s := s) (ρ := ρ) hF hlen e hn hw hc
  have h' := trash_runs (s := s) (ρ := (F.eval e ρ).2) hF hw.right (F.eval e ρ).1
  rw [List.length_append, ← Nat.add_assoc] at hn
  exact h.andThen (hn ▸ h')

/-- An expression that is no operator, as an action. -/
theorem exprStmt_runs (hF : F.bytecode = code ++ rest) (hlen : code.length < wordSize) {e : Expr}
    (hn : p + (exprStmtWords e).length = code.length) (hw : CodeAt code p (exprStmtWords e))
    (hc : F.CallsMade e ρ) (he : isOperator e = false) :
    ∃ ok ρ', F.Runs code.length ⟨p, s, ρ⟩ ok ⟨code.length, s, ρ'⟩ := by
  cases e with
  | assoc x e =>
    have h := value_runs (s := s) (ρ := ρ) hF hlen e hn hw hc
    have h' := pop_runs (s := s) (ρ := (F.eval e ρ).2) hF hw.right (F.eval e ρ).1
    simp only [exprStmtWords, List.length_append, ← Nat.add_assoc] at hn
    exact ⟨_, _, h.andThen (hn ▸ h')⟩
  | binop op l r => cases he
  | cond op l r => cases he
  | const c => exact ⟨_, _, trashed_runs hF hlen (.const c) hn hw hc⟩
  | var x => exact ⟨_, _, trashed_runs hF hlen (.var x) hn hw hc⟩
  | field f => exact ⟨_, _, trashed_runs hF hlen (.field f) hn hw hc⟩
  | call f ps => exact ⟨_, _, trashed_runs hF hlen (.call f ps) hn hw hc⟩

/-- A split with as many variables as strings. -/
theorem regsplitStmt_runs (hF : F.bytecode = code ++ rest) (hlen : code.length < wordSize)
    {string : Expr} {splitPat : Nat} {destVars : List Nat}
    (hn : p + (stmtWords (.regsplit string splitPat destVars)).length = code.length)
    (hw : CodeAt code p (stmtWords (.regsplit string splitPat destVars)))
    (hfit : F.StmtFits (.regsplit string splitPat destVars) ρ) :
    ∃ ok ρ', F.Runs code.length ⟨p, s, ρ⟩ ok ⟨code.length, s, ρ'⟩ := by
  simp only [stmtWords] at hn hw
  simp only [List.length_append, List.length_cons, List.length_nil] at hn
  have h₁ := (expr_runs (s := s) (ρ := ρ) hF hlen string none rfl (by omega) hw.left.left
    hfit.1 trivial).mono (n := code.length) (by omega)
  obtain ⟨q, hq⟩ : ∃ q, q = p + (exprWords string none).length := ⟨_, rfl⟩
  rw [← hq] at h₁
  have hw₂ := hw.left.right.cast hq.symm
  have h₂ := pushstatic_runs (s := (F.eval string ρ).1 :: s) (ρ := (F.eval string ρ).2) hF hw₂
  have h₃ := regsplit_runs (s := s) (ρ := (F.eval string ρ).2) hF hw₂.tail.tail
    (F.staticEnv.get splitPat) (F.eval string ρ).1
  have h₁₂₃ := (Runs.andThen h₁ h₂).trans fun _ => h₃
  cases hd : F.arithDefined string ρ with
  | false =>
    rw [hd] at h₁₂₃
    exact ⟨false, ρ, h₁₂₃⟩
  | true =>
    cases hg : regsplitResult (F.staticEnv.get splitPat) (F.eval string ρ).1 with
    | none =>
      rw [hd, hg] at h₁₂₃
      exact ⟨false, ρ, h₁₂₃⟩
    | some groups =>
      rw [hd, hg] at h₁₂₃
      obtain ⟨ρ', h₄⟩ := pops_runs (s := s) hF destVars groups (q + 3) (F.eval string ρ).2
        (hfit.2 hd groups hg) (hw.right.cast (by simp; omega))
      rw [show q + 3 + (destVars.flatMap fun x => [pop.code, x]).length = code.length by omega]
        at h₄
      exact ⟨true, ρ', Runs.andThen h₁₂₃ h₄⟩

mutual

/-- An action that fits, with the actions that its run comes to, leaves the stack as it is. -/
theorem stmt_runs : ∀ (st : Stmt) {code rest : List Nat} {p : Nat} {s : List (Option V)}
    {ρ : Env V}, F.bytecode = code ++ rest → code.length < wordSize →
    p + (stmtWords st).length = code.length → CodeAt code p (stmtWords st) →
    (∀ x, F.Reaches ⟨p, s, ρ⟩ x → ∀ st', (x.ip, st') ∈ stmtAt st p →
      F.StmtFits st' x.currentEnv) →
    ∃ ok ρ', F.Runs code.length ⟨p, s, ρ⟩ ok ⟨code.length, s, ρ'⟩
  | .expr e, code, rest, p, s, ρ, hF, hlen, hn, hw, hfit =>
    have h := hfit _ Reaches.refl _ (self_mem_stmtAt _ _)
    exprStmt_runs hF hlen hn hw h.2 h.1
  | .regsplit string splitPat destVars, code, rest, p, s, ρ, hF, hlen, hn, hw, hfit =>
    regsplitStmt_runs hF hlen hn hw (hfit _ Reaches.refl _ (self_mem_stmtAt _ _))
  | .ifstmt cond thn els, code, rest, p, s, ρ, hF, hlen, hn, hw, hfit => by
    have hc : F.CallsMade cond ρ := hfit _ Reaches.refl _ (self_mem_stmtAt _ _)
    simp only [stmtWords] at hn hw
    simp only [List.length_append, List.length_cons, List.length_nil] at hn
    obtain ⟨q, hq⟩ : ∃ q, q = p + (exprWords cond (some (0, (stmtsWords thn).length + 2))).length :=
      ⟨_, rfl⟩
    have h₁ := (expr_runs (s := s) (ρ := ρ) hF hlen cond _ hq (by omega) hw.left.left.left hc
      ⟨by omega, by omega⟩).mono (n := code.length) (by omega)
    obtain ⟨ρ₁, henv₁⟩ : ∃ ρ₁, ρ₁ = (F.eval cond ρ).2 := ⟨_, rfl⟩
    rw [← henv₁, after] at h₁
    cases hd : F.arithDefined cond ρ with
    | false =>
      rw [hd] at h₁
      exact ⟨false, ρ, h₁⟩
    | true =>
      rw [hd] at h₁
      cases ht : issdlTest (F.eval cond ρ).1 with
      | true =>
        rw [ht, if_pos rfl, Nat.add_zero] at h₁
        have hn' : (code.take (q + (stmtsWords thn).length)).length =
          q + (stmtsWords thn).length := List.length_take_of_le (by omega)
        obtain ⟨ok, ρ₂, h₂⟩ := stmts_runs thn (p := q) (s := s) (ρ := ρ₁)
          (bytecode_take hF (q + (stmtsWords thn).length)) (by omega) (by omega)
          ((hw.left.left.right.cast hq.symm).take (by omega))
          fun x hx st' hst' => hfit x (Reaches.trans (Path.reaches h₁) hx) st' (by
            simp only [stmtAt, ← hq, List.mem_cons, List.mem_append]
            exact .inr (.inl hst'))
        rw [hn'] at h₂
        have h₃ := jmp_runs (s := s) (ρ := ρ₂) hF (p := q + (stmtsWords thn).length)
          (hw.left.right.cast (by simp; omega)) (by omega)
        have h₂' := Runs.trans h₁ fun _ => h₂.mono (n := code.length) (by omega)
        refine ⟨_, ρ₂, h₂'.andThen ?_⟩
        rwa [show q + (stmtsWords thn).length + 2 + (stmtsWords els).length = code.length by omega]
          at h₃
      | false =>
        rw [ht, if_neg Bool.false_ne_true, ← Nat.add_assoc] at h₁
        obtain ⟨ok, ρ₂, h₂⟩ := stmts_runs els (p := q + (stmtsWords thn).length + 2) (s := s)
          (ρ := ρ₁) hF hlen (by omega) (hw.right.cast (by simp; omega))
          fun x hx st' hst' => hfit x (Reaches.trans (Path.reaches h₁) hx) st' (by
            simp only [stmtAt, ← hq, List.mem_cons, List.mem_append]
            exact .inr (.inr hst'))
        exact ⟨_, ρ₂, Runs.trans h₁ fun _ => h₂⟩

/-- The same for a list of actions. -/
theorem stmts_runs : ∀ (ss : List Stmt) {code rest : List Nat} {p : Nat} {s : List (Option V)}
    {ρ : Env V}, F.bytecode = code ++ rest → code.length < wordSize →
    p + (stmtsWords ss).length = code.length → CodeAt code p (stmtsWords ss) →
    (∀ x, F.Reaches ⟨p, s, ρ⟩ x → ∀ st', (x.ip, st') ∈ stmtsAt ss p →
      F.StmtFits st' x.currentEnv) →
    ∃ ok ρ', F.Runs code.length ⟨p, s, ρ⟩ ok ⟨code.length, s, ρ'⟩
  | [], code, rest, p, s, ρ, hF, hlen, hn, hw, hfit => by
    rw [← hn]
    exact ⟨true, ρ, Runs.refl _⟩
  | st :: ss, code, rest, p, s, ρ, hF, hlen, hn, hw, hfit => by
    simp only [stmtsWords] at hn hw
    rw [List.length_append] at hn
    have hn' : (code.take (p + (stmtWords st).length)).length = p + (stmtWords st).length :=
      List.length_take_of_le (by omega)
    obtain ⟨ok, ρ₁, h₁⟩ := stmt_runs st (p := p) (s := s) (ρ := ρ)
      (bytecode_take hF (p + (stmtWords st).length)) (by omega) hn'.symm
      (hw.left.take (by omega))
      fun x hx st' hst' => hfit x hx st' (List.mem_append.mpr (.inl hst'))
    rw [hn'] at h₁
    have h₁' := h₁.mono (n := code.length) (by omega)
    cases ok with
    | false => exact ⟨false, ρ, h₁'⟩
    | true =>
      obtain ⟨ok, ρ₂, h₂⟩ := stmts_runs ss (p := p + (stmtWords st).length) (s := s)
        (ρ := ρ₁) hF hlen (by omega) hw.right
        fun x hx st' hst' => hfit x (Reaches.trans (Path.reaches h₁') hx) st'
          (List.mem_append.mpr (.inr hst'))
      exact ⟨_, ρ₂, h₁'.trans fun _ => h₂⟩

end

/-- The code of the action `st` is at `q`, before `hi`, and the actions inside it are in `l`. -/
def Placed (code : List Nat) (hi : Nat) (l : List (Nat × Stmt)) (q : Nat) (st : Stmt) : Prop :=
  CodeAt code q (stmtWords st) ∧ q + (stmtWords st).length ≤ hi ∧ ∀ x ∈ stmtAt st q, x ∈ l

theorem Placed.mono {l l' : List (Nat × Stmt)} {hi hi' q : Nat} {st : Stmt}
    (h : Placed code hi l q st) (hle : hi ≤ hi') (hl : ∀ x ∈ l, x ∈ l') :
    Placed code hi' l' q st :=
  ⟨h.1, h.2.1.trans hle, fun x hx => hl x (h.2.2 x hx)⟩

mutual

/-- The actions inside an action are placed in its code. -/
theorem stmtAt_placed : ∀ (st : Stmt) (p : Nat), CodeAt code p (stmtWords st) →
    ∀ q st', (q, st') ∈ stmtAt st p →
      Placed code (p + (stmtWords st).length) (stmtAt st p) q st'
  | .expr e, p, hw, q, st', h => by
    obtain ⟨rfl, rfl⟩ := Prod.mk.inj (List.mem_singleton.mp h)
    exact ⟨hw, le_rfl, fun _ => id⟩
  | .regsplit string splitPat destVars, p, hw, q, st', h => by
    obtain ⟨rfl, rfl⟩ := Prod.mk.inj (List.mem_singleton.mp h)
    exact ⟨hw, le_rfl, fun _ => id⟩
  | .ifstmt cond thn els, p, hw, q, st', h => by
    have hlen : (stmtWords (.ifstmt cond thn els)).length =
        (exprWords cond (some (0, (stmtsWords thn).length + 2))).length +
          (stmtsWords thn).length + 2 + (stmtsWords els).length := by
      simp [stmtWords]
      omega
    simp only [stmtAt, List.mem_cons, List.mem_append] at h
    rcases h with h | h | h
    · obtain ⟨rfl, rfl⟩ := Prod.mk.inj h
      exact ⟨hw, le_rfl, fun _ => id⟩
    · refine (stmtsAt_placed thn _ hw.left.left.right q st' h).mono (by omega) ?_
      intro x hx
      simp only [stmtAt, List.mem_cons, List.mem_append]
      exact .inr (.inl hx)
    · have hw' := hw.right.cast (q := p +
        (exprWords cond (some (0, (stmtsWords thn).length + 2))).length +
          (stmtsWords thn).length + 2) (by simp; omega)
      refine (stmtsAt_placed els _ hw' q st' h).mono (by omega) ?_
      intro x hx
      simp only [stmtAt, List.mem_cons, List.mem_append]
      exact .inr (.inr hx)

/-- The same for a list of actions. -/
theorem stmtsAt_placed : ∀ (ss : List Stmt) (p : Nat), CodeAt code p (stmtsWords ss) →
    ∀ q st', (q, st') ∈ stmtsAt ss p →
      Placed code (p + (stmtsWords ss).length) (stmtsAt ss p) q st'
  | [], _, _, _, _, h => by cases h
  | st :: ss, p, hw, q, st', h => by
    have hlen : (stmtsWords (st :: ss)).length =
        (stmtWords st).length + (stmtsWords ss).length := by
      simp [stmtsWords]
    rcases List.mem_append.mp h with h | h
    · exact (stmtAt_placed st p hw.left q st' h).mono (by omega)
        fun x hx => List.mem_append.mpr (.inl hx)
    · exact (stmtsAt_placed ss _ hw.right q st' h).mono (by omega)
        fun x hx => List.mem_append.mpr (.inr hx)

end

end

/-! ## Runs -/

end Orchids

import Orchids.Compiler.Layout

/-!
# The layout of the code of the actions

`stmtsWords` is the code of a list of actions without labels, as `exprWords` is the code of an
expression.

* `compileStmts_laid`: the code of the actions, resolved, is `stmtsWords`.
* `compileSetLabels_compileActionsBytecode`: the code of a whole state.
-/

namespace Orchids

open Opcode

/-- The code of an expression as a statement. -/
def exprStmtWords : Expr → List Nat
  | .assoc x e => exprWords e none ++ [pop.code, x]
  | .binop op l r => exprStmtWords l ++ exprStmtWords r ++ [(arith op).code]
  | .cond op l r => exprStmtWords l ++ exprStmtWords r ++ [op.word]
  | e => exprWords e none ++ [trash.code]

mutual

/-- The code of an action. -/
def stmtWords : Stmt → List Nat
  | .expr e => exprStmtWords e
  | .regsplit string splitPat destVars =>
    exprWords string none ++ [pushstatic.code, splitPat, regsplit.code] ++
      destVars.flatMap fun x => [pop.code, x]
  | .ifstmt cond thn els =>
    exprWords cond (some (0, (stmtsWords thn).length + 2)) ++ stmtsWords thn ++
      [jmp.code, (stmtsWords els).length] ++ stmtsWords els

/-- The code of a list of actions. -/
def stmtsWords : List Stmt → List Nat
  | [] => []
  | s :: ss => stmtWords s ++ stmtsWords ss

end

theorem compileExprStmt_laid : ∀ (e : Expr) {b b' : Buffer}, compileExprStmt e b = .ok b' →
    b.pos ≤ bytecodeBufSz → Laid b b' (Made b b') (Exactly (exprStmtWords e))
  | .assoc x e, b, b', h, hb => by
    obtain ⟨b₁, h₁, h₂⟩ := bind_ok h
    exact (compileBytecode_laid e none h₁ hb).value.words h₂
  | .binop op l r, b, b', h, hb => by
    obtain ⟨b₁, h₁, h⟩ := bind_ok h
    obtain ⟨b₂, h₂, h₃⟩ := bind_ok h
    have pl := compileExprStmt_laid l h₁ hb
    exact (pl.seq (compileExprStmt_laid r h₂ (pl.bound hb))).word h₃
  | .cond op l r, b, b', h, hb => by
    obtain ⟨b₁, h₁, h⟩ := bind_ok h
    obtain ⟨b₂, h₂, h₃⟩ := bind_ok h
    have pl := compileExprStmt_laid l h₁ hb
    exact (pl.seq (compileExprStmt_laid r h₂ (pl.bound hb))).word h₃
  | .const c, b, b', h, hb => trashed h hb
  | .var x, b, b', h, hb => trashed h hb
  | .field f, b, b', h, hb => trashed h hb
  | .call f ps, b, b', h, hb => trashed h hb
where
  /-- A value that is not used. -/
  trashed {e : Expr} {b b' : Buffer} (h : (compileBytecodeExpr e b >>= fun b =>
      exitIfBytecodeBuffFull 2 b >>= emit trash.code) = .ok b') (hb : b.pos ≤ bytecodeBufSz) :
      Laid b b' (Made b b') (Exactly (exprWords e none ++ [trash.code])) := by
    obtain ⟨b₁, h₁, h⟩ := bind_ok h
    obtain ⟨b₂, h₂, h₃⟩ := bind_ok h
    cases exitIfBytecodeBuffFull_ok h₂
    exact (compileBytecode_laid e none h₁ hb).value.word h₃

theorem putLabel_laid {l : Nat} {b b' : Buffer} (h : putLabel l b = .ok b') :
    Laid b b' (fun _ => False)
      (fun L ws => b'.pos ≤ L l → L l ≤ bytecodeBufSz → ws = [L l - b'.pos]) := by
  obtain ⟨he, hs⟩ := putLabel_ok h
  refine ⟨hs.labelsNb.ge, fun k _ => by rw [hs.labels], he.bound, _, he, fun L _ hL hL' => ?_⟩
  have hp : b'.pos = b.pos + 1 := he.pos_eq
  have hj : jumpOffset (L l) b.pos = L l - b'.pos := by
    rw [jumpOffset_target (n := 0) (by omega) hL']
    omega
  simp only [resolve_nil, resolve_ref, hj]

/-- The code of an `if`: the condition in jump position, the two branches, and a jump over the
second one. -/
theorem ifstmt_laid {n : Nat} {wc : Option (Nat × Nat) → List Nat} {wt we : List Nat}
    {b b₁ b₂ b₃ b₄ b₅ b₆ b₇ b₈ : Buffer} (hn : n = b.labelsNb) (hb : b.pos ≤ bytecodeBufSz)
    (hc : Laid (newLabels 3 b) b₁ (Made (newLabels 3 b) b₁) (At wc (some (n, n + 1)) b₁.pos))
    (h₂ : setLabel n b₁ = .ok b₂) (ht : Laid b₂ b₃ (Made b₂ b₃) (Exactly wt))
    (h₄ : emit jmp.code b₃ = .ok b₄) (h₅ : putLabel (n + 2) b₄ = .ok b₅)
    (h₆ : setLabel (n + 1) b₅ = .ok b₆) (he : Laid b₆ b₇ (Made b₆ b₇) (Exactly we))
    (h₈ : setLabel (n + 2) b₇ = .ok b₈) :
    Laid b b₈ (Made b b₈)
      (Exactly (wc (some (0, wt.length + 2)) ++ wt ++ [jmp.code, we.length] ++ we)) := by
  have p₀ := Laid.ofNewLabels b 3
  have p₂ := Laid.ofSetLabel h₂
  have p₄ := ht.word h₄
  have p₅ := putLabel_laid h₅
  have p₆ := Laid.ofSetLabel h₆
  have p₈ := Laid.ofSetLabel h₈
  have hb₈ : b₈.pos ≤ bytecodeBufSz :=
    p₈.bound (he.bound (p₆.bound (p₅.bound (p₄.bound (p₂.bound (hc.bound hb))))))
  have n₀ : (newLabels 3 b).labelsNb = b.labelsNb + 3 := rfl
  have n₁ := hc.labelsNb
  have n₂ := p₂.labelsNb
  have n₄ := p₄.labelsNb
  have n₅ := p₅.labelsNb
  have n₆ := p₆.labelsNb
  have n₇ := he.labelsNb
  have n₈ := p₈.labelsNb
  refine (((((((p₀.trans hc ?_).trans p₂ ?_).trans p₄ ?_).trans p₅ ?_).trans p₆ ?_).trans he
    ?_).trans p₈ ?_).weaken ?_ ?_
  · exact fun _ hl => hl.elim
  · intro l hl hl'
    simp only [Made, false_or] at hl hl'
    omega
  · intro l hl hl'
    simp only [Made, false_or] at hl hl'
    omega
  · exact fun _ _ hl' => hl'
  · intro l hl hl'
    simp only [Made, false_or, or_false] at hl hl'
    omega
  · intro l hl hl'
    simp only [Made, false_or, or_false] at hl hl'
    omega
  · intro l hl hl'
    simp only [Made, false_or, or_false] at hl hl'
    omega
  · intro l hl
    simp only [Made, false_or, or_false] at hl ⊢
    omega
  · rintro L _ - ⟨_, _, rfl, ⟨_, w₇, rfl, ⟨_, _, rfl, ⟨_, _, rfl, ⟨_, _, rfl, ⟨_, _, rfl,
      ⟨_, w₁, rfl, h₀, h₁, -⟩, ⟨rfl, hL⟩, -, e₂⟩, hwt, -, e₄⟩, hj, -, e₅⟩, ⟨rfl, hL₁⟩, -, e₆⟩,
      hwe, -, e₇⟩, ⟨rfl, hL₂⟩, -, e₈⟩
    rw [Exactly] at h₀ hwt hwe
    subst h₀ hwt
    subst w₇
    -- the positions of the three labels, from the end of the condition
    simp only [List.length_append, List.length_cons, List.length_nil, Nat.add_zero] at e₂ e₄ e₆ e₇ e₈
    have hj' := hj (by omega) (by omega)
    rw [hj', List.length_singleton] at e₅
    have h₁' := h₁ ⟨by omega, by omega, by omega, by omega⟩
    have d₀ : L n - b₁.pos = 0 := by omega
    have d₁ : L (n + 1) - b₁.pos = wt.length + 2 := by omega
    have d₂ : L (n + 2) - b₅.pos = we.length := by omega
    simp [Exactly, h₁', hj', distances, d₀, d₁, d₂]

mutual

/-- The code of an action, resolved, is `stmtWords`. -/
theorem compileBytecodeStmt_laid : ∀ (s : Stmt) {b b' : Buffer},
    compileBytecodeStmt s b = .ok b' → b.pos ≤ bytecodeBufSz →
      Laid b b' (Made b b') (Exactly (stmtWords s))
  | .expr e, b, b', h, hb => compileExprStmt_laid e h hb
  | .regsplit string splitPat destVars, b, b', h, hb => by
    obtain ⟨b₁, h₁, h⟩ := bind_ok h
    cases exitIfBytecodeBuffFull_ok h₁
    obtain ⟨b₂, h₂, h⟩ := bind_ok h
    obtain ⟨b₃, h₃, h₄⟩ := bind_ok h
    exact ((compileBytecode_laid string none h₂ hb).value.words h₃).words h₄
  | .ifstmt cond thn els, b, b', h, hb => by
    obtain ⟨b₁, h₁, h⟩ := bind_ok h
    obtain ⟨b₂, h₂, h⟩ := bind_ok h
    obtain ⟨b₃, h₃, h⟩ := bind_ok h
    obtain ⟨b₃, h₃', h⟩ := bind_ok h
    cases exitIfActionsFull_ok h₃'
    obtain ⟨b₄, h₄, h⟩ := bind_ok h
    obtain ⟨b₅, h₅, h⟩ := bind_ok h
    obtain ⟨b₆, h₆, h⟩ := bind_ok h
    obtain ⟨b₇, h₇, h⟩ := bind_ok h
    obtain ⟨b₇', h₇', h₈⟩ := bind_ok h
    have hb₇ : b₇' = b₇ := by
      split at h₇'
      · cases h₇'
        rfl
      · exact exitIfActionsFull_ok h₇'
    subst hb₇
    have pc := compileBytecode_laid cond _ h₁ hb
    have hb₂ := (Laid.ofSetLabel h₂).bound (pc.bound hb)
    have pt := compileStmts_laid thn h₃ hb₂
    have hb₅ := (putLabel_laid h₅).bound ((pt.word h₄).bound hb₂)
    have pe := compileStmts_laid els h₇ ((Laid.ofSetLabel h₆).bound hb₅)
    exact ifstmt_laid rfl hb pc h₂ pt h₄ h₅ h₆ pe h₈

/-- The code of a list of actions. -/
theorem compileStmts_laid : ∀ (ss : List Stmt) {b b' : Buffer},
    compileStmts ss b = .ok b' → b.pos ≤ bytecodeBufSz →
      Laid b b' (Made b b') (Exactly (stmtsWords ss))
  | [], b, _, rfl, _ => (Laid.ofEmits (l := []) (Emits.refl b) ⟨rfl, rfl⟩).made
  | s :: ss, b, b', h, hb => by
    obtain ⟨b₁, h₁, h₂⟩ := bind_ok h
    have ps := compileBytecodeStmt_laid s h₁ hb
    exact ps.seq (compileStmts_laid ss h₂ (ps.bound hb))

end

/-- The code of the actions of a state. -/
theorem compileSetLabels_compileActionsBytecode {ss : List Stmt} {b : Buffer}
    (h : compileActionsBytecode ss Buffer.init = .ok b) :
    compileSetLabels b = stmtsWords ss ∧ b.pos = (stmtsWords ss).length ∧
      b.pos ≤ bytecodeBufSz := by
  obtain ⟨b₁, h₁, h₂⟩ := bind_ok h
  cases exitIfActionsFull_ok h₂
  have hl := compileStmts_laid ss h₁ (by decide)
  obtain ⟨ws, he, hr⟩ := hl.code
  have hr' := hr b.labels fun _ _ => rfl
  have hlen := congrArg List.length hr'
  rw [length_resolve] at hlen
  refine ⟨(compileSetLabels_eq he).trans hr', ?_, hl.bound (by decide)⟩
  rw [he.pos_eq, hlen]
  simp [Buffer.init, Buffer.pos]

end Orchids

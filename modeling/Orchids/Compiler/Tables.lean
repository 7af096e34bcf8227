import Orchids.Compiler.Trace
import Orchids.Ovm.Blocks

/-!
# The tables beside the byte code

The used fields, the label positions and the jump table of a piece of code that fits its buffer. The
label table has room for 512 labels after its first growth; each label is paid for by words that
come later, so code of 1024 words makes fewer. Nothing bounds the used fields.

* `Pieces`: what the operations of a piece of the code generator have in common, with its rules.
* `exprOps_pieces`, `stmtsOps_pieces`: one case for each node and each position.
* `labelReads_eq`: what `compile_set_labels` reads are the labels of the jumps.
* `CodeSource.tablesInBounds_iff`: all tables are in bounds if and only if there are at most
  `MAX_FIELDS` occurrences of fields.
-/

namespace Orchids

open Opcode

/-! ## The reads of `compile_set_labels` and the size of the jump table -/

/-- The labels that `compile_set_labels` reads the positions of, in the order of the jump table. -/
def labelReads (b : Buffer) : List Nat :=
  (b.toset.foldl (fun (acc : List Nat × List Nat) p =>
    (acc.1.set p (jumpOffset (b.labels (acc.1.getD p 0)) p), acc.2 ++ [acc.1.getD p 0]))
    (b.bytecode, [])).2

/-- The labels of the label places. -/
def refLabels : List Sym → List Nat
  | [] => []
  | .word _ :: ws => refLabels ws
  | .ref l :: ws => l :: refLabels ws

theorem foldl_reads (L : Nat → Nat) (pre : List Nat) (ws : List Sym) (acc : List Nat) :
    ((refPositions pre.length ws).foldl (fun (acc : List Nat × List Nat) p =>
        (acc.1.set p (jumpOffset (L (acc.1.getD p 0)) p), acc.2 ++ [acc.1.getD p 0]))
        (pre ++ ws.map Sym.raw, acc)).2 = acc ++ refLabels ws := by
  induction ws generalizing pre acc with
  | nil => simp [refLabels]
  | cons w ws ih =>
    cases w with
    | word w =>
      have := ih (pre ++ [w]) acc
      simpa [refLabels, Sym.raw] using this
    | ref l =>
      have := ih (pre ++ [jumpOffset (L l) pre.length]) (acc ++ [l])
      simpa [refLabels, Sym.raw, List.getD_eq_getElem?_getD] using this

theorem labelReads_eq {b : Buffer} {ws : List Sym} (h : Emits Buffer.init b ws) :
    labelReads b = refLabels ws := by
  have := foldl_reads b.labels [] ws []
  simpa [labelReads, h.bytecode, h.toset, Buffer.init, Buffer.pos] using this

theorem refLabels_append (ws ws' : List Sym) :
    refLabels (ws ++ ws') = refLabels ws ++ refLabels ws' := by
  induction ws with
  | nil => rfl
  | cons w ws ih => cases w <;> simp [refLabels, ih]

/-- The label places of a list of operations are those of its jumps. -/
theorem mem_refLabels {os : List GenOp} {l : Nat} :
    l ∈ refLabels (os.flatMap GenOp.syms) ↔ ∃ w, GenOp.jump w l ∈ os := by
  induction os with
  | nil => simp [refLabels]
  | cons o os ih =>
    rw [List.flatMap_cons, refLabels_append, List.mem_append, ih]
    cases o <;> simp [GenOp.syms, refLabels, exists_or]

/-- The number of `PUT_LABEL`s. -/
def putsNb (os : List GenOp) : Nat := (refLabels (os.flatMap GenOp.syms)).length

/-- `labels.toset_sz` after `n` `PUT_LABEL`s. -/
def tosetSz : Nat → Nat
  | 0 => labelGrow
  | n + 1 => if tosetSz n ≤ n then tosetSz n + labelGrow else tosetSz n

theorem lt_tosetSz_succ (n : Nat) : n < tosetSz (n + 1) := by
  have hgrow : 0 < labelGrow := by decide
  have hge : n ≤ tosetSz n := by
    induction n with
    | zero => exact Nat.zero_le _
    | succ n ih =>
      rw [tosetSz]
      split <;> omega
  rw [tosetSz]
  split <;> omega

/-! ## What the pieces have in common -/

/-- Each `SET_LABEL` is for a label that is made before it. -/
def SetsBelow : Nat → List GenOp → Prop
  | _, [] => True
  | n, o :: os => (∀ l, o = .set l → l < n) ∧ SetsBelow (n + o.made) os

/-- Each check has the words behind it that it asks for, or is the one before a `TRASH`; the words
of a field come before its entry. -/
def ChecksAhead : List GenOp → Prop
  | [] => True
  | .room x :: os => (x ≤ size os ∨ x = 2) ∧ 2 * fieldsNb os ≤ size os ∧ ChecksAhead os
  | .listRoom :: os => 2 * fieldsNb os ≤ size os ∧ ChecksAhead os
  | _ :: os => ChecksAhead os

theorem SetsBelow.append {n : Nat} {os os' : List GenOp} (h : SetsBelow n os)
    (h' : SetsBelow (n + made os) os') : SetsBelow n (os ++ os') := by
  induction os generalizing n with
  | nil => exact h'
  | cons o os ih =>
    refine ⟨h.1, ih h.2 ?_⟩
    rwa [made_cons, ← Nat.add_assoc] at h'

theorem ChecksAhead.append {os os' : List GenOp} (h : ChecksAhead os) (h' : ChecksAhead os')
    (hf : 2 * fieldsNb os' ≤ size os') : ChecksAhead (os ++ os') := by
  induction os with
  | nil => exact h'
  | cons o os ih =>
    cases o with
    | room x =>
      obtain ⟨hx, hh, hc⟩ := h
      refine ⟨?_, ?_, ih hc⟩
      · show x ≤ size (os ++ os') ∨ x = 2
        rw [size_append]
        omega
      · show 2 * fieldsNb (os ++ os') ≤ size (os ++ os')
        rw [size_append, fieldsNb_append]
        omega
    | listRoom =>
      refine ⟨?_, ih h.2⟩
      have hh := h.1
      show 2 * fieldsNb (os ++ os') ≤ size (os ++ os')
      rw [size_append, fieldsNb_append]
      omega
    | _ => exact ih h

/-- The words of an operation are an instruction, and that of a `PUT_LABEL` is a jump. -/
def GenOp.Aligned : GenOp → Prop
  | .word w => insnLen w = 1
  | .insn w _ => insnLen w = 2
  | .jump w _ => IsJump w
  | _ => True

/-- The operations of a piece that starts at label `n`: its labels cost words, `k` of them are
left over (counted in eighths and thirds), and its jumps are to labels that it sets or to `T`. -/
structure Pieces (k : Nat) (T : Nat → Prop) (n : Nat) (os : List GenOp) : Prop where
  made_le : 8 * made os + k ≤ 3 * size os
  fields_le : 2 * fieldsNb os ≤ size os
  checks : ChecksAhead os
  sets : SetsBelow n os
  jumps : ∀ w l, GenOp.jump w l ∈ os → GenOp.set l ∈ os ∨ T l
  aligned : ∀ o ∈ os, o.Aligned

namespace Pieces

variable {k k' n : Nat} {T T' : Nat → Prop} {os os' : List GenOp}

theorem append (h : Pieces k T n os) (h' : Pieces k' T' (n + made os) os') :
    Pieces (k + k') (fun l => T l ∨ T' l) n (os ++ os') where
  made_le := by
    have := h.made_le
    have := h'.made_le
    rw [made_append, size_append]
    omega
  fields_le := by
    have := h.fields_le
    have := h'.fields_le
    rw [fieldsNb_append, size_append]
    omega
  checks := h.checks.append h'.checks h'.fields_le
  sets := h.sets.append h'.sets
  jumps w l hj := by
    simp only [List.mem_append] at hj ⊢
    rcases hj with hj | hj
    · exact (h.jumps w l hj).imp .inl .inl
    · exact (h'.jumps w l hj).imp .inr .inr
  aligned o ho := (List.mem_append.mp ho).elim (h.aligned o) (h'.aligned o)

theorem andThen {t t' : Trace} (h : Pieces k T n (t n))
    (h' : ∀ m, n ≤ m → Pieces k' T' m (t' m)) :
    Pieces (k + k') (fun l => T l ∨ T' l) n (t.andThen t' n) :=
  h.append (h' _ (Nat.le_add_right _ _))

/-- Labels that the piece sets are no targets of its own. -/
theorem weaken (h : Pieces k T n os) (hk : k' ≤ k) (hT : ∀ l, T l → GenOp.set l ∈ os ∨ T' l) :
    Pieces k' T' n os where
  made_le := by
    have := h.made_le
    omega
  fields_le := h.fields_le
  checks := h.checks
  sets := h.sets
  jumps w l hj := (h.jumps w l hj).elim .inl (hT l)
  aligned := h.aligned

theorem labels {j : Nat} (h : Pieces (k + 8 * j) T (n + j) os) :
    Pieces k T n (.labels j :: os) where
  made_le := by
    have := h.made_le
    simp only [made_cons, size_cons, GenOp.made, GenOp.size]
    omega
  fields_le := by
    simpa [GenOp.fields, GenOp.size] using h.fields_le
  checks := h.checks
  sets := ⟨nofun, h.sets⟩
  jumps w l hj := by
    have hj' : GenOp.jump w l ∈ os := by simpa using hj
    exact (h.jumps w l hj').imp (List.mem_cons_of_mem _) id
  aligned := List.forall_mem_cons.mpr ⟨trivial, h.aligned⟩

theorem nil (n : Nat) : Pieces 0 (fun _ => False) n [] :=
  ⟨le_refl _, le_refl _, trivial, trivial, nofun, nofun⟩

theorem word {w : Nat} (hw : insnLen w = 1) (n : Nat) : Pieces 3 (fun _ => False) n [.word w] :=
  ⟨le_refl _, Nat.zero_le _, trivial, ⟨nofun, trivial⟩, by simp, by simpa [GenOp.Aligned]⟩

theorem insn {w : Nat} (hw : insnLen w = 2) (m n : Nat) :
    Pieces 6 (fun _ => False) n [.insn w m] :=
  ⟨le_refl _, Nat.zero_le _, trivial, ⟨nofun, trivial⟩, by simp, by simpa [GenOp.Aligned]⟩

theorem jump {w : Nat} (hw : IsJump w) (l n : Nat) : Pieces 6 (· = l) n [.jump w l] :=
  ⟨le_refl _, Nat.zero_le _, trivial, ⟨nofun, trivial⟩, by simp, by simpa [GenOp.Aligned]⟩

theorem set {l n : Nat} (h : l < n) : Pieces 0 (fun _ => False) n [.set l] :=
  ⟨le_refl _, le_refl _, trivial, ⟨fun _ he => by cases he; exact h, trivial⟩, by simp,
    by simp [GenOp.Aligned]⟩

theorem listRoom (n : Nat) : Pieces 0 (fun _ => False) n [.listRoom] :=
  ⟨le_refl _, le_refl _, ⟨le_refl _, trivial⟩, ⟨nofun, trivial⟩, by simp, by simp [GenOp.Aligned]⟩

/-- A check before the words that it asks for. -/
theorem room {x : Nat} (h : Pieces k T n os) (hx : x ≤ size os ∨ x = 2) :
    Pieces k T n (.room x :: os) where
  made_le := by simpa [GenOp.made, GenOp.size] using h.made_le
  fields_le := by simpa [GenOp.fields, GenOp.size] using h.fields_le
  checks := ⟨hx, h.fields_le, h.checks⟩
  sets := ⟨nofun, h.sets⟩
  jumps w l hj := by
    have hj' : GenOp.jump w l ∈ os := by simpa using hj
    exact (h.jumps w l hj').imp (List.mem_cons_of_mem _) id
  aligned := List.forall_mem_cons.mpr ⟨trivial, h.aligned⟩

/-- A leaf. -/
theorem leaf {w : Nat} (hw : insnLen w = 2) (m n : Nat) :
    Pieces 6 (fun _ => False) n [.room 2, .insn w m] :=
  (insn hw m n).room (.inl (le_refl _))

end Pieces

/-! ## Trees -/

/-- The targets of a jump position. -/
def Target : Option (Nat × Nat) → Nat → Prop
  | none, _ => False
  | some (labelThen, labelElse), l => l = labelThen ∨ l = labelElse

/-- The words left over by the jumps of a position. -/
def slack : Option (Nat × Nat) → Nat
  | none => 0
  | some _ => 12

@[simp] theorem target_some {th el l : Nat} :
    Target (some (th, el)) l ↔ l = th ∨ l = el := Iff.rfl

@[simp] theorem slack_some (d : Nat × Nat) : slack (some d) = 12 := rfl

theorem jumpOps_pieces (th el n : Nat) :
    Pieces 12 (Target (some (th, el))) n (jumpOps th el) :=
  ((Pieces.jump (.inr rfl) th n).append (Pieces.jump (.inl rfl) el _)).weaken (le_refl _) fun _ h => .inr h

theorem endOps_pieces (pos : Option (Nat × Nat)) (n : Nat) :
    Pieces (slack pos) (Target pos) n (endOps pos) := by
  cases pos with
  | none => exact Pieces.nil n
  | some d => exact jumpOps_pieces d.1 d.2 n

/-- The two constants of a condition set its three labels. -/
theorem boolOps_pieces {n m : Nat} (h : n + 3 < m) :
    Pieces 18 (fun _ => False) m (boolOps (n + 1) (n + 2) (n + 3)) := by
  have hth : n + 1 < m := by omega
  have hel : n + 2 < m := by omega
  have h := (Pieces.set hth).append ((Pieces.insn (w := pushstatic.code) rfl staticIds.one m).append
    ((Pieces.jump (w := jmp.code) (.inl rfl) (n + 3) m).append ((Pieces.set hel).append
      ((Pieces.insn (w := pushstatic.code) rfl staticIds.zero m).append (Pieces.set h)))))
  exact h.weaken (le_refl _) fun l hl => .inl (by simp_all)

theorem set_mem_boolOps {th el en l : Nat} (h : l = th ∨ l = el ∨ l = en) :
    GenOp.set l ∈ boolOps th el en := by
  rcases h with rfl | rfl | rfl <;> simp [boolOps]

/-- The operands of `&&` and `||` jump to labels that the connective sets. -/
theorem connective_targets {n m l : Nat} {tl tr : Trace} {pos : Option (Nat × Nat)}
    (h : l = n ∨ l = n + 1 ∨ l = n + 2 ∨ Target pos l) :
    GenOp.set l ∈ tl.andThen ((always [.set n]).andThen (tr.andThen
      (always (boolOps (n + 1) (n + 2) (n + 3) ++ endOps pos)))) m ∨ Target pos l := by
  simp only [Trace.andThen, always, List.mem_append, List.mem_singleton]
  rcases h with rfl | rfl | rfl | h
  · exact .inl (.inr (.inl rfl))
  · exact .inl (.inr (.inr (.inr (.inl (set_mem_boolOps (.inl rfl))))))
  · exact .inl (.inr (.inr (.inr (.inl (set_mem_boolOps (.inr (.inl rfl)))))))
  · exact .inr h

namespace Pieces

variable {k n : Nat} {T : Nat → Prop} {os : List GenOp} {t : Trace}

/-- The value, then the end of its position. -/
theorem atEnd (h : Pieces k T n os) (hT : ∀ l, ¬ T l) (pos : Option (Nat × Nat)) :
    Pieces (k + slack pos) (Target pos) n (os ++ endOps pos) :=
  (h.append (endOps_pieces pos _)).weaken (le_refl _) fun l hl => .inr (hl.resolve_left (hT l))

end Pieces

theorem insnLen_arith (op : ArithOp) : insnLen (arith op).code = 1 := by
  cases op <;> rfl

theorem insnLen_cmp (op : CmpOp) : insnLen (cmp op).code = 1 := by
  cases op <;> rfl

/-- The number of a token is no opcode. -/
theorem insnLen_word (op : CondOp) : insnLen op.word = 1 := by
  cases op with
  | cmp op => exact insnLen_cmp op
  | _ => rfl

mutual

/-- The operations of an expression. -/
theorem exprOps_pieces : ∀ (e : Expr) (pos : Option (Nat × Nat)) (n : Nat),
    Pieces (6 + slack pos) (Target pos) n (exprOps e pos n)
  | .assoc x e, pos, n => by
    have h := (exprOps_pieces e none n).andThen fun m _ =>
      ((Pieces.insn (w := pop.code) rfl x m).append (Pieces.insn (w := push.code) rfl x m)).atEnd (by simp) pos
    exact h.weaken (by omega) fun l hl => .inr (hl.resolve_left id)
  | .binop op l r, pos, n => by
    have h := (exprOps_pieces l none n).andThen fun m _ => (exprOps_pieces r none m).andThen
      fun m _ => (Pieces.word (insnLen_arith op) m).atEnd (fun _ => id) pos
    exact h.weaken (by omega) fun l hl => .inr ((hl.resolve_left id).resolve_left id)
  | .cond (.cmp op) l r, some (th, el), n => by
    have h := (exprOps_pieces l none n).andThen fun m _ => (exprOps_pieces r none m).andThen
      fun m _ => (Pieces.word (insnLen_cmp op) m).atEnd (fun _ => id) (some (th, el))
    exact h.weaken (by omega) fun l hl => .inr ((hl.resolve_left id).resolve_left id)
  | .cond (.cmp op) l r, none, n => by
    have h := (exprOps_pieces l none (n + 4)).andThen fun m hm =>
      (exprOps_pieces r none m).andThen fun m' hm' =>
        ((Pieces.word (insnLen_cmp op) m').append (jumpOps_pieces (n + 1) (n + 2) m')).append
          (boolOps_pieces (n := n) (by omega))
    refine Pieces.labels (h.weaken (by simp [slack]) fun l hl => .inl ?_)
    have hl' : l = n + 1 ∨ l = n + 2 := by simpa [Target] using hl
    exact List.mem_append_right _ (List.mem_append_right _ (List.mem_append_right _
      (set_mem_boolOps (by omega))))
  | .cond .andand l r, pos, n => by
    have h := (exprOps_pieces l (some (n, n + 2)) (n + 4)).andThen fun m hm =>
      (Pieces.set (l := n) (n := m) (by omega)).andThen (t := always [.set n]) fun m₁ hm₁ =>
        (exprOps_pieces r (some (n + 1, n + 2)) m₁).andThen fun m₂ hm₂ =>
          (boolOps_pieces (n := n) (by omega)).atEnd (fun _ => id) pos
    refine Pieces.labels (h.weaken (by simp only [slack_some]; omega) fun l hl => ?_)
    simp only [target_some, false_or] at hl
    exact connective_targets (by tauto)
  | .cond .oror l r, pos, n => by
    have h := (exprOps_pieces l (some (n + 1, n)) (n + 4)).andThen fun m hm =>
      (Pieces.set (l := n) (n := m) (by omega)).andThen (t := always [.set n]) fun m₁ hm₁ =>
        (exprOps_pieces r (some (n + 1, n + 2)) m₁).andThen fun m₂ hm₂ =>
          (boolOps_pieces (n := n) (by omega)).atEnd (fun _ => id) pos
    refine Pieces.labels (h.weaken (by simp only [slack_some]; omega) fun l hl => ?_)
    simp only [target_some, false_or] at hl
    exact connective_targets (by tauto)
  | .field f, pos, n => by
    have hf : Pieces 6 (fun _ => False) n [.room 2, .insn pushfield.code f, .field f] :=
      ⟨le_refl _, le_refl _, ⟨.inl (le_refl _), le_refl _, trivial⟩,
        ⟨nofun, nofun, nofun, trivial⟩, by simp, by simp [GenOp.Aligned, insnLen, hasOperand]⟩
    exact hf.atEnd (fun _ => id) pos
  | .var x, pos, n => (Pieces.leaf (w := push.code) rfl x n).atEnd (fun _ => id) pos
  | .const c, pos, n => (Pieces.leaf (w := pushstatic.code) rfl c n).atEnd (fun _ => id) pos
  | .call f ps, pos, n => by
    have h := (paramsOps_pieces ps n).andThen fun m _ =>
      (Pieces.leaf (w := call.code) rfl f m).atEnd (fun _ => id) pos
    exact h.weaken (by omega) fun l hl => .inr (hl.resolve_left id)

theorem paramsOps_pieces : ∀ (ps : List Expr) (n : Nat),
    Pieces 0 (fun _ => False) n (paramsOps ps n)
  | [], n => Pieces.nil n
  | p :: ps, n => by
    have h := (paramsOps_pieces ps n).andThen fun m _ => exprOps_pieces p none m
    exact h.weaken (Nat.zero_le _) fun l hl => .inr (hl.resolve_left id)

end

/-- The operations of an expression as a statement. -/
theorem exprStmtOps_pieces : ∀ (e : Expr) (n : Nat),
    Pieces 0 (fun _ => False) n (exprStmtOps e n)
  | .assoc x e, n => by
    have h := (exprOps_pieces e none n).andThen fun m _ => Pieces.insn (w := pop.code) rfl x m
    exact h.weaken (Nat.zero_le _) fun l hl => .inr (hl.resolve_left id)
  | .binop op l r, n => by
    have h := (exprStmtOps_pieces l n).andThen fun m _ => (exprStmtOps_pieces r m).andThen
      fun m _ => Pieces.word (insnLen_arith op) m
    exact h.weaken (Nat.zero_le _) fun l hl => .inr ((hl.resolve_left id).resolve_left id)
  | .cond op l r, n => by
    have h := (exprStmtOps_pieces l n).andThen fun m _ => (exprStmtOps_pieces r m).andThen
      fun m _ => Pieces.word (insnLen_word op) m
    exact h.weaken (Nat.zero_le _) fun l hl => .inr ((hl.resolve_left id).resolve_left id)
  | .const c, n => trashed (.const c) n
  | .var x, n => trashed (.var x) n
  | .field f, n => trashed (.field f) n
  | .call f ps, n => trashed (.call f ps) n
where
  /-- A value that is not used: the only check with less behind it than it asks for. -/
  trashed (e : Expr) (n : Nat) : Pieces 0 (fun _ => False) n
      ((exprOps e none).andThen (always [.room 2, .word trash.code]) n) := by
    have h := (exprOps_pieces e none n).andThen fun m _ =>
      (Pieces.word (w := trash.code) rfl m).room (.inr rfl)
    exact h.weaken (Nat.zero_le _) fun l hl => .inr (hl.resolve_left id)

theorem destVars_pieces (destVars : List Nat) (n : Nat) :
    Pieces 0 (fun _ => False) n (destVars.map (.insn pop.code)) := by
  induction destVars with
  | nil => exact Pieces.nil n
  | cons x xs ih =>
    exact ((Pieces.insn (w := pop.code) rfl x n).append ih).weaken (Nat.zero_le _) fun l hl =>
      .inr (hl.resolve_left id)

theorem size_destVars (destVars : List Nat) :
    size (destVars.map (.insn pop.code)) = 2 * destVars.length := by
  induction destVars with
  | nil => rfl
  | cons x xs ih =>
    rw [List.map_cons, size_cons, ih, List.length_cons, GenOp.size]
    omega

mutual

/-- The operations of an action. -/
theorem stmtOps_pieces : ∀ (s : Stmt) (n : Nat), Pieces 0 (fun _ => False) n (stmtOps s n)
  | .expr e, n => exprStmtOps_pieces e n
  | .regsplit string splitPat destVars, n => by
    have h : Pieces _ _ n ((exprOps string none).andThen (always
        ([.insn pushstatic.code splitPat, .word regsplit.code] ++
          destVars.map (.insn pop.code))) n) :=
      (exprOps_pieces string none n).andThen fun m _ =>
        ((Pieces.insn (w := pushstatic.code) rfl splitPat m).append (Pieces.word (w := regsplit.code) rfl m)).append
          (destVars_pieces destVars m)
    have hs := (exprOps_pieces string none n).made_le
    -- the words of the string, of the pattern and of the variables
    have hsize : 5 + 2 * destVars.length ≤ size ((exprOps string none).andThen (always
        ([.insn pushstatic.code splitPat, .word regsplit.code] ++
          destVars.map (.insn pop.code))) n) := by
      simp only [Trace.andThen, always, size_append, size_cons, size_nil, size_destVars, GenOp.size]
      omega
    exact (h.room (.inl hsize)).weaken (Nat.zero_le _) fun l hl => by simp_all [Target]
  | .ifstmt cond thn els, n => by
    have hroom : ∀ m, Pieces 0 (fun _ => False) m (if els.isEmpty then [] else [.listRoom]) := by
      intro m
      split
      · exact Pieces.nil m
      · exact Pieces.listRoom m
    have h := (exprOps_pieces cond (some (n, n + 1)) (n + 3)).andThen fun m _ =>
      (Pieces.set (l := n) (n := m) (by omega)).andThen (t := always [.set n]) fun m₁ _ =>
        (stmtsOps_pieces thn m₁).andThen fun m₂ _ =>
          (((Pieces.listRoom m₂).append (Pieces.jump (w := jmp.code) (.inl rfl) (n + 2) m₂)).append
            (Pieces.set (l := n + 1) (n := m₂) (by omega))).andThen
            (t := always [.listRoom, .jump jmp.code (n + 2), .set (n + 1)]) fun m₃ _ =>
              (stmtsOps_pieces els m₃).andThen fun m₄ _ =>
                (hroom m₄).append (Pieces.set (l := n + 2) (by omega))
    refine Pieces.labels (h.weaken (by simp) fun l hl => .inl ?_)
    have hl' : l = n ∨ l = n + 1 ∨ l = n + 2 := by
      simp only [target_some, false_or, or_false] at hl
      tauto
    simp only [Trace.andThen, always, List.mem_append, List.mem_cons]
    rcases hl' with rfl | rfl | rfl <;> simp

/-- The operations of a list of actions. -/
theorem stmtsOps_pieces : ∀ (ss : List Stmt) (n : Nat),
    Pieces 0 (fun _ => False) n (stmtsOps ss n)
  | [], n => Pieces.nil n
  | s :: ss, n => by
    have h := (stmtOps_pieces s n).andThen fun m _ => stmtsOps_pieces ss m
    exact h.weaken (Nat.zero_le _) fun l hl => .inr (hl.resolve_left id)

end

/-- The operations of a whole condition or action list. -/
theorem CodeSource.ops_pieces (src : CodeSource) : Pieces 0 (fun _ => False) 1 src.ops := by
  have hc : Pieces 0 (fun _ => False) 1 src.codeOps := by
    cases src with
    | condition e => exact (exprOps_pieces e none 1).weaken (Nat.zero_le _) fun l hl => .inr hl
    | actions ss => exact stmtsOps_pieces ss 1
  exact (hc.append (Pieces.listRoom _)).weaken (le_refl _) fun l hl => .inr (hl.resolve_left id)

/-! ## No label outside its table -/

/-- The label table has grown once, or has room for the labels so far. -/
structure LabelRoom (c : Counts) : Prop where
  sz : c.labelsSz = labelGrow ∨ c.labelsSz = 2 * labelGrow

theorem firstFault_ne_labels {os : List GenOp} {c : Counts} (hs : SetsBelow c.labelsNb os)
    (hn : c.labelsNb + made os < 2 * labelGrow) (hc : LabelRoom c) :
    firstFault os c ≠ some .labels := by
  induction os generalizing c with
  | nil => simp [firstFault]
  | cons o os ih =>
    rw [made_cons, ← Nat.add_assoc] at hn
    have hgrown : c.grown = labelGrow ∧ c.labelsNb < labelGrow ∨ c.grown = 2 * labelGrow := by
      have hpos : labelGrow = 256 := rfl
      rcases hc.sz with h | h
      · simp only [Counts.grown, h]
        split <;> omega
      · simp only [Counts.grown, h]
        rw [if_neg (by omega)]
        exact .inr rfl
    cases hf : o.fault c with
    | some f =>
      simp only [firstFault, hf]
      cases o with
      | set l =>
        have hl := hs.1 l rfl
        have hlt : l < c.grown := by
          rcases hgrown with h | h <;> omega
        simp [GenOp.fault, hlt] at hf
      | word w | insn w n | jump w l | room x | listRoom | field f' =>
        simp only [GenOp.fault] at hf
        split at hf <;> cases hf
        simp
      | labels n => cases hf
    | none =>
      simp only [firstFault, hf]
      refine ih hs.2 hn ⟨?_⟩
      cases o with
      | set l => exact hgrown.imp And.left id
      | _ => exact hc.sz

/-! ## The used fields -/

theorem ChecksAhead.tail {o : GenOp} {os : List GenOp} (h : ChecksAhead (o :: os)) :
    ChecksAhead os := by
  cases o with
  | room x => exact h.2.2
  | listRoom => exact h.2
  | _ => exact h

/-- In code that fits, the entries of `used_fields` run past the end of the table if and only if
there are too many of them: no check stops the compiler before a field. -/
theorem firstFault_eq_usedFields_iff {os : List GenOp} {c : Counts}
    (hl : firstFault os c ≠ some .labels) (hc : ChecksAhead os)
    (hs : c.pos + size os + 1 ≤ bytecodeBufSz) (hu : c.usedFieldsPos ≤ maxFields) :
    firstFault os c = some .usedFields ↔ maxFields < c.usedFieldsPos + fieldsNb os := by
  induction os generalizing c with
  | nil => exact ⟨(fun h => by cases h), fun h => absurd hu (by rw [fieldsNb_nil] at h; omega)⟩
  | cons o os ih =>
    have hsz : bytecodeBufSz = 1024 := rfl
    rw [size_cons] at hs
    rw [fieldsNb_cons]
    cases hf : o.fault c with
    | none =>
      simp only [firstFault, hf] at hl ⊢
      have hu' : (o.count c).usedFieldsPos ≤ maxFields := by
        cases o with
        | field f =>
          simp only [GenOp.fault] at hf
          split at hf
          · simpa [GenOp.count, GenOp.fields] using ‹_›
          · cases hf
        | _ => exact hu
      have := ih hl hc.tail (by simp only [GenOp.count]; omega) hu'
      simpa only [GenOp.count, Nat.add_assoc] using this
    | some f =>
      simp only [firstFault, hf, ne_eq] at hl ⊢
      cases o with
      | room x =>
        simp only [GenOp.fault] at hf
        split at hf
        · -- a check that stops the compiler: nothing but a word may follow
          obtain ⟨hx, hfields, -⟩ := hc
          cases hf
          simp only [GenOp.size, GenOp.fields] at hs ⊢
          exact ⟨(fun h => by cases h), fun h => by omega⟩
        · cases hf
      | listRoom =>
        simp only [GenOp.fault] at hf
        split at hf
        · have hfields := hc.1
          cases hf
          simp only [GenOp.size, GenOp.fields] at hs ⊢
          exact ⟨(fun h => by cases h), fun h => by omega⟩
        · cases hf
      | word w | insn w n | jump w l =>
        simp only [GenOp.fault, GenOp.size] at hf hs
        rw [if_pos (by omega)] at hf
        cases hf
      | set l =>
        simp only [GenOp.fault] at hf
        split at hf
        · cases hf
        · cases hf
          exact (hl rfl).elim
      | field f' =>
        simp only [GenOp.fault] at hf
        split at hf
        · cases hf
        · cases hf
          simp only [GenOp.fields, true_iff]
          omega
      | labels n => cases hf

/-! ## The labels that are read -/

theorem GenOp.labelsSz_le {o : GenOp} {b b' : Buffer} (h : o.run b = .ok b') :
    b.labelsSz ≤ b'.labelsSz ∧ ∀ l, o = .set l → l < b'.labelsSz := by
  rcases o.run_eq b with ⟨f, -, hr⟩ | ⟨hf, b₁, hr, hc⟩
  · rw [hr] at h
    cases h
  · obtain rfl := Except.ok.inj (hr.symm.trans h)
    have hsz : b₁.labelsSz = (o.count b.counts).labelsSz := congrArg Counts.labelsSz hc
    have hgrown : b.labelsSz ≤ b.counts.grown := by
      show _ ≤ if _ then _ else _
      split
      · exact Nat.le_add_right _ _
      · exact le_refl _
    rw [hsz]
    cases o with
    | set l =>
      refine ⟨hgrown, fun l' hl => ?_⟩
      cases hl
      simp only [fault] at hf
      split at hf
      · assumption
      · cases hf
    | _ => exact ⟨le_refl _, nofun⟩

/-- A label that was set is in the table. -/
theorem runOps_set_lt {os : List GenOp} {b b' : Buffer} (h : runOps os b = .ok b') :
    b.labelsSz ≤ b'.labelsSz ∧ ∀ l, GenOp.set l ∈ os → l < b'.labelsSz := by
  induction os generalizing b with
  | nil =>
    cases h
    exact ⟨le_refl _, nofun⟩
  | cons o os ih =>
    obtain ⟨b₁, h₁, h₂⟩ := bind_ok h
    obtain ⟨hle, hset⟩ := o.labelsSz_le h₁
    obtain ⟨hle', hset'⟩ := ih h₂
    refine ⟨hle.trans hle', fun l hl => ?_⟩
    rcases List.mem_cons.mp hl with ho | hl
    · exact lt_of_lt_of_le (hset l ho.symm) hle'
    · exact hset' l hl

/-! ## Whole conditions and action lists -/

namespace CodeSource

/-- The code and its `OP_END` have room in the buffer. -/
def FitsBuffer (src : CodeSource) : Prop := size src.ops + 1 ≤ bytecodeBufSz

/-- The writes to the tables are inside them, and `compile_set_labels` only reads labels that were
set. -/
structure TablesInBounds (src : CodeSource) : Prop where
  usedFields : src.result ≠ .error (.code .usedFields)
  setLabel : src.result ≠ .error (.code .labels)
  /-- A `PUT_LABEL` writes behind the places so far. -/
  putLabel : ∀ pre w l post, src.codeOps = pre ++ .jump w l :: post →
    putsNb pre < tosetSz (putsNb pre + 1)
  reads : ∀ b, src.gen Buffer.init = .ok b →
    ∀ l ∈ labelReads b, l < b.labelsSz ∧ GenOp.set l ∈ src.codeOps

theorem firstFault_ne_labels (src : CodeSource) (h : src.FitsBuffer) :
    firstFault src.ops Buffer.init.counts ≠ some .labels := by
  have hp := src.ops_pieces
  have hm := hp.made_le
  have hsz : bytecodeBufSz = 1024 := rfl
  have hg : labelGrow = 256 := rfl
  refine Orchids.firstFault_ne_labels hp.sets ?_ ⟨.inl rfl⟩
  unfold FitsBuffer at h
  show 1 + made src.ops < 2 * labelGrow
  omega

/-- In code that fits its buffer, all tables are in bounds if and only if the code reads fields at
most `MAX_FIELDS` times. -/
theorem tablesInBounds_iff (src : CodeSource) (h : src.FitsBuffer) :
    src.TablesInBounds ↔ fieldsNb src.ops ≤ maxFields := by
  have hp := src.ops_pieces
  have hl := src.firstFault_ne_labels h
  have hs : Buffer.init.counts.pos + size src.ops + 1 ≤ bytecodeBufSz := by
    have h0 : Buffer.init.counts.pos = 0 := rfl
    rw [h0, Nat.zero_add]
    exact h
  have hu := firstFault_eq_usedFields_iff hl hp.checks hs (Nat.zero_le _)
  rw [← src.result_eq_error_iff] at hu
  rw [ne_eq, ← src.result_eq_error_iff] at hl
  have hcount : Buffer.init.counts.usedFieldsPos + fieldsNb src.ops = fieldsNb src.ops :=
    Nat.zero_add _
  rw [hcount] at hu
  constructor
  · intro ht
    exact Nat.le_of_not_lt fun hlt => ht.usedFields (hu.mpr hlt)
  · intro hle
    refine ⟨fun he => absurd (hu.mp he) (by omega), hl, fun pre _ _ _ _ => lt_tosetSz_succ _,
      fun b hb l hr => ?_⟩
    rw [gen_eq] at hb
    rw [labelReads_eq (runOps_emits hb), mem_refLabels] at hr
    obtain ⟨w, hj⟩ := hr
    have hset : GenOp.set l ∈ src.ops := by
      have hj' : GenOp.jump w l ∈ src.ops := List.mem_append_left _ hj
      exact (hp.jumps w l hj').resolve_right id
    have hset' : GenOp.set l ∈ src.codeOps := by simpa [ops] using hset
    exact ⟨(runOps_set_lt hb).2 l hset', hset'⟩

end CodeSource

/-- `.f + .f + … + .f`, with `n + 1` occurrences of the field. -/
def fieldSum (f : Nat) : Nat → Expr
  | 0 => .field f
  | n + 1 => .binop .add (fieldSum f n) (.field f)

/-- Sixteen occurrences of one field. -/
theorem tablesInBounds_iff_sum :
    (CodeSource.condition (fieldSum 0 15)).FitsBuffer ∧
      (CodeSource.condition (fieldSum 0 15)).TablesInBounds := by
  have hfits : (CodeSource.condition (fieldSum 0 15)).FitsBuffer := by
    unfold CodeSource.FitsBuffer
    decide +kernel
  exact ⟨hfits, (CodeSource.tablesInBounds_iff _ hfits).mpr (by decide +kernel)⟩

/-- Seventeen occurrences of one field: 51 words with the `OP_END`, and a write past the end of
`used_fields`. -/
theorem not_tablesInBounds : ¬ ∀ src : CodeSource, src.FitsBuffer → src.TablesInBounds := by
  intro h
  have hfits : (CodeSource.condition (fieldSum 0 16)).FitsBuffer := by
    unfold CodeSource.FitsBuffer
    decide +kernel
  refine (h _ hfits).usedFields ((CodeSource.result_eq_error_iff _ _).mpr ?_)
  decide +kernel

end Orchids

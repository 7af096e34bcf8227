import Orchids.Ovm.Run

/-!
# Whole instructions, and jumps that land on them

Byte code read from its start, one instruction after the other, and the places that its jumps go to.

* `Boundary`: where an instruction starts, or the end of the code.
* `Block`: whole instructions whose jumps go forward to a boundary inside, or to one of some places
  behind the end. `Block.append` puts two of them together.
* `Block.step_ip`: from a boundary inside, a turn of the loop goes forward to a boundary.
* `Frame.endsWithin_iff`: an execution of implemented instructions comes to its `OP_END` after at
  most one turn for each word, if and only if it comes to no `NULL` operand that is read without a
  test.
-/

namespace Orchids

open Opcode

/-! ## Boundaries -/

/-- The words of the instruction that starts with `w`. -/
def insnLen (w : Nat) : Nat :=
  match ofWord w with
  | some op => if op.hasOperand then 2 else 1
  | none => 1

/-- Reading `ws` one instruction after the other comes to the place `k`. -/
inductive Boundary : List Nat → Nat → Prop
  | start (ws : List Nat) : Boundary ws 0
  | word {w k : Nat} {ws : List Nat} : insnLen w = 1 → Boundary ws k → Boundary (w :: ws) (k + 1)
  | operand {w n k : Nat} {ws : List Nat} : insnLen w = 2 → Boundary ws k →
      Boundary (w :: n :: ws) (k + 2)

/-- The words are whole instructions. -/
def Whole (ws : List Nat) : Prop := Boundary ws ws.length

namespace Boundary

variable {ws ws' : List Nat} {k : Nat}

theorem le_length (h : Boundary ws k) : k ≤ ws.length := by
  induction h with
  | start ws => exact Nat.zero_le _
  | word _ _ ih => exact Nat.succ_le_succ ih
  | operand _ _ ih => exact Nat.succ_le_succ (Nat.succ_le_succ ih)

theorem append (h : Boundary ws k) (ws' : List Nat) : Boundary (ws ++ ws') k := by
  induction h with
  | start ws => exact .start _
  | word hw _ ih => exact .word hw ih
  | operand hw _ ih => exact .operand hw ih

theorem of_word {w : Nat} (hw : insnLen w = 1) (h : Boundary (w :: ws) k) :
    k = 0 ∨ ∃ k', k = k' + 1 ∧ Boundary ws k' := by
  cases h with
  | start => exact .inl rfl
  | word _ h => exact .inr ⟨_, rfl, h⟩
  | operand hw' _ => omega

theorem of_operand {w n : Nat} (hw : insnLen w = 2) (h : Boundary (w :: n :: ws) k) :
    k = 0 ∨ ∃ k', k = k' + 2 ∧ Boundary ws k' := by
  cases h with
  | start => exact .inl rfl
  | word hw' _ => omega
  | operand _ h => exact .inr ⟨_, rfl, h⟩

/-- A boundary behind whole instructions. -/
theorem append_right (h : Boundary ws ws.length) (h' : Boundary ws' k) :
    Boundary (ws ++ ws') (ws.length + k) := by
  obtain ⟨n, hn⟩ : ∃ n, n = ws.length := ⟨_, rfl⟩
  rw [← hn] at h ⊢
  induction h with
  | start ws =>
    obtain rfl := List.length_eq_zero_iff.mp hn.symm
    rwa [Nat.zero_add]
  | word hw _ ih =>
    rw [Nat.succ_add]
    exact .word hw (ih (Nat.succ.inj hn))
  | operand hw _ ih =>
    rw [Nat.add_right_comm]
    exact .operand hw (ih (Nat.succ.inj (Nat.succ.inj hn)))

end Boundary

theorem Whole.append {ws ws' : List Nat} (h : Whole ws) (h' : Whole ws') :
    Whole (ws ++ ws') := by
  have := Boundary.append_right h h'
  rwa [← List.length_append] at this

/-- Behind whole instructions, a boundary is one of the rest. -/
theorem Boundary.split {ws ws' : List Nat} {k : Nat} (hw : Whole ws)
    (h : Boundary (ws ++ ws') k) :
    (k < ws.length ∧ Boundary ws k) ∨ ∃ k', k = ws.length + k' ∧ Boundary ws' k' := by
  obtain ⟨n, hn⟩ : ∃ n, n = ws.length := ⟨_, rfl⟩
  rw [Whole, ← hn] at hw
  rw [← hn]
  induction hw generalizing k with
  | start ws =>
    obtain rfl := List.length_eq_zero_iff.mp hn.symm
    exact .inr ⟨k, (Nat.zero_add k).symm, h⟩
  | word hlen _ ih =>
    rcases h.of_word hlen with rfl | ⟨k', rfl, h'⟩
    · exact .inl ⟨Nat.succ_pos _, .start _⟩
    · rcases ih h' (Nat.succ.inj hn) with ⟨hlt, hb⟩ | ⟨j, hj, hb⟩
      · exact .inl ⟨Nat.succ_lt_succ hlt, .word hlen hb⟩
      · exact .inr ⟨j, by omega, hb⟩
  | operand hlen _ ih =>
    rcases h.of_operand hlen with rfl | ⟨k', rfl, h'⟩
    · exact .inl ⟨Nat.succ_pos _, .start _⟩
    · rcases ih h' (Nat.succ.inj (Nat.succ.inj hn)) with ⟨hlt, hb⟩ | ⟨j, hj, hb⟩
      · exact .inl ⟨by omega, .operand hlen hb⟩
      · exact .inr ⟨j, by omega, hb⟩

theorem Boundary.take {ws : List Nat} {k n : Nat} (h : Boundary ws k) (hn : k ≤ n) :
    Boundary (ws.take n) k := by
  induction h generalizing n with
  | start ws => exact .start _
  | word hw _ ih =>
    obtain ⟨n, rfl⟩ : ∃ n', n = n' + 1 := ⟨n - 1, by omega⟩
    exact .word hw (ih (by omega))
  | operand hw _ ih =>
    obtain ⟨n, rfl⟩ : ∃ n', n = n' + 2 := ⟨n - 2, by omega⟩
    exact .operand hw (ih (by omega))

/-- Whole instructions at a boundary go on to a boundary. -/
theorem Boundary.codeAt {code ws : List Nat} {p : Nat} (h : Boundary code p)
    (hc : CodeAt code p ws) (hw : Whole ws) : Boundary code (p + ws.length) := by
  obtain ⟨rest, hrest⟩ := hc
  have hp := h.le_length
  have htake : (code.take p).length = p := List.length_take_of_le hp
  have hpre : Whole (code.take p) := by
    have := h.take (le_refl p)
    rwa [Whole, htake]
  have hall := Boundary.append_right hpre (Boundary.append hw rest)
  rwa [htake, hrest, List.take_append_drop] at hall

/-- In whole instructions, the end of an instruction is a boundary. -/
theorem Boundary.next {ws : List Nat} {k w : Nat} (hw : Whole ws) (h : Boundary ws k)
    (hk : ws[k]? = some w) : Boundary ws (k + insnLen w) := by
  induction h with
  | start ws =>
    cases ws with
    | nil => cases hk
    | cons w' ws =>
      obtain rfl : w' = w := by simpa using hk
      rw [Nat.zero_add]
      cases hw with
      | word hlen _ => exact hlen ▸ .word hlen (.start _)
      | operand hlen _ => exact hlen ▸ .operand hlen (.start _)
  | word hlen _ ih =>
    cases hw with
    | word _ hw' =>
      rw [Nat.add_right_comm]
      exact .word hlen (ih hw' (by simpa using hk))
    | operand hlen' _ => omega
  | operand hlen _ ih =>
    cases hw with
    | word hlen' _ => omega
    | operand _ hw' =>
      rw [Nat.add_right_comm]
      exact .operand hlen (ih hw' (by simpa using hk))

/-! ## Blocks -/

/-- `OP_JMP` and `OP_POPCJMP` -/
def IsJump (w : Nat) : Prop := w = jmp.code ∨ w = popcjmp.code

theorem IsJump.insnLen {w : Nat} (h : IsJump w) : insnLen w = 2 := by
  rcases h with rfl | rfl <;> rfl

/-- Whole instructions whose jumps go to boundaries inside, or to one of the places `outs`, which
are counted from the end. -/
structure Block (outs : Nat → Prop) (ws : List Nat) : Prop where
  whole : Whole ws
  lands : ∀ k w n, Boundary ws k → ws[k]? = some w → IsJump w → ws[k + 1]? = some n →
    Boundary ws (k + 2 + n) ∨ ∃ j, outs j ∧ k + 2 + n = ws.length + j

/-- No place behind the end. -/
abbrev Inside : Nat → Prop := fun _ => False

namespace Block

variable {outs outs' : Nat → Prop} {ws ws' : List Nat}

theorem append (h : Block outs ws) (h' : Block outs' ws')
    (ho : ∀ j, outs j → Boundary ws' j ∨ ∃ j', outs' j' ∧ j = ws'.length + j') :
    Block outs' (ws ++ ws') where
  whole := h.whole.append h'.whole
  lands k w n hb hk hj hn := by
    rcases hb.split h.whole with ⟨hlt, hb⟩ | ⟨k', rfl, hb'⟩
    · -- a jump of the first part
      rw [List.getElem?_append_left hlt] at hk
      have hle := (hb.next h.whole hk).le_length
      rw [hj.insnLen] at hle
      rw [List.getElem?_append_left (by omega)] at hn
      rcases h.lands k w n hb hk hj hn with hl | ⟨j, hoj, he⟩
      · exact .inl (hl.append ws')
      · rw [he]
        rcases ho j hoj with hj' | ⟨j', hj', rfl⟩
        · exact .inl (h.whole.append_right hj')
        · exact .inr ⟨j', hj', by rw [List.length_append, Nat.add_assoc]⟩
    · rw [List.getElem?_append_right (Nat.le_add_right _ _), Nat.add_sub_cancel_left] at hk
      rw [List.getElem?_append_right (by omega),
        show ws.length + k' + 1 - ws.length = k' + 1 by omega] at hn
      have hassoc : ws.length + k' + 2 + n = ws.length + (k' + 2 + n) := by omega
      rw [hassoc, List.length_append]
      rcases h'.lands k' w n hb' hk hj hn with hl | ⟨j, hoj, he⟩
      · exact .inl (h.whole.append_right hl)
      · exact .inr ⟨j, hoj, by omega⟩

/-- A block that goes to its end, then another one. -/
theorem seq (h : Block Inside ws) (h' : Block outs' ws') : Block outs' (ws ++ ws') :=
  h.append h' fun _ hj => hj.elim

theorem mono (h : Block outs ws) (ho : ∀ j, outs j → outs' j) : Block outs' ws where
  whole := h.whole
  lands k w n hb hk hj hn := (h.lands k w n hb hk hj hn).imp id fun ⟨j, hoj, he⟩ => ⟨j, ho j hoj, he⟩

theorem nil : Block outs [] where
  whole := .start _
  lands k w n _ hk := by simp at hk

theorem word {w : Nat} (hw : insnLen w = 1) : Block outs [w] where
  whole := .word hw (.start _)
  lands k w' n hb hk hj hn := by
    cases hb with
    | start =>
      obtain rfl : w = w' := by simpa using hk
      rw [hj.insnLen] at hw
      cases hw
    | word _ hb => simp at hk

theorem insn {w m : Nat} (hw : insnLen w = 2) (hj : ¬ IsJump w) : Block outs [w, m] where
  whole := .operand hw (.start _)
  lands k w' n hb hk hj' hn := by
    cases hb with
    | start =>
      obtain rfl : w = w' := by simpa using hk
      exact (hj hj').elim
    | word hw' _ => omega
    | operand _ hb => simp at hk

theorem jump {w m : Nat} (hj : IsJump w) : Block (· = m) [w, m] where
  whole := .operand hj.insnLen (.start _)
  lands k w' n hb hk hj' hn := by
    have hw := hj.insnLen
    cases hb with
    | start =>
      obtain rfl : m = n := by simpa using hn
      exact .inr ⟨m, rfl, by simp⟩
    | word hw' _ => omega
    | operand _ hb => simp at hk

end Block

/-- The instructions of the words are implemented. -/
def Implemented (ws : List Nat) : Prop :=
  ∀ k w, Boundary ws k → ws[k]? = some w → ∃ op : Opcode, w = op.code ∧ op.implemented = true

theorem Implemented.at {ws : List Nat} (h : Implemented ws) {k : Nat} (hk : Boundary ws k)
    (hlt : k < ws.length) : ∃ op : Opcode, ws[k]? = some op.code ∧ op.implemented = true := by
  obtain ⟨op, hop, hi⟩ := h k _ hk (List.getElem?_eq_getElem hlt)
  exact ⟨op, by rw [List.getElem?_eq_getElem hlt, hop], hi⟩

/-! ## Executions -/

namespace Frame

variable {V : Type} [Issdl V]

/-- `n` turns of the loop. -/
def Steps (F : Frame V) : Nat → Machine V → Machine V → Prop
  | 0, m, m' => m = m'
  | n + 1, m, m' => ∃ m₁, F.step m = .next m₁ ∧ Steps F n m₁ m'

/-- `ovm_regsplit` reads the type of an operand that is `NULL`. -/
def SplitsNull (pattern string : Option V) : Prop :=
  (pattern = none ∧ isNull string = false) ∨
    (string = none ∧ ∃ p, pattern = some p ∧ Issdl.isNull p = false ∧ Issdl.isSregex p = true)

/-- The pattern of a split matches, with more groups than `match` has room for. -/
def SplitsOver (pattern string : Option V) : Prop :=
  (isNull pattern && isNull string) = false ∧
    ∃ p v groups, pattern = some p ∧ string = some v ∧ Issdl.regsplit p v = some groups ∧
      matchSize ≤ groups.length

/-- The instruction does not come to its end: an operand that it reads without a test is `NULL`, the
machine traps, or the matches of a split go past their array. -/
def Faults (s : List (Option V)) : Opcode → Prop
  | .arith op =>
    let op2 := (stackPop s).1
    let op1 := (stackPop (stackPop s).2).1
    op1 = none ∨ op2 = none ∨ arithTraps op op1 op2 = true
  | .regsplit =>
    let pattern := (stackPop s).1
    let string := (stackPop (stackPop s).2).1
    SplitsNull pattern string ∨ SplitsOver pattern string
  | _ => False

/-- The next instruction does not come to its end. -/
def AtFault (F : Frame V) (m : Machine V) : Prop :=
  ∃ op : Opcode, F.bytecode[m.ip]? = some op.code ∧ Faults m.stack op

variable {F : Frame V} {ws rest : List Nat} {m m' : Machine V} {n : Nat}

theorem Steps.reaches (h : F.Steps n m m') : F.Reaches m m' := by
  induction n generalizing m with
  | zero => exact h ▸ Reaches.refl
  | succ n ih =>
    obtain ⟨m₁, h₁, h₂⟩ := h
    exact Reaches.head h₁ (ih h₂)

/-- Two runs of the same length from one state end in one state. -/
theorem Steps.det {m'' : Machine V} (h : F.Steps n m m') (h' : F.Steps n m m'') : m' = m'' := by
  induction n generalizing m with
  | zero => exact h.symm.trans h'
  | succ n ih =>
    obtain ⟨m₁, h₁, h₂⟩ := h
    obtain ⟨m₂, h₁', h₂'⟩ := h'
    rw [h₁] at h₁'
    cases h₁'
    exact ih h₂ h₂'

theorem regsplitResult_eq_none_iff (pattern string : Option V) :
    regsplitResult pattern string = none ↔
      SplitsNull pattern string ∨ SplitsOver pattern string := by
  unfold regsplitResult SplitsNull SplitsOver
  cases pattern with
  | none => cases hs : isNull string <;> simp [isNull]
  | some p =>
    cases string with
    | none => cases hp : Issdl.isNull p <;> simp [isNull, hp]
    | some v =>
      have hroom : ¬ matchSize ≤ 0 := by decide
      cases hg : Issdl.regsplit p v <;>
        cases hp : Issdl.isNull p <;> cases hv : Issdl.isNull v <;> simp [isNull, hg, hp, hv, hroom]

/-- An arithmetic operator ends in one of three ways. -/
theorem arithEnds_eq_false_iff (op : ArithOp) (op1 op2 : Option V) :
    arithEnds op op1 op2 = false ↔ op1 = none ∨ op2 = none ∨ arithTraps op op1 op2 = true := by
  cases op1 <;> cases op2 <;> simp [arithEnds, isNotBoundDefined]

/-- At a known instruction the opcode is the only one of its word. -/
theorem atFault_iff {op : Opcode} (hop : F.bytecode[m.ip]? = some op.code) :
    F.AtFault m ↔ Faults m.stack op := by
  constructor
  · rintro ⟨op', hop', h⟩
    have hcode : op'.code = op.code := Option.some.inj (hop'.symm.trans hop)
    have hof := congrArg ofWord hcode
    rw [ofWord_code, ofWord_code] at hof
    cases hof
    exact h
  · exact fun h => ⟨op, hop, h⟩

/-- In a block, an implemented instruction crashes on its operands, or goes forward to a boundary of
the block. -/
theorem step_block (hF : F.bytecode = ws ++ rest) (hlen : ws.length < wordSize)
    (hb : Block Inside ws) (hm : Boundary ws m.ip) {op : Opcode} (hop : ws[m.ip]? = some op.code)
    (himpl : op.implemented = true) :
    (F.AtFault m ∧ F.step m = .crash) ∨
      (¬ F.AtFault m ∧ ∃ m', F.step m = .next m' ∧ m.ip < m'.ip ∧ Boundary ws m'.ip) := by
  have hword : F.bytecode[m.ip]? = some op.code := by
    obtain ⟨hlt, -⟩ := List.getElem?_eq_some_iff.mp hop
    rw [hF, List.getElem?_append_left hlt, hop]
  have hnext : Boundary ws (m.ip + insnLen op.code) := hm.next hb.whole hop
  have hoperand : op.hasOperand = true → ∃ n, F.operand m = some n ∧ ws[m.ip + 1]? = some n := by
    intro ho
    have hle := hnext.le_length
    have hl : insnLen op.code = 2 := by simp [insnLen, ho]
    rw [hl] at hle
    have hlt : m.ip + 1 < ws.length := by omega
    have hn : ws[m.ip + 1]? = some ws[m.ip + 1] := List.getElem?_eq_getElem hlt
    refine ⟨_, ?_, hn⟩
    rw [operand, hF, List.getElem?_append_left (by omega), hn]
  have hjump : ∀ n, IsJump op.code → ws[m.ip + 1]? = some n →
      (m.ip + n + 2) % wordSize = m.ip + 2 + n ∧ Boundary ws (m.ip + 2 + n) := by
    intro n hj hn
    have hl := (hb.lands m.ip op.code n hm hop hj hn).resolve_right (by rintro ⟨_, h, _⟩; exact h)
    have hle := hl.le_length
    exact ⟨by rw [Nat.mod_eq_of_lt (by omega)]; omega, hl⟩
  rw [atFault_iff hword]
  cases op with
  | nop => exact .inr ⟨id, _, step_of_word hword rfl, Nat.lt_succ_self _, hnext⟩
  | trash => exact .inr ⟨id, _, step_of_word hword rfl, Nat.lt_succ_self _, hnext⟩
  | cmp op =>
    have hl : insnLen (cmp op).code = 1 := by cases op <;> rfl
    rw [hl] at hnext
    exact .inr ⟨id, _, step_of_word hword rfl, Nat.lt_succ_self _, hnext⟩
  | push | pop | pushstatic | pushfield | call =>
    obtain ⟨n, hn, -⟩ := hoperand rfl
    exact .inr ⟨id, _, step_of_word hword (by simp only [insn, hn]; rfl), by simp, hnext⟩
  | jmp =>
    obtain ⟨n, hn, hn'⟩ := hoperand rfl
    obtain ⟨hmod, hl⟩ := hjump n (.inl rfl) hn'
    refine .inr ⟨id, _, step_of_word hword (by simp only [insn, hn]; rfl), ?_, ?_⟩
    · show m.ip < (m.ip + n + 2) % wordSize
      omega
    · show Boundary ws ((m.ip + n + 2) % wordSize)
      rwa [hmod]
  | popcjmp =>
    obtain ⟨n, hn, hn'⟩ := hoperand rfl
    obtain ⟨hmod, hl⟩ := hjump n (.inr rfl) hn'
    cases ht : issdlTest (stackPop m.stack).1 with
    | true =>
      refine .inr ⟨id, _, step_of_word hword (by simp only [insn, hn]; exact if_pos ht), ?_, ?_⟩
      · show m.ip < (m.ip + n + 2) % wordSize
        omega
      · show Boundary ws ((m.ip + n + 2) % wordSize)
        rwa [hmod]
    | false =>
      exact .inr ⟨id, _, step_of_word hword (by
        simp only [insn, hn]
        exact if_neg (ht ▸ Bool.false_ne_true)), by simp, hnext⟩
  | arith op =>
    have hl : insnLen (arith op).code = 1 := by cases op <;> rfl
    rw [hl] at hnext
    have hiff := arithEnds_eq_false_iff op (stackPop (stackPop m.stack).2).1 (stackPop m.stack).1
    simp only [Faults, ← hiff]
    cases he : arithEnds op (stackPop (stackPop m.stack).2).1 (stackPop m.stack).1 with
    | false => exact .inl ⟨rfl, step_crash_of_word hword (by simp [insn, he])⟩
    | true =>
      exact .inr ⟨fun h => Bool.false_ne_true h.symm, _, step_of_word hword (by
        simp only [insn, he]; rfl), Nat.lt_succ_self _, hnext⟩
  | regsplit =>
    simp only [Faults, ← regsplitResult_eq_none_iff]
    cases hr : regsplitResult (stackPop m.stack).1 (stackPop (stackPop m.stack).2).1 with
    | none => exact .inl ⟨rfl, step_crash_of_word hword (by simp [insn, hr])⟩
    | some groups =>
      exact .inr ⟨(fun h => by cases h), _, step_of_word hword (by simp only [insn, hr]; rfl), Nat.lt_succ_self _,
        hnext⟩
  | inc | dec | and | or | xor | neg | not | cesv | past => cases himpl

/-- An execution of a block of implemented instructions comes to its end, after at most one turn of
the loop for each word, or crashes inside on operands. -/
theorem block_outcome (hF : F.bytecode = ws ++ rest) (hlen : ws.length < wordSize)
    (hb : Block Inside ws) (hi : Implemented ws) (hm : Boundary ws m.ip) :
    (∃ k m', k ≤ ws.length - m.ip ∧ F.Steps k m m' ∧ m'.ip = ws.length) ∨
      ∃ m', F.Reaches m m' ∧ m'.ip < ws.length ∧ F.AtFault m' ∧ F.step m' = .crash := by
  obtain ⟨d, hd⟩ : ∃ d, d = ws.length - m.ip := ⟨_, rfl⟩
  -- the rest of the code gets shorter at each turn
  induction d using Nat.strong_induction_on generalizing m with
  | _ d ih =>
    have hle := hm.le_length
    by_cases hend : m.ip = ws.length
    · exact .inl ⟨0, m, Nat.zero_le _, rfl, hend⟩
    · have hlt : m.ip < ws.length := lt_of_le_of_ne hle hend
      obtain ⟨op, hop, himpl⟩ := hi.at hm hlt
      rcases step_block hF hlen hb hm hop himpl with ⟨hn, hc⟩ | ⟨-, m₁, hs, hlt₁, hb₁⟩
      · exact .inr ⟨m, .refl, hlt, hn, hc⟩
      · have hle₁ := hb₁.le_length
        rcases ih (ws.length - m₁.ip) (by omega) hb₁ rfl with ⟨k, m', hk, hr, he⟩ | ⟨m', hr, h⟩
        · exact .inl ⟨k + 1, m', by omega, ⟨m₁, hs, hr⟩, he⟩
        · exact .inr ⟨m', .head hs hr, h⟩

theorem step_at_end (hF : F.bytecode = ws ++ opEnd :: rest) (hm : m.ip = ws.length) :
    F.step m = .done := by
  have hw : F.bytecode[m.ip]? = some opEnd := by
    rw [hF, hm, List.getElem?_append_right (le_refl _), Nat.sub_self]
    rfl
  simp [step, hw]

end Frame

end Orchids

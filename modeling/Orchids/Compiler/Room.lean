import Orchids.Compiler.Trace

/-!
# The room left in the byte code buffer

`EXIT_IF_BYTECODE_BUFF_FULL` is only at the leaves, at the calls and at the splits; the words of
operators, assignments, jumps and constants of conditions are written without a check. Nothing else
stops the compiler: a write past the end of a table goes on.

* `writeOps`: the buffer with all words that are written until a check fails.
* `runOps_writes`: it is the buffer of the code generator, where no table is left.
* `CodeSource.inBuffer_iff`: the words are written below `BYTECODE_BUF_SZ` if and only if there are
  no more than that, or a check fails behind at most that many.
* `not_inBuffer_assignChain`: a chain of 256 assignments leaves the buffer.
-/

namespace Orchids

open Opcode

/-! ## Writes -/

namespace GenOp

/-- The check fails with so many words in the buffer. -/
def Exits (pos : Nat) : GenOp → Prop
  | room x => x ≤ bytecodeBufSz ∧ bytecodeBufSz - x ≤ pos
  | listRoom => bytecodeBufSz - 2 ≤ pos
  | _ => False

instance (pos : Nat) : DecidablePred (Exits pos)
  | room x => inferInstanceAs (Decidable (x ≤ bytecodeBufSz ∧ bytecodeBufSz - x ≤ pos))
  | listRoom => inferInstanceAs (Decidable (bytecodeBufSz - 2 ≤ pos))
  | word _ | insn _ _ | jump _ _ | set _ | field _ | labels _ => inferInstanceAs (Decidable False)

/-- What an operation writes, be there room for it or not. -/
def write (b : Buffer) : GenOp → Buffer
  | word w => { b with bytecode := b.bytecode ++ [w] }
  | insn w n => { b with bytecode := b.bytecode ++ [w, n] }
  | jump w label =>
    { b with bytecode := b.bytecode ++ [w, label], toset := b.toset ++ [b.pos + 1] }
  | set label =>
    { b with
      labels := Function.update b.labels label b.pos
      labelsSz := if b.labelsSz ≤ b.labelsNb then b.labelsSz + labelGrow else b.labelsSz }
  | field f => { b with usedFields := b.usedFields ++ [f], havePushfield := true }
  | labels n => newLabels n b
  | _ => b

end GenOp

/-- The buffer after some operations, or where a check fails and the compiler stops. -/
def writeOps : List GenOp → Buffer → Buffer
  | [], b => b
  | o :: os, b => if o.Exits b.pos then b else writeOps os (o.write b)

theorem GenOp.pos_write (o : GenOp) (b : Buffer) : (o.write b).pos = b.pos + o.size := by
  cases o <;> simp [write, size, Buffer.pos, newLabels]

/-- An operation that the code generator does. -/
theorem GenOp.run_writes {o : GenOp} {b b' : Buffer} (h : o.run b = .ok b') :
    ¬ o.Exits b.pos ∧ o.write b = b' := by
  have hemit : ∀ {w : Nat} {b b' : Buffer}, emit w b = .ok b' →
      { b with bytecode := b.bytecode ++ [w] } = b' := by
    intro w b b' h
    unfold emit at h
    split at h
    · exact Except.ok.inj h
    · cases h
  cases o with
  | room x =>
    simp only [run, exitIfBytecodeBuffFull] at h
    split at h
    · cases h
    · rename_i hroom
      exact ⟨hroom, Except.ok.inj h⟩
  | listRoom =>
    simp only [run, exitIfActionsFull] at h
    split at h
    · cases h
    · rename_i hroom
      exact ⟨hroom, Except.ok.inj h⟩
  | word w => exact ⟨id, hemit h⟩
  | insn w n =>
    obtain ⟨b₁, h₁, h₂⟩ := bind_ok h
    obtain ⟨b₂, h₂, h₃⟩ := bind_ok h₂
    obtain rfl := hemit h₁
    obtain rfl := hemit h₂
    obtain rfl := Except.ok.inj h₃
    exact ⟨id, by simp [write]⟩
  | jump w l =>
    obtain ⟨b₁, h₁, h₂⟩ := bind_ok h
    obtain rfl := hemit h₁
    obtain rfl := hemit h₂
    exact ⟨id, by simp [write, Buffer.pos]⟩
  | set l =>
    -- the table of labels may have grown
    have hset : ∀ {sz : Nat} {b'' : Buffer},
        (if l < sz then (.ok b'' : Except Fault Buffer) else .error .labels) = .ok b' →
        b'' = b' := by
      intro sz b'' h
      split at h
      · exact Except.ok.inj h
      · cases h
    exact ⟨id, hset h⟩
  | field f =>
    simp only [run, useField] at h
    split at h
    · exact ⟨id, Except.ok.inj h⟩
    · cases h
  | labels n => exact ⟨id, Except.ok.inj h⟩

/-- Where the code generator leaves no table, these are its writes. -/
theorem runOps_writes {os : List GenOp} {b b' : Buffer} (h : runOps os b = .ok b') :
    writeOps os b = b' := by
  induction os generalizing b with
  | nil => exact Except.ok.inj h
  | cons o os ih =>
    obtain ⟨b₁, h₁, h₂⟩ := bind_ok h
    obtain ⟨hroom, rfl⟩ := GenOp.run_writes h₁
    rw [writeOps, if_neg hroom]
    exact ih h₂

/-! ## Checks -/

/-- A check fails behind at most `BYTECODE_BUF_SZ` words. -/
def ExitsInRoom (os : List GenOp) (pos : Nat) : Prop :=
  ∃ pre o post, os = pre ++ o :: post ∧ pos + size pre ≤ bytecodeBufSz ∧ o.Exits (pos + size pre)

theorem exitsInRoom_cons {o : GenOp} {os : List GenOp} {pos : Nat} (hpos : pos ≤ bytecodeBufSz) :
    ExitsInRoom (o :: os) pos ↔ o.Exits pos ∨ ExitsInRoom os (pos + o.size) := by
  constructor
  · rintro ⟨pre, o', post, he, hp, hexit⟩
    cases pre with
    | nil =>
      cases he
      exact .inl hexit
    | cons _ pre =>
      cases he
      rw [size_cons, ← Nat.add_assoc] at hp hexit
      exact .inr ⟨pre, o', post, rfl, hp, hexit⟩
  · rintro (hexit | ⟨pre, o', post, rfl, hp, hexit⟩)
    · exact ⟨[], o, os, rfl, hpos, hexit⟩
    · refine ⟨o :: pre, o', post, rfl, ?_, ?_⟩
      · rwa [size_cons, ← Nat.add_assoc]
      · rwa [size_cons, ← Nat.add_assoc]

theorem pos_le_writeOps (os : List GenOp) (b : Buffer) : b.pos ≤ (writeOps os b).pos := by
  induction os generalizing b with
  | nil => exact Nat.le_refl _
  | cons o os ih =>
    unfold writeOps
    split
    · exact Nat.le_refl _
    · have hle := ih (o.write b)
      rw [o.pos_write] at hle
      omega

/-- The words have room if and only if there are no more than `BYTECODE_BUF_SZ`, or a check fails
behind at most that many. -/
theorem writeOps_pos_le_iff (os : List GenOp) {b : Buffer} (hb : b.pos ≤ bytecodeBufSz) :
    (writeOps os b).pos ≤ bytecodeBufSz ↔
      b.pos + size os ≤ bytecodeBufSz ∨ ExitsInRoom os b.pos := by
  induction os generalizing b with
  | nil => exact ⟨fun _ => .inl hb, fun _ => hb⟩
  | cons o os ih =>
    rw [exitsInRoom_cons hb, size_cons, ← Nat.add_assoc]
    by_cases hexit : o.Exits b.pos
    · rw [writeOps, if_pos hexit]
      exact ⟨fun _ => .inr (.inl hexit), fun _ => hb⟩
    · rw [writeOps, if_neg hexit, or_iff_right hexit]
      have hpos := o.pos_write b
      by_cases hroom : b.pos + o.size ≤ bytecodeBufSz
      · rw [ih (hpos.symm ▸ hroom), hpos]
      · -- the buffer is left already
        have hle := pos_le_writeOps os (o.write b)
        constructor
        · intro h
          omega
        · rintro (h | ⟨pre, -, -, -, hp, -⟩)
          · omega
          · omega

namespace CodeSource

/-- All writes for the code: a check and the `OP_END` come last. -/
def writes (src : CodeSource) : Buffer := writeOps (src.ops ++ [.word opEnd]) Buffer.init

/-- Byte code is only written below `BYTECODE_BUF_SZ`. -/
def InBuffer (src : CodeSource) : Prop := src.writes.pos ≤ bytecodeBufSz

/-- Where the code generator leaves no table, the words are those of its buffer. -/
theorem writes_eq {src : CodeSource} {b : Buffer} (h : src.buffer = .ok b)
    (hroom : b.pos < bytecodeBufSz) : src.writes.bytecode = b.bytecode ++ [opEnd] := by
  rw [buffer_eq] at h
  have hrun : runOps (src.ops ++ [.word opEnd]) Buffer.init =
      .ok { b with bytecode := b.bytecode ++ [opEnd] } := by
    rw [runOps_append, h]
    show emit opEnd b >>= _ = _
    rw [emit_of_room hroom]
    rfl
  rw [writes, runOps_writes hrun]

/-- The code stays in its buffer if and only if it has at most `BYTECODE_BUF_SZ` words with its
`OP_END`, or a check fails behind at most that many. -/
theorem inBuffer_iff (src : CodeSource) :
    src.InBuffer ↔ size src.codeOps + 1 ≤ bytecodeBufSz ∨ ExitsInRoom src.ops 0 := by
  have hsize : size (src.ops ++ [.word opEnd]) = size src.codeOps + 1 := by
    rw [ops, size_append, size_append]
    rfl
  unfold InBuffer writes
  rw [writeOps_pos_le_iff _ (Nat.zero_le _), show Buffer.init.pos = 0 from rfl, Nat.zero_add, hsize]
  refine or_congr_right ⟨?_, ?_⟩
  · rintro ⟨pre, o, post, he, hp, hexit⟩
    -- the `OP_END` is not a check
    rcases List.eq_nil_or_concat post with rfl | ⟨post, o', rfl⟩
    · obtain ⟨-, hlast⟩ := List.append_inj' he rfl
      obtain rfl := List.singleton_inj.mp hlast
      exact hexit.elim
    · rw [List.concat_eq_append, ← List.cons_append, ← List.append_assoc] at he
      exact ⟨pre, o, post, (List.append_inj' he rfl).1, hp, hexit⟩
  · rintro ⟨pre, o, post, he, hp, hexit⟩
    exact ⟨pre, o, post ++ [.word opEnd], by rw [he]; simp, hp, hexit⟩

end CodeSource

/-- `$x = $x = … = c`, with `n` assignments. -/
def assignChain (x c : Nat) : Nat → Expr
  | 0 => .const c
  | n + 1 => .assoc x (assignChain x c n)

/-- The only check before the end is the one of the constant. -/
theorem exprOps_assignChain (x c n k : Nat) :
    ∃ os, exprOps (assignChain x c n) none k = .room 2 :: os ∧ size os = 2 + 4 * n ∧
      ∀ o ∈ os, ∃ w m, o = .insn w m := by
  induction n with
  | zero => exact ⟨_, rfl, rfl, by simp [endOps]⟩
  | succ n ih =>
    obtain ⟨os, he, hs, hi⟩ := ih
    refine ⟨os ++ [.insn pop.code x, .insn push.code x], ?_, ?_, ?_⟩
    · simp [assignChain, exprOps, Trace.andThen, always, endOps, he]
    · simp [hs, GenOp.size]
      omega
    · simp only [List.mem_append, List.mem_cons, List.not_mem_nil, or_false]
      rintro o (ho | rfl | rfl)
      · exact hi o ho
      · exact ⟨_, _, rfl⟩
      · exact ⟨_, _, rfl⟩

/-- A condition of 256 assignments or more, one in the other, leaves the buffer. -/
theorem not_inBuffer_assignChain (x c : Nat) {n : Nat} (hn : 256 ≤ n) :
    ¬ (CodeSource.condition (assignChain x c n)).InBuffer := by
  obtain ⟨os, he, hs, hi⟩ := exprOps_assignChain x c n 1
  have hsz : bytecodeBufSz = 1024 := rfl
  rw [CodeSource.inBuffer_iff, CodeSource.ops, CodeSource.codeOps, he]
  rintro (h | ⟨pre, o, post, hos, hp, hexit⟩)
  · rw [size_cons, hs] at h
    simp only [GenOp.size] at h
    omega
  · cases pre with
    | nil =>
      obtain ⟨rfl, -⟩ := List.cons.inj hos
      exact absurd hexit (by decide)
    | cons _ pre =>
      obtain ⟨rfl, htail⟩ := List.cons.inj hos
      rcases List.append_eq_append_iff.mp htail with ⟨as, rfl, hr⟩ | ⟨as, rfl, hr⟩
      · -- after all the words
        simp only [size_cons, size_append, hs] at hp
        omega
      · cases as with
        | nil =>
          simp only [List.append_nil] at hs
          simp only [size_cons, hs] at hp
          omega
        | cons o' as =>
          obtain ⟨rfl, -⟩ := List.cons.inj hr
          obtain ⟨w, m, rfl⟩ := hi o (by simp)
          exact hexit.elim

/-- The condition `$x = $x = … = 1` with 256 assignments writes past the end of the buffer. -/
theorem not_inBuffer : ¬ ∀ src : CodeSource, src.InBuffer :=
  fun h => not_inBuffer_assignChain 0 0 (le_refl 256) (h _)

end Orchids

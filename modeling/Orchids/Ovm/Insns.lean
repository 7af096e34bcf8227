import Orchids.Ovm.Accesses
import Orchids.Ovm.Blocks

/-!
# Byte code without some instruction

* `Insns`: whole instructions of some kinds; `BlockCode`: a block of such instructions with its
  `OP_END`, as the compiler writes it.
* `BlockCode.step`: an execution only comes to instructions of the block.
* `BlockCode.exec_fields`: without `OP_PUSHFIELD` the fields do not matter.
-/

namespace Orchids

open Opcode

/-- Whole instructions, the opcodes of which meet `P`. -/
inductive Insns (P : Nat → Prop) : List Nat → Prop
  | nil : Insns P []
  | word {w : Nat} {ws : List Nat} : insnLen w = 1 → P w → Insns P ws → Insns P (w :: ws)
  | operand {w n : Nat} {ws : List Nat} : insnLen w = 2 → P w → Insns P ws →
      Insns P (w :: n :: ws)

namespace Insns

variable {P : Nat → Prop} {ws ws' : List Nat}

theorem append (h : Insns P ws) (h' : Insns P ws') : Insns P (ws ++ ws') := by
  induction h with
  | nil => exact h'
  | word hlen hw _ ih => exact .word hlen hw ih
  | operand hlen hw _ ih => exact .operand hlen hw ih

/-- The opcode at a boundary. -/
theorem at_boundary (h : Insns P ws) {k w : Nat} (hk : Boundary ws k) (hw : ws[k]? = some w) :
    P w := by
  induction h generalizing k with
  | nil => simp at hw
  | word hlen hp _ ih =>
    rcases hk.of_word hlen with rfl | ⟨k', rfl, hk'⟩
    · obtain rfl := Option.some.inj hw
      exact hp
    · exact ih hk' hw
  | operand hlen hp _ ih =>
    rcases hk.of_operand hlen with rfl | ⟨k', rfl, hk'⟩
    · obtain rfl := Option.some.inj hw
      exact hp
    · exact ih hk' hw

end Insns

/-- The code is the block `ws` with its `OP_END`, and the opcodes of the block meet `P`. -/
structure BlockCode (P : Nat → Prop) (ws code : List Nat) : Prop where
  eq : code = ws ++ [opEnd]
  short : ws.length < wordSize
  block : Block Inside ws
  insns : Insns P ws

namespace BlockCode

variable {V : Type} [Issdl V] {F : Frame V} {P : Nat → Prop} {ws : List Nat} {m m' : Machine V}

/-- The word at a boundary is an instruction of the block or its `OP_END`. -/
theorem word_at (h : BlockCode P ws F.bytecode) (hm : Boundary ws m.ip) {op : Opcode}
    (hop : F.bytecode[m.ip]? = some op.code) : ws[m.ip]? = some op.code ∧ P op.code := by
  have hw : ws[m.ip]? = some op.code := by
    rcases Nat.lt_or_eq_of_le hm.le_length with hlt | hend
    · rwa [h.eq, List.getElem?_append_left hlt] at hop
    · rw [h.eq, hend, List.getElem?_concat_length] at hop
      exact absurd (Option.some.inj hop).symm op.code_ne_opEnd
  exact ⟨hw, h.insns.at_boundary hm hw⟩

/-- A turn of the loop is an instruction of the block, and comes to one or to the `OP_END`. -/
theorem step (h : BlockCode P ws F.bytecode) (hm : Boundary ws m.ip) (hs : F.step m = .next m') :
    Boundary ws m'.ip ∧ ∃ op : Opcode, F.insn op m = some m' ∧ P op.code := by
  obtain ⟨op, hop, hi⟩ := Frame.step_next hs
  obtain ⟨w, hget, hof⟩ := Option.bind_eq_some_iff.mp hop
  obtain rfl := eq_code_of_ofWord hof
  obtain ⟨hw, hp⟩ := h.word_at hm hget
  refine ⟨?_, op, hi, hp⟩
  cases himpl : op.implemented with
  | true =>
    rcases Frame.step_block h.eq h.short h.block hm hw himpl with
      ⟨-, hc⟩ | ⟨-, m₁, hs₁, -, hb⟩
    · rw [hc] at hs
      cases hs
    · rw [hs₁] at hs
      exact Outcome.next.inj hs ▸ hb
  | false =>
    -- the handler only reports that it is not implemented
    have hstay : F.insn op m = some m := by
      cases op with
      | inc | dec | and | or | xor | neg | not | cesv | past => rfl
      | _ => cases himpl
    rw [hstay] at hi
    exact Option.some.inj hi ▸ hm

/-- A turn of the loop at another instruction than `OP_PUSHFIELD` does not read the fields. -/
theorem step_fields (h : BlockCode (· ≠ pushfield.code) ws F.bytecode) (hm : Boundary ws m.ip)
    (fields : Env V) : Frame.step { F with fields } m = F.step m := by
  unfold Frame.step
  simp only
  cases hw : F.bytecode[m.ip]? with
  | none => rfl
  | some w =>
    simp only
    split
    · rfl
    · split
      · rfl
      · cases hop : ofWord w with
        | none => rfl
        | some op =>
          obtain rfl := eq_code_of_ofWord hop
          have hne := (h.word_at hm hw).2
          cases op with
          | pushfield => exact absurd rfl hne
          | _ => rfl

/-- An execution does not read the fields, and comes to a boundary. -/
theorem exec_fields (h : BlockCode (· ≠ pushfield.code) ws F.bytecode) (fields : Env V) (fuel : Nat)
    (hm : Boundary ws m.ip) :
    Frame.exec { F with fields } fuel m = F.exec fuel m ∧ Boundary ws (F.exec fuel m).2.ip := by
  induction fuel generalizing m with
  | zero => exact ⟨rfl, hm⟩
  | succ fuel ih =>
    unfold Frame.exec
    rw [h.step_fields hm]
    cases hs : F.step m with
    | next m' =>
      obtain ⟨heq, hb⟩ := ih (h.step hm hs).1
      simp only [heq]
      exact ⟨rfl, hb⟩
    | _ => exact ⟨rfl, hm⟩

end BlockCode

end Orchids

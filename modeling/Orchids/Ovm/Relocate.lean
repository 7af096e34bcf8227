import Orchids.Ovm.Blocks

/-!
# A block in other code

What a block of instructions does depends on its words only, not on the code around it or on its
place there.

* `Frame.load`: a frame with other byte code; `Machine.shift`: a machine further on in its code.
* `Frame.reaches_shift`: an execution inside a block, in any code that has the block.
* `Frame.ip_le_of_reaches`: an execution of a block never goes back.
-/

namespace Orchids

open Opcode

variable {V : Type}

/-- The machine at a place that is `p` words further on. -/
def Machine.shift (m : Machine V) (p : Nat) : Machine V := { m with ip := p + m.ip }

variable [Issdl V]

namespace Frame

/-- The frame with other byte code. -/
def load (F : Frame V) (code : List Nat) : Frame V := { F with bytecode := code }

/-- A turn of the loop at a known instruction. -/
theorem step_of_code {F : Frame V} {m : Machine V} {op : Opcode}
    (h : F.bytecode[m.ip]? = some op.code) :
    F.step m = match F.insn op m with
      | none => .crash
      | some m' => .next m' := by
  cases hi : F.insn op m with
  | none => exact step_crash_of_word h hi
  | some m' => exact step_of_word h hi

variable {F : Frame V} {ws pre rest rest' : List Nat} {m m' : Machine V}

/-- An instruction does the same at another place with the same operand. -/
theorem insn_shift {c c' : List Nat} {p : Nat} {op : Opcode}
    (ho : op.hasOperand = true → (F.load c').operand (m.shift p) = (F.load c).operand m)
    (hj : IsJump op.code → ∀ n, (F.load c).operand m = some n → p + (m.ip + n + 2) < wordSize) :
    (F.load c').insn op (m.shift p) = ((F.load c).insn op m).map (·.shift p) := by
  have hjump : ∀ n, p + (m.ip + n + 2) < wordSize →
      (p + m.ip + n + 2) % wordSize = p + (m.ip + n + 2) % wordSize := by
    intro n hn
    rw [Nat.mod_eq_of_lt (by omega), Nat.mod_eq_of_lt (by omega)]
    omega
  cases op with
  | push | pop | pushstatic | pushfield | call =>
    simp only [insn, ho rfl]
    cases (F.load c).operand m with
    | none => rfl
    | some n => rfl
  | jmp =>
    simp only [insn, ho rfl]
    cases hn : (F.load c).operand m with
    | none => rfl
    | some n =>
      show some _ = some _
      simp only [Machine.shift, hjump n (hj (.inl rfl) n hn)]
  | popcjmp =>
    simp only [insn, ho rfl]
    cases hn : (F.load c).operand m with
    | none => rfl
    | some n =>
      show (if issdlTest (stackPop m.stack).1 then _ else _) =
        Option.map _ (if issdlTest (stackPop m.stack).1 then _ else _)
      split
      · simp only [Option.map_some, Machine.shift, hjump n (hj (.inr rfl) n hn)]
      · rfl
  | arith op =>
    by_cases h : arithEnds op (stackPop (stackPop m.stack).2).1 (stackPop m.stack).1 = true
    · have hc : (F.load c).insn (arith op) m = _ := if_pos h
      rw [hc]
      exact if_pos h
    · have hc : (F.load c).insn (arith op) m = _ := if_neg h
      rw [hc]
      exact if_neg h
  | regsplit =>
    simp only [insn, Machine.shift, Option.map_map]
    rfl
  | _ => rfl

/-- A turn of the loop inside a block, and the same turn in other code. -/
theorem step_shift (hlen : pre.length + ws.length < wordSize) (hb : Block Inside ws)
    (hm : Boundary ws m.ip) {op : Opcode} (hop : ws[m.ip]? = some op.code) :
    (F.load (pre ++ ws ++ rest')).step (m.shift pre.length) =
      match (F.load (ws ++ rest)).step m with
      | .next m' => .next (m'.shift pre.length)
      | o => o := by
  have hin : ∀ {k w : Nat}, ws[k]? = some w → (ws ++ rest)[k]? = some w ∧
      (pre ++ ws ++ rest')[pre.length + k]? = some w := by
    intro k w hk
    obtain ⟨hlt, -⟩ := List.getElem?_eq_some_iff.mp hk
    refine ⟨by rw [List.getElem?_append_left hlt, hk], ?_⟩
    rw [List.append_assoc, List.getElem?_append_right (Nat.le_add_right _ _),
      Nat.add_sub_cancel_left, List.getElem?_append_left hlt, hk]
  have hnext := hm.next hb.whole hop
  have hoperand : op.hasOperand = true → ∃ n, ws[m.ip + 1]? = some n := by
    intro ho
    have hle := hnext.le_length
    have hl : insnLen op.code = 2 := by simp [insnLen, ho]
    rw [hl] at hle
    have hlt : m.ip + 1 < ws.length := by omega
    exact ⟨_, List.getElem?_eq_getElem hlt⟩
  have hstep : (F.load (ws ++ rest)).step m = _ := step_of_code (hin hop).1
  have hstep' : (F.load (pre ++ ws ++ rest')).step (m.shift pre.length) = _ :=
    step_of_code (hin hop).2
  have hinsn : (F.load (pre ++ ws ++ rest')).insn op (m.shift pre.length) =
      ((F.load (ws ++ rest)).insn op m).map (·.shift pre.length) := by
    refine insn_shift (fun ho => ?_) fun hj n hn => ?_
    · obtain ⟨n, hn⟩ := hoperand ho
      exact (hin hn).2.trans (hin hn).1.symm
    · have ho : op.hasOperand = true := by
        have hl := hj.insnLen
        simp only [insnLen, ofWord_code] at hl
        by_contra h
        rw [if_neg h] at hl
        cases hl
      obtain ⟨n', hn'⟩ := hoperand ho
      have hn'' : (F.load (ws ++ rest)).operand m = some n' := (hin hn').1
      obtain rfl := Option.some.inj (hn''.symm.trans hn)
      have hle := ((hb.lands m.ip _ n' hm hop hj hn').resolve_right
        fun ⟨_, h, _⟩ => h).le_length
      omega
  rw [hstep', hinsn, hstep]
  cases (F.load (ws ++ rest)).insn op m with
  | none => rfl
  | some m' => rfl

/-- An execution of a block, and the same execution in other code that has the block. -/
theorem reaches_shift (hlen : pre.length + ws.length < wordSize) (hb : Block Inside ws)
    (hi : Implemented ws) (rest' : List Nat) (hm : Boundary ws m.ip)
    (h : (F.load (ws ++ [opEnd])).Reaches m m') :
    Boundary ws m'.ip ∧
      (F.load (pre ++ ws ++ rest')).Reaches (m.shift pre.length) (m'.shift pre.length) := by
  induction h with
  | refl => exact ⟨hm, Reaches.refl⟩
  | @tail x y _ hs ih =>
    obtain ⟨hx, hr⟩ := ih
    by_cases hend : x.ip = ws.length
    · have hdone : (F.load (ws ++ [opEnd])).step x = .done := step_at_end rfl hend
      rw [hs] at hdone
      cases hdone
    · obtain ⟨op, hop, himpl⟩ := hi.at hx (lt_of_le_of_ne hx.le_length hend)
      have hshift : (F.load (pre ++ ws ++ rest')).step (x.shift pre.length) =
          match (F.load (ws ++ [opEnd])).step x with
          | .next y => .next (y.shift pre.length)
          | o => o := step_shift hlen hb hx hop
      rw [hs] at hshift
      rcases step_block (F := F.load (ws ++ [opEnd])) rfl (by omega) hb hx hop himpl with
        ⟨-, hc⟩ | ⟨-, y', hy, -, hby⟩
      · rw [hs] at hc
        cases hc
      · rw [hs] at hy
        cases hy
        exact ⟨hby, hr.trans (.head hshift .refl)⟩

/-- An execution of a block with any words in it never goes back. -/
theorem ip_le_of_reaches (hF : F.bytecode = ws ++ opEnd :: rest) (hlen : ws.length < wordSize)
    (hb : Block Inside ws) (hm : Boundary ws m.ip) (h : F.Reaches m m') :
    m.ip ≤ m'.ip ∧ Boundary ws m'.ip := by
  induction h with
  | refl => exact ⟨le_refl _, hm⟩
  | @tail x y _ hs ih =>
    obtain ⟨hle, hx⟩ := ih
    by_cases hend : x.ip = ws.length
    · rw [step_at_end hF hend] at hs
      cases hs
    · have hlt : x.ip < ws.length := lt_of_le_of_ne hx.le_length hend
      have hw : F.bytecode[x.ip]? = some ws[x.ip] := by
        rw [hF, List.getElem?_append_left hlt, List.getElem?_eq_getElem hlt]
      cases hop : ofWord ws[x.ip] with
      | none =>
        simp only [step, hw, hop] at hs
        split at hs
        · cases hs
        · split at hs <;> cases hs
      | some op =>
        have hcode := eq_code_of_ofWord hop
        have hop' : ws[x.ip]? = some op.code := by rw [List.getElem?_eq_getElem hlt, hcode]
        cases himpl : op.implemented with
        | true =>
          rcases step_block hF hlen hb hx hop' himpl with ⟨-, hc⟩ | ⟨-, y', hy, hlt', hby⟩
          · rw [hs] at hc
            cases hc
          · rw [hs] at hy
            cases hy
            exact ⟨by omega, hby⟩
        | false =>
          -- a handler that is not implemented leaves the machine as it is
          have hs' := step_of_code (hcode ▸ hw)
          have hins : F.insn op x = some x := by
            cases op with
            | inc | dec | and | or | xor | neg | not | cesv | past => rfl
            | _ => cases himpl
          rw [hs, hins] at hs'
          cases hs'
          exact ⟨hle, hx⟩

/-- Of two machines that an execution comes to, one comes to the other. -/
theorem Reaches.linear {x y : Machine V} (hx : F.Reaches m x) (hy : F.Reaches m y) :
    F.Reaches x y ∨ F.Reaches y x :=
  Relation.ReflTransGen.total_of_right_unique
    (fun _ _ _ h h' => Outcome.next.inj (h.symm.trans h')) hx hy

/-- An execution does not go on from a crash. -/
theorem Reaches.eq_of_crash {x : Machine V} (hx : F.Reaches m x) (hc : F.step m = .crash) :
    x = m := by
  rcases Relation.ReflTransGen.cases_head hx with rfl | ⟨y, hy, -⟩
  · rfl
  · rw [hc] at hy
    cases hy

end Frame

end Orchids

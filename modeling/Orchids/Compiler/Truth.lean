import Orchids.Compiler.Jumps
import Orchids.Lang.Compare
import Orchids.Ovm.Exec
import Orchids.Ovm.Relocate

/-!
# The two tests of truth

`ovm_exec` passes a condition whose value is a `T_INT` other than 0. The conditional jump asks
`issdl_test`, for which every value of another type but null and the unsigned integers is true, and
which returns the `long` of an integer as an `int`.

* `exprWords_jump`, `exprWords_value`: the code of an expression up to its test is the same in all
  positions.
* `Frame.tests`: what a condition `e`, the condition `e && 1` and the action `if (e)` do with the
  value that this code leaves.
* `oneTruth_iff`: the three agree if and only if the two tests agree on the value of `e`.
-/

namespace Orchids

open Opcode Orchids.Frame

/-! ## The code up to the test -/

/-- The code of an expression before its truth is asked: a comparison is tested as it is, everything
else after its value. -/
def testedWords : Expr → List Nat
  | .cond (.cmp op) l r => exprWords l none ++ exprWords r none ++ [(cmp op).code]
  | e => exprWords e none

theorem exprWords_jump (e : Expr) (dThen dElse : Nat) :
    exprWords e (some (dThen, dElse)) = testedWords e ++ jumpWords dThen dElse := by
  cases e with
  | cond op l r => cases op <;> simp [exprWords, testedWords, endWords]
  | _ => simp [exprWords, testedWords, endWords]

theorem exprWords_value (e : Expr) :
    exprWords e none = testedWords e ∨
      exprWords e none = testedWords e ++ jumpWords 0 4 ++ boolWords := by
  cases e with
  | cond op l r =>
    cases op with
    | cmp op => exact .inr rfl
    | _ => exact .inl rfl
  | _ => exact .inl rfl

theorem testedWords_block (e : Expr) : Block Inside (testedWords e) := by
  cases e with
  | cond op l r =>
    cases op with
    | cmp op =>
      exact ((exprWords_block l none).seq (exprWords_block r none)).seq
        (Block.word (insnLen_cmp op))
    | _ => exact exprWords_block _ none
  | _ => exact exprWords_block _ none

theorem testedWords_implemented (e : Expr) : Implemented (testedWords e) := by
  refine AllImplemented.implemented ?_
  cases e with
  | cond op l r =>
    cases op with
    | cmp op =>
      exact ((AllImplemented.exprWords l none).append (AllImplemented.exprWords r none)).append
        (.word (o := cmp op) rfl rfl .nil)
    | _ => exact AllImplemented.exprWords _ none
  | _ => exact AllImplemented.exprWords _ none

mutual

/-- An action is at its place in the code, which is a boundary. -/
theorem placed_of_mem_stmtAt {code : List Nat} {q : Nat} {st' : Stmt} : ∀ (st : Stmt) (p : Nat),
    Boundary code p → CodeAt code p (stmtWords st) → (q, st') ∈ stmtAt st p →
      Boundary code q ∧ CodeAt code q (stmtWords st')
  | .expr e, p, hb, hw, h => by
    obtain ⟨rfl, rfl⟩ := Prod.mk.inj (List.mem_singleton.mp h)
    exact ⟨hb, hw⟩
  | .regsplit string splitPat destVars, p, hb, hw, h => by
    obtain ⟨rfl, rfl⟩ := Prod.mk.inj (List.mem_singleton.mp h)
    exact ⟨hb, hw⟩
  | .ifstmt cond thn els, p, hb, hw, h => by
    simp only [stmtAt, List.mem_cons, List.mem_append] at h
    have hthn := hb.codeAt hw.left.left.left (exprWords_block cond _).whole
    rcases h with h | h | h
    · obtain ⟨rfl, rfl⟩ := Prod.mk.inj h
      exact ⟨hb, hw⟩
    · exact placed_of_mem_stmtsAt thn _ hthn hw.left.left.right h
    · have hend := hthn.codeAt hw.left.left.right (stmtsWords_block thn).whole
      have hjmp : Whole [jmp.code, (stmtsWords els).length] := .operand rfl (.start _)
      have hels := hend.codeAt (hw.left.right.cast (by simp; omega)) hjmp
      exact placed_of_mem_stmtsAt els _ hels (hw.right.cast (by simp; omega)) h

theorem placed_of_mem_stmtsAt {code : List Nat} {q : Nat} {st' : Stmt} :
    ∀ (ss : List Stmt) (p : Nat), Boundary code p → CodeAt code p (stmtsWords ss) →
      (q, st') ∈ stmtsAt ss p → Boundary code q ∧ CodeAt code q (stmtWords st')
  | [], _, _, _, h => by cases h
  | st :: ss, p, hb, hw, h => by
    rcases List.mem_append.mp h with h | h
    · exact placed_of_mem_stmtAt st p hb hw.left h
    · exact placed_of_mem_stmtsAt ss _ (hb.codeAt hw.left (stmtWords_block st).whole) hw.right h

end

/-! ## What the code behind the test does -/

section

variable {V : Type} [Issdl V] {F : Frame V} {code rest : List Nat} {p a b : Nat}

namespace Frame

/-- The conditional jump, with any stack. -/
theorem popcjmp_step (hF : F.bytecode = code ++ rest) (hw : CodeAt code p (jumpWords a b))
    (hto : p + 4 + a < wordSize) (s : List (Option V)) (ρ : Env V) :
    F.step ⟨p, s, ρ⟩ =
      .next ⟨if issdlTest (stackPop s).1 then p + 4 + a else p + 2, (stackPop s).2, ρ⟩ := by
  have hword : F.bytecode[p]? = some popcjmp.code := bytecode_eq hF hw
  have hop : F.operand ⟨p, s, ρ⟩ = some (a + 2) := operand_eq hF hw
  have hmod : (p + (a + 2) + 2) % wordSize = p + 4 + a := by
    rw [Nat.mod_eq_of_lt (by omega)]
    omega
  refine step_of_word hword ?_
  simp only [insn, hop]
  cases ht : issdlTest (stackPop s).1 with
  | true =>
    show some (⟨(p + (a + 2) + 2) % wordSize, (stackPop s).2, ρ⟩ : Machine V) =
      some ⟨p + 4 + a, (stackPop s).2, ρ⟩
    rw [hmod]
  | false => rfl

/-- The jump behind it. -/
theorem jmp_step (hF : F.bytecode = code ++ rest) (hw : CodeAt code p (jumpWords a b))
    (hto : p + 4 + b < wordSize) (s : List (Option V)) (ρ : Env V) :
    F.step ⟨p + 2, s, ρ⟩ = .next ⟨p + 4 + b, s, ρ⟩ := by
  have hw' : CodeAt code (p + 2) [jmp.code, b] := hw.tail.tail
  have hword : F.bytecode[p + 2]? = some jmp.code := bytecode_eq hF hw'
  have hop : F.operand ⟨p + 2, s, ρ⟩ = some b := operand_eq hF hw'
  have hmod : (p + 2 + b + 2) % wordSize = p + 4 + b := by
    rw [Nat.mod_eq_of_lt (by omega)]
    omega
  refine step_of_word hword ?_
  simp only [insn, hop]
  show some _ = some _
  simp only [hmod]

/-- The two jumps. -/
theorem jumpWords_reaches (hF : F.bytecode = code ++ rest) (hw : CodeAt code p (jumpWords a b))
    (ha : p + 4 + a < wordSize) (hb : p + 4 + b < wordSize) (s : List (Option V)) (ρ : Env V) :
    F.Reaches ⟨p, s, ρ⟩
      ⟨p + 4 + if issdlTest (stackPop s).1 then a else b, (stackPop s).2, ρ⟩ := by
  have h₁ := popcjmp_step hF hw ha s ρ
  cases ht : issdlTest (stackPop s).1 with
  | true =>
    rw [ht, if_pos rfl] at h₁
    exact .head h₁ .refl
  | false =>
    rw [ht, if_neg Bool.false_ne_true] at h₁
    exact .head h₁ (.head (jmp_step hF hw hb _ ρ) .refl)

/-- The two constants, from the one that `t` selects. -/
theorem boolWords_reaches (hF : F.bytecode = code ++ rest) (hlen : code.length < wordSize)
    (hw : CodeAt code p boolWords) (hp : p ≤ code.length) (t : Bool) (s : List (Option V))
    (ρ : Env V) :
    F.Reaches ⟨p + if t then 0 else 4, s, ρ⟩ ⟨p + 6, F.boolVar t :: s, ρ⟩ :=
  Path.reaches (boolWords_runs hF hlen hw hp t)

/-- The execution of an expression up to its test: in any code that has its words, it comes to the
test with the same stack and environment, or it crashes before it. -/
theorem tested_outcome (F : Frame V) (e : Expr) (hlen : (testedWords e).length < wordSize)
    (s : List (Option V)) (ρ : Env V) :
    (∃ s' ρ', ∀ pre rest, pre.length + (testedWords e).length < wordSize →
      (F.load (pre ++ testedWords e ++ rest)).Reaches ⟨pre.length, s, ρ⟩
        ⟨pre.length + (testedWords e).length, s', ρ'⟩) ∨
      ∃ x : Machine V, x.ip < (testedWords e).length ∧ ∀ pre rest,
        pre.length + (testedWords e).length < wordSize →
          (F.load (pre ++ testedWords e ++ rest)).Reaches ⟨pre.length, s, ρ⟩
            (x.shift pre.length) ∧
          (F.load (pre ++ testedWords e ++ rest)).step (x.shift pre.length) = .crash := by
  have hb := testedWords_block e
  have hi := testedWords_implemented e
  have hF : (F.load (testedWords e ++ [opEnd])).bytecode = testedWords e ++ [opEnd] := rfl
  rcases block_outcome (m := ⟨0, s, ρ⟩) hF hlen hb hi (.start _) with
    ⟨k, m', -, hk, he⟩ | ⟨x, hr, hlt, -, hc⟩
  · refine .inl ⟨m'.stack, m'.currentEnv, fun pre rest hpre => ?_⟩
    have h := (reaches_shift hpre hb hi rest (.start _) hk.reaches).2
    rwa [Machine.shift, Machine.shift, he] at h
  · refine .inr ⟨x, hlt, fun pre rest hpre => ?_⟩
    obtain ⟨hbx, h⟩ := reaches_shift hpre hb hi rest (.start _) hr
    obtain ⟨op, hop, -⟩ := hi.at hbx hlt
    refine ⟨h, ?_⟩
    rw [step_shift hpre hb hbx hop, hc]

end Frame

end

/-- An `if` in a list of actions: the code before it, its condition, the code behind the condition,
which starts with the two jumps. -/
theorem if_placed {e : Expr} {thn els ss : List Stmt} {p : Nat}
    (hp : (p, .ifstmt e thn els) ∈ stmtsAt ss 0) :
    ∃ pre rest, pre.length = p ∧ stmtsWords ss = pre ++ testedWords e ++ rest ∧
      Boundary (stmtsWords ss) p ∧
      CodeAt (stmtsWords ss) (p + (testedWords e).length)
        (jumpWords 0 ((stmtsWords thn).length + 2)) ∧
      p + (testedWords e).length + 4 + ((stmtsWords thn).length + 2) ≤ (stmtsWords ss).length := by
  obtain ⟨hb, hw⟩ := placed_of_mem_stmtsAt ss 0 (.start _) (List.prefix_refl _) hp
  have hle := hw.length_le hb.le_length
  have hw' : CodeAt (stmtsWords ss) p
      (testedWords e ++ jumpWords 0 ((stmtsWords thn).length + 2)) := by
    have := hw.left.left.left
    rwa [exprWords_jump] at this
  obtain ⟨rest, hrest⟩ := hw'.left
  refine ⟨(stmtsWords ss).take p, rest, List.length_take_of_le hb.le_length, ?_, hb, hw'.right, ?_⟩
  · rw [List.append_assoc, hrest, List.take_append_drop]
  · simp only [stmtWords, exprWords_jump, jumpWords, List.length_append, List.length_cons,
      List.length_nil] at hle
    omega

/-! ## The three tests -/

section

variable {V : Type} [Issdl V]

/-- The action `if (e)` at `p` takes its first branch, which comes right behind its condition. -/
def Frame.TakesThen (F : Frame V) (p : Nat) (e : Expr) (thn : List Stmt) (s : List (Option V))
    (ρ : Env V) : Prop :=
  ∃ s' ρ', F.Reaches ⟨p, s, ρ⟩
    ⟨p + (exprWords e (some (0, (stmtsWords thn).length + 2))).length, s', ρ'⟩

variable [IssdlInt V]

/-- `ovm_exec` returns 0: the transition passes. -/
def Frame.Passes (F : Frame V) (s : List (Option V)) (ρ : Env V) : Prop :=
  ∃ r, Exec F s ρ r ∧ r.ret = 0

variable {F : Frame V} {e : Expr} {s s' : List (Option V)} {ρ ρ' : Env V} {code : List Nat}

/-- An execution that comes to an `OP_END` passes if and only if its result is an integer but 0. -/
theorem Frame.passes_iff {m : Machine V} (hr : F.Reaches ⟨0, s, ρ⟩ m) (hd : F.step m = .done) :
    F.Passes s ρ ↔ ovmRet (stackPop m.stack).1 = 0 := by
  have he : Exec F s ρ _ := .done hr hd
  constructor
  · rintro ⟨r, hx, h0⟩
    rw [hx.det he] at h0
    exact h0
  · exact fun h => ⟨_, he, h⟩

theorem Frame.not_passes_of_crash {m : Machine V} (hr : F.Reaches ⟨0, s, ρ⟩ m)
    (hc : F.step m = .crash) : ¬ F.Passes s ρ := by
  have hstop : ∀ x, F.step m ≠ .next x := by
    intro x hx
    rw [hc] at hx
    cases hx
  rintro ⟨r, hx, h0⟩
  cases hx with
  | done hr' hd =>
    obtain rfl := hr.det hr' hstop fun x hx => by
      rw [hd] at hx
      cases hx
    rw [hc] at hd
    cases hd
  | unknownOpcode _ _ => cases h0

omit [IssdlInt V] in
/-- The condition `e` comes to its `OP_END` with a value that `issdl_test` takes as it takes the
tested one. -/
theorem value_test (hlen : (exprWords e none).length < wordSize)
    (h : ∀ pre rest, pre.length + (testedWords e).length < wordSize →
      (F.load (pre ++ testedWords e ++ rest)).Reaches ⟨pre.length, s, ρ⟩
        ⟨pre.length + (testedWords e).length, s', ρ'⟩) :
    ∃ m, (F.load (exprWords e none ++ [opEnd])).Reaches ⟨0, s, ρ⟩ m ∧
      (F.load (exprWords e none ++ [opEnd])).step m = .done ∧
      issdlTest (stackPop m.stack).1 = issdlTest (stackPop s').1 := by
  rcases exprWords_value e with he | he
  · rw [he] at hlen ⊢
    have h₀ := h [] [opEnd] (by simpa using hlen)
    simp only [List.nil_append, List.length_nil, Nat.zero_add] at h₀
    exact ⟨_, h₀, step_at_end rfl rfl, rfl⟩
  · rw [he] at hlen ⊢
    simp only [List.length_append, jumpWords, boolWords, List.length_cons, List.length_nil] at hlen
    have h₀ := h [] (jumpWords 0 4 ++ boolWords ++ [opEnd]) (by simp only [List.length_nil]; omega)
    simp only [List.nil_append, List.length_nil, Nat.zero_add, ← List.append_assoc] at h₀
    obtain ⟨code, hcode⟩ : ∃ code, code = testedWords e ++ jumpWords 0 4 ++ boolWords := ⟨_, rfl⟩
    have hl : code.length = (testedWords e).length + 10 := by
      rw [hcode]
      simp [jumpWords, boolWords]
    have hall : CodeAt code 0 (testedWords e ++ jumpWords 0 4 ++ boolWords) := by
      rw [← hcode]
      exact List.prefix_refl _
    rw [← hcode] at h₀ ⊢
    have hF : (F.load (code ++ [opEnd])).bytecode = code ++ [opEnd] := rfl
    have hj := jumpWords_reaches hF (hall.left.right.cast (Nat.zero_add _)) (by omega) (by omega)
      s' ρ'
    have hb := boolWords_reaches hF (by omega)
      (hall.right.cast (q := (testedWords e).length + 4) (by simp [jumpWords])) (by omega)
      (issdlTest (stackPop s').1) (stackPop s').2 ρ'
    have hend : (testedWords e).length + 4 + 6 = code.length := by omega
    exact ⟨_, (h₀.trans hj).trans hb, step_at_end rfl hend, issdlTest_boolVar _ _⟩

/-- The condition `e && c` passes if and only if the tested value and the constant are true. -/
theorem andConst_test {c : Nat} (hc : issdlTest (F.staticEnv.get c) = true)
    (hbool : ∀ t, ovmRet (F.boolVar t) = 0 ↔ t = true)
    (hlen : (exprWords (.cond .andand e (.const c)) none).length < wordSize)
    (h : ∀ pre rest, pre.length + (testedWords e).length < wordSize →
      (F.load (pre ++ testedWords e ++ rest)).Reaches ⟨pre.length, s, ρ⟩
        ⟨pre.length + (testedWords e).length, s', ρ'⟩) :
    (F.load (exprWords (.cond .andand e (.const c)) none ++ [opEnd])).Passes s ρ ↔
      issdlTest (stackPop s').1 = true := by
  obtain ⟨code, hcode⟩ : ∃ code, code = exprWords (.cond .andand e (.const c)) none := ⟨_, rfl⟩
  have hwords : code = testedWords e ++ jumpWords 0 10 ++ [pushstatic.code, c] ++ jumpWords 0 4 ++
      boolWords := by
    rw [hcode]
    simp [exprWords, exprWords_jump, endWords, jumpWords]
  rw [← hcode] at hlen ⊢
  have hl : code.length = (testedWords e).length + 16 := by
    rw [hwords]
    simp [jumpWords, boolWords]
  have h₀ := h [] (jumpWords 0 10 ++ [pushstatic.code, c] ++ jumpWords 0 4 ++ boolWords ++ [opEnd])
    (by simp only [List.length_nil]; omega)
  simp only [List.nil_append, List.length_nil, Nat.zero_add, ← List.append_assoc] at h₀
  have hall : CodeAt code 0 (testedWords e ++ jumpWords 0 10 ++ [pushstatic.code, c] ++
      jumpWords 0 4 ++ boolWords) := by
    rw [← hwords]
    exact List.prefix_refl _
  rw [← hwords] at h₀
  have hF : (F.load (code ++ [opEnd])).bytecode = code ++ [opEnd] := rfl
  obtain ⟨q, hq⟩ : ∃ q, q = (testedWords e).length := ⟨_, rfl⟩
  rw [← hq] at h₀ hl
  have hj := jumpWords_reaches hF (hall.left.left.left.right.cast (q := q) (by rw [hq, Nat.zero_add]))
    (by omega) (by omega) s' ρ'
  have hwb : CodeAt code (q + 10) boolWords := hall.right.cast (by simp [jumpWords]; omega)
  have hb := fun t => boolWords_reaches hF (by omega) hwb (by omega) t (stackPop s').2 ρ'
  have hlast : q + 10 + 6 = code.length := by omega
  have hend : ∀ t, (F.load (code ++ [opEnd])).Reaches ⟨0, s, ρ⟩
      ⟨q + 10 + 6, F.boolVar t :: (stackPop s').2, ρ'⟩ →
        ((F.load (code ++ [opEnd])).Passes s ρ ↔ t = true) := by
    intro t ht
    rw [passes_iff ht (step_at_end rfl hlast)]
    exact hbool t
  cases ht : issdlTest (stackPop s').1 with
  | true =>
    rw [ht] at hj
    have hwc : CodeAt code (q + 4) [pushstatic.code, c] :=
      hall.left.left.right.cast (by simp [jumpWords]; omega)
    have hpush := Path.reaches (pushstatic_runs (s := (stackPop s').2) (ρ := ρ') hF hwc)
    have hj' := jumpWords_reaches hF (hall.left.right.cast (q := q + 4 + 2) (by simp [jumpWords]; omega))
      (by omega) (by omega) (F.staticEnv.get c :: (stackPop s').2) ρ'
    rw [stackPop_cons, hc] at hj'
    exact hend true ((((h₀.trans hj).trans hpush).trans hj').trans (hb true))
  | false =>
    rw [ht] at hj
    exact hend false ((h₀.trans hj).trans (hb false))

omit [IssdlInt V] in
/-- The action `if (e)` takes its first branch if and only if the tested value is true. -/
theorem if_test {thn els : List Stmt} {ss : List Stmt} {p : Nat}
    (hp : (p, .ifstmt e thn els) ∈ stmtsAt ss 0) (hlen : (stmtsWords ss).length < wordSize)
    (h : ∀ pre rest, pre.length + (testedWords e).length < wordSize →
      (F.load (pre ++ testedWords e ++ rest)).Reaches ⟨pre.length, s, ρ⟩
        ⟨pre.length + (testedWords e).length, s', ρ'⟩) :
    (F.load (stmtsWords ss ++ [opEnd])).TakesThen p e thn s ρ ↔
      issdlTest (stackPop s').1 = true := by
  obtain ⟨pre, rest, hpre, hcode, hbp, hwj, hlt⟩ := if_placed hp
  obtain ⟨q, hq⟩ : ∃ q, q = p + (testedWords e).length := ⟨_, rfl⟩
  have hF : (F.load (stmtsWords ss ++ [opEnd])).bytecode = stmtsWords ss ++ [opEnd] := rfl
  have h₀ := h pre (rest ++ [opEnd]) (by omega)
  rw [← List.append_assoc, ← hcode, hpre, ← hq] at h₀
  rw [← hq] at hwj hlt
  have hthen : p + (exprWords e (some (0, (stmtsWords thn).length + 2))).length = q + 4 := by
    rw [exprWords_jump, List.length_append, ← Nat.add_assoc, ← hq]
    rfl
  rw [TakesThen, hthen]
  have hj := popcjmp_step hF hwj (by omega) s' ρ'
  cases ht : issdlTest (stackPop s').1 with
  | true =>
    rw [ht, if_pos rfl] at hj
    exact ⟨fun _ => rfl, fun _ => ⟨_, _, h₀.trans (.head hj .refl)⟩⟩
  | false =>
    rw [ht, if_neg Bool.false_ne_true] at hj
    have hj' := jmp_step hF hwj (by omega) (stackPop s').2 ρ'
    refine ⟨fun ⟨s₁, ρ₁, hr⟩ => ?_, nofun⟩
    have hmono := fun {x y : Machine V} (hx : (F.load (stmtsWords ss ++ [opEnd])).Reaches
        ⟨p, s, ρ⟩ x) (hxy : (F.load (stmtsWords ss ++ [opEnd])).Reaches x y) =>
      (ip_le_of_reaches hF hlen (stmtsWords_block ss)
        (ip_le_of_reaches hF hlen (stmtsWords_block ss) hbp hx).2 hxy).1
    -- the first branch is between the test and the place that the second jump goes to
    rcases h₀.linear hr with h₁ | h₁
    · rcases Relation.ReflTransGen.cases_head h₁ with he | ⟨y, hy, h₂⟩
      · have hip : q = q + 4 := congrArg Machine.ip he
        omega
      · obtain rfl := Outcome.next.inj (hj.symm.trans hy)
        rcases Relation.ReflTransGen.cases_head h₂ with he | ⟨z, hz, h₃⟩
        · have hip : q + 2 = q + 4 := congrArg Machine.ip he
          omega
        · obtain rfl := Outcome.next.inj (hj'.symm.trans hz)
          have hip : q + 4 + ((stmtsWords thn).length + 2) ≤ q + 4 :=
            hmono (h₀.trans (.head hj (.head hj' .refl))) h₃
          omega
    · have hip : q + 4 ≤ q := hmono hr h₁
      omega

omit [IssdlInt V] in
/-- An `if` whose condition crashes before its test takes no branch. -/
theorem not_takesThen_of_crash {thn els : List Stmt} {ss : List Stmt} {p : Nat}
    (hp : (p, .ifstmt e thn els) ∈ stmtsAt ss 0) (hlen : (stmtsWords ss).length < wordSize)
    {x : Machine V} (hx : x.ip < (testedWords e).length)
    (h : ∀ pre rest, pre.length + (testedWords e).length < wordSize →
      (F.load (pre ++ testedWords e ++ rest)).Reaches ⟨pre.length, s, ρ⟩ (x.shift pre.length) ∧
        (F.load (pre ++ testedWords e ++ rest)).step (x.shift pre.length) = .crash) :
    ¬ (F.load (stmtsWords ss ++ [opEnd])).TakesThen p e thn s ρ := by
  obtain ⟨pre, rest, hpre, hcode, hbp, -, hlt⟩ := if_placed hp
  have hF : (F.load (stmtsWords ss ++ [opEnd])).bytecode = stmtsWords ss ++ [opEnd] := rfl
  obtain ⟨h₀, hc⟩ := h pre (rest ++ [opEnd]) (by omega)
  rw [← List.append_assoc, ← hcode, hpre] at h₀ hc
  rintro ⟨s₁, ρ₁, hr⟩
  rw [exprWords_jump, List.length_append] at hr
  have hxip : (x.shift p).ip = p + x.ip := rfl
  rcases h₀.linear hr with h₁ | h₁
  · have he := congrArg Machine.ip (h₁.eq_of_crash hc)
    rw [hxip] at he
    simp only at he
    omega
  · have hip := (ip_le_of_reaches hF hlen (stmtsWords_block ss)
      (ip_le_of_reaches hF hlen (stmtsWords_block ss) hbp hr).2 h₁).1
    rw [hxip] at hip
    simp only at hip
    omega

/-- The three agree if and only if the two tests agree on the result of the condition. -/
theorem oneTruth_iff_ovmRet {thn els ss : List Stmt} {p c : Nat} {code₁ code₂ code₃ : List Nat}
    (hc : issdlTest (F.staticEnv.get c) = true)
    (hbool : ∀ t, ovmRet (F.boolVar t) = 0 ↔ t = true)
    (h₁ : (CodeSource.condition e).result = .ok (some code₁))
    (h₂ : (CodeSource.condition (.cond .andand e (.const c))).result = .ok (some code₂))
    (h₃ : (CodeSource.actions ss).result = .ok (some code₃))
    (hp : (p, .ifstmt e thn els) ∈ stmtsAt ss 0) (s : List (Option V)) (ρ : Env V) :
    (((F.load code₁).Passes s ρ ↔ (F.load code₂).Passes s ρ) ∧
        ((F.load code₁).Passes s ρ ↔ (F.load code₃).TakesThen p e thn s ρ)) ↔
      ∀ m, (F.load code₁).Reaches ⟨0, s, ρ⟩ m → (F.load code₁).step m = .done →
        (ovmRet (stackPop m.stack).1 = 0 ↔ issdlTest (stackPop m.stack).1 = true) := by
  obtain ⟨hl₁, rfl⟩ := CodeSource.result_ok h₁
  obtain ⟨hl₂, rfl⟩ := CodeSource.result_ok h₂
  obtain ⟨hl₃, rfl⟩ := CodeSource.result_ok h₃
  simp only [CodeSource.words] at hl₁ hl₂ hl₃ ⊢
  have hlt : (testedWords e).length < wordSize := by
    rcases exprWords_value e with he | he
    · rwa [he] at hl₁
    · rw [he, List.length_append, List.length_append] at hl₁
      omega
  rcases tested_outcome F e hlt s ρ with ⟨s', ρ', h⟩ | ⟨x, hx, h⟩
  · obtain ⟨m, hr, hd, ht⟩ := value_test hl₁ h
    rw [passes_iff hr hd, andConst_test hc hbool hl₂ h, if_test hp hl₃ h, and_self, ← ht]
    constructor
    · intro hiff m' hr' hd'
      have hstop : ∀ {y : Machine V}, (F.load (exprWords e none ++ [opEnd])).step y = .done →
          ∀ z, (F.load (exprWords e none ++ [opEnd])).step y ≠ .next z := by
        intro y hy z hz
        rw [hy] at hz
        cases hz
      rwa [hr'.det hr (hstop hd') (hstop hd)]
    · exact fun hall => hall m hr hd
  · have hcrash₁ : ∃ rest, exprWords e none ++ [opEnd] = [] ++ testedWords e ++ rest := by
      rcases exprWords_value e with he | he
      · exact ⟨[opEnd], by rw [he, List.nil_append]⟩
      · exact ⟨jumpWords 0 4 ++ boolWords ++ [opEnd], by simp [he]⟩
    have hcrash₂ : ∃ rest, exprWords (.cond .andand e (.const c)) none ++ [opEnd] =
        [] ++ testedWords e ++ rest := by
      simp only [exprWords, exprWords_jump, List.append_assoc, List.nil_append]
      exact ⟨_, rfl⟩
    obtain ⟨r₁, hr₁⟩ := hcrash₁
    obtain ⟨r₂, hr₂⟩ := hcrash₂
    have hx₁ := h [] r₁ (by rwa [List.length_nil, Nat.zero_add])
    have hx₂ := h [] r₂ (by rwa [List.length_nil, Nat.zero_add])
    rw [← hr₁] at hx₁
    rw [← hr₂] at hx₂
    have hn₁ := not_passes_of_crash hx₁.1 hx₁.2
    have hn₂ := not_passes_of_crash hx₂.1 hx₂.2
    have hn₃ := not_takesThen_of_crash hp hl₃ hx h
    refine ⟨fun _ m hr hd => ?_, fun _ => ⟨by simp [hn₁, hn₂], by simp [hn₁, hn₃]⟩⟩
    -- a condition that crashes comes to no `OP_END`
    rcases hx₁.1.linear hr with hxm | hxm
    · rw [hxm.eq_of_crash hx₁.2, hx₁.2] at hd
      cases hd
    · rcases Relation.ReflTransGen.cases_head hxm with rfl | ⟨y, hy, -⟩
      · cases hd.symm.trans hx₁.2
      · rw [hd] at hy
        cases hy

end

/-! ## Values of the language -/

section

variable {R : Type} [CFloat R]

/-- The two tests agree on the value: it is null, an integer that is 0 or not 0 in its low 32 bits,
or an unsigned integer that is 0 there. -/
def OvmVar.OneTest : OvmVar R → Prop
  | .null _ => True
  | .int v => v = 0 ∨ v.setWidth 32 ≠ 0
  | .uint v => v.setWidth 32 = 0
  | _ => False

theorem OvmVar.oneTest_iff (v : OvmVar R) :
    (ovmRet (some v) = 0 ↔ issdlTest (some v) = true) ↔ v.OneTest := by
  cases v with
  | null n =>
    simp [ovmRet, issdlTest, Issdl.isNull, Issdl.test, OvmVar.test, OneTest, OvmVar.type]
  | int v =>
    by_cases h : v = 0#64 <;>
      simp [ovmRet, issdlTest, Issdl.isNull, Issdl.test, OvmVar.test, OneTest, IssdlInt.int, h]
  | uint v =>
    simp [ovmRet, issdlTest, Issdl.isNull, Issdl.test, OvmVar.test, OneTest, IssdlInt.int]
  | _ => simp [ovmRet, issdlTest, Issdl.isNull, Issdl.test, OvmVar.test, OneTest, IssdlInt.int]

/-- For an expression `e`, the condition `e`, the condition `e && 1` and the action `if (e)`, at any
place of an action list, agree in every environment and at every event if and only if the two tests
agree on the value that `e` has there. -/
theorem oneTruth_iff {F : Frame (OvmVar R)} {e : Expr} {thn els ss : List Stmt} {p c : Nat}
    {code₁ code₂ code₃ : List Nat} (hone : F.staticEnv.get staticIds.one = some (.int 1))
    (hzero : F.staticEnv.get staticIds.zero = some (.int 0))
    (hc : F.staticEnv.get c = some (.int 1))
    (h₁ : (CodeSource.condition e).result = .ok (some code₁))
    (h₂ : (CodeSource.condition (.cond .andand e (.const c))).result = .ok (some code₂))
    (h₃ : (CodeSource.actions ss).result = .ok (some code₃))
    (hp : (p, .ifstmt e thn els) ∈ stmtsAt ss 0) (s : List (Option (OvmVar R)))
    (ρ : Env (OvmVar R)) :
    (((F.load code₁).Passes s ρ ↔ (F.load code₂).Passes s ρ) ∧
        ((F.load code₁).Passes s ρ ↔ (F.load code₃).TakesThen p e thn s ρ)) ↔
      ∀ m, (F.load code₁).Reaches ⟨0, s, ρ⟩ m → (F.load code₁).step m = .done →
        ∀ v, (stackPop m.stack).1 = some v → v.OneTest := by
  have hbool : ∀ t, ovmRet (F.boolVar t) = 0 ↔ t = true := by
    intro t
    cases t with
    | true =>
      rw [show F.boolVar true = some (.int 1) from hone]
      exact ⟨fun _ => rfl, fun _ => rfl⟩
    | false =>
      rw [show F.boolVar false = some (.int 0) from hzero]
      exact ⟨nofun, nofun⟩
  have hc' : issdlTest (F.staticEnv.get c) = true := by
    rw [hc]
    rfl
  rw [oneTruth_iff_ovmRet hc' hbool h₁ h₂ h₃ hp]
  refine forall_congr' fun m => imp_congr_right fun _ => imp_congr_right fun _ => ?_
  cases hv : (stackPop m.stack).1 with
  | none => simp [ovmRet, issdlTest]
  | some v => simp [OvmVar.oneTest_iff]

end

/-- A frame with the constants of the compiler, 1 and 7, at an event with the field 0. -/
def truthFrame (field : OvmVar ℚ) : Frame (OvmVar ℚ) where
  bytecode := []
  inheritEnv _ := none
  staticEnv :=
    { get := fun n => [.int 1, .int 0, .null 1, .null 2, .null 3, .int 1, .int 7][n]?
      test_one := rfl
      test_zero := rfl }
  fields n := if n = 0 then some field else none
  argsNb _ := 0
  builtin _ _ := none

/-- The action `if (.f) 7;` -/
def ifField : Stmt := .ifstmt (.field 0) [.expr (.const 6)] []

/-- The code of a condition or an action list. -/
def CodeSource.code (src : CodeSource) : List Nat := src.words ++ [opEnd]

theorem oneTruth_iff_int :
    let F := truthFrame (.int 7)
    let code₁ := (CodeSource.condition (.field 0)).code
    let code₂ := (CodeSource.condition (.cond .andand (.field 0) (.const 5))).code
    let code₃ := (CodeSource.actions [ifField]).code
    ((F.load code₁).Passes [] (fun _ => none) ↔ (F.load code₂).Passes [] fun _ => none) ∧
      ((F.load code₁).Passes [] (fun _ => none) ↔
        (F.load code₃).TakesThen 0 (.field 0) [.expr (.const 6)] [] fun _ => none) := by
  intro F code₁ code₂ code₃
  have hp : (0, ifField) ∈ stmtsAt [ifField] 0 := by simp [stmtsAt, stmtAt, ifField]
  have hone : F.staticEnv.get 5 = some (.int 1) := rfl
  have h₃ : (CodeSource.actions [ifField]).result = .ok (some code₃) :=
    CodeSource.result_of_firstFault rfl (by decide)
  refine (oneTruth_iff rfl rfl hone rfl rfl h₃ hp [] fun _ => none).mpr fun m hr hd v hv => ?_
  have hend : (F.load code₁).Reaches ⟨0, [], fun _ => none⟩
      ⟨2, [some (.int 7)], fun _ => none⟩ := .head rfl .refl
  have hstop : ∀ x : Machine (OvmVar ℚ), (F.load code₁).step x = .done →
      ∀ y, (F.load code₁).step x ≠ .next y := by
    intro x hx y hy
    rw [hx] at hy
    cases hy
  obtain rfl := hr.det hend (hstop _ hd) (hstop _ rfl)
  obtain rfl := Option.some.inj hv
  exact .inr (by decide)

/-- A string passes `.f && 1` and not `.f`. -/
theorem not_oneTruth : ¬ ∀ (F : Frame (OvmVar ℚ)) (e : Expr) (c : Nat) (code₁ code₂ : List Nat),
    F.staticEnv.get staticIds.one = some (.int 1) → F.staticEnv.get staticIds.zero = some (.int 0) →
    F.staticEnv.get c = some (.int 1) → (CodeSource.condition e).result = .ok (some code₁) →
    (CodeSource.condition (.cond .andand e (.const c))).result = .ok (some code₂) → ∀ s ρ,
      ((F.load code₁).Passes s ρ ↔ (F.load code₂).Passes s ρ) := by
  intro h
  let F := truthFrame (.str ⟨[97], fun _ => 0⟩)
  let code := (CodeSource.condition (.field 0)).code
  have hiff := h F (.field 0) 5 code _ rfl rfl rfl rfl rfl [] fun _ => none
  obtain ⟨r, hx, h0⟩ := hiff.mpr ⟨_, .done (.head rfl (.head rfl (.head rfl (.head rfl (.head rfl
    (.head rfl .refl)))))) rfl, rfl⟩
  have hr : (F.load code).Reaches ⟨0, [], fun _ => none⟩ ⟨2, [F.fields 0], fun _ => none⟩ :=
    .head rfl .refl
  rw [hx.det (.done hr rfl)] at h0
  cases h0

end Orchids

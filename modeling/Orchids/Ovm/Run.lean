import Mathlib.Data.List.Infix
import Mathlib.Order.Nat
import Orchids.Ovm.Machine

/-!
# Runs through a piece of code

Rules to run the machine over words at a known place.

* `CodeAt`: the words at a position of the code.
* `Frame.Path`: turns of the loop that go forward, each at an instruction with its operands on the
  stack.
* `Frame.Runs`: a path to a target, or a crash before the end of the code.
* `push_runs` .. `regsplit_runs`: the rules for one instruction.
-/

namespace Orchids

/-! ## Code at a position -/

/-- `code` has the words `ws` at position `p`. -/
def CodeAt (code : List Nat) (p : Nat) (ws : List Nat) : Prop := ws <+: code.drop p

namespace CodeAt

variable {code ws ws' : List Nat} {p : Nat}

theorem left (h : CodeAt code p (ws ++ ws')) : CodeAt code p ws :=
  (List.prefix_append ws ws').trans h

theorem right (h : CodeAt code p (ws ++ ws')) : CodeAt code (p + ws.length) ws' := by
  obtain ⟨t, ht⟩ := h
  refine ⟨t, ?_⟩
  rw [← List.drop_drop, ← ht, List.append_assoc, List.drop_left]

theorem getElem? {w : Nat} (h : CodeAt code p (w :: ws)) : code[p]? = some w := by
  obtain ⟨t, ht⟩ := h
  have := congrArg (·[0]?) ht
  simpa using this.symm

theorem tail {w : Nat} (h : CodeAt code p (w :: ws)) : CodeAt code (p + 1) ws := by
  have h' : CodeAt code p ([w] ++ ws) := h
  exact h'.right

theorem cast {q : Nat} (h : CodeAt code p ws) (hp : p = q) : CodeAt code q ws := hp ▸ h

/-- Code that ends before `n` is in the words before `n`. -/
theorem take {n : Nat} (h : CodeAt code p ws) (hn : p + ws.length ≤ n) :
    CodeAt (code.take n) p ws := by
  rw [CodeAt, List.drop_take, List.prefix_take_iff]
  exact ⟨h, by omega⟩

theorem length_le (h : CodeAt code p ws) (hp : p ≤ code.length) :
    p + ws.length ≤ code.length := by
  have := List.IsPrefix.length_le h
  rw [List.length_drop] at this
  omega

end CodeAt

/-! ## Paths -/

namespace Frame

variable {V : Type} [Issdl V] {F : Frame V} {hi : Nat}

/-- The machine is at an instruction with its operands, which moves the instruction pointer
forward. -/
structure Advances (F : Frame V) (m : Machine V) : Prop where
  fits : F.Fits m
  ip_lt : ∀ m', F.step m = .next m' → m.ip < m'.ip

/-- Some turns of the loop: each goes forward, and finds an instruction and its operands. -/
def Path (F : Frame V) : Machine V → Machine V → Prop :=
  Relation.ReflTransGen fun m m' => F.Fits m ∧ m.ip < m'.ip ∧ F.step m = .next m'

namespace Path

variable {m m' x y : Machine V}

theorem reaches (h : F.Path m m') : F.Reaches m m' :=
  (Relation.ReflTransGen.mono fun _ _ h => h.2.2) _ _ h

theorem trans (h : F.Path m m') (h' : F.Path m' x) : F.Path m x :=
  Relation.ReflTransGen.trans h h'

theorem ip_le (h : F.Path m m') : m.ip ≤ m'.ip := by
  induction h with
  | refl => exact Nat.le_refl _
  | tail _ hs ih => exact ih.trans hs.2.1.le

/-- What the machine reaches from the start of a path is on the path or after it. -/
theorem split (h : F.Path m m') (h' : F.Reaches m y) :
    (F.Advances y ∧ y.ip < m'.ip) ∨ F.Reaches m' y := by
  induction h using Relation.ReflTransGen.head_induction_on with
  | refl => exact .inr h'
  | @head a c ha hc ih =>
    rcases Relation.ReflTransGen.cases_head h' with rfl | ⟨z, hz, hr⟩
    · have hle := ip_le hc
      refine .inl ⟨⟨ha.1, fun z hz => ?_⟩, lt_of_lt_of_le ha.2.1 hle⟩
      rw [ha.2.2] at hz
      cases hz
      exact ha.2.1
    · rw [ha.2.2] at hz
      cases hz
      exact ih hr

end Path

/-- A path to `m'` when `ok`, a path to a crash below position `hi` when not. -/
def Runs (F : Frame V) (hi : Nat) (m : Machine V) (ok : Bool) (m' : Machine V) : Prop :=
  if ok then F.Path m m'
  else ∃ x, F.Path m x ∧ x.ip < hi ∧ F.Fits x ∧ F.step x = .crash

namespace Runs

variable {m m' m'' y : Machine V} {a b : Bool}

theorem refl (m : Machine V) : F.Runs hi m true m := Relation.ReflTransGen.refl

theorem trans (h : F.Runs hi m a m') (h' : a = true → F.Runs hi m' b m'') :
    F.Runs hi m (a && b) m'' := by
  cases a with
  | false => exact h
  | true =>
    have h' := h' rfl
    cases b with
    | false =>
      obtain ⟨x, hx, hc⟩ := h'
      exact ⟨x, Path.trans h hx, hc⟩
    | true => exact Path.trans h h'

/-- A second part that cannot crash. -/
theorem andThen (h : F.Runs hi m a m') (h' : F.Runs hi m' true m'') : F.Runs hi m a m'' := by
  have := h.trans fun _ => h'
  rwa [Bool.and_true] at this

/-- What the machine reaches is at an instruction with its operands, or after the target. -/
theorem split (h : F.Runs hi m a m') (h' : F.Reaches m y) :
    (F.Advances y ∧ y.ip < max hi m'.ip) ∨ (a = true ∧ F.Reaches m' y) := by
  cases a with
  | false =>
    obtain ⟨x, hx, hlt, hf, hc⟩ := h
    rcases hx.split h' with ⟨h₁, h₂⟩ | h₁
    · exact .inl ⟨h₁, by omega⟩
    · rcases Relation.ReflTransGen.cases_head h₁ with rfl | ⟨z, hz, -⟩
      · refine .inl ⟨⟨hf, fun z hz => ?_⟩, by omega⟩
        rw [hc] at hz
        cases hz
      · rw [hc] at hz
        cases hz
  | true =>
    rcases Path.split h h' with ⟨h₁, h₂⟩ | h₁
    · exact .inl ⟨h₁, by omega⟩
    · exact .inr ⟨rfl, h₁⟩

theorem mono {n : Nat} (h : F.Runs hi m a m') (hle : hi ≤ n) : F.Runs n m a m' := by
  cases a with
  | false =>
    obtain ⟨x, hx, hlt, hc⟩ := h
    exact ⟨x, hx, lt_of_lt_of_le hlt hle, hc⟩
  | true => exact h

theorem reaches_iff (h : F.Runs hi m a m') (hm : m'.ip = hi) : F.Reaches m m' ↔ a = true := by
  refine ⟨fun h' => ?_, fun ha => ?_⟩
  · rcases h.split h' with ⟨-, hlt⟩ | ⟨ha, -⟩
    · omega
    · exact ha
  · subst ha
    exact Path.reaches h

end Runs

end Frame

/-! ## Instructions -/

section

open Opcode Orchids.Frame

variable {V : Type} [Issdl V] {F : Frame V} {code rest ws : List Nat} {p n : Nat}
  {s : List (Option V)} {ρ : Env V}

theorem bytecode_eq (hF : F.bytecode = code ++ rest) {w : Nat} (hw : CodeAt code p (w :: ws)) :
    F.bytecode[p]? = some w := by
  have hip := hw.getElem?
  obtain ⟨hlt, -⟩ := List.getElem?_eq_some_iff.mp hip
  rw [hF, List.getElem?_append_left hlt, hip]

theorem operand_eq (hF : F.bytecode = code ++ rest) {w : Nat} (hw : CodeAt code p (w :: n :: ws)) :
    F.operand ⟨p, s, ρ⟩ = some n :=
  bytecode_eq hF hw.tail

/-- An instruction that goes forward and has its operands. -/
theorem runs_insn (hF : F.bytecode = code ++ rest) {op : Opcode} {m' : Machine V}
    (hw : CodeAt code p (op.code :: ws)) (hop : op.implemented = true)
    (hpop : F.popsNb op ⟨p, s, ρ⟩ ≤ s.length) (hi : F.insn op ⟨p, s, ρ⟩ = some m')
    (hlt : p < m'.ip) : F.Runs code.length ⟨p, s, ρ⟩ true m' := by
  have hb := bytecode_eq hF hw
  exact Relation.ReflTransGen.single ⟨⟨op, hb, hop, hpop⟩, hlt, F.step_of_word hb hi⟩

/-- An instruction that crashes. -/
theorem runs_crash (hF : F.bytecode = code ++ rest) {op : Opcode} {m' : Machine V}
    (hw : CodeAt code p (op.code :: ws)) (hop : op.implemented = true)
    (hpop : F.popsNb op ⟨p, s, ρ⟩ ≤ s.length) (hi : F.insn op ⟨p, s, ρ⟩ = none) :
    F.Runs code.length ⟨p, s, ρ⟩ false m' := by
  have hb := bytecode_eq hF hw
  obtain ⟨hlt, -⟩ := List.getElem?_eq_some_iff.mp hw.getElem?
  exact ⟨_, Relation.ReflTransGen.refl, hlt, ⟨op, hb, hop, hpop⟩, F.step_crash_of_word hb hi⟩

theorem push_runs (hF : F.bytecode = code ++ rest) (hw : CodeAt code p (push.code :: n :: ws)) :
    F.Runs code.length ⟨p, s, ρ⟩ true ⟨p + 2, F.readVar ρ n :: s, ρ⟩ :=
  runs_insn hF hw rfl (Nat.zero_le _) (by simp [insn, operand_eq hF hw]) (by simp)

theorem pushstatic_runs (hF : F.bytecode = code ++ rest)
    (hw : CodeAt code p (pushstatic.code :: n :: ws)) :
    F.Runs code.length ⟨p, s, ρ⟩ true ⟨p + 2, F.staticEnv.get n :: s, ρ⟩ :=
  runs_insn hF hw rfl (Nat.zero_le _) (by simp [insn, operand_eq hF hw]) (by simp)

theorem pushfield_runs (hF : F.bytecode = code ++ rest)
    (hw : CodeAt code p (pushfield.code :: n :: ws)) :
    F.Runs code.length ⟨p, s, ρ⟩ true ⟨p + 2, F.fields n :: s, ρ⟩ :=
  runs_insn hF hw rfl (Nat.zero_le _) (by simp [insn, operand_eq hF hw]) (by simp)

theorem pop_runs (hF : F.bytecode = code ++ rest) (hw : CodeAt code p (pop.code :: n :: ws))
    (v : Option V) :
    F.Runs code.length ⟨p, v :: s, ρ⟩ true ⟨p + 2, s, Function.update ρ n v⟩ :=
  runs_insn hF hw rfl (by simp [popsNb]) (by simp [insn, operand_eq hF hw]) (by simp)

theorem trash_runs (hF : F.bytecode = code ++ rest) (hw : CodeAt code p (trash.code :: ws))
    (v : Option V) : F.Runs code.length ⟨p, v :: s, ρ⟩ true ⟨p + 1, s, ρ⟩ :=
  runs_insn hF hw rfl (by simp [popsNb]) (by simp [insn]) (by simp)

theorem call_runs (hF : F.bytecode = code ++ rest) (hw : CodeAt code p (call.code :: n :: ws))
    {l : List (Option V)} (hn : F.argsNb n = l.length) :
    F.Runs code.length ⟨p, l ++ s, ρ⟩ true ⟨p + 2, F.builtin n l :: s, ρ⟩ :=
  runs_insn hF hw rfl (by simp [popsNb, operand_eq hF hw, hn])
    (by simp [insn, operand_eq hF hw, hn, stackPopN_append]) (by simp)

theorem cmp_runs (hF : F.bytecode = code ++ rest) {op : CmpOp}
    (hw : CodeAt code p ((cmp op).code :: ws)) (a b : Option V) :
    F.Runs code.length ⟨p, b :: a :: s, ρ⟩ true ⟨p + 1, F.cmpResult op a b :: s, ρ⟩ :=
  runs_insn hF hw rfl (by simp [popsNb]) (by simp [insn]) (by simp)

/-- An arithmetic operator: it may trap, and it reads the flags of the operands. -/
theorem arith_runs (hF : F.bytecode = code ++ rest) {op : ArithOp}
    (hw : CodeAt code p ((arith op).code :: ws)) (a b : Option V) :
    F.Runs code.length ⟨p, b :: a :: s, ρ⟩ (arithEnds op a b)
      ⟨p + 1, F.arithResult op a b :: s, ρ⟩ := by
  cases hab : arithEnds op a b with
  | true => exact runs_insn hF hw rfl (by simp [popsNb]) (by simp [insn, hab]) (by simp)
  | false => exact runs_crash hF hw rfl (by simp [popsNb]) (by simp [insn, hab])

/-- A jump inside the code. -/
theorem jmp_runs (hF : F.bytecode = code ++ rest) (hw : CodeAt code p (jmp.code :: n :: ws))
    (hn : p + n + 2 < wordSize) :
    F.Runs code.length ⟨p, s, ρ⟩ true ⟨p + 2 + n, s, ρ⟩ := by
  have hip : (p + n + 2) % wordSize = p + 2 + n := by
    rw [Nat.mod_eq_of_lt hn]
    omega
  exact runs_insn hF hw rfl (Nat.zero_le _) (by simp [insn, operand_eq hF hw, hip])
    (by show p < p + 2 + n; omega)

theorem popcjmp_runs (hF : F.bytecode = code ++ rest)
    (hw : CodeAt code p (popcjmp.code :: n :: ws)) (hn : p + n + 2 < wordSize) (v : Option V) :
    F.Runs code.length ⟨p, v :: s, ρ⟩ true ⟨p + 2 + if issdlTest v then n else 0, s, ρ⟩ := by
  have hip : (p + n + 2) % wordSize = p + 2 + n := by
    rw [Nat.mod_eq_of_lt hn]
    omega
  refine runs_insn hF hw rfl (by simp [popsNb]) ?_ (by show p < p + 2 + _; omega)
  cases hv : issdlTest v <;> simp [insn, operand_eq hF hw, hv, hip]

theorem regsplit_runs (hF : F.bytecode = code ++ rest) (hw : CodeAt code p (regsplit.code :: ws))
    (pattern string : Option V) :
    F.Runs code.length ⟨p, pattern :: string :: s, ρ⟩ (regsplitResult pattern string).isSome
      ⟨p + 1, ((regsplitResult pattern string).getD []).map some ++ s, ρ⟩ := by
  cases hr : regsplitResult pattern string with
  | some groups => exact runs_insn hF hw rfl (by simp [popsNb]) (by simp [insn, hr]) (by simp)
  | none => exact runs_crash hF hw rfl (by simp [popsNb]) (by simp [insn, hr])

end

end Orchids

import Orchids.Lib.Scopes
import Orchids.Ovm.Exec

/-!
# The accesses to variables of an execution

`OP_PUSH` reads a variable of the state instance and `OP_POP` assigns one; no other instruction
looks at the environments.

* `Frame.Traces`: some turns of the loop with their accesses.
* `Traces.replays`: the reads find the binding of the moment, and the current environment is what
  the assignments make it.
* `Frame.exec`: turns of the loop as long as it goes on.
-/

namespace Orchids

open Scopes

variable {V : Type} [Issdl V]

namespace Frame

/-- The access of the instruction at which the machine is. -/
def accessOf (F : Frame V) (m : Machine V) : List (Access Nat V) :=
  match F.bytecode[m.ip]?.bind Opcode.ofWord, F.operand m with
  | some .push, some n => [.read n (bindingIn m.currentEnv F.inheritEnv n)]
  | some .pop, some n => [.assign n (stackPop m.stack).1]
  | _, _ => []

/-- Some turns of the loop, with their accesses. -/
inductive Traces (F : Frame V) (m : Machine V) : List (Access Nat V) → Machine V → Prop
  | refl : Traces F m [] m
  | step {l : List (Access Nat V)} {m' m'' : Machine V} : Traces F m l m' →
      F.step m' = .next m'' → Traces F m (l ++ F.accessOf m') m''

variable {F : Frame V} {m m' : Machine V}

/-- `OP_PUSH` pushes the binding that it finds, or the static null. -/
theorem readVar_eq (env : Env V) (n : Nat) :
    F.readVar env n = match bindingIn env F.inheritEnv n with
      | some v => some v
      | none => F.nullVar := by
  unfold readVar bindingIn
  cases env n <;> rfl

theorem step_next (h : F.step m = .next m') :
    ∃ op, F.bytecode[m.ip]?.bind Opcode.ofWord = some op ∧ F.insn op m = some m' := by
  unfold step at h
  cases hw : F.bytecode[m.ip]? with
  | none =>
    rw [hw] at h
    cases h
  | some w =>
    rw [hw] at h
    simp only at h
    split at h
    · cases h
    · split at h
      · cases h
      · cases hop : Opcode.ofWord w with
        | none =>
          rw [hop] at h
          cases h
        | some op =>
          rw [hop] at h
          simp only at h
          cases hi : F.insn op m with
          | none =>
            rw [hi] at h
            cases h
          | some m'' =>
            rw [hi] at h
            obtain rfl : m'' = m' := Outcome.next.inj h
            exact ⟨op, hop, hi⟩

/-- Only `OP_POP` changes the current environment. -/
theorem insn_currentEnv {op : Opcode} (hop : op ≠ .pop) (h : F.insn op m = some m') :
    m'.currentEnv = m.currentEnv := by
  cases op with
  | pop => exact (hop rfl).elim
  | push | pushstatic | pushfield | call | jmp | popcjmp =>
    cases hn : F.operand m with
    | none => simp [insn, hn] at h
    | some n =>
      simp only [insn, hn, Option.bind_eq_bind, Option.bind_some] at h
      grind
  | regsplit =>
    simp only [insn, Option.map_eq_some_iff] at h
    obtain ⟨groups, -, rfl⟩ := h
    rfl
  | _ => grind [insn]

theorem step_replays (h : F.step m = .next m') :
    Replays F.inheritEnv m.currentEnv (F.accessOf m) m'.currentEnv := by
  obtain ⟨op, hw, hi⟩ := step_next h
  unfold accessOf
  rw [hw]
  cases op with
  | push =>
    cases hn : F.operand m with
    | none => simp [insn, hn] at hi
    | some n => exact ⟨rfl, insn_currentEnv (by simp) hi⟩
  | pop =>
    cases hn : F.operand m with
    | none => simp [insn, hn] at hi
    | some n =>
      simp only [insn, hn, Option.bind_eq_bind, Option.bind_some, Option.some.injEq] at hi
      subst hi
      rfl
  | _ => exact insn_currentEnv (by simp) hi

theorem Traces.replays {l : List (Access Nat V)} (h : F.Traces m l m') :
    Replays F.inheritEnv m.currentEnv l m'.currentEnv := by
  induction h with
  | refl => rfl
  | step _ hs ih => exact ih.append (step_replays hs)

theorem Traces.head {m'' : Machine V} {l : List (Access Nat V)} (hs : F.step m = .next m')
    (h : F.Traces m' l m'') : F.Traces m (F.accessOf m ++ l) m'' := by
  induction h with
  | refl =>
    rw [List.append_nil]
    exact .step .refl hs
  | step _ hs' ih =>
    rw [← List.append_assoc]
    exact .step ih hs'

/-- At most `fuel` turns of the loop. -/
def exec (F : Frame V) : Nat → Machine V → List (Access Nat V) × Machine V
  | 0, m => ([], m)
  | fuel + 1, m =>
    match F.step m with
    | .next m' => (F.accessOf m ++ (exec F fuel m').1, (exec F fuel m').2)
    | _ => ([], m)

theorem exec_traces (F : Frame V) (fuel : Nat) (m : Machine V) :
    F.Traces m (F.exec fuel m).1 (F.exec fuel m).2 := by
  induction fuel generalizing m with
  | zero => exact .refl
  | succ fuel ih =>
    unfold exec
    split
    · rename_i m' hs
      exact .head hs (ih m')
    · exact .refl

end Frame

end Orchids

import Mathlib.Data.List.Basic
import Orchids.Ovm.Value

/-!
# Executions on the one operand stack (`ovm_exec`, `ovm_flush`)

All executions use `ctx->ovm_stack`, which `ovm_flush` is to empty at each return. Its loop ends at
the first `NULL` that `stack_pop` gives, be the stack empty or not.

* `Exec`: what a call of `ovm_exec` returns and leaves, from any stack.
* `isolated_iff`: in a history of executions the stack is empty after each return, and each returns
  what it returns alone, if and only if each execution is clean: alone it comes to its flush without
  a `NULL` above another operand.
-/

namespace Orchids

/-- `INT(x)` of a value with `TYPE(x) == T_INT`. -/
class IssdlInt (V : Type) where
  int : V → Option (BitVec 64)

instance : IssdlInt Val where
  int
    | .null => none
    | .int v => some v

variable {V : Type}

/-- `ovm_flush` -/
def ovmFlush : List (Option V) → List (Option V)
  | [] => []
  | none :: s => s
  | some _ :: s => ovmFlush s

/-- The flush empties the stack if and only if only its last element may be `NULL`. -/
theorem ovmFlush_eq_nil : ∀ {s : List (Option V)}, ovmFlush s = [] ↔ none ∉ s.dropLast
  | [] => by simp [ovmFlush]
  | [some v] => by simp [ovmFlush]
  | [none] => by simp [ovmFlush]
  | some v :: w :: s => by
    rw [ovmFlush, ovmFlush_eq_nil, List.dropLast_cons_cons, List.mem_cons]
    simp
  | none :: w :: s => by simp [ovmFlush]

variable [Issdl V] [IssdlInt V]

/-- The value that `ovm_exec` returns for the result `res`. -/
def ovmRet : Option V → Int
  | none => 1
  | some v =>
    if Issdl.isNull v then 1
    else
      match IssdlInt.int v with
      | some i => if i = 0 then 1 else 0
      | none => 1

/-- What a call of `ovm_exec` returns and leaves. -/
structure Return (V : Type) where
  ret : Int
  env : Env V
  stack : List (Option V)

/-- A call of `ovm_exec` from a stack and an environment. -/
inductive Exec (F : Frame V) (stack : List (Option V)) (env : Env V) : Return V → Prop
  | done {m : Machine V} : F.Reaches ⟨0, stack, env⟩ m → F.step m = .done →
      Exec F stack env
        { ret := ovmRet (stackPop m.stack).1, env := m.currentEnv
          stack := ovmFlush (stackPop m.stack).2 }
  | unknownOpcode {m : Machine V} : F.Reaches ⟨0, stack, env⟩ m → F.step m = .unknownOpcode →
      Exec F stack env { ret := 1, env := m.currentEnv, stack := ovmFlush m.stack }

/-- An execution returns in one way. -/
theorem Exec.det {F : Frame V} {stack : List (Option V)} {env : Env V} {r r' : Return V}
    (h : Exec F stack env r) (h' : Exec F stack env r') : r = r' := by
  have hstop : ∀ {m : Machine V}, F.step m = .done ∨ F.step m = .unknownOpcode →
      ∀ x, F.step m ≠ .next x := by
    rintro m (hm | hm) x hx
    · rw [hm] at hx
      cases hx
    · rw [hm] at hx
      cases hx
  cases h with
  | done hr hd =>
    cases h' with
    | done hr' hd' =>
      rw [hr.det hr' (hstop (.inl hd)) (hstop (.inl hd'))]
    | unknownOpcode hr' hu' =>
      obtain rfl := hr.det hr' (hstop (.inl hd)) (hstop (.inr hu'))
      rw [hd] at hu'
      cases hu'
  | unknownOpcode hr hu =>
    cases h' with
    | done hr' hd' =>
      obtain rfl := hr.det hr' (hstop (.inr hu)) (hstop (.inl hd'))
      rw [hu] at hd'
      cases hd'
    | unknownOpcode hr' hu' =>
      rw [hr.det hr' (hstop (.inr hu)) (hstop (.inr hu'))]

/-- The execution comes to its flush with no `NULL` above another operand. -/
structure Frame.Clean (F : Frame V) (env : Env V) : Prop where
  done : ∀ m, F.Reaches ⟨0, [], env⟩ m → F.step m = .done → none ∉ (stackPop m.stack).2.dropLast
  unknownOpcode : ∀ m, F.Reaches ⟨0, [], env⟩ m → F.step m = .unknownOpcode →
    none ∉ m.stack.dropLast

theorem Exec.stack_eq_nil {F : Frame V} {env : Env V} {r : Return V} (h : Exec F [] env r)
    (hc : F.Clean env) : r.stack = [] := by
  cases h with
  | done hr hd => exact ovmFlush_eq_nil.mpr (hc.done _ hr hd)
  | unknownOpcode hr hu => exact ovmFlush_eq_nil.mpr (hc.unknownOpcode _ hr hu)

theorem Exec.clean {F : Frame V} {env : Env V} {r : Return V} (h : Exec F [] env r)
    (hr : r.stack = []) : F.Clean env where
  done _ hm hd := ovmFlush_eq_nil.mp ((congrArg Return.stack (h.det (.done hm hd))).symm.trans hr)
  unknownOpcode _ hm hu :=
    ovmFlush_eq_nil.mp ((congrArg Return.stack (h.det (.unknownOpcode hm hu))).symm.trans hr)

/-! ## Histories -/

/-- An execution in a history. -/
structure Execution (V : Type) [Issdl V] where
  frame : Frame V
  env : Env V
  result : Return V

/-- Executions one after the other, each from the stack that the one before has left. -/
def History : List (Option V) → List (Execution V) → Prop
  | _, [] => True
  | stack, x :: xs => Exec x.frame stack x.env x.result ∧ History x.result.stack xs

/-- The stack is empty after each return, and each execution returns what it returns alone. -/
def Isolated (xs : List (Execution V)) : Prop :=
  ∀ x ∈ xs, x.result.stack = [] ∧ Exec x.frame [] x.env x.result

/-- A history from the empty stack is isolated if and only if each execution in it is clean. -/
theorem isolated_iff {xs : List (Execution V)} (h : History [] xs) :
    Isolated xs ↔ ∀ x ∈ xs, x.frame.Clean x.env := by
  constructor
  · intro hi x hx
    exact (hi x hx).2.clean (hi x hx).1
  · intro hc
    induction xs with
    | nil => exact fun _ hx => (List.not_mem_nil hx).elim
    | cons x xs ih =>
      have hnil := h.1.stack_eq_nil (hc x List.mem_cons_self)
      intro y hy
      rcases List.mem_cons.mp hy with rfl | hy
      · exact ⟨hnil, h.1⟩
      · have hrest := h.2
        rw [hnil] at hrest
        exact ih hrest (fun z hz => hc z (List.mem_cons_of_mem _ hz)) y hy

end Orchids

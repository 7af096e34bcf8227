import Mathlib.Data.List.Forall2
import Orchids.Compiler.Correct
import Orchids.Ovm.Builtins

/-!
# Where `NULL` operands come from

A `NULL` on the operand stack is what `OP_PUSHFIELD` has pushed for a field that the event does not
have: an assignment of it to a variable is not read back as `NULL`, and all results are values. The
only other `NULL` is what a pop of the empty stack gives.

* `Source`: what has pushed an element; `Sourced`: an execution with the sources of its operands.
* `Sourced.matches`: an element is `NULL` if and only if its source is absent.
* `noNullRead_iff`: an execution never reads through `NULL` if and only if it takes no operand that it
  reads without a test from the empty stack or from an absent field.
-/

namespace Orchids

open Opcode Orchids.Frame

/-- What has pushed an element of the stack. -/
inductive Source where
  /-- On the stack before the execution. -/
  | before (null : Bool)
  | field (n : Nat)
  | static (n : Nat)
  /-- A result, or the value of a variable. -/
  | value

variable {V : Type} [Issdl V] [IssdlType V]

namespace Frame

variable (F : Frame V)

/-- The source has pushed `NULL`. -/
def Absent : Source → Prop
  | .before null => null = true
  | .field n => F.fields n = none
  | .static n => F.staticEnv.get n = none
  | .value => False

/-- The sources of the stack of `m'`, which is after the instruction at `m`. -/
def sourcesAfter (w : World V) (op : Opcode) (m m' : Machine V) (os : List Source) :
    List Source :=
  match op, F.operand m with
  | .pushfield, some n => .field n :: os
  | .pushstatic, some n => .static n :: os
  | op, _ =>
    let os := os.drop (F.corePopsNb w op m)
    List.replicate (m'.stack.length - os.length) .value ++ os

/-- Some turns of the loop, with the sources of the elements of the stack. -/
inductive Sourced (st : Site) (m₀ : Machine V) : Machine V → List Source → Prop
  | start : Sourced st m₀ m₀ (m₀.stack.map fun x => .before x.isNone)
  | step {m m' : Machine V} {os : List Source} {op : Opcode} (w : World V) :
      Sourced st m₀ m os → F.bytecode[m.ip]?.bind Opcode.ofWord = some op →
      F.coreInsn st w op m = .ok m' → Sourced st m₀ m' (F.sourcesAfter w op m m' os)

/-- The next instruction finds the operands that it reads without a test on the stack, and none of
them is from an absent field. -/
def Guarded (st : Site) (w : World V) (m : Machine V) (os : List Source) : Prop :=
  ∀ op, F.bytecode[m.ip]?.bind Opcode.ofWord = some op →
    ∀ i ∈ F.unguarded st w op m, ∃ o, os[i]? = some o ∧ ¬ F.Absent o

/-- The elements that are `NULL` are the ones whose source is absent. -/
def Matches (s : List (Option V)) (os : List Source) : Prop :=
  List.Forall₂ (fun x o => x = none ↔ F.Absent o) s os

variable {F} {st : Site} {m₀ m m' : Machine V} {os : List Source}

/-! ## Turns of the loop -/

theorem coreStep_of_insn {w : World V} {op : Opcode}
    (hop : F.bytecode[m.ip]?.bind Opcode.ofWord = some op) :
    F.coreStep st w m = some <$> F.coreInsn st w op m := by
  obtain ⟨word, hw, hof⟩ := Option.bind_eq_some_iff.mp hop
  obtain rfl := eq_code_of_ofWord hof
  simp [coreStep, hw, code_ne_opEnd, Nat.not_le.mpr op.code_lt_opcodeNum]

theorem coreStep_no_insn (st : Site) (w : World V)
    (hop : F.bytecode[m.ip]?.bind Opcode.ofWord = none) :
    F.coreStep st w m = .ok none ∨ F.coreStep st w m = .error .badCode := by
  unfold coreStep
  cases hw : F.bytecode[m.ip]? with
  | none => exact .inr rfl
  | some word =>
    rw [hw, Option.bind_some] at hop
    simp only [hop]
    split
    · exact .inl rfl
    · split
      · exact .inl rfl
      · exact .inr rfl

/-- A turn of the loop that goes on is an instruction. -/
theorem coreStep_next {w : World V} (h : F.coreStep st w m = .ok (some m')) :
    ∃ op, F.bytecode[m.ip]?.bind Opcode.ofWord = some op ∧ F.coreInsn st w op m = .ok m' := by
  cases hop : F.bytecode[m.ip]?.bind Opcode.ofWord with
  | none => rcases coreStep_no_insn st w hop with h' | h' <;> rw [h'] at h <;> cases h
  | some op =>
    rw [coreStep_of_insn hop] at h
    cases hi : F.coreInsn st w op m with
    | error e =>
      rw [hi] at h
      cases h
    | ok x =>
      rw [hi] at h
      cases h
      exact ⟨op, rfl, hi⟩

/-- A turn of the loop reads through `NULL` if and only if its instruction does. -/
theorem nullRead_coreStep {w : World V} :
    NullRead (F.coreStep st w m) ↔ ∃ op, F.bytecode[m.ip]?.bind Opcode.ofWord = some op ∧
      ∃ i ∈ F.unguarded st w op m, element m.stack i = none := by
  cases hop : F.bytecode[m.ip]?.bind Opcode.ofWord with
  | none => rcases coreStep_no_insn st w hop with h | h <;> simp [h, NullRead]
  | some op => simp [coreStep_of_insn hop, nullRead_coreInsn]

/-! ## Sources -/

theorem Sourced.reaches (h : F.Sourced st m₀ m os) : F.CoreReaches st m₀ m := by
  induction h with
  | start => exact Relation.ReflTransGen.refl
  | step w _ hop hi ih =>
    refine Relation.ReflTransGen.tail ih ⟨w, ?_⟩
    rw [coreStep_of_insn hop, hi]
    rfl

theorem exists_sourced (h : F.CoreReaches st m₀ m) : ∃ os, F.Sourced st m₀ m os := by
  induction h with
  | refl => exact ⟨_, .start⟩
  | tail _ hs ih =>
    obtain ⟨w, hs⟩ := hs
    obtain ⟨os, ih⟩ := ih
    obtain ⟨op, hop, hi⟩ := coreStep_next hs
    exact ⟨_, .step w ih hop hi⟩

omit [IssdlType V] in
theorem Matches.values {s : List (Option V)} (h : F.Matches s os) (vs : List V) :
    F.Matches (vs.map some ++ s) (List.replicate vs.length .value ++ os) := by
  induction vs with
  | nil => exact h
  | cons v vs ih => exact .cons (by simp [Absent]) ih

/-- An instruction keeps the sources right. -/
theorem Matches.step (hs : F.FirstStatics) {w : World V} {op : Opcode}
    (h : F.Matches m.stack os) (hi : F.coreInsn st w op m = .ok m') :
    F.Matches m'.stack (F.sourcesAfter w op m m' os) := by
  by_cases hf : op = .pushfield
  · subst hf
    cases hn : F.operand m with
    | none => simp [coreInsn, insn, hn] at hi
    | some n =>
      simp [coreInsn, insn, hn, pure, Except.pure] at hi
      subst hi
      simp only [sourcesAfter, hn]
      exact .cons Iff.rfl h
  · by_cases hst : op = .pushstatic
    · subst hst
      cases hn : F.operand m with
      | none => simp [coreInsn, insn, hn] at hi
      | some n =>
        simp [coreInsn, insn, hn, pure, Except.pure] at hi
        subst hi
        simp only [sourcesAfter, hn]
        exact .cons Iff.rfl h
    · obtain ⟨vs, hvs⟩ := yields_coreInsn hs st w m hf hst m' hi
      have hd : F.Matches (m.stack.drop (F.corePopsNb w op m)) (os.drop (F.corePopsNb w op m)) :=
        List.forall₂_drop _ h
      have hl := List.Forall₂.length_eq hd
      have ha : F.sourcesAfter w op m m' os = List.replicate vs.length .value ++
          os.drop (F.corePopsNb w op m) := by
        unfold sourcesAfter
        split
        · exact (hf rfl).elim
        · exact (hst rfl).elim
        · simp only [hvs, List.length_append, List.length_map, hl, Nat.add_sub_cancel]
      rw [hvs, ha]
      exact hd.values vs

/-- On every execution, an element of the stack is `NULL` if and only if its source is absent. -/
theorem Sourced.matches (hs : F.FirstStatics) (h : F.Sourced st m₀ m os) :
    F.Matches m.stack os := by
  induction h with
  | start => exact List.forall₂_map_right_iff.mpr (List.forall₂_same.mpr fun x _ => by simp [Absent])
  | step w _ _ hi ih => exact ih.step hs hi

omit [IssdlType V] in
theorem Matches.element_ne_none {s : List (Option V)} (h : F.Matches s os) (i : Nat) :
    element s i ≠ none ↔ ∃ o, os[i]? = some o ∧ ¬ F.Absent o := by
  induction h generalizing i with
  | nil => simp [element]
  | cons hx _ ih =>
    cases i with
    | zero => simp [element, hx]
    | succ i => simpa [element] using ih i

/-- From any machine: no turn of the loop reads through `NULL` if and only if every operand that is
read without a test is on the stack and not from an absent field, wherever the execution comes to. -/
theorem noNullRead_iff (hs : F.FirstStatics) (st : Site) (m₀ : Machine V) :
    (∀ m w, F.CoreReaches st m₀ m → ¬ NullRead (F.coreStep st w m)) ↔
      ∀ m os w, F.Sourced st m₀ m os → F.Guarded st w m os := by
  have hstep : ∀ {m os w}, F.Sourced st m₀ m os →
      (¬ NullRead (F.coreStep st w m) ↔ F.Guarded st w m os) := by
    intro m os w h
    have hm := fun i => (h.matches hs).element_ne_none i
    simp only [nullRead_coreStep, Guarded, ← hm, not_exists, not_and, ne_eq]
  constructor
  · intro h m os w hr
    exact (hstep hr).mp (h m w hr.reaches)
  · intro h m w hr
    obtain ⟨os, ho⟩ := exists_sourced hr
    exact (hstep ho).mpr (h m os w ho)

end Frame

/-! ## Two conditions -/

instance : IssdlType Val where
  type v := v.type.toNat
  dataLen
    | .null => 0
    | .int _ => 8

/-- A state instance with an event, of a rule without variables. -/
def quietSite : Site := { event := true, ruleInstance := true, dynamicEnvSz := 0, debugLog := false }

/-- The condition `7 < .f` at an event without the field. -/
def ltField : Expr := .cond (.cmp .clt) (.const 5) (.field 0)

theorem noNullRead_iff_ltField :
    compileBytecodeExpr ltField Buffer.init = .ok (exprBuffer ltField) ∧
      ∀ m w, (exprFrame ltField).CoreReaches quietSite ⟨0, [], fun _ => none⟩ m →
        ¬ NullRead ((exprFrame ltField).coreStep quietSite w m) := by
  refine ⟨rfl, (noNullRead_iff (by unfold FirstStatics; decide) quietSite _).mpr ?_⟩
  intro m os w _ op hop i hi
  -- the code has no instruction that reads without a test
  have hw : ∀ word ∈ (exprFrame ltField).bytecode,
      word ∉ [call.code, regsplit.code, (arith .add).code, (arith .sub).code, (arith .mul).code,
        (arith .div).code, (arith .mod).code] := by decide +kernel
  obtain ⟨word, hword, hof⟩ := Option.bind_eq_some_iff.mp hop
  have hnot := hw word (List.mem_of_getElem? hword)
  obtain rfl := eq_code_of_ofWord hof
  cases op with
  | arith op => cases op <;> simp at hnot
  | call | regsplit => simp at hnot
  | _ => simp [unguarded] at hi

/-- The condition `.f + 7` at the same event. -/
def addField : Expr := .binop .add (.field 0) (.const 5)

theorem not_noNullRead :
    compileBytecodeExpr addField Buffer.init = .ok (exprBuffer addField) ∧
      ¬ ∀ m w, (exprFrame addField).CoreReaches quietSite ⟨0, [], fun _ => none⟩ m →
        ¬ NullRead ((exprFrame addField).coreStep quietSite w m) := by
  refine ⟨rfl, fun h => ?_⟩
  let w : World Val :=
    { child := true, regcomp := fun _ => true, make := fun _ _ => .null, modFunc := fun _ _ => (0, []) }
  have h₁ : (exprFrame addField).coreStep quietSite w ⟨0, [], fun _ => none⟩ =
      .ok (some ⟨2, [none], fun _ => none⟩) := rfl
  have h₂ : (exprFrame addField).coreStep quietSite w ⟨2, [none], fun _ => none⟩ =
      .ok (some ⟨4, [some (.int 7), none], fun _ => none⟩) := rfl
  have hreach : (exprFrame addField).CoreReaches quietSite ⟨0, [], fun _ => none⟩
      ⟨4, [some (.int 7), none], fun _ => none⟩ := .tail (.single ⟨w, h₁⟩) ⟨w, h₂⟩
  exact h _ w hreach rfl

end Orchids

import Orchids.Compiler.Actions
import Orchids.Ovm.Exec

/-!
# The operand stack behind compiled code

* `clean_of_condition`, `clean_of_actions`: code whose calls pass as many arguments as the built-ins
  pop leaves nothing below its result, so that its executions are clean.
* `not_isolated`: one call with more arguments, one of them an absent field, is enough for an
  operand that stays on the stack.
-/

namespace Orchids

open Opcode Orchids.Frame

variable {V : Type} [Issdl V] {F : Frame V} {ρ ρ' : Env V}

theorem Frame.step_end {m : Machine V} (h : F.bytecode[m.ip]? = some opEnd) :
    F.step m = .done := by
  simp [step, h]

/-- An instruction with its operands is not the end of an execution. -/
theorem Frame.Fits.not_end {m : Machine V} (h : F.Fits m) :
    F.step m ≠ .done ∧ F.step m ≠ .unknownOpcode := by
  obtain ⟨op, hop, -, -⟩ := h
  cases hi : F.insn op m with
  | none =>
    rw [step_crash_of_word hop hi]
    exact ⟨nofun, nofun⟩
  | some m' =>
    rw [step_of_word hop hi]
    exact ⟨nofun, nofun⟩

/-- Code that comes to `OP_END` with nothing below its result, or crashes. -/
theorem Frame.Runs.clean {hi q : Nat} {ok : Bool} {s : List (Option V)}
    (h : F.Runs hi ⟨0, [], ρ⟩ ok ⟨q, s, ρ'⟩) (hend : F.bytecode[q]? = some opEnd)
    (hs : (stackPop s).2 = []) : F.Clean ρ := by
  have hdone : F.step ⟨q, s, ρ'⟩ = .done := step_end hend
  have hlast : ∀ m, F.Reaches ⟨0, [], ρ⟩ m → (F.step m = .done ∨ F.step m = .unknownOpcode) →
      m = ⟨q, s, ρ'⟩ := by
    intro m hm hstop
    rcases h.split hm with ⟨hadv, -⟩ | ⟨-, hreach⟩
    · exact (hstop.elim hadv.fits.not_end.1 hadv.fits.not_end.2).elim
    · rcases Relation.ReflTransGen.cases_head hreach with heq | ⟨x, hx, -⟩
      · exact heq.symm
      · rw [hdone] at hx
        cases hx
  refine ⟨fun m hm hd => ?_, fun m hm hu => ?_⟩
  · obtain rfl := hlast m hm (.inl hd)
    rw [hs]
    exact List.not_mem_nil
  · obtain rfl := hlast m hm (.inr hu)
    rw [hdone] at hu
    cases hu

/-- A condition whose calls pass as many arguments as the built-ins pop. -/
theorem clean_of_condition {e : Expr} {b : Buffer} (h : compileBytecodeExpr e Buffer.init = .ok b)
    (hF : F.bytecode = compileSetLabels b ++ [opEnd]) (ρ : Env V) (hc : F.CallsMade e ρ) :
    F.Clean ρ := by
  have hruns := compileBytecodeExpr_runs F e Buffer.init b [] [opEnd] (Emits.refl _) h hF [] ρ hc
  refine hruns.clean ?_ rfl
  rw [hF, ← length_compileSetLabels h]
  simp

/-- A list of actions that fit wherever the run comes to them. -/
theorem clean_of_actions {ss : List Stmt} {b : Buffer}
    (h : compileActionsBytecode ss Buffer.init = .ok b)
    (hF : F.bytecode = compileSetLabels b ++ [opEnd])
    (hfit : ∀ x, F.Reaches ⟨0, [], ρ⟩ x → ∀ st, (x.ip, st) ∈ stmtsAt ss 0 →
      F.StmtFits st x.currentEnv) : F.Clean ρ := by
  obtain ⟨hcode, hpos, hsz⟩ := compileSetLabels_compileActionsBytecode h
  rw [hcode] at hF
  have hlt : (stmtsWords ss).length < wordSize := lt_of_le_of_lt (hpos ▸ hsz) (by decide)
  obtain ⟨ok, ρ', hrun⟩ := stmts_runs ss hF hlt (Nat.zero_add _) List.prefix_rfl hfit
  refine hrun.clean ?_ rfl
  rw [hF]
  simp

/-! ## Two histories -/

/-- The condition of `callExpr`, twice. -/
theorem isolated_iff_callExpr :
    ∃ r, History [] [⟨exprFrame callExpr, fun _ => none, r⟩, ⟨exprFrame callExpr, fun _ => none, r⟩] ∧
      Isolated [⟨exprFrame callExpr, fun _ => none, r⟩, ⟨exprFrame callExpr, fun _ => none, r⟩] := by
  have hb : compileBytecodeExpr callExpr Buffer.init = .ok (exprBuffer callExpr) := rfl
  have hc : (exprFrame callExpr).CallsMade callExpr fun _ => none :=
    ⟨⟨⟨⟨trivial, fun _ => trivial⟩, fun _ => rfl⟩, fun _ => trivial⟩,
      fun _ _ => ⟨trivial, fun _ => trivial⟩⟩
  have hruns := compileBytecodeExpr_runs (exprFrame callExpr) callExpr Buffer.init
    (exprBuffer callExpr) [] [opEnd] (Emits.refl _) hb rfl [] (fun _ => none) hc
  have hexec := Exec.done ((hruns.reaches_iff rfl).mpr rfl)
    (step_end (by decide +kernel))
  have hh : History [] [⟨exprFrame callExpr, fun _ => none, _⟩,
    ⟨exprFrame callExpr, fun _ => none, _⟩] := ⟨hexec, hexec, trivial⟩
  refine ⟨_, hh, (isolated_iff hh).mpr fun x hx => ?_⟩
  simp only [List.mem_cons, List.not_mem_nil, or_false, or_self] at hx
  subst hx
  exact clean_of_condition hb rfl _ hc

/-- `f(7, .field, 7)` with a built-in that pops one argument, at an event without the field. -/
def extraArgs : Expr := .call 0 [.const 5, .field 0, .const 5]

/-- The last argument stays on the stack. -/
theorem not_isolated :
    compileBytecodeExpr extraArgs Buffer.init = .ok (exprBuffer extraArgs) ∧
      ∃ r, History [] [⟨exprFrame extraArgs, fun _ => none, r⟩] ∧
        ¬ Isolated [⟨exprFrame extraArgs, fun _ => none, r⟩] := by
  refine ⟨rfl, ?_⟩
  have hcode : (exprFrame extraArgs).bytecode = [4, 5, 5, 0, 4, 5, 7, 0] ++ [0] := by decide +kernel
  have hw : CodeAt [4, 5, 5, 0, 4, 5, 7, 0] 0 [4, 5, 5, 0, 4, 5, 7, 0] := List.prefix_rfl
  have h₁ := pushstatic_runs (s := []) (ρ := fun _ => none) hcode hw
  have h₂ := pushfield_runs (s := [some (.int 7)]) (ρ := fun _ => none) hcode (p := 2) hw.tail.tail
  have h₃ := pushstatic_runs (s := [none, some (.int 7)]) (ρ := fun _ => none) hcode (p := 4)
    hw.tail.tail.tail.tail
  have h₄ := call_runs (s := [none, some (.int 7)]) (ρ := fun _ => none) hcode (p := 6)
    hw.tail.tail.tail.tail.tail.tail (l := [some (.int 7)]) rfl
  have hreach := Path.reaches (((h₁.andThen h₂).andThen h₃).andThen h₄)
  have hexec := Exec.done hreach (step_end (by decide +kernel))
  refine ⟨_, ⟨hexec, trivial⟩, fun hi => ?_⟩
  cases (hi _ List.mem_cons_self).1

end Orchids

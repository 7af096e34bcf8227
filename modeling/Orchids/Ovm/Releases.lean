import Orchids.Ovm.Objects

/-!
# Runs of the machine on objects

Rules to run the machine on objects over words at a known place.

* `ObjFrame.Last`: when an object is released, nothing else points to it.
* `ObjFrame.Runs`: a path to a target whose pointers have their values, or a path to a crash or to a
  state in which something points to a released object. `Runs.reaches_iff`: in the second case the
  end of the code is not reached with values.
* `push_objs` .. `popcjmp_objs`: the rules for one instruction.
-/

namespace Orchids

open Opcode

variable {V : Type} [Issdl V]

namespace ObjFrame

variable {P : ObjFrame V} {hi : Nat} {M M' M'' N : ObjMachine V} {s s' : List (Option V)}
  {ρ ρ' : Env V} {a b : Prop}

/-! ## Paths -/

/-- Turns of the loop that go forward. -/
def Path (P : ObjFrame V) : ObjMachine V → ObjMachine V → Prop :=
  Relation.ReflTransGen fun M M' => M.ip < M'.ip ∧ P.step M = some M'

theorem Path.reaches (h : P.Path M M') : P.Reaches M M' :=
  (Relation.ReflTransGen.mono fun _ _ h => h.2) _ _ h

theorem Path.ip_le (h : P.Path M M') : M.ip ≤ M'.ip := by
  induction h with
  | refl => exact Nat.le_refl _
  | tail _ hs ih => exact ih.trans hs.1.le

/-- What is reached from the start of a path is on it or behind it. -/
theorem Path.split (h : P.Path M M') (h' : P.Reaches M N) : N.ip < M'.ip ∨ P.Reaches M' N := by
  induction h using Relation.ReflTransGen.head_induction_on with
  | refl => exact .inr h'
  | @head x y hx hy ih =>
    rcases Relation.ReflTransGen.cases_head h' with rfl | ⟨z, hz, hr⟩
    · exact .inl (lt_of_lt_of_le hx.1 (Path.ip_le hy))
    · rw [hx.2] at hz
      cases hz
      exact ih hr

theorem dangling_step (h : P.Dangling M.stack M.store) (heq : P.step M = some M') :
    P.Dangling M'.stack M'.store := by
  unfold step at heq
  split at heq
  · cases heq
  · split at heq
    · cases heq
    · split at heq
      · cases heq
      · exact dangling_insn h heq

theorem dangling_reaches (h : P.Dangling M.stack M.store) (hr : P.Reaches M M') :
    P.Dangling M'.stack M'.store := by
  induction hr with
  | refl => exact h
  | tail _ hs ih => exact dangling_step ih hs

/-- A crash before `hi`, or a pointer to a released object at `hi` at the latest. -/
def Lost (P : ObjFrame V) (hi : Nat) (M : ObjMachine V) : Prop :=
  (M.ip < hi ∧ P.step M = none) ∨ (M.ip ≤ hi ∧ P.Dangling M.stack M.store)

/-- A path to `M'` with the values `s` and `ρ` where `ok`, else a path to where they are lost. -/
structure Runs (P : ObjFrame V) (hi : Nat) (M : ObjMachine V) (ok : Prop) (M' : ObjMachine V)
    (s : List (Option V)) (ρ : Env V) : Prop where
  path : ok → P.Path M M' ∧ P.Holds M'.stack M'.store s ρ
  lost : ¬ ok → ∃ x, P.Path M x ∧ P.Lost hi x

namespace Runs

theorem refl (h : P.Holds M.stack M.store s ρ) : P.Runs hi M True M s ρ :=
  ⟨fun _ => ⟨.refl, h⟩, fun hn => (hn trivial).elim⟩

theorem trans (h : P.Runs hi M a M' s ρ)
    (h' : a → P.Holds M'.stack M'.store s ρ → P.Runs hi M' b M'' s' ρ') :
    P.Runs hi M (a ∧ b) M'' s' ρ' := by
  by_cases ha : a
  · obtain ⟨hp, hh⟩ := h.path ha
    have h'' := h' ha hh
    refine ⟨fun hab => ?_, fun hn => ?_⟩
    · obtain ⟨hp', hh'⟩ := h''.path hab.2
      exact ⟨Relation.ReflTransGen.trans hp hp', hh'⟩
    · obtain ⟨x, hx, hl⟩ := h''.lost fun hb => hn ⟨ha, hb⟩
      exact ⟨x, Relation.ReflTransGen.trans hp hx, hl⟩
  · exact ⟨fun hab => (ha hab.1).elim, fun _ => h.lost ha⟩

theorem congr (h : P.Runs hi M a M' s ρ) (hab : a ↔ b) : P.Runs hi M b M' s ρ :=
  ⟨fun hb => h.path (hab.mpr hb), fun hn => h.lost fun ha => hn (hab.mp ha)⟩

/-- The end of the code is reached with the values exactly when they are not lost. -/
theorem reaches_iff (h : P.Runs hi M a M' s ρ) (hip : M'.ip = hi) :
    (∃ x, P.Reaches M x ∧ x.ip = hi ∧ P.Holds x.stack x.store s ρ) ↔ a := by
  refine ⟨fun ⟨x, hx, hxip, hh⟩ => ?_, fun ha => ?_⟩
  · by_contra hn
    obtain ⟨y, hy, hl⟩ := h.lost hn
    have hle : y.ip ≤ hi := hl.elim (fun h => h.1.le) fun h => h.1
    rcases hy.split hx with hlt | hr
    · omega
    · rcases hl with ⟨hlt, hstuck⟩ | ⟨-, hd⟩
      · rcases Relation.ReflTransGen.cases_head hr with rfl | ⟨z, hz, -⟩
        · omega
        · rw [hstuck] at hz
          cases hz
      · exact hh.not_dangling (dangling_reaches hd hr)
  · obtain ⟨hp, hh⟩ := h.path ha
    exact ⟨M', hp.reaches, hip, hh⟩

end Runs

/-! ## Releases -/

variable {w w' : List (Option Nat)} {σ : Store V} {flag : VarObj V → Bool} {p q res : Option Nat}

/-- If the object behind `p` has the flag by which it is released, nothing points to it: not the
stack `w`, and no variable, constant or field. -/
def Last (P : ObjFrame V) (flag : VarObj V → Bool) (w : List (Option Nat)) (σ : Store V)
    (p : Option Nat) : Prop :=
  ∀ a, p = some a → flag (σ.objs.cell a) = true → ¬ P.Points w σ a

/-- The operands `p` and `q` of an operator with the result `res` are released: nothing else points
to them, and they are not one object. -/
def LastOperands (P : ObjFrame V) (w : List (Option Nat)) (σ : Store V) (p q res : Option Nat) :
    Prop :=
  P.Last VarObj.isNotBound (q :: res :: w) σ p ∧ P.Last VarObj.isNotBound (p :: res :: w) σ q

theorem freeIf_holds (h : P.Holds w σ s ρ) (hl : P.Last flag w σ p) :
    P.Holds w (σ.freeIf flag p) s ρ := by
  unfold Store.freeIf
  cases p with
  | none => exact h
  | some x =>
    simp only
    split
    · rename_i hf
      exact h.free (hl x rfl hf)
    · exact h

/-- The object that is released although something points to it. -/
theorem not_last (hl : ¬ P.Last flag w σ p) :
    ∃ x, p = some x ∧ flag (σ.objs.cell x) = true ∧ P.Points w σ x := by
  simp only [Last, not_forall, not_not] at hl
  obtain ⟨x, hx, hf, hp⟩ := hl
  exact ⟨x, hx, hf, hp⟩

omit [Issdl V] in
theorem freeIf_of_flag {x : Nat} (hf : flag (σ.objs.cell x) = true) :
    σ.freeIf flag (some x) = σ.free x := if_pos hf

omit [Issdl V] in
theorem env_freeIf (σ : Store V) (flag : VarObj V → Bool) (p : Option Nat) :
    (σ.freeIf flag p).env = σ.env := (Store.Stale.freeIf σ flag p).env

omit [Issdl V] in
theorem cell_freeIf (σ : Store V) (flag : VarObj V → Bool) (p : Option Nat) :
    (σ.freeIf flag p).objs.cell = σ.objs.cell := by
  unfold Store.freeIf
  cases p with
  | none => rfl
  | some x =>
    simp only
    split
    · exact σ.objs.cell_free x
    · rfl

theorem points_freeIf {x : Nat} : P.Points w (σ.freeIf flag p) x ↔ P.Points w σ x := by
  unfold Points
  rw [env_freeIf]

/-- The end of an operator. -/
theorem finish_runs (ip : Nat) {v v1 v2 : Option V} (h : P.Holds (res :: w) σ (v :: s) ρ)
    (hp : σ.deref p = some v1) (hq : σ.deref q = some v2) :
    (P.LastOperands w σ p q res →
      finish ip res w p q σ =
          some ⟨ip, res :: w, (σ.freeIf VarObj.isNotBound p).freeIf VarObj.isNotBound q⟩ ∧
        P.Holds (res :: w) ((σ.freeIf VarObj.isNotBound p).freeIf VarObj.isNotBound q) (v :: s) ρ) ∧
    (¬ P.LastOperands w σ p q res →
      finish ip res w p q σ = none ∨
        ∃ N, finish ip res w p q σ = some N ∧ N.ip = ip ∧ P.Dangling N.stack N.store) := by
  have hfinish : ∀ {u : Option V}, (σ.freeIf VarObj.isNotBound p).deref q = some u →
      finish ip res w p q σ =
        some ⟨ip, res :: w, (σ.freeIf VarObj.isNotBound p).freeIf VarObj.isNotBound q⟩ := by
    intro u hu
    simp only [finish, hp, hu, Option.bind_eq_bind, Option.bind_some]
  have hfirst : P.Last VarObj.isNotBound (q :: res :: w) σ p →
      P.Holds (q :: res :: w) (σ.freeIf VarObj.isNotBound p) (v2 :: v :: s) ρ :=
    fun hl => freeIf_holds (h.cons hq) hl
  refine ⟨fun hlast => ?_, fun hn => ?_⟩
  · obtain ⟨hl, hl'⟩ := hlast
    have h₁ := hfirst hl
    refine ⟨hfinish h₁.head, freeIf_holds h₁.tail fun x hx hf hpt => ?_⟩
    rw [cell_freeIf] at hf
    exact hl' x hx hf ((points_freeIf.mp hpt).cons p)
  · by_cases hl : P.Last VarObj.isNotBound (q :: res :: w) σ p
    · -- the second operand is released too early
      have h₁ := hfirst hl
      obtain ⟨x, rfl, hflag, hpt⟩ := not_last fun hl' => hn ⟨hl, hl'⟩
      have hne : p ≠ some x := fun heq => hl x heq hflag (.inl List.mem_cons_self)
      have hpt' : P.Points (res :: w) σ x := hpt.imp_left fun hm =>
        (List.mem_cons.mp hm).resolve_left (Ne.symm hne)
      refine .inr ⟨_, hfinish h₁.head, rfl, ?_⟩
      have hflag' : ((σ.freeIf VarObj.isNotBound p).objs.cell x).isNotBound = true := by
        rwa [cell_freeIf]
      rw [freeIf_of_flag hflag']
      exact h₁.tail.dangling_free (points_freeIf.mpr hpt')
    · -- the first operand is released too early
      obtain ⟨x, rfl, hflag, hpt⟩ := not_last hl
      have hf := freeIf_of_flag hflag
      by_cases hqx : q = some x
      · left
        have hdead : (σ.free x).deref q = none := by
          rw [hqx]
          exact Store.deref_dead (σ.objs.live_free_self x)
        simp only [finish, hp, hf, hdead, Option.bind_eq_bind, Option.bind_some, Option.bind_none]
      · have hpt' : P.Points (res :: w) σ x := hpt.imp_left fun hm =>
          (List.mem_cons.mp hm).resolve_left (Ne.symm hqx)
        have hq' : (σ.free x).deref q = some v2 := by
          cases q with
          | none => exact hq
          | some y => rw [Store.deref_free_of_ne fun heq => hqx (congrArg some heq), hq]
        refine .inr ⟨_, hfinish (hf ▸ hq'), rfl, ?_⟩
        rw [hf]
        exact (h.dangling_free hpt').stale (.freeIf _ _ _) fun _ _ => id

/-! ## Instructions -/

section

variable {code rest ws : List Nat} {k n : Nat} {v : Option V}

theorem step_of_word {op : Opcode} (hw : P.bytecode[M.ip]? = some op.code) :
    P.step M = P.insn op M := by
  simp [step, hw, Opcode.code_ne_opEnd, Nat.not_le.mpr op.code_lt_opcodeNum]

/-- An instruction that goes forward: to `M'` where `ok`, else it crashes, or leaves a pointer to a
released object. -/
theorem insn_objs (hF : P.bytecode = code ++ rest) {op : Opcode}
    (hw : CodeAt code M.ip (op.code :: ws)) (hip : M.ip < M'.ip)
    (hok : a → P.insn op M = some M' ∧ P.Holds M'.stack M'.store s ρ)
    (hno : ¬ a → P.insn op M = none ∨ ∃ N, P.insn op M = some N ∧ N.ip = M'.ip ∧
      M'.ip ≤ code.length ∧ P.Dangling N.stack N.store) :
    P.Runs code.length M a M' s ρ := by
  have hstep := step_of_word (bytecode_eq hF hw)
  obtain ⟨hlt, -⟩ := List.getElem?_eq_some_iff.mp hw.getElem?
  refine ⟨fun ha => ?_, fun hn => ?_⟩
  · obtain ⟨hi, hh⟩ := hok ha
    exact ⟨.single ⟨hip, hstep.trans hi⟩, hh⟩
  · rcases hno hn with hnone | ⟨N, hN, hNip, hle, hd⟩
    · exact ⟨M, .refl, .inl ⟨hlt, hstep.trans hnone⟩⟩
    · exact ⟨N, .single ⟨hNip ▸ hip, hstep.trans hN⟩, .inr ⟨hNip ▸ hle, hd⟩⟩

/-- An instruction that releases nothing. -/
theorem quiet_objs (hF : P.bytecode = code ++ rest) {op : Opcode}
    (hw : CodeAt code M.ip (op.code :: ws)) (hip : M.ip < M'.ip)
    (hi : P.insn op M = some M') (hh : P.Holds M'.stack M'.store s ρ) :
    P.Runs code.length M True M' s ρ :=
  insn_objs hF hw hip (fun _ => ⟨hi, hh⟩) fun hn => (hn trivial).elim

theorem operand_objs (hF : P.bytecode = code ++ rest) {op : Nat}
    (hw : CodeAt code k (op :: n :: ws)) : P.bytecode[k + 1]? = some n :=
  bytecode_eq hF hw.tail

theorem push_objs (hF : P.bytecode = code ++ rest) (hw : CodeAt code k (push.code :: n :: ws))
    (h : P.Holds w σ s ρ) :
    P.Runs code.length ⟨k, w, σ⟩ True ⟨k + 2, P.readVar σ n :: w, σ⟩
      (P.toFrame.readVar ρ n :: s) ρ :=
  quiet_objs hF hw (Nat.lt_add_of_pos_right (by decide)) (by simp [insn, operand_objs hF hw])
    (h.cons (h.readVar n))

theorem pushstatic_objs (hF : P.bytecode = code ++ rest)
    (hw : CodeAt code k (pushstatic.code :: n :: ws)) (h : P.Holds w σ s ρ) :
    P.Runs code.length ⟨k, w, σ⟩ True ⟨k + 2, P.staticObj n :: w, σ⟩ (P.staticEnv.get n :: s) ρ :=
  quiet_objs hF hw (Nat.lt_add_of_pos_right (by decide)) (by simp [insn, operand_objs hF hw])
    (h.cons (h.static n))

theorem pushfield_objs (hF : P.bytecode = code ++ rest)
    (hw : CodeAt code k (pushfield.code :: n :: ws)) (h : P.Holds w σ s ρ) :
    P.Runs code.length ⟨k, w, σ⟩ True ⟨k + 2, P.fieldObj n :: w, σ⟩ (P.fields n :: s) ρ :=
  quiet_objs hF hw (Nat.lt_add_of_pos_right (by decide)) (by simp [insn, operand_objs hF hw])
    (h.cons (h.field n))

/-- A jump inside the code. -/
theorem jmp_objs (hF : P.bytecode = code ++ rest) (hw : CodeAt code k (jmp.code :: n :: ws))
    (hn : k + n + 2 < wordSize) (h : P.Holds w σ s ρ) :
    P.Runs code.length ⟨k, w, σ⟩ True ⟨k + 2 + n, w, σ⟩ s ρ := by
  have hip : (k + n + 2) % wordSize = k + 2 + n := by
    rw [Nat.mod_eq_of_lt hn]
    omega
  exact quiet_objs hF hw (by show k < k + 2 + n; omega)
    (by simp [insn, operand_objs hF hw, hip]) h

theorem popcjmp_objs (hF : P.bytecode = code ++ rest)
    (hw : CodeAt code k (popcjmp.code :: n :: ws)) (hn : k + n + 2 < wordSize)
    (h : P.Holds (p :: w) σ (v :: s) ρ) :
    P.Runs code.length ⟨k, p :: w, σ⟩ True ⟨k + 2 + if issdlTest v then n else 0, w, σ⟩ s ρ := by
  have hip : (k + n + 2) % wordSize = k + 2 + n := by
    rw [Nat.mod_eq_of_lt hn]
    omega
  refine quiet_objs hF hw (by show k < k + 2 + _; omega) ?_ h.tail
  cases hv : issdlTest v <;> simp [insn, operand_objs hF hw, h.head, hv, hip]

/-- The operands of an operator, released behind its result. -/
theorem operator_objs (hF : P.bytecode = code ++ rest) {op : Opcode}
    (hw : CodeAt code k (op.code :: ws)) {t : List (Option Nat)} {σ₀ : Store V} {v1 v2 : Option V}
    (hi : P.insn op ⟨k, t, σ₀⟩ = finish (k + 1) res w p q σ) (h : P.Holds (res :: w) σ (v :: s) ρ)
    (hp : σ.deref p = some v1) (hq : σ.deref q = some v2) :
    P.Runs code.length ⟨k, t, σ₀⟩ (P.LastOperands w σ p q res)
      ⟨k + 1, res :: w, (σ.freeIf VarObj.isNotBound p).freeIf VarObj.isNotBound q⟩ (v :: s) ρ := by
  obtain ⟨hok, hno⟩ := finish_runs (k + 1) h hp hq
  obtain ⟨hlt, -⟩ := List.getElem?_eq_some_iff.mp hw.getElem?
  refine insn_objs hF hw (Nat.lt_succ_self k) (fun ha => ?_) fun hn => ?_
  · exact ⟨hi.trans (hok ha).1, (hok ha).2⟩
  · rcases hno hn with hnone | ⟨N, hN, hip, hd⟩
    · exact .inl (hi.trans hnone)
    · exact .inr ⟨N, hi.trans hN, hip, hlt, hd⟩

/-- The releases of a comparison: `ovm_ceq` has its operands the other way round. -/
def cmpRelease (op : CmpOp) (p q : Option Nat) (σ : Store V) : Store V :=
  if op = .ceq then (σ.freeIf VarObj.isNotBound q).freeIf VarObj.isNotBound p
  else (σ.freeIf VarObj.isNotBound p).freeIf VarObj.isNotBound q

theorem cmp_objs (hF : P.bytecode = code ++ rest) {op : CmpOp}
    (hw : CodeAt code k ((cmp op).code :: ws)) {v1 v2 : Option V}
    (h : P.Holds (q :: p :: w) σ (v2 :: v1 :: s) ρ) :
    P.Runs code.length ⟨k, q :: p :: w, σ⟩
      (P.LastOperands w σ p q (P.staticObj (cmpConst op v1 v2)))
      ⟨k + 1, P.staticObj (cmpConst op v1 v2) :: w, cmpRelease op p q σ⟩
      (P.cmpResult op v1 v2 :: s) ρ := by
  have hp := h.tail.head
  have hq := h.head
  have hh : P.Holds (P.staticObj (cmpConst op v1 v2) :: w) σ (P.cmpResult op v1 v2 :: s) ρ := by
    rw [P.cmpResult_eq]
    exact h.tail.tail.cons (h.static _)
  by_cases hop : op = .ceq
  · have hi : P.insn (cmp op) ⟨k, q :: p :: w, σ⟩ =
        finish (k + 1) (P.staticObj (cmpConst op v1 v2)) w q p σ := by
      simp [insn, hp, hq, hop]
    rw [cmpRelease, if_pos hop]
    exact (operator_objs hF hw hi hh hq hp).congr and_comm
  · have hi : P.insn (cmp op) ⟨k, q :: p :: w, σ⟩ =
        finish (k + 1) (P.staticObj (cmpConst op v1 v2)) w p q σ := by
      simp [insn, hp, hq, hop]
    rw [cmpRelease, if_neg hop]
    exact operator_objs hF hw hi hh hp hq

theorem arithResult_holds (h : P.Holds w σ s ρ) (op : ArithOp) (v1 v2 : Option V) :
    P.Holds ((P.arithResult op v1 v2 σ).1 :: w) (P.arithResult op v1 v2 σ).2
      (P.toFrame.arithResult op v1 v2 :: s) ρ := by
  rw [P.toFrame.arithResult_eq]
  unfold ObjFrame.arithResult
  cases arithValue op v1 v2 with
  | some v => exact h.new v
  | none => exact h.cons (h.static _)

/-- An arithmetic operator: it may trap, it reads the flags of its operands, and it releases them. -/
theorem arith_objs (hF : P.bytecode = code ++ rest) {op : ArithOp}
    (hw : CodeAt code k ((arith op).code :: ws)) {v1 v2 : Option V}
    (h : P.Holds (q :: p :: w) σ (v2 :: v1 :: s) ρ) :
    P.Runs code.length ⟨k, q :: p :: w, σ⟩
      (Frame.arithEnds op v1 v2 = true ∧
        P.LastOperands w (P.arithResult op v1 v2 σ).2 p q (P.arithResult op v1 v2 σ).1)
      ⟨k + 1, (P.arithResult op v1 v2 σ).1 :: w,
        ((P.arithResult op v1 v2 σ).2.freeIf VarObj.isNotBound p).freeIf VarObj.isNotBound q⟩
      (P.toFrame.arithResult op v1 v2 :: s) ρ := by
  cases hends : Frame.arithEnds op v1 v2 with
  | true =>
    have hh := arithResult_holds h op v1 v2
    have hi : P.insn (arith op) ⟨k, q :: p :: w, σ⟩ =
        finish (k + 1) (P.arithResult op v1 v2 σ).1 w p q (P.arithResult op v1 v2 σ).2 := by
      simp [insn, h.head, h.tail.head, hends]
    exact (operator_objs hF hw hi (hh.tail.tail.tail.cons hh.head) hh.tail.tail.head
      hh.tail.head).congr (by simp)
  | false =>
    refine insn_objs hF hw (Nat.lt_succ_self k) (fun ha => (Bool.false_ne_true ha.1).elim)
      fun _ => .inl ?_
    simp [insn, h.head, h.tail.head, hends]

/-- What `OP_POP [n]` leaves. -/
def bindVar (n : Nat) (p : Option Nat) (σ : Store V) : Store V :=
  let σ := (σ.freeIf VarObj.canFree (σ.env n)).setBound p
  { σ with env := Function.update σ.env n p }

omit [Issdl V] in
theorem freeIf_env (σ : Store V) (flag : VarObj V → Bool) (p : Option Nat) (e : Nat → Option Nat) :
    Store.freeIf { σ with env := e } flag p = { σ.freeIf flag p with env := e } := by
  unfold Store.freeIf
  cases p with
  | none => rfl
  | some x =>
    simp only
    split <;> rfl

omit [Issdl V] in
theorem setBound_env (σ : Store V) (p : Option Nat) (e : Nat → Option Nat) :
    Store.setBound { σ with env := e } p = { σ.setBound p with env := e } := by
  cases p <;> rfl

omit [Issdl V] in
theorem ages_bindVar (n : Nat) (p : Option Nat) (σ : Store V) :
    Heap.Ages VarObj.val σ.objs (bindVar n p σ).objs :=
  ((Store.Stale.freeIf σ VarObj.canFree (σ.env n)).trans (.setBound _ p)).ages

omit [Issdl V] in
theorem wf_bindVar (n : Nat) (p : Option Nat) (h : σ.objs.WF) : (bindVar n p σ).objs.WF :=
  Store.wf_setBound p (Store.wf_freeIf _ (σ.env n) h)

/-- The variable `n` is bound: what it was bound to is released. -/
theorem pop_objs (hF : P.bytecode = code ++ rest) (hw : CodeAt code k (pop.code :: n :: ws))
    (h : P.Holds (p :: w) σ (v :: s) ρ) :
    P.Runs code.length ⟨k, p :: w, σ⟩
      (P.Last VarObj.canFree (p :: w) { σ with env := Function.update σ.env n none } (σ.env n))
      ⟨k + 2, w, bindVar n p σ⟩ s (Function.update ρ n v) := by
  have hop := operand_objs hF hw
  have hlen : k + 2 ≤ code.length := by
    obtain ⟨hlt, -⟩ := List.getElem?_eq_some_iff.mp hw.tail.getElem?
    exact hlt
  have hi : ∀ {u : Option V}, (σ.freeIf VarObj.canFree (σ.env n)).deref p = some u →
      P.insn pop ⟨k, p :: w, σ⟩ = some ⟨k + 2, w, bindVar n p σ⟩ := by
    intro u hu
    simp [insn, hop, h.env n, hu, bindVar]
  refine insn_objs hF hw (Nat.lt_add_of_pos_right (by decide)) (fun ha => ?_) fun hn => ?_
  · -- without the variable, nothing points to what it was bound to
    have h₀ : P.Holds (p :: w) { σ with env := Function.update σ.env n none } (v :: s)
        (Function.update ρ n none) := (h.cons (Store.deref_none σ)).bind n
    have h₁ := freeIf_holds h₀ ha
    rw [freeIf_env] at h₁
    have hu : (σ.freeIf VarObj.canFree (σ.env n)).deref p = some v := h₁.head
    have h₂ := (h₁.setBound p).bind n
    have henv : ((σ.freeIf VarObj.canFree (σ.env n)).setBound p).env = σ.env :=
      (Store.Stale.setBound _ p).env.trans (env_freeIf _ _ _)
    refine ⟨hi hu, ?_⟩
    rw [setBound_env] at h₂
    simpa [bindVar, henv] using h₂
  · obtain ⟨x, hx, hflag, hpt⟩ := not_last hn
    have hf : σ.freeIf VarObj.canFree (σ.env n) = σ.free x := by
      rw [hx]
      exact freeIf_of_flag hflag
    by_cases hpx : p = some x
    · left
      have hdead : (σ.free x).deref p = none := by
        rw [hpx]
        exact Store.deref_dead (σ.objs.live_free_self x)
      simp [insn, hop, h.env n, hf, hdead]
    · have hu : (σ.free x).deref p = some v := by
        rw [← h.head]
        cases p with
        | none => rfl
        | some y => exact Store.deref_free_of_ne fun heq => hpx (congrArg some heq)
      have hlt := h.tail.lt (.inr ⟨n, .inl hx⟩)
      refine .inr ⟨_, hi (hf ▸ hu), rfl, hlen, x, ?_, ?_, ?_⟩
      · simpa [bindVar, hf, Store.free] using hlt
      · simp [bindVar, hf, Store.free]
      · have henv : ((σ.freeIf VarObj.canFree (σ.env n)).setBound p).env = σ.env :=
          (Store.Stale.setBound _ p).env.trans (env_freeIf _ _ _)
        rcases hpt with hm | ⟨m, hm | hm⟩
        · exact .inl ((List.mem_cons.mp hm).resolve_left (Ne.symm hpx))
        · have hmn : m ≠ n := by
            rintro rfl
            cases (Function.update_self m none σ.env).symm.trans hm
          refine .inr ⟨m, .inl ?_⟩
          simp only [bindVar, henv]
          rw [Function.update_of_ne hmn]
          exact (Function.update_of_ne hmn _ _).symm.trans hm
        · exact .inr ⟨m, .inr hm⟩

/-- A built-in: it reads its arguments, and pushes a value of its own. -/
theorem call_objs (hF : P.bytecode = code ++ rest) (hw : CodeAt code k (call.code :: n :: ws))
    {ps : List (Option Nat)} {vs : List (Option V)} (hn : P.argsNb n = ps.length)
    (hps : ps.map σ.deref = vs.map some) (h : P.Holds w σ s ρ) :
    P.Runs code.length ⟨k, ps ++ w, σ⟩ True
      ⟨k + 2, (P.builtinResult n vs σ).1 :: w, (P.builtinResult n vs σ).2⟩
      (P.builtin n vs :: s) ρ := by
  refine quiet_objs hF hw (Nat.lt_add_of_pos_right (by decide)) ?_ ?_
  · simp [insn, operand_objs hF hw, hn, stackPopN_append, mapM_eq_some_iff.mpr hps]
  · simp only
    unfold builtinResult
    cases P.builtin n vs with
    | some v => exact h.new v
    | none => exact h.cons (Store.deref_none σ)

end

end ObjFrame

end Orchids

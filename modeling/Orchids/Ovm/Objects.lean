import Orchids.Lib.Heap
import Orchids.Lib.Lists
import Orchids.Ovm.Run

/-!
# The values as objects (`ovm_var_t`)

The machine of `Ovm.Machine` with what its values leave out: a stack slot, a variable, a constant and
a field are pointers to objects with flags, and the handlers release objects. A read of a released
object is no step.

* `ObjFrame.step`: one turn of the loop of `ovm_exec`, with the releases in the order of the source.
* `ObjFrame.Holds`: every pointer is to an object that is not released, and these objects have the
  values of a state of `Ovm.Machine`.
* `ObjFrame.Dangling`: a pointer to a released object is left; `dangling_step`: that stays so.
* `ObjFrame.Runs`: a path to a target with its values, or to a state that has no end with values.
-/

namespace Orchids

/-! ## Objects -/

/-- `ovm_var_t`, with the flags `TYPE_CANFREE` and `TYPE_NOTBOUND`. -/
structure VarObj (V : Type) where
  val : V
  canFree : Bool
  notBound : Bool

/-- `IS_NOT_BOUND`, the test of `FREE_IF_NEEDED`; that of `CAN_FREE_VAR` is the flag `canFree`. -/
def VarObj.isNotBound {V : Type} (o : VarObj V) : Bool := o.canFree && o.notBound

/-- The current environment, and the objects. -/
structure Store (V : Type) where
  env : Nat → Option Nat
  objs : Heap (VarObj V)

namespace Store

variable {V : Type} (σ : Store V)

/-- The value behind a pointer: `none` is a read of a released object. -/
def deref (p : Option Nat) : Option (Option V) :=
  match p with
  | none => some none
  | some a => if σ.objs.live a then some (some (σ.objs.cell a).val) else none

/-- `Xfree` -/
def free (a : Nat) : Store V := { σ with objs := σ.objs.free a }

/-- The release of an object with a flag. -/
def freeIf (flag : VarObj V → Bool) (p : Option Nat) : Store V :=
  match p with
  | none => σ
  | some a => if flag (σ.objs.cell a) then σ.free a else σ

/-- A new value that is not bound: the result of an operator or of a built-in. -/
def new (v : V) : Store V := { σ with objs := σ.objs.alloc ⟨v, true, true⟩ }

/-- `FLAGS(*var) &= ~TYPE_NOTBOUND` -/
def setBound (p : Option Nat) : Store V :=
  match p with
  | none => σ
  | some a => { σ with objs := σ.objs.modify a fun o => { o with notBound := false } }

/-- The strings that `ovm_regsplit` makes, the last group first, with their pointers. -/
def newStrings : List V → Store V → List (Option Nat) × Store V
  | [], σ => ([], σ)
  | v :: vs, σ =>
    let (ps, σ) := newStrings vs σ
    (some σ.objs.size :: ps, { σ with objs := σ.objs.alloc ⟨v, false, false⟩ })

/-- The constants `vs` at the first addresses, and no variable. -/
def constants [Inhabited V] (vs : List V) : Store V where
  env := fun _ => none
  objs :=
    { size := vs.length
      cell := fun a => ⟨vs.getD a default, false, false⟩
      live := fun a => decide (a < vs.length) }

end Store

/-! ## The machine -/

/-- What the instructions change. -/
structure ObjMachine (V : Type) where
  ip : Nat
  stack : List (Option Nat)
  store : Store V

/-- A frame whose tables have pointers. -/
structure ObjFrame (V : Type) [Issdl V] extends Frame V where
  inheritObj : Nat → Option Nat
  staticObj : Nat → Option Nat
  fieldObj : Nat → Option Nat

variable {V : Type} [Issdl V]

/-- The value of `issdl_add` .. `issdl_mod`, which are called on operands that are not null. -/
def arithValue (op : ArithOp) (op1 op2 : Option V) : Option V :=
  match op1, op2 with
  | some v1, some v2 =>
    if isNull (some v1) || isNull (some v2) then none else Issdl.arith op v1 v2
  | _, _ => none

/-- The constant that a comparison opcode pushes. -/
def cmpConst (op : CmpOp) (op1 op2 : Option V) : Nat :=
  let ofBool (b : Bool) := if b then staticIds.one else staticIds.zero
  match op1, op2 with
  | some v1, some v2 =>
    if isNull (some v1) || isNull (some v2) then staticIds.null
    else
      match op with
      | .ceq => ofBool (Frame.cmpTest .ceq (Issdl.cmp v2 v1))
      | .crm =>
        match Issdl.regexec v2 v1 with
        | .paramError => staticIds.paramError
        | .noMatch => ofBool false
        | .error => staticIds.paramError
        | .matched => ofBool true
      | .cnrm =>
        match Issdl.regexec v2 v1 with
        | .paramError => staticIds.paramError
        | .noMatch => ofBool true
        | .error => staticIds.regexError
        | .matched => ofBool false
      | op => ofBool (Frame.cmpTest op (Issdl.cmp v1 v2))
  | _, _ => staticIds.null

theorem Frame.arithResult_eq (F : Frame V) (op : ArithOp) (op1 op2 : Option V) :
    F.arithResult op op1 op2 = (arithValue op op1 op2).or F.nullVar := by
  unfold Frame.arithResult arithValue
  cases op1 with
  | none => rfl
  | some v1 =>
    cases op2 with
    | none => rfl
    | some v2 =>
      simp only
      split
      · rfl
      · cases Issdl.arith op v1 v2 <;> rfl

theorem Frame.cmpResult_eq (F : Frame V) (op : CmpOp) (op1 op2 : Option V) :
    F.cmpResult op op1 op2 = F.staticEnv.get (cmpConst op op1 op2) := by
  unfold Frame.cmpResult cmpConst Frame.boolVar Frame.nullVar
  cases op1 with
  | none => rfl
  | some v1 =>
    cases op2 with
    | none => rfl
    | some v2 =>
      simp only
      split
      · rfl
      · cases op with
        | crm => cases Issdl.regexec v2 v1 <;> rfl
        | cnrm => cases Issdl.regexec v2 v1 <;> rfl
        | _ => rfl

namespace ObjFrame

variable (P : ObjFrame V)

/-- The pointer that `OP_PUSH [n]` pushes. -/
def readVar (σ : Store V) (n : Nat) : Option Nat :=
  match σ.env n with
  | some a => some a
  | none =>
    match P.inheritObj n with
    | some a => some a
    | none => P.staticObj staticIds.null

/-- The result of `ovm_add` .. `ovm_mod` on operands with the values `op1` and `op2`. -/
def arithResult (op : ArithOp) (op1 op2 : Option V) (σ : Store V) : Option Nat × Store V :=
  match arithValue op op1 op2 with
  | some v => (some σ.objs.size, σ.new v)
  | none => (P.staticObj staticIds.null, σ)

/-- The value that a built-in pushes. -/
def builtinResult (n : Nat) (args : List (Option V)) (σ : Store V) : Option Nat × Store V :=
  match P.builtin n args with
  | some v => (some σ.objs.size, σ.new v)
  | none => (none, σ)

/-- The end of an operator: its result is pushed, then each operand is released if it is not bound.
The flags of the second are read behind the release of the first. -/
def finish (ip : Nat) (res : Option Nat) (s : List (Option Nat)) (op1 op2 : Option Nat)
    (σ : Store V) : Option (ObjMachine V) := do
  let _ ← σ.deref op1
  let σ := σ.freeIf VarObj.isNotBound op1
  let _ ← σ.deref op2
  some ⟨ip, res :: s, σ.freeIf VarObj.isNotBound op2⟩

/-- The handlers of `ops_g`; `none` is a crash. -/
def insn (op : Opcode) (M : ObjMachine V) : Option (ObjMachine V) :=
  let σ := M.store
  let operand := P.bytecode[M.ip + 1]?
  match op with
  | .nop => some { M with ip := M.ip + 1 }
  | .push => do
    let n ← operand
    some { M with stack := P.readVar σ n :: M.stack, ip := M.ip + 2 }
  | .pop => do
    let n ← operand
    let (p, s) := stackPop M.stack
    let _ ← σ.deref (σ.env n)
    let σ := σ.freeIf VarObj.canFree (σ.env n)
    let _ ← σ.deref p
    let σ := σ.setBound p
    some ⟨M.ip + 2, s, { σ with env := Function.update σ.env n p }⟩
  | .pushstatic => do
    let n ← operand
    some { M with stack := P.staticObj n :: M.stack, ip := M.ip + 2 }
  | .pushfield => do
    let n ← operand
    some { M with stack := P.fieldObj n :: M.stack, ip := M.ip + 2 }
  | .trash => do
    let (p, s) := stackPop M.stack
    let _ ← σ.deref p
    some ⟨M.ip + 1, s, σ.freeIf VarObj.canFree p⟩
  | .call => do
    let n ← operand
    let (ps, s) := stackPopN (P.argsNb n) M.stack
    let args ← ps.mapM σ.deref
    let (res, σ) := P.builtinResult n args σ
    some ⟨M.ip + 2, res :: s, σ⟩
  | .arith op => do
    let (p2, s) := stackPop M.stack
    let (p1, s) := stackPop s
    let v1 ← σ.deref p1
    let v2 ← σ.deref p2
    if Frame.arithEnds op v1 v2 then
      let (res, σ) := P.arithResult op v1 v2 σ
      finish (M.ip + 1) res s p1 p2 σ
    else none
  | .jmp => do
    let n ← operand
    some { M with ip := (M.ip + n + 2) % wordSize }
  | .popcjmp => do
    let n ← operand
    let (p, s) := stackPop M.stack
    let v ← σ.deref p
    if issdlTest v then some { M with stack := s, ip := (M.ip + n + 2) % wordSize }
    else some { M with stack := s, ip := M.ip + 2 }
  | .cmp op => do
    let (p2, s) := stackPop M.stack
    let (p1, s) := stackPop s
    let v1 ← σ.deref p1
    let v2 ← σ.deref p2
    let res := P.staticObj (cmpConst op v1 v2)
    -- in `ovm_ceq`, `op1` is the operand on top
    if op = .ceq then finish (M.ip + 1) res s p2 p1 σ else finish (M.ip + 1) res s p1 p2 σ
  | .regsplit => do
    let (p2, s) := stackPop M.stack
    let (p1, s) := stackPop s
    let string ← σ.deref p1
    let pattern ← σ.deref p2
    let groups ← Frame.regsplitResult pattern string
    let (ps, σ) := σ.newStrings groups
    let σ := σ.freeIf VarObj.isNotBound p2
    let _ ← σ.deref p1
    some ⟨M.ip + 1, ps ++ s, σ.freeIf VarObj.isNotBound p1⟩
  | .inc | .dec | .and | .or | .xor | .neg | .not | .cesv | .past => some M

/-- One turn of the loop of `ovm_exec`: `none` where the loop ends, or crashes. -/
def step (M : ObjMachine V) : Option (ObjMachine V) :=
  match P.bytecode[M.ip]? with
  | none => none
  | some w =>
    if w = Opcode.opEnd ∨ opcodeNum ≤ w then none
    else
      match Opcode.ofWord w with
      | none => none
      | some op => P.insn op M

/-- `M'` is after some turns of the loop from `M`. -/
def Reaches : ObjMachine V → ObjMachine V → Prop :=
  Relation.ReflTransGen fun M M' => P.step M = some M'

end ObjFrame

/-! ## What the releases leave alone -/

namespace Store

variable {V : Type} {σ σ' σ'' : Store V} {a b : Nat} {p : Option Nat} {v : Option V}

@[simp] theorem deref_none (σ : Store V) : σ.deref none = some none := rfl

theorem deref_some : σ.deref (some a) = some v ↔
    σ.objs.live a = true ∧ some (σ.objs.cell a).val = v := by
  unfold deref
  cases hl : σ.objs.live a <;> simp [hl]

theorem deref_dead (h : σ.objs.live a = false) : σ.deref (some a) = none := by
  simp [deref, h]

theorem deref_free_of_ne (h : b ≠ a) : (σ.free a).deref (some b) = σ.deref (some b) := by
  simp [deref, free, Heap.live_free_of_ne _ h]

theorem deref_new_of_lt (h : a < σ.objs.size) (v : V) :
    (σ.new v).deref (some a) = σ.deref (some a) := by
  simp [deref, new, σ.objs.live_alloc_of_lt _ h, σ.objs.cell_alloc_of_lt _ h]

theorem deref_new (v : V) : (σ.new v).deref (some σ.objs.size) = some (some v) := by
  simp [deref, new]

@[simp] theorem live_setBound (p : Option Nat) : (σ.setBound p).objs.live = σ.objs.live := by
  cases p <;> simp [setBound]

@[simp] theorem size_setBound (p : Option Nat) : (σ.setBound p).objs.size = σ.objs.size := by
  cases p <;> simp [setBound]

theorem val_setBound (p : Option Nat) :
    ((σ.setBound p).objs.cell a).val = (σ.objs.cell a).val := by
  cases p with
  | none => rfl
  | some b => exact σ.objs.proj_modify b a _ VarObj.val rfl

theorem wf_setBound (p : Option Nat) (h : σ.objs.WF) : (σ.setBound p).objs.WF := by
  cases p with
  | none => exact h
  | some b => exact h.modify b _

theorem wf_freeIf (flag : VarObj V → Bool) (p : Option Nat) (h : σ.objs.WF) :
    (σ.freeIf flag p).objs.WF := by
  unfold freeIf
  cases p with
  | none => exact h
  | some b =>
    simp only
    split
    · exact h.free b
    · exact h

theorem deref_setBound (p q : Option Nat) : (σ.setBound p).deref q = σ.deref q := by
  cases q <;> simp [deref, val_setBound]

theorem wf_constants [Inhabited V] (vs : List V) : (constants vs).objs.WF := fun _ =>
  of_decide_eq_true

/-- The same variables, and a later state of the objects. -/
structure Stale (σ σ' : Store V) : Prop where
  env : σ'.env = σ.env
  ages : Heap.Ages VarObj.val σ.objs σ'.objs

namespace Stale

theorem refl (σ : Store V) : Stale σ σ := ⟨rfl, .refl _⟩

theorem trans (h : Stale σ σ') (h' : Stale σ' σ'') : Stale σ σ'' :=
  ⟨h'.env.trans h.env, h.ages.trans h'.ages⟩

theorem freeIf (σ : Store V) (flag : VarObj V → Bool) (p : Option Nat) :
    Stale σ (σ.freeIf flag p) := by
  unfold Store.freeIf
  cases p with
  | none => exact refl σ
  | some b =>
    simp only
    split
    · exact ⟨rfl, .free σ.objs b⟩
    · exact refl σ

theorem alloc (σ : Store V) (o : VarObj V) : Stale σ { σ with objs := σ.objs.alloc o } :=
  ⟨rfl, .alloc σ.objs o⟩

theorem setBound (σ : Store V) (p : Option Nat) : Stale σ (σ.setBound p) := by
  cases p with
  | none => exact refl σ
  | some b => exact ⟨rfl, .modify σ.objs b _ rfl⟩

theorem newStrings (vs : List V) (σ : Store V) : Stale σ (newStrings vs σ).2 := by
  induction vs with
  | nil => exact refl σ
  | cons v vs ih => exact ih.trans (alloc _ _)

end Stale

end Store

/-! ## What points to an object -/

namespace ObjFrame

variable {P : ObjFrame V} {w w' : List (Option Nat)} {σ σ' : Store V} {s : List (Option V)}
  {ρ : Env V} {a : Nat} {p : Option Nat} {M M' : ObjMachine V}

/-- The stack `w`, a variable, a constant or a field points to the object `a`. -/
def Points (P : ObjFrame V) (w : List (Option Nat)) (σ : Store V) (a : Nat) : Prop :=
  some a ∈ w ∨ ∃ n, σ.env n = some a ∨ P.inheritObj n = some a ∨ P.staticObj n = some a ∨
    P.fieldObj n = some a

/-- Something points to a released object. -/
def Dangling (P : ObjFrame V) (w : List (Option Nat)) (σ : Store V) : Prop :=
  ∃ a, a < σ.objs.size ∧ σ.objs.live a = false ∧ P.Points w σ a

/-- Every pointer is to an object that is not released; the stack has the values `s`, the variables
have the values `ρ`, and the tables have the values of the frame. -/
structure Holds (P : ObjFrame V) (w : List (Option Nat)) (σ : Store V) (s : List (Option V))
    (ρ : Env V) : Prop where
  stack : w.map σ.deref = s.map some
  env : ∀ n, σ.deref (σ.env n) = some (ρ n)
  inherit : ∀ n, σ.deref (P.inheritObj n) = some (P.inheritEnv n)
  static : ∀ n, σ.deref (P.staticObj n) = some (P.staticEnv.get n)
  field : ∀ n, σ.deref (P.fieldObj n) = some (P.fields n)
  wf : σ.objs.WF

theorem Points.cons (h : P.Points w σ a) (p : Option Nat) : P.Points (p :: w) σ a :=
  h.imp_left (List.mem_cons_of_mem p)

namespace Holds

/-- Every pointer is to a live object. -/
theorem live (h : P.Holds w σ s ρ) (hp : P.Points w σ a) : σ.objs.live a = true := by
  have hd : ∀ {v : Option V}, σ.deref (some a) = some v → σ.objs.live a = true := fun h =>
    (Store.deref_some.mp h).1
  rcases hp with hw | ⟨n, hn | hn | hn | hn⟩
  · have hm : σ.deref (some a) ∈ s.map some := h.stack ▸ List.mem_map_of_mem hw
    obtain ⟨v, -, hv⟩ := List.mem_map.mp hm
    exact hd hv.symm
  · exact hd (hn ▸ h.env n)
  · exact hd (hn ▸ h.inherit n)
  · exact hd (hn ▸ h.static n)
  · exact hd (hn ▸ h.field n)

theorem lt (h : P.Holds w σ s ρ) (hp : P.Points w σ a) : a < σ.objs.size := h.wf a (h.live hp)

theorem not_dangling (h : P.Holds w σ s ρ) : ¬ P.Dangling w σ := fun ⟨_, _, hd, hp⟩ =>
  Bool.false_ne_true (hd.symm.trans (h.live hp))

/-- A store with the same objects behind every pointer. -/
theorem mono (h : P.Holds w σ s ρ) (henv : σ'.env = σ.env)
    (hd : ∀ a, P.Points w σ a → σ'.deref (some a) = σ.deref (some a)) (hw : σ'.objs.WF) :
    P.Holds w σ' s ρ := by
  have hall : ∀ p, (∀ a, p = some a → P.Points w σ a) → σ'.deref p = σ.deref p := by
    intro p hp
    cases p with
    | none => rfl
    | some a => exact hd a (hp a rfl)
  refine ⟨?_, fun n => ?_, fun n => ?_, fun n => ?_, fun n => ?_, hw⟩
  · rw [← h.stack]
    exact List.map_congr_left fun p hp => hall p fun a ha => .inl (ha ▸ hp)
  · rw [henv, ← h.env n]
    exact hall _ fun a ha => .inr ⟨n, .inl ha⟩
  · rw [← h.inherit n]
    exact hall _ fun a ha => .inr ⟨n, .inr (.inl ha)⟩
  · rw [← h.static n]
    exact hall _ fun a ha => .inr ⟨n, .inr (.inr (.inl ha))⟩
  · rw [← h.field n]
    exact hall _ fun a ha => .inr ⟨n, .inr (.inr (.inr ha))⟩

theorem cons (h : P.Holds w σ s ρ) {v : Option V} (hp : σ.deref p = some v) :
    P.Holds (p :: w) σ (v :: s) ρ :=
  { h with stack := by rw [List.map_cons, List.map_cons, hp, h.stack] }

theorem head {v : Option V} (h : P.Holds (p :: w) σ (v :: s) ρ) : σ.deref p = some v :=
  (List.cons.inj h.stack).1

theorem tail {v : Option V} (h : P.Holds (p :: w) σ (v :: s) ρ) : P.Holds w σ s ρ :=
  { h with stack := (List.cons.inj h.stack).2 }

/-- The release of an object that nothing points to. -/
theorem free (h : P.Holds w σ s ρ) (hn : ¬ P.Points w σ a) : P.Holds w (σ.free a) s ρ :=
  h.mono rfl (fun _ hb => Store.deref_free_of_ne fun heq => hn (heq ▸ hb)) (h.wf.free a)

/-- The release of an object that something points to. -/
theorem dangling_free (h : P.Holds w σ s ρ) (hp : P.Points w σ a) : P.Dangling w (σ.free a) :=
  ⟨a, (h.lt hp).trans_eq (σ.objs.size_free a).symm, σ.objs.live_free_self a, hp⟩

theorem new (h : P.Holds w σ s ρ) (v : V) :
    P.Holds (some σ.objs.size :: w) (σ.new v) (some v :: s) ρ := by
  have hw : P.Holds w (σ.new v) s ρ :=
    h.mono rfl (fun _ hb => Store.deref_new_of_lt (h.lt hb) v) (h.wf.alloc _)
  exact hw.cons (Store.deref_new v)

theorem setBound (h : P.Holds w σ s ρ) (p : Option Nat) : P.Holds w (σ.setBound p) s ρ := by
  exact h.mono (by cases p <;> rfl) (fun a _ => Store.deref_setBound p _) (Store.wf_setBound p h.wf)

/-- The variable `n` is bound to the pointer on top. -/
theorem bind {v : Option V} (h : P.Holds (p :: w) σ (v :: s) ρ) (n : Nat) :
    P.Holds w { σ with env := Function.update σ.env n p } s (Function.update ρ n v) := by
  refine { h.tail with env := fun m => ?_ }
  show σ.deref (Function.update σ.env n p m) = _
  by_cases hm : m = n
  · rw [hm, Function.update_self, Function.update_self, h.head]
  · rw [Function.update_of_ne hm, Function.update_of_ne hm, h.env m]

theorem readVar (h : P.Holds w σ s ρ) (n : Nat) :
    σ.deref (P.readVar σ n) = some (P.toFrame.readVar ρ n) := by
  have hnone : ∀ {q : Option Nat} {v : Option V}, σ.deref q = some v → (q = none ↔ v = none) := by
    intro q v hq
    cases q with
    | none => simp [← Option.some.inj hq]
    | some b => simp [← (Store.deref_some.mp hq).2]
  unfold ObjFrame.readVar Frame.readVar
  have henv := h.env n
  cases hv : ρ n with
  | some v =>
    rw [hv] at henv
    cases hp : σ.env n with
    | none => exact (Option.some_ne_none v ((hnone henv).mp hp)).elim
    | some b => rwa [hp] at henv
  | none =>
    rw [(hnone henv).mpr hv]
    have hinh := h.inherit n
    cases hi : P.inheritEnv n with
    | some v =>
      rw [hi] at hinh
      cases hp : P.inheritObj n with
      | none => exact (Option.some_ne_none v ((hnone hinh).mp hp)).elim
      | some b => rwa [hp] at hinh
    | none =>
      rw [(hnone hinh).mpr hi]
      exact h.static _

end Holds

/-! ## A pointer to a released object stays -/

theorem Dangling.stale (h : P.Dangling w σ) (hs : σ.Stale σ')
    (hw : ∀ a, σ.objs.live a = false → some a ∈ w → some a ∈ w') : P.Dangling w' σ' := by
  obtain ⟨a, ha, hd, hp⟩ := h
  refine ⟨a, lt_of_lt_of_le ha hs.ages.size_le, hs.ages.dead a ha hd, ?_⟩
  unfold Points
  rw [hs.env]
  exact hp.imp_left (hw a hd)

omit [Issdl V] in
theorem ne_of_deref {v : Option V} (h : σ.deref p = some v) (hd : σ.objs.live a = false) :
    p ≠ some a := by
  rintro rfl
  rw [Store.deref_dead hd] at h
  cases h

theorem mem_stackPop (hne : (stackPop w).1 ≠ some a) (h : some a ∈ w) : some a ∈ (stackPop w).2 := by
  cases w with
  | nil => cases h
  | cons q w =>
    rcases List.mem_cons.mp h with heq | h
    · exact (hne heq.symm).elim
    · exact h

theorem mem_stackPopN {n : Nat} (hne : some a ∉ (stackPopN n w).1) (h : some a ∈ w) :
    some a ∈ (stackPopN n w).2 := by
  induction n generalizing w with
  | zero => exact h
  | succ n ih =>
    simp only [stackPopN, List.mem_cons, not_or] at hne ⊢
    exact ih hne.2 (mem_stackPop (Ne.symm hne.1) h)

theorem stale_arithResult (op : ArithOp) (op1 op2 : Option V) (σ : Store V) :
    σ.Stale (P.arithResult op op1 op2 σ).2 := by
  unfold arithResult
  split
  · exact .alloc _ _
  · exact .refl _

theorem stale_builtinResult (n : Nat) (args : List (Option V)) (σ : Store V) :
    σ.Stale (P.builtinResult n args σ).2 := by
  unfold builtinResult
  split
  · exact .alloc _ _
  · exact .refl _

omit [Issdl V] in
theorem finish_some {ip : Nat} {res p1 p2 : Option Nat} {s : List (Option Nat)}
    (h : finish ip res s p1 p2 σ = some M') :
    M' = ⟨ip, res :: s, (σ.freeIf VarObj.isNotBound p1).freeIf VarObj.isNotBound p2⟩ := by
  simp only [finish, Option.bind_eq_bind, Option.bind_eq_some_iff, Option.some.injEq] at h
  obtain ⟨-, -, -, -, h⟩ := h
  exact h.symm

omit [Issdl V] in
theorem stale_finish {ip : Nat} {res p1 p2 : Option Nat} {s : List (Option Nat)}
    (h : finish ip res s p1 p2 σ = some M') : σ.Stale M'.store :=
  finish_some h ▸ (Store.Stale.freeIf _ _ _).trans (.freeIf _ _ _)

omit [Issdl V] in
theorem mem_finish {ip : Nat} {res p1 p2 : Option Nat} {t : List (Option Nat)}
    (h : finish ip res t p1 p2 σ = some M') (ha : some a ∈ t) : some a ∈ M'.stack :=
  finish_some h ▸ List.mem_cons_of_mem res ha

/-- Only `OP_POP` changes a variable. -/
theorem insn_stale {op : Opcode} (hop : op ≠ .pop) (h : P.insn op M = some M') :
    M.store.Stale M'.store := by
  cases op <;> simp only [insn, Option.bind_eq_bind, Option.bind_eq_some_iff, Option.some.injEq] at h
  case pop => exact (hop rfl).elim
  case nop => exact h ▸ .refl _
  case inc => exact h ▸ .refl _
  case dec => exact h ▸ .refl _
  case and => exact h ▸ .refl _
  case or => exact h ▸ .refl _
  case xor => exact h ▸ .refl _
  case neg => exact h ▸ .refl _
  case not => exact h ▸ .refl _
  case cesv => exact h ▸ .refl _
  case past => exact h ▸ .refl _
  case push =>
    obtain ⟨n, -, rfl⟩ := h
    exact .refl _
  case pushstatic =>
    obtain ⟨n, -, rfl⟩ := h
    exact .refl _
  case pushfield =>
    obtain ⟨n, -, rfl⟩ := h
    exact .refl _
  case jmp =>
    obtain ⟨n, -, rfl⟩ := h
    exact .refl _
  case trash =>
    obtain ⟨v, -, rfl⟩ := h
    exact .freeIf _ _ _
  case popcjmp =>
    obtain ⟨n, -, v, -, h⟩ := h
    split at h <;> cases h <;> exact .refl _
  case call =>
    obtain ⟨n, -, args, -, rfl⟩ := h
    exact stale_builtinResult _ _ _
  case arith op =>
    obtain ⟨v1, -, v2, -, h⟩ := h
    split at h
    · exact (stale_arithResult _ _ _ _).trans (stale_finish h)
    · cases h
  case cmp op =>
    obtain ⟨v1, -, v2, -, h⟩ := h
    split at h <;> exact stale_finish h
  case regsplit =>
    obtain ⟨v1, -, v2, -, groups, -, -, -, rfl⟩ := h
    exact ((Store.Stale.newStrings groups _).trans (.freeIf _ _ _)).trans (.freeIf _ _ _)

/-- No handler takes a pointer to a released object from the stack. -/
theorem insn_mem_stack {op : Opcode} (h : P.insn op M = some M')
    (hd : M.store.objs.live a = false) (ha : some a ∈ M.stack) (hop : op ≠ .pop) :
    some a ∈ M'.stack := by
  have hpop : ∀ {v : Option V}, M.store.deref (stackPop M.stack).1 = some v →
      some a ∈ (stackPop M.stack).2 :=
    fun hv => mem_stackPop (ne_of_deref hv hd) ha
  have hpop₂ : ∀ {v v' : Option V}, M.store.deref (stackPop (stackPop M.stack).2).1 = some v →
      M.store.deref (stackPop M.stack).1 = some v' →
      some a ∈ (stackPop (stackPop M.stack).2).2 :=
    fun hv hv' => mem_stackPop (ne_of_deref hv hd) (hpop hv')
  cases op <;> simp only [insn, Option.bind_eq_bind, Option.bind_eq_some_iff, Option.some.injEq] at h
  case pop => exact (hop rfl).elim
  case nop => exact h ▸ ha
  case inc => exact h ▸ ha
  case dec => exact h ▸ ha
  case and => exact h ▸ ha
  case or => exact h ▸ ha
  case xor => exact h ▸ ha
  case neg => exact h ▸ ha
  case not => exact h ▸ ha
  case cesv => exact h ▸ ha
  case past => exact h ▸ ha
  case push =>
    obtain ⟨n, -, rfl⟩ := h
    exact List.mem_cons_of_mem _ ha
  case pushstatic =>
    obtain ⟨n, -, rfl⟩ := h
    exact List.mem_cons_of_mem _ ha
  case pushfield =>
    obtain ⟨n, -, rfl⟩ := h
    exact List.mem_cons_of_mem _ ha
  case jmp =>
    obtain ⟨n, -, rfl⟩ := h
    exact ha
  case trash =>
    obtain ⟨v, hv, rfl⟩ := h
    exact hpop hv
  case popcjmp =>
    obtain ⟨n, -, v, hv, h⟩ := h
    split at h <;> cases h <;> exact hpop hv
  case call =>
    obtain ⟨n, -, args, hargs, rfl⟩ := h
    refine List.mem_cons_of_mem _ (mem_stackPopN (fun hm => ?_) ha)
    have hmem := List.mem_map_of_mem (f := M.store.deref) hm
    rw [mapM_eq_some_iff.mp hargs] at hmem
    obtain ⟨v, -, hv⟩ := List.mem_map.mp hmem
    exact ne_of_deref hv.symm hd rfl
  case arith op =>
    obtain ⟨v1, hv1, v2, hv2, h⟩ := h
    split at h
    · exact mem_finish h (hpop₂ hv1 hv2)
    · cases h
  case cmp op =>
    obtain ⟨v1, hv1, v2, hv2, h⟩ := h
    split at h <;> exact mem_finish h (hpop₂ hv1 hv2)
  case regsplit =>
    obtain ⟨v1, hv1, v2, hv2, groups, -, -, -, rfl⟩ := h
    exact List.mem_append_right _ (hpop₂ hv1 hv2)

/-- `OP_POP` releases what the variable was bound to, then reads the flags of the new binding. -/
theorem insn_pop (h : P.insn .pop M = some M') :
    ∃ n σ, P.bytecode[M.ip + 1]? = some n ∧ M.store.Stale σ ∧
      (∃ v, M.store.deref (M.store.env n) = some v) ∧
      (∃ v, σ.deref (stackPop M.stack).1 = some v) ∧
      M' = ⟨M.ip + 2, (stackPop M.stack).2,
        { σ with env := Function.update σ.env n (stackPop M.stack).1 }⟩ := by
  simp only [insn, Option.bind_eq_bind, Option.bind_eq_some_iff, Option.some.injEq] at h
  obtain ⟨n, hn, v, hv, v', hv', rfl⟩ := h
  have hs := (Store.Stale.freeIf M.store VarObj.canFree (M.store.env n)).trans
    (.setBound _ (stackPop M.stack).1)
  exact ⟨n, _, hn, hs, ⟨v, hv⟩, ⟨v', (Store.deref_setBound _ _).trans hv'⟩, rfl⟩

theorem insn_ages {op : Opcode} (h : P.insn op M = some M') :
    Heap.Ages VarObj.val M.store.objs M'.store.objs := by
  by_cases hop : op = .pop
  · subst hop
    obtain ⟨n, σ, -, hs, -, -, rfl⟩ := insn_pop h
    exact hs.ages
  · exact (insn_stale hop h).ages

/-- No handler loses a pointer to a released object. -/
theorem dangling_insn {op : Opcode} (h : P.Dangling M.stack M.store) (heq : P.insn op M = some M') :
    P.Dangling M'.stack M'.store := by
  by_cases hop : op = .pop
  · subst hop
    obtain ⟨n, σ, -, hs, ⟨v, hv⟩, ⟨v', hv'⟩, rfl⟩ := insn_pop heq
    obtain ⟨a, ha, hd, hp⟩ := h
    have hd' := hs.ages.dead a ha hd
    refine ⟨a, lt_of_lt_of_le ha hs.ages.size_le, hd', ?_⟩
    rcases hp with hw | ⟨m, hm | hm⟩
    · exact .inl (mem_stackPop (ne_of_deref hv' hd') hw)
    · -- the variable that is bound was not the one with the stale pointer
      have hne : m ≠ n := fun heq => ne_of_deref hv hd (heq ▸ hm)
      refine .inr ⟨m, .inl ?_⟩
      show Function.update σ.env n _ m = some a
      rw [Function.update_of_ne hne, hs.env, hm]
    · exact .inr ⟨m, .inr hm⟩
  · exact h.stale (insn_stale hop heq) fun a hd ha => insn_mem_stack heq hd ha hop

end ObjFrame

end Orchids

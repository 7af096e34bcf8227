import Mathlib.Logic.Function.Basic
import Mathlib.Logic.Relation
import Orchids.Ovm.Opcode

/-!
# The virtual machine (`ovm.c`)

One `Frame` is what a call of `ovm_exec` reads and never writes: the byte code, the inherited and
static environments, the field values and the built-in functions. A `Machine` is what the
instructions change: the instruction pointer, the operand stack and the current environment.

* A stack slot, a variable and a field are pointers to values: `none` is `NULL`.
* Values are immutable here: the flag bits that decide when an operand is released are not part
  of this model, except where they are read through a `NULL` pointer (`isNotBound`).
* `step` is one turn of the loop of `ovm_exec`; `Reaches` is any number of them.
-/

namespace Orchids

/-- What `regexec` and the type tests before it say in `ovm_crm` and `ovm_cnrm`. -/
inductive RegexResult where
  | paramError | matched | noMatch | error
  deriving DecidableEq, Repr

/-- The language operations on values (`lang.c`). -/
class Issdl (V : Type) where
  /-- `TYPE(x) == T_NULL` -/
  isNull : V → Bool
  /-- `issdl_test(x) != 0`, for a value -/
  test : V → Bool
  /-- `issdl_cmp` -/
  cmp : V → V → Int
  /-- `issdl_add` .. `issdl_mod`; `none` is a `NULL` result -/
  arith : ArithOp → V → V → Option V
  /-- The machine traps in them: a division by zero, or of `LONG_MIN` by `-1`. -/
  arithTraps : ArithOp → V → V → Bool
  /-- The regular expression, then the string. -/
  regexec : V → V → RegexResult
  /-- `TYPE(x) == T_SREGEX` -/
  isSregex : V → Bool
  /-- The substrings that `ovm_regsplit` extracts, the first group first; `none` when an operand
  has the wrong type or the pattern does not match. -/
  regsplit : V → V → Option (List V)

/-- `IS_NULL` -/
def isNull {V : Type} [Issdl V] : Option V → Bool
  | none => true
  | some v => Issdl.isNull v

/-- `issdl_test(x) != 0` -/
def issdlTest {V : Type} [Issdl V] : Option V → Bool
  | none => false
  | some v => Issdl.test v

/-- The length of the array `match` of `ovm_regsplit`, which `regexec` gives the whole match and a
group for each variable. -/
def matchSize : Nat := 10

/-- A table of pointers to values: `current_env`, `inherit_env`, `static_env`, the fields. -/
abbrev Env (V : Type) := Nat → Option V

/-- The entries of the static environment that the compiler makes for every rule. -/
structure StaticIds where
  one : Nat
  zero : Nat
  null : Nat
  paramError : Nat
  regexError : Nat
  deriving DecidableEq, Repr

/-- The ids that `new_rule_compiler_ctx` gives them. -/
def staticIds : StaticIds := { one := 0, zero := 1, null := 2, paramError := 3, regexError := 4 }

/-- The static environment of a compiled rule, with what `new_rule_compiler_ctx` puts in its
first entries. -/
structure StaticEnv (V : Type) [Issdl V] where
  get : Env V
  test_one : issdlTest (get staticIds.one) = true
  test_zero : issdlTest (get staticIds.zero) = false

/-- What a call of `ovm_exec` reads. -/
structure Frame (V : Type) [Issdl V] where
  bytecode : List Nat
  inheritEnv : Env V
  staticEnv : StaticEnv V
  fields : Env V
  /-- How many arguments `vm_func_tbl[id].func` pops. -/
  argsNb : Nat → Nat
  /-- The value that it pushes for them, the first argument first. -/
  builtin : Nat → List (Option V) → Option V

/-- What the instructions change. -/
structure Machine (V : Type) where
  ip : Nat
  stack : List (Option V)
  currentEnv : Env V

/-- `stack_pop`: `NULL` on an empty stack. -/
def stackPop {V : Type} : List (Option V) → Option V × List (Option V)
  | [] => (none, [])
  | v :: s => (v, s)

/-- The first `n` results of `stack_pop`, and the stack after them. -/
def stackPopN {V : Type} : Nat → List (Option V) → List (Option V) × List (Option V)
  | 0, s => ([], s)
  | n + 1, s =>
    let (v, s) := stackPop s
    let (vs, s) := stackPopN n s
    (v :: vs, s)

@[simp] theorem stackPop_cons {V : Type} (v : Option V) (s : List (Option V)) :
    stackPop (v :: s) = (v, s) := rfl

theorem stackPopN_append {V : Type} (vs s : List (Option V)) :
    stackPopN vs.length (vs ++ s) = (vs, s) := by
  induction vs with
  | nil => rfl
  | cons v vs ih => simp [stackPopN, ih]

variable {V : Type} [Issdl V]

namespace Frame

variable (F : Frame V)

/-- `NULL_VAR` -/
def nullVar : Option V := F.staticEnv.get staticIds.null

/-- `TRUE_VAR` and `FALSE_VAR` -/
def boolVar (b : Bool) : Option V := F.staticEnv.get (if b then staticIds.one else staticIds.zero)

/-- The pointer that `OP_PUSH [n]` pushes: the current binding, else the inherited one, else
the static null. -/
def readVar (env : Env V) (n : Nat) : Option V :=
  match env n with
  | some v => some v
  | none =>
    match F.inheritEnv n with
    | some v => some v
    | none => F.nullVar

/-- The result of `ovm_add` .. `ovm_mod`. -/
def arithResult (op : ArithOp) (op1 op2 : Option V) : Option V :=
  match op1, op2 with
  | some v1, some v2 =>
    if isNull (some v1) || isNull (some v2) then F.nullVar
    else
      match Issdl.arith op v1 v2 with
      | some v => some v
      | none => F.nullVar
  | _, _ => F.nullVar

/-- The test of `ovm_ceq` .. `ovm_cge` on the result of `issdl_cmp`; the regular expression
opcodes do not use it. -/
def cmpTest : CmpOp → Int → Bool
  | .ceq, r => r == 0
  | .cneq, r => r != 0
  | .clt, r => r < 0
  | .cgt, r => r > 0
  | .cle, r => r ≤ 0
  | .cge, r => r ≥ 0
  | .crm, _ => false
  | .cnrm, _ => false

/-- The result of a comparison opcode on its left operand `op1` and its right operand `op2`.
`ovm_ceq` is the only one that gives them to `issdl_cmp` in the other order, and `ovm_crm`
reports an error of `regexec` as a parameter error. -/
def cmpResult (op : CmpOp) (op1 op2 : Option V) : Option V :=
  match op1, op2 with
  | some v1, some v2 =>
    if isNull (some v1) || isNull (some v2) then F.nullVar
    else
      match op with
      | .ceq => F.boolVar (cmpTest .ceq (Issdl.cmp v2 v1))
      | .crm =>
        match Issdl.regexec v2 v1 with
        | .paramError => F.staticEnv.get staticIds.paramError
        | .noMatch => F.boolVar false
        | .error => F.staticEnv.get staticIds.paramError
        | .matched => F.boolVar true
      | .cnrm =>
        match Issdl.regexec v2 v1 with
        | .paramError => F.staticEnv.get staticIds.paramError
        | .noMatch => F.boolVar true
        | .error => F.staticEnv.get staticIds.regexError
        | .matched => F.boolVar false
      | op => F.boolVar (cmpTest op (Issdl.cmp v1 v2))
  | _, _ => F.nullVar

@[simp] theorem issdlTest_boolVar (b : Bool) : issdlTest (F.boolVar b) = b := by
  cases b
  · exact F.staticEnv.test_zero
  · exact F.staticEnv.test_one

/-- The strings that `ovm_regsplit` pushes, the one on top first; `none` when it reads the type of a
`NULL` operand, or when `regexec` writes past its array. -/
def regsplitResult (pattern string : Option V) : Option (List V) :=
  if isNull pattern && isNull string then some []
  else
    match pattern, string with
    | none, _ => none
    | some p, none => if Issdl.isSregex p then none else some []
    | some p, some v =>
      let groups := (Issdl.regsplit p v).getD []
      if groups.length < matchSize then some groups else none

/-- The machine traps in `issdl_add` .. `issdl_mod`, which are called on operands that are not
null. -/
def arithTraps (op : ArithOp) (op1 op2 : Option V) : Bool :=
  match op1, op2 with
  | some v1, some v2 => !isNull (some v1) && !isNull (some v2) && Issdl.arithTraps op v1 v2
  | _, _ => false

@[simp] theorem arithTraps_none_left (op : ArithOp) (op2 : Option V) :
    arithTraps op none op2 = false := by
  cases op2 <;> rfl

@[simp] theorem arithTraps_none_right (op : ArithOp) (op1 : Option V) :
    arithTraps op op1 none = false := by
  cases op1 <;> rfl

/-- `IS_NOT_BOUND(x)` as the arithmetic instructions use it: without a test for `NULL`, whose
flags it would read. -/
def isNotBoundDefined (x : Option V) : Bool := x.isSome

/-- `ovm_add` .. `ovm_mod` come to their end: the operation does not trap, and the flags of both
operands can be read behind it. -/
def arithEnds (op : ArithOp) (op1 op2 : Option V) : Bool :=
  isNotBoundDefined op1 && isNotBoundDefined op2 && !arithTraps op op1 op2

/-- The operand word of the instruction at `ip`: `ip[1]`. -/
def operand (m : Machine V) : Option Nat := F.bytecode[m.ip + 1]?

/-- The handlers of `ops_g`; `none` is a crash (a `NULL` pointer, a trap of the machine, an access
outside of an array). -/
def insn (op : Opcode) (m : Machine V) : Option (Machine V) :=
  match op with
  | .nop => some { m with ip := m.ip + 1 }
  | .push => do
    let n ← F.operand m
    some { m with stack := F.readVar m.currentEnv n :: m.stack, ip := m.ip + 2 }
  | .pop => do
    let n ← F.operand m
    let (v, s) := stackPop m.stack
    some { ip := m.ip + 2, stack := s, currentEnv := Function.update m.currentEnv n v }
  | .pushstatic => do
    let n ← F.operand m
    some { m with stack := F.staticEnv.get n :: m.stack, ip := m.ip + 2 }
  | .pushfield => do
    let n ← F.operand m
    some { m with stack := F.fields n :: m.stack, ip := m.ip + 2 }
  | .trash => some { m with stack := (stackPop m.stack).2, ip := m.ip + 1 }
  | .call => do
    let n ← F.operand m
    let (args, s) := stackPopN (F.argsNb n) m.stack
    some { m with stack := F.builtin n args :: s, ip := m.ip + 2 }
  | .arith op =>
    let (op2, s) := stackPop m.stack
    let (op1, s) := stackPop s
    -- the result is pushed, then the flags of both operands are read
    if arithEnds op op1 op2 then
      some { m with stack := F.arithResult op op1 op2 :: s, ip := m.ip + 1 }
    else none
  | .jmp => do
    let n ← F.operand m
    some { m with ip := (m.ip + n + 2) % wordSize }
  | .popcjmp => do
    let n ← F.operand m
    let (res, s) := stackPop m.stack
    if issdlTest res then some { m with stack := s, ip := (m.ip + n + 2) % wordSize }
    else some { m with stack := s, ip := m.ip + 2 }
  | .cmp op =>
    let (op2, s) := stackPop m.stack
    let (op1, s) := stackPop s
    some { m with stack := F.cmpResult op op1 op2 :: s, ip := m.ip + 1 }
  | .regsplit =>
    let (pattern, s) := stackPop m.stack
    let (string, s) := stackPop s
    (regsplitResult pattern string).map fun groups =>
      { m with stack := groups.map some ++ s, ip := m.ip + 1 }
  -- "not yet implemented": the result `-1` is ignored by the loop
  | .inc | .dec | .and | .or | .xor | .neg | .not | .cesv | .past => some m

end Frame

/-- What one turn of the loop of `ovm_exec` does. -/
inductive Outcome (V : Type) where
  | next (m : Machine V)
  | done
  | unknownOpcode
  | crash

/-- One turn of the loop of `ovm_exec`. -/
def Frame.step (F : Frame V) (m : Machine V) : Outcome V :=
  match F.bytecode[m.ip]? with
  | none => .crash
  | some w =>
    if w = Opcode.opEnd then .done
    else if opcodeNum ≤ w then .unknownOpcode
    else
      match Opcode.ofWord w with
      | none => .crash
      | some op =>
        match F.insn op m with
        | none => .crash
        | some m' => .next m'

/-- How many operands the handler of `op` pops. -/
def Frame.popsNb (F : Frame V) (op : Opcode) (m : Machine V) : Nat :=
  match op with
  | .pop | .trash | .popcjmp => 1
  | .arith _ | .cmp _ | .regsplit => 2
  | .call => ((F.operand m).map F.argsNb).getD 0
  | _ => 0

/-- The next word has a handler that does something, and its operands are on the stack. -/
def Frame.Fits (F : Frame V) (m : Machine V) : Prop :=
  ∃ op : Opcode, F.bytecode[m.ip]? = some op.code ∧ op.implemented = true ∧
    F.popsNb op m ≤ m.stack.length

/-- `m'` is after some turns of the loop from `m`. -/
def Frame.Reaches (F : Frame V) : Machine V → Machine V → Prop :=
  Relation.ReflTransGen fun m m' => F.step m = .next m'

namespace Frame

variable {F : Frame V} {m m' m'' : Machine V}

theorem Reaches.refl : F.Reaches m m := Relation.ReflTransGen.refl

theorem Reaches.trans (h : F.Reaches m m') (h' : F.Reaches m' m'') : F.Reaches m m'' :=
  Relation.ReflTransGen.trans h h'

theorem Reaches.head (h : F.step m = .next m') (h' : F.Reaches m' m'') : F.Reaches m m'' :=
  Relation.ReflTransGen.head h h'

/-- The step at a word that has a handler. -/
theorem step_of_word {op : Opcode} (hw : F.bytecode[m.ip]? = some op.code)
    (hi : F.insn op m = some m') : F.step m = .next m' := by
  simp [step, hw, Opcode.code_ne_opEnd, Nat.not_le.mpr op.code_lt_opcodeNum, hi]

/-- A handler that crashes ends the run. -/
theorem step_crash_of_word {op : Opcode} (hw : F.bytecode[m.ip]? = some op.code)
    (hi : F.insn op m = none) : F.step m = .crash := by
  simp [step, hw, Opcode.code_ne_opEnd, Nat.not_le.mpr op.code_lt_opcodeNum, hi]

/-- Two runs from one state that cannot go on are the same. -/
theorem Reaches.det (h : F.Reaches m m') (h' : F.Reaches m m'')
    (hs : ∀ x, F.step m' ≠ .next x) (hs' : ∀ x, F.step m'' ≠ .next x) : m' = m'' := by
  induction h using Relation.ReflTransGen.head_induction_on with
  | refl =>
    rcases Relation.ReflTransGen.cases_head h' with rfl | ⟨x, hx, -⟩
    · rfl
    · exact (hs x hx).elim
  | head hx _ ih =>
    rcases Relation.ReflTransGen.cases_head h' with rfl | ⟨y, hy, hr⟩
    · exact (hs' _ hx).elim
    · rw [hx] at hy
      cases hy
      exact ih hr

end Frame

end Orchids

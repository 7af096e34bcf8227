import Orchids.Lang.Values

/-!
# Arithmetic (`issdl_add` .. `issdl_mod`)

The handlers of `lang.c`, found by the type of the first operand. A handler returns a new object, or
`NULL`; a read at the wrong type and a division by zero are traps.

* `issdlTypesG`: the arithmetic columns of the table of types.
* `resultType`: the pairs of types that have an operation, and the type of what it makes.
* `Slip`: the pairs where a handler goes wrong: the guards of `uint_sub`, `uint_div` and `uint_mod`
  join their two tests with `&&`, `vstr_add` writes through `VSTR` of a `T_STR`, and no signed
  division keeps `LONG_MIN` from `-1`.
* `issdlArith_traps_iff`: these are all the traps. `issdlArith_safe`: without them the result is
  `NULL` or a new object of the right type.
-/

namespace Orchids

variable {F : Type}

/-- What a handler returns: `none` is `NULL`. -/
abbrev Ret (F : Type) := Option (Obj F)

/-- `a && b`: the right test is made if the left one holds. -/
def andThen (c : Bool) (x : Except Trap Bool) : Except Trap Bool :=
  if c then x else .ok false

@[simp] theorem andThen_true (x : Except Trap Bool) : andThen true x = x := rfl

@[simp] theorem andThen_false (x : Except Trap Bool) : andThen false x = .ok false := rfl

/-- An operation on the words of the machine. -/
abbrev LongOp := BitVec 64 → BitVec 64 → BitVec 64

/-- `LONG_MIN` -/
def longMin : BitVec 64 := BitVec.intMin 64

/-! ## The divisions of the machine -/

/-- A signed division, with the two cases that it traps on. -/
def sdivision (f : LongOp) (x y : BitVec 64) : Except Trap (BitVec 64) :=
  if y = 0#64 then .error .divByZero
  else if x = longMin ∧ y = -1#64 then .error .overflow
  else .ok (f x y)

/-- An unsigned division. -/
def udivision (f : LongOp) (x y : BitVec 64) : Except Trap (BitVec 64) :=
  if y = 0#64 then .error .divByZero else .ok (f x y)

/-! ## `T_INT` -/

/-- `int_add`, `int_sub` and `int_mul` -/
def intArith (f : LongOp) (var1 var2 : OvmVar F) : Except Trap (Ret F) := do
  if var2.type ≠ .int then return none
  else return some (.fresh (.int (f (← var1.readInt) (← var2.readInt))))

/-- `int_div` and `int_mod` -/
def intDivide (f : LongOp) (var1 var2 : OvmVar F) : Except Trap (Ret F) := do
  if var2.type ≠ .int then return none
  else if (← var2.readInt) = 0#64 then return none
  else return some (.fresh (.int (← sdivision f (← var1.readInt) (← var2.readInt))))

def intAdd : OvmVar F → OvmVar F → Except Trap (Ret F) := intArith (· + ·)
def intSub : OvmVar F → OvmVar F → Except Trap (Ret F) := intArith (· - ·)
def intMul : OvmVar F → OvmVar F → Except Trap (Ret F) := intArith (· * ·)
def intDiv : OvmVar F → OvmVar F → Except Trap (Ret F) := intDivide BitVec.sdiv
def intMod : OvmVar F → OvmVar F → Except Trap (Ret F) := intDivide BitVec.srem

/-! ## `T_UINT` -/

/-- `uint_add` and `uint_mul` -/
def uintArith (f : LongOp) (var1 var2 : OvmVar F) : Except Trap (Ret F) := do
  if var2.type ≠ .uint then return none
  else return some (.fresh (.uint (f (← var1.readUint) (← var2.readUint))))

def uintAdd : OvmVar F → OvmVar F → Except Trap (Ret F) := uintArith (· + ·)
def uintMul : OvmVar F → OvmVar F → Except Trap (Ret F) := uintArith (· * ·)

/-- `uint_sub`: the second operand is read as a `T_UINT` when it is of another type. -/
def uintSub (var1 var2 : OvmVar F) : Except Trap (Ret F) := do
  if ← andThen (var2.type ≠ .uint)
      (do return decide ((← var2.readUint) < (← var1.readUint))) then return none
  else return some (.fresh (.uint ((← var1.readUint) - (← var2.readUint))))

/-- `uint_div` and `uint_mod`: the same, and zero is let through. -/
def uintDivide (f : LongOp) (var1 var2 : OvmVar F) : Except Trap (Ret F) := do
  if ← andThen (var2.type ≠ .uint) (do return decide (0#64 < (← var2.readUint))) then return none
  else return some (.fresh (.uint (← udivision f (← var1.readUint) (← var2.readUint))))

def uintDiv : OvmVar F → OvmVar F → Except Trap (Ret F) := uintDivide (· / ·)
def uintMod : OvmVar F → OvmVar F → Except Trap (Ret F) := uintDivide (· % ·)

/-! ## `T_STR` and `T_VSTR` -/

/-- `ovm_str_new` with the bytes that are copied to it; `Xzmalloc` clears the memory. -/
def ovmStrNew (bytes : List UInt8) : OvmVar F := .str ⟨bytes, fun _ => 0⟩

/-- `str_add` -/
def strAdd (var1 var2 : OvmVar F) : Except Trap (Ret F) := do
  if var2.type = .str then
    return some (.fresh (ovmStrNew ((← var1.readStr).bytes ++ (← var2.readStr).bytes)))
  else if var2.type = .vstr then
    return some (.fresh (ovmStrNew ((← var1.readStr).bytes ++ (← var2.readVstr).bytes)))
  else return none

/-- `vstr_add`: the sum of two `T_VSTR` is copied to `VSTR(res)`, and `res` is a `T_STR`. -/
def vstrAdd (var1 var2 : OvmVar F) : Except Trap (Ret F) := do
  if var2.type = .str then
    return some (.fresh (ovmStrNew ((← var1.readVstr).bytes ++ (← var2.readStr).bytes)))
  else if var2.type = .vstr then
    let res : OvmVar F := ovmStrNew ((← var1.readVstr).bytes ++ (← var2.readVstr).bytes)
    let _ ← res.readVstr
    return some (.fresh res)
  else return none

/-! ## `T_CTIME` -/

/-- `ctime_add`, `ctime_sub` and `ctime_mul` -/
def ctimeArith (f : LongOp) (var1 var2 : OvmVar F) : Except Trap (Ret F) := do
  if var2.type = .ctime then
    return some (.fresh (.ctime (f (← var1.readCtime) (← var2.readCtime))))
  else if var2.type = .int then
    return some (.fresh (.ctime (f (← var1.readCtime) (← var2.readInt))))
  else return none

/-- `ctime_div` and `ctime_mod` -/
def ctimeDivide (f : LongOp) (var1 var2 : OvmVar F) : Except Trap (Ret F) := do
  if ← andThen (var2.type = .ctime) (do return (← var2.readCtime) ≠ 0#64) then
    return some (.fresh (.ctime (← sdivision f (← var1.readCtime) (← var2.readCtime))))
  else if ← andThen (var2.type = .int) (do return (← var2.readInt) ≠ 0#64) then
    return some (.fresh (.ctime (← sdivision f (← var1.readCtime) (← var2.readInt))))
  else return none

def ctimeAdd : OvmVar F → OvmVar F → Except Trap (Ret F) := ctimeArith (· + ·)
def ctimeSub : OvmVar F → OvmVar F → Except Trap (Ret F) := ctimeArith (· - ·)
def ctimeMul : OvmVar F → OvmVar F → Except Trap (Ret F) := ctimeArith (· * ·)
def ctimeDiv : OvmVar F → OvmVar F → Except Trap (Ret F) := ctimeDivide BitVec.sdiv
def ctimeMod : OvmVar F → OvmVar F → Except Trap (Ret F) := ctimeDivide BitVec.srem

/-! ## `T_TIMEVAL` -/

/-- `Timer_Add` -/
def timerAdd (a b : Timeval) : Timeval where
  usec := (a.usec + b.usec).srem 1000000
  sec := a.sec + b.sec + (a.usec + b.usec).sdiv 1000000

/-- `Timer_Sub` -/
def timerSub (a b : Timeval) : Timeval :=
  if a.usec.slt b.usec then ⟨a.sec - b.sec - 1, 1000000 + a.usec - b.usec⟩
  else ⟨a.sec - b.sec, a.usec - b.usec⟩

/-- `timeval_mul`, and the last two branches of `timeval_add` and `timeval_sub`: the seconds of a
copy of `var1` are changed. -/
def timevalArith (f : LongOp) (var1 var2 : OvmVar F) : Except Trap (Ret F) := do
  if var2.type = .ctime then
    let t ← var1.readTimeval
    return some (.fresh (.timeval { t with sec := f t.sec (← var2.readCtime) }))
  else if var2.type = .int then
    let t ← var1.readTimeval
    return some (.fresh (.timeval { t with sec := f t.sec (← var2.readInt) }))
  else return none

/-- `timeval_add` and `timeval_sub` -/
def timevalPair (g : Timeval → Timeval → Timeval) (f : LongOp) (var1 var2 : OvmVar F) :
    Except Trap (Ret F) := do
  if var2.type = .timeval then
    return some (.fresh (.timeval (g (← var1.readTimeval) (← var2.readTimeval))))
  else timevalArith f var1 var2

/-- `timeval_div` and `timeval_mod` -/
def timevalDivide (f : LongOp) (var1 var2 : OvmVar F) : Except Trap (Ret F) := do
  if ← andThen (var2.type = .ctime) (do return (← var2.readCtime) ≠ 0#64) then
    let t ← var1.readTimeval
    return some (.fresh (.timeval { t with sec := ← sdivision f t.sec (← var2.readCtime) }))
  else if ← andThen (var2.type = .int) (do return (← var2.readInt) ≠ 0#64) then
    let t ← var1.readTimeval
    return some (.fresh (.timeval { t with sec := ← sdivision f t.sec (← var2.readInt) }))
  else return none

def timevalAdd : OvmVar F → OvmVar F → Except Trap (Ret F) := timevalPair timerAdd (· + ·)
def timevalSub : OvmVar F → OvmVar F → Except Trap (Ret F) := timevalPair timerSub (· - ·)
def timevalMul : OvmVar F → OvmVar F → Except Trap (Ret F) := timevalArith (· * ·)
def timevalDiv : OvmVar F → OvmVar F → Except Trap (Ret F) := timevalDivide BitVec.sdiv
def timevalMod : OvmVar F → OvmVar F → Except Trap (Ret F) := timevalDivide BitVec.srem

/-! ## `T_COUNTER` -/

/-- `counter_add` -/
def counterAdd (var1 var2 : OvmVar F) : Except Trap (Ret F) := do
  if var2.type = .int then
    return some (.fresh (.counter ((← var1.readCounter) + (← var2.readInt))))
  else if var2.type = .counter then
    return some (.fresh (.counter ((← var1.readCounter) + (← var2.readCounter))))
  else return none

/-- `counter_mul`: a counter only grows, and a factor that is not positive is refused. -/
def counterMul (var1 var2 : OvmVar F) : Except Trap (Ret F) := do
  if ← andThen (var2.type = .int) (do return BitVec.slt 0#64 (← var2.readInt)) then
    return some (.fresh (.counter ((← var1.readCounter) * (← var2.readInt))))
  else if ← andThen (var2.type = .counter) (do return decide (0#64 < (← var2.readCounter))) then
    return some (.fresh (.counter ((← var1.readCounter) * (← var2.readCounter))))
  else return none

/-! ## `T_FLOAT` -/

section Float

variable [CFloat F]

/-- `float_add`, `float_sub` and `float_mul` -/
def floatArith (f : F → F → F) (var1 var2 : OvmVar F) : Except Trap (Ret F) := do
  if var2.type ≠ .float then return none
  else return some (.fresh (.float (f (← var1.readFloat) (← var2.readFloat))))

def floatAdd : OvmVar F → OvmVar F → Except Trap (Ret F) := floatArith CFloat.add
def floatSub : OvmVar F → OvmVar F → Except Trap (Ret F) := floatArith CFloat.sub
def floatMul : OvmVar F → OvmVar F → Except Trap (Ret F) := floatArith CFloat.mul

/-- `float_div` -/
def floatDiv (var1 var2 : OvmVar F) : Except Trap (Ret F) := do
  if var2.type ≠ .float then return none
  else if CFloat.isZero (← var2.readFloat) then return none
  else return some (.fresh (.float (CFloat.div (← var1.readFloat) (← var2.readFloat))))

/-! ## The table -/

/-- The columns `add` .. `mod` of `issdl_types_g`. -/
def issdlTypesG : IssdlTag → ArithOp → Option (OvmVar F → OvmVar F → Except Trap (Ret F))
  | .int, .add => some intAdd
  | .int, .sub => some intSub
  | .int, .mul => some intMul
  | .int, .div => some intDiv
  | .int, .mod => some intMod
  | .str, .add => some strAdd
  | .vstr, .add => some vstrAdd
  | .ctime, .add => some ctimeAdd
  | .ctime, .sub => some ctimeSub
  | .ctime, .mul => some ctimeMul
  | .ctime, .div => some ctimeDiv
  | .ctime, .mod => some ctimeMod
  | .timeval, .add => some timevalAdd
  | .timeval, .sub => some timevalSub
  | .timeval, .mul => some timevalMul
  | .timeval, .div => some timevalDiv
  | .timeval, .mod => some timevalMod
  | .counter, .add => some counterAdd
  | .counter, .mul => some counterMul
  | .uint, .add => some uintAdd
  | .uint, .sub => some uintSub
  | .uint, .mul => some uintMul
  | .uint, .div => some uintDiv
  | .uint, .mod => some uintMod
  | .float, .add => some floatAdd
  | .float, .sub => some floatSub
  | .float, .mul => some floatMul
  | .float, .div => some floatDiv
  | _, _ => none

/-- `issdl_add` .. `issdl_mod` -/
def issdlArith (op : ArithOp) (var1 var2 : OvmVar F) : Except Trap (Ret F) :=
  match issdlTypesG var1.type op with
  | some f => f var1 var2
  | none => .ok none

/-! ## What it is to do -/

/-- The pairs of types with an operation, and the type of the result. -/
def resultType : ArithOp → IssdlTag → IssdlTag → Option IssdlTag
  | _, .int, .int => some .int
  | _, .uint, .uint => some .uint
  | _, .ctime, .ctime | _, .ctime, .int => some .ctime
  | .add, .timeval, .timeval | .sub, .timeval, .timeval => some .timeval
  | _, .timeval, .ctime | _, .timeval, .int => some .timeval
  | .add, .counter, .int | .add, .counter, .counter => some .counter
  | .mul, .counter, .int | .mul, .counter, .counter => some .counter
  | .mod, .float, .float => none
  | _, .float, .float => some .float
  | .add, .str, .str | .add, .str, .vstr | .add, .vstr, .str | .add, .vstr, .vstr => some .str
  | _, _, _ => none

/-- The operation divides. -/
def divides : ArithOp → Bool
  | .div | .mod => true
  | _ => false

/-- The number is zero. -/
def OvmVar.isZero : OvmVar F → Bool
  | .int v | .uint v | .ctime v | .counter v => v == 0#64
  | .float v => CFloat.isZero v
  | _ => false

/-- The operation divides by zero. -/
def DivisorZero (op : ArithOp) (b : OvmVar F) : Prop := divides op = true ∧ b.isZero = true

/-- The number is one that a counter can be multiplied by. -/
def OvmVar.isPositive : OvmVar F → Bool
  | .int v => BitVec.slt 0#64 v
  | .counter v => decide (0#64 < v)
  | _ => false

/-- A counter times a number that is not positive. -/
def CounterFactor (op : ArithOp) (a b : OvmVar F) : Prop :=
  op = .mul ∧ a.type = .counter ∧ b.isPositive = false

/-- What a signed division divides, and what it divides by. -/
def OvmVar.dividend : OvmVar F → Option (BitVec 64)
  | .int v | .ctime v => some v
  | .timeval t => some t.sec
  | _ => none

def OvmVar.divisor : OvmVar F → Option (BitVec 64)
  | .int v | .ctime v => some v
  | _ => none

/-- The pairs where a handler goes wrong: a `T_UINT` with a second operand of another type, or
divided by zero; two `T_VSTR`; and `LONG_MIN` divided by `-1`. -/
def Slip (op : ArithOp) (a b : OvmVar F) : Prop :=
  (a.type = .uint ∧ b.type ≠ .uint ∧ (op = .sub ∨ divides op = true)) ∨
    (a.type = .uint ∧ b.type = .uint ∧ DivisorZero op b) ∨
    (op = .add ∧ a.type = .vstr ∧ b.type = .vstr) ∨
    (divides op = true ∧ (resultType op a.type b.type).isSome = true ∧
      a.dividend = some longMin ∧ b.divisor = some (-1#64))

/-- The operation returns `NULL` for the pair. -/
def Nulls (op : ArithOp) (a b : OvmVar F) : Prop :=
  resultType op a.type b.type = none ∨ DivisorZero op b ∨ CounterFactor op a b

/-- The operation on the pair goes wrong, returns `NULL`, or returns a new object. -/
inductive Computes (op : ArithOp) (a b : OvmVar F) : Except Trap (Ret F) → Prop
  | trap {e : Trap} : Slip op a b → Computes op a b (.error e)
  | null : ¬ Slip op a b → Nulls op a b → Computes op a b (.ok none)
  | value {v : OvmVar F} : ¬ Slip op a b → ¬ Nulls op a b →
      resultType op a.type b.type = some v.type → Computes op a b (.ok (some (.fresh v)))

theorem computes_error {op : ArithOp} {a b : OvmVar F} {e : Trap} :
    Computes op a b (.error e) ↔ Slip op a b :=
  ⟨fun h => by cases h; assumption, .trap⟩

/-! ### The rows of the table of types -/

theorem resultType_int (op : ArithOp) (t : IssdlTag) :
    resultType op .int t = if t = .int then some .int else none := by
  cases op <;> cases t <;> rfl

theorem resultType_uint (op : ArithOp) (t : IssdlTag) :
    resultType op .uint t = if t = .uint then some .uint else none := by
  cases op <;> cases t <;> rfl

theorem resultType_ctime (op : ArithOp) (t : IssdlTag) :
    resultType op .ctime t = if t = .ctime ∨ t = .int then some .ctime else none := by
  cases op <;> cases t <;> rfl

theorem resultType_timeval (op : ArithOp) (t : IssdlTag) :
    resultType op .timeval t =
      if (t = .timeval ∧ (op = .add ∨ op = .sub)) ∨ t = .ctime ∨ t = .int then some .timeval
      else none := by
  cases op <;> cases t <;> rfl

theorem resultType_counter (op : ArithOp) (t : IssdlTag) :
    resultType op .counter t =
      if (t = .int ∨ t = .counter) ∧ (op = .add ∨ op = .mul) then some .counter else none := by
  cases op <;> cases t <;> rfl

theorem resultType_float (op : ArithOp) (t : IssdlTag) :
    resultType op .float t = if t = .float ∧ op ≠ .mod then some .float else none := by
  cases op <;> cases t <;> rfl

theorem resultType_text (op : ArithOp) (s t : IssdlTag) (hs : s = .str ∨ s = .vstr) :
    resultType op s t =
      if (t = .str ∨ t = .vstr) ∧ op = .add then some .str else none := by
  rcases hs with rfl | rfl <;> cases op <;> cases t <;> rfl

/-! ### The handlers -/

/-- A signed division, after the test of the divisor. -/
theorem computes_sdivision {op : ArithOp} {a b : OvmVar F} {x y : BitVec 64}
    (mk : BitVec 64 → OvmVar F) (f : LongOp) (hy : y ≠ 0#64)
    (hs : Slip op a b ↔ x = longMin ∧ y = -1#64) (hn : ¬ Nulls op a b)
    (hr : ∀ z, resultType op a.type b.type = some (mk z).type) :
    Computes op a b (do return some (.fresh (mk (← sdivision f x y)))) := by
  rw [sdivision, if_neg hy]
  split
  · exact .trap (hs.mpr ‹_›)
  · exact .value (mt hs.mp ‹_›) hn (hr _)

section Int

variable {op : ArithOp} {v : BitVec 64} {b : OvmVar F}

theorem slip_int : Slip op (.int v) b ↔ divides op = true ∧ v = longMin ∧ b = .int (-1#64) := by
  cases b <;> simp [Slip, resultType_int, OvmVar.dividend, OvmVar.divisor, OvmVar.type]

theorem nulls_int : Nulls op (.int v) b ↔ b.type ≠ .int ∨ (divides op = true ∧ b = .int 0#64) := by
  cases b <;> simp [Nulls, resultType_int, DivisorZero, CounterFactor, OvmVar.isZero, OvmVar.type]

theorem computes_intArith (hop : divides op = false) (f : LongOp) :
    Computes op (.int v) b (intArith f (.int v) b) := by
  by_cases hb : b.type = .int
  · obtain ⟨w, rfl⟩ := OvmVar.type_eq_int.mp hb
    exact .value (by simp [slip_int, hop]) (by simp [nulls_int, hop]) (by simp [resultType_int])
  · rw [intArith, if_pos hb]
    exact .null (by simp [slip_int, hop]) (nulls_int.mpr (.inl hb))

theorem computes_intDivide (hop : divides op = true) (f : LongOp) :
    Computes op (.int v) b (intDivide f (.int v) b) := by
  by_cases hb : b.type = .int
  · obtain ⟨w, rfl⟩ := OvmVar.type_eq_int.mp hb
    by_cases hw : w = 0#64
    · subst hw
      exact .null (by simp [slip_int]) (nulls_int.mpr (.inr ⟨hop, rfl⟩))
    · have h : intDivide f (.int v) (.int w : OvmVar F) =
          do return some (.fresh (.int (← sdivision f v w))) := if_neg hw
      rw [h]
      exact computes_sdivision .int f hw (by simp [slip_int, hop]) (by simp [nulls_int, hw])
        fun z => by simp [resultType_int]
  · rw [intDivide, if_pos hb]
    refine .null (fun hs => hb ?_) (nulls_int.mpr (.inl hb))
    simp [(slip_int.mp hs).2.2]

end Int

section Uint

variable {op : ArithOp} {v : BitVec 64} {b : OvmVar F}

theorem slip_uint : Slip op (.uint v) b ↔
    (b.type ≠ .uint ∧ (op = .sub ∨ divides op = true)) ∨ (divides op = true ∧ b = .uint 0#64) := by
  cases b <;>
    simp [Slip, resultType_uint, DivisorZero, OvmVar.dividend, OvmVar.isZero, OvmVar.type]

theorem nulls_uint : Nulls op (.uint v) b ↔
    b.type ≠ .uint ∨ (divides op = true ∧ b = .uint 0#64) := by
  cases b <;> simp [Nulls, resultType_uint, DivisorZero, CounterFactor, OvmVar.isZero, OvmVar.type]

omit [CFloat F] in
/-- A `T_UINT` read at another type. -/
theorem readUint_of_ne (hb : b.type ≠ .uint) : b.readUint = .error .misread := by
  cases b <;> first | rfl | exact absurd rfl hb

theorem computes_uintArith (hop : ¬ (op = .sub ∨ divides op = true)) (f : LongOp) :
    Computes op (.uint v) b (uintArith f (.uint v) b) := by
  obtain ⟨-, hdiv⟩ := not_or.mp hop
  by_cases hb : b.type = .uint
  · obtain ⟨w, rfl⟩ := OvmVar.type_eq_uint.mp hb
    exact .value (by simp [slip_uint, hdiv]) (by simp [nulls_uint, hdiv])
      (by simp [resultType_uint])
  · rw [uintArith, if_pos hb]
    refine .null (fun hs => ?_) (nulls_uint.mpr (.inl hb))
    rcases slip_uint.mp hs with ⟨-, h⟩ | ⟨h, -⟩
    · exact hop h
    · exact hdiv h

theorem computes_uintSub : Computes .sub (.uint v) b (uintSub (.uint v) b) := by
  by_cases hb : b.type = .uint
  · obtain ⟨w, rfl⟩ := OvmVar.type_eq_uint.mp hb
    exact .value (by simp [slip_uint, divides]) (by simp [nulls_uint, divides])
      (by simp [resultType_uint])
  · have h : uintSub (.uint v) b = .error .misread := by
      simp [uintSub, hb, readUint_of_ne hb, bind, Except.bind]
    rw [h]
    exact .trap (slip_uint.mpr (.inl ⟨hb, .inl rfl⟩))

theorem computes_uintDivide (hop : divides op = true) (f : LongOp) :
    Computes op (.uint v) b (uintDivide f (.uint v) b) := by
  by_cases hb : b.type = .uint
  · obtain ⟨w, rfl⟩ := OvmVar.type_eq_uint.mp hb
    have h : uintDivide f (.uint v) (.uint w : OvmVar F) =
        do return some (.fresh (.uint (← udivision f v w))) := rfl
    rw [h, udivision]
    split
    · exact .trap (slip_uint.mpr (.inr ⟨hop, by simp [*]⟩))
    · exact .value (by simp [slip_uint, *]) (by simp [nulls_uint, *]) (by simp [resultType_uint])
  · have h : uintDivide f (.uint v) b = .error .misread := by
      simp [uintDivide, hb, readUint_of_ne hb, bind, Except.bind]
    rw [h]
    exact .trap (slip_uint.mpr (.inl ⟨hb, .inr hop⟩))

end Uint

section Text

variable {op : ArithOp} {s : Text} {b : OvmVar F}

theorem slip_str : ¬ Slip op (.str s) b := by
  simp [Slip, OvmVar.dividend]

theorem slip_vstr : Slip op (.vstr s) b ↔ op = .add ∧ b.type = .vstr := by
  simp [Slip, OvmVar.dividend]

theorem nulls_text {a : OvmVar F} (ha : a.type = .str ∨ a.type = .vstr) :
    Nulls .add a b ↔ ¬ (b.type = .str ∨ b.type = .vstr) := by
  rcases ha with ha | ha <;>
    simp [Nulls, resultType_text, DivisorZero, CounterFactor, divides, ha]

theorem computes_strAdd : Computes .add (.str s) b (strAdd (.str s) b) := by
  by_cases hb : b.type = .str ∨ b.type = .vstr
  · have hn : ¬ Nulls .add (.str s) b := fun h => (nulls_text (.inl rfl)).mp h hb
    have hr : resultType .add (OvmVar.str (F := F) s).type b.type = some .str := by
      simp [resultType_text, hb]
    rcases hb with hb | hb
    · obtain ⟨t, rfl⟩ := OvmVar.type_eq_str.mp hb
      exact .value slip_str hn hr
    · obtain ⟨t, rfl⟩ := OvmVar.type_eq_vstr.mp hb
      exact .value slip_str hn hr
  · have h : strAdd (.str s) b = .ok none := by
      rw [strAdd, if_neg (mt .inl hb), if_neg (mt .inr hb)]
      rfl
    rw [h]
    exact .null slip_str ((nulls_text (.inl rfl)).mpr hb)

theorem computes_vstrAdd : Computes .add (.vstr s) b (vstrAdd (.vstr s) b) := by
  by_cases hv : b.type = .vstr
  · obtain ⟨t, rfl⟩ := OvmVar.type_eq_vstr.mp hv
    exact .trap (slip_vstr.mpr ⟨rfl, hv⟩)
  · have hs : ¬ Slip .add (.vstr s) b := fun h => hv (slip_vstr.mp h).2
    by_cases hb : b.type = .str
    · obtain ⟨t, rfl⟩ := OvmVar.type_eq_str.mp hb
      exact .value hs (by simp [nulls_text]) (by simp [resultType_text, ovmStrNew])
    · have h : vstrAdd (.vstr s) b = .ok none := by
        rw [vstrAdd, if_neg hb, if_neg hv]
        rfl
      rw [h]
      exact .null hs ((nulls_text (.inr rfl)).mpr (by simp [hb, hv]))

end Text

section Ctime

variable {op : ArithOp} {v : BitVec 64} {b : OvmVar F}

theorem slip_ctime : Slip op (.ctime v) b ↔
    divides op = true ∧ v = longMin ∧ (b = .ctime (-1#64) ∨ b = .int (-1#64)) := by
  cases b <;> simp [Slip, resultType_ctime, OvmVar.dividend, OvmVar.divisor, OvmVar.type]

theorem nulls_ctime : Nulls op (.ctime v) b ↔
    ¬ (b.type = .ctime ∨ b.type = .int) ∨
      (divides op = true ∧ (b = .ctime 0#64 ∨ b = .int 0#64)) := by
  cases b <;> simp [Nulls, resultType_ctime, DivisorZero, CounterFactor, OvmVar.isZero, OvmVar.type]

theorem computes_ctimeArith (hop : divides op = false) (f : LongOp) :
    Computes op (.ctime v) b (ctimeArith f (.ctime v) b) := by
  have hs : ¬ Slip op (.ctime v) b := by simp [slip_ctime, hop]
  by_cases hc : b.type = .ctime
  · obtain ⟨w, rfl⟩ := OvmVar.type_eq_ctime.mp hc
    exact .value hs (by simp [nulls_ctime, hop]) (by simp [resultType_ctime])
  · by_cases hi : b.type = .int
    · obtain ⟨w, rfl⟩ := OvmVar.type_eq_int.mp hi
      exact .value hs (by simp [nulls_ctime, hop]) (by simp [resultType_ctime])
    · rw [ctimeArith, if_neg hc, if_neg hi]
      exact .null hs (nulls_ctime.mpr (.inl (by simp [hc, hi])))

theorem computes_ctimeDivide (hop : divides op = true) (f : LongOp) :
    Computes op (.ctime v) b (ctimeDivide f (.ctime v) b) := by
  by_cases hc : b.type = .ctime
  · obtain ⟨w, rfl⟩ := OvmVar.type_eq_ctime.mp hc
    by_cases hw : w = 0#64
    · subst hw
      exact .null (by simp [slip_ctime]) (nulls_ctime.mpr (.inr ⟨hop, .inl rfl⟩))
    · have h : ctimeDivide f (.ctime v) (.ctime w : OvmVar F) =
          do return some (.fresh (.ctime (← sdivision f v w))) := by
        simp [ctimeDivide, OvmVar.readCtime, hw, bind, Except.bind, pure, Except.pure]
      rw [h]
      exact computes_sdivision .ctime f hw (by simp [slip_ctime, hop]) (by simp [nulls_ctime, hw])
        fun z => by simp [resultType_ctime]
  · by_cases hi : b.type = .int
    · obtain ⟨w, rfl⟩ := OvmVar.type_eq_int.mp hi
      by_cases hw : w = 0#64
      · subst hw
        exact .null (by simp [slip_ctime]) (nulls_ctime.mpr (.inr ⟨hop, .inr rfl⟩))
      · have h : ctimeDivide f (.ctime v) (.int w : OvmVar F) =
            do return some (.fresh (.ctime (← sdivision f v w))) := by
          simp [ctimeDivide, OvmVar.readCtime, OvmVar.readInt, hw, bind, Except.bind, pure,
            Except.pure]
        rw [h]
        exact computes_sdivision .ctime f hw (by simp [slip_ctime, hop]) (by simp [nulls_ctime, hw])
          fun z => by simp [resultType_ctime]
    · have h : ctimeDivide f (.ctime v) b = .ok none := by
        simp [ctimeDivide, hc, hi, bind, Except.bind, pure, Except.pure]
      rw [h]
      refine .null (fun hs => ?_) (nulls_ctime.mpr (.inl (by simp [hc, hi])))
      rcases (slip_ctime.mp hs).2.2 with rfl | rfl
      · exact hc rfl
      · exact hi rfl

end Ctime

section Timeval

variable {op : ArithOp} {t : Timeval} {b : OvmVar F}

theorem slip_timeval : Slip op (.timeval t) b ↔
    divides op = true ∧ t.sec = longMin ∧ (b = .ctime (-1#64) ∨ b = .int (-1#64)) := by
  cases b <;> simp [Slip, resultType_timeval, OvmVar.dividend, OvmVar.divisor, OvmVar.type]

theorem nulls_timeval : Nulls op (.timeval t) b ↔
    ¬ ((b.type = .timeval ∧ (op = .add ∨ op = .sub)) ∨ b.type = .ctime ∨ b.type = .int) ∨
      (divides op = true ∧ (b = .ctime 0#64 ∨ b = .int 0#64)) := by
  cases b <;>
    simp [Nulls, resultType_timeval, DivisorZero, CounterFactor, OvmVar.isZero, OvmVar.type]

theorem computes_timevalArith (hop : divides op = false)
    (hb : ¬ (b.type = .timeval ∧ (op = .add ∨ op = .sub))) (f : LongOp) :
    Computes op (.timeval t) b (timevalArith f (.timeval t) b) := by
  have hs : ¬ Slip op (.timeval t) b := by simp [slip_timeval, hop]
  by_cases hc : b.type = .ctime
  · obtain ⟨w, rfl⟩ := OvmVar.type_eq_ctime.mp hc
    exact .value hs (by simp [nulls_timeval, hop]) (by simp [resultType_timeval])
  · by_cases hi : b.type = .int
    · obtain ⟨w, rfl⟩ := OvmVar.type_eq_int.mp hi
      exact .value hs (by simp [nulls_timeval, hop]) (by simp [resultType_timeval])
    · rw [timevalArith, if_neg hc, if_neg hi]
      exact .null hs (nulls_timeval.mpr (.inl (by simp [hc, hi, hb])))

theorem computes_timevalPair (hop : op = .add ∨ op = .sub) (g : Timeval → Timeval → Timeval)
    (f : LongOp) : Computes op (.timeval t) b (timevalPair g f (.timeval t) b) := by
  have hdiv : divides op = false := by rcases hop with rfl | rfl <;> rfl
  by_cases hb : b.type = .timeval
  · obtain ⟨u, rfl⟩ := OvmVar.type_eq_timeval.mp hb
    exact .value (by simp [slip_timeval]) (by simp [nulls_timeval, hop, hdiv])
      (by simp [resultType_timeval, hop])
  · rw [timevalPair, if_neg hb]
    exact computes_timevalArith hdiv (by simp [hb]) f

theorem computes_timevalDivide (hop : divides op = true) (f : LongOp) :
    Computes op (.timeval t) b (timevalDivide f (.timeval t) b) := by
  have hpair : ¬ (op = .add ∨ op = .sub) := by
    rintro (rfl | rfl) <;> cases hop
  by_cases hc : b.type = .ctime
  · obtain ⟨w, rfl⟩ := OvmVar.type_eq_ctime.mp hc
    by_cases hw : w = 0#64
    · subst hw
      exact .null (by simp [slip_timeval]) (nulls_timeval.mpr (.inr ⟨hop, .inl rfl⟩))
    · have h : timevalDivide f (.timeval t) (.ctime w : OvmVar F) =
          do return some (.fresh (.timeval { t with sec := ← sdivision f t.sec w })) := by
        simp [timevalDivide, OvmVar.readCtime, OvmVar.readTimeval, hw, bind, Except.bind, pure,
          Except.pure]
      rw [h]
      exact computes_sdivision (fun z => .timeval { t with sec := z }) f hw
        (by simp [slip_timeval, hop]) (by simp [nulls_timeval, hw])
        fun z => by simp [resultType_timeval]
  · by_cases hi : b.type = .int
    · obtain ⟨w, rfl⟩ := OvmVar.type_eq_int.mp hi
      by_cases hw : w = 0#64
      · subst hw
        exact .null (by simp [slip_timeval]) (nulls_timeval.mpr (.inr ⟨hop, .inr rfl⟩))
      · have h : timevalDivide f (.timeval t) (.int w : OvmVar F) =
            do return some (.fresh (.timeval { t with sec := ← sdivision f t.sec w })) := by
          simp [timevalDivide, OvmVar.readInt, OvmVar.readTimeval, hw, bind, Except.bind, pure,
            Except.pure]
        rw [h]
        exact computes_sdivision (fun z => .timeval { t with sec := z }) f hw
          (by simp [slip_timeval, hop]) (by simp [nulls_timeval, hw])
          fun z => by simp [resultType_timeval]
    · have h : timevalDivide f (.timeval t) b = .ok none := by
        simp [timevalDivide, hc, hi, bind, Except.bind, pure, Except.pure]
      rw [h]
      refine .null (fun hs => ?_) (nulls_timeval.mpr (.inl (by simp [hc, hi, hpair])))
      rcases (slip_timeval.mp hs).2.2 with rfl | rfl
      · exact hc rfl
      · exact hi rfl

end Timeval

section Counter

variable {v : BitVec 64} {b : OvmVar F}

theorem slip_counter {op : ArithOp} : ¬ Slip op (.counter v) b := by
  simp [Slip, OvmVar.dividend]

theorem nulls_counter_add : Nulls .add (.counter v) b ↔ ¬ (b.type = .int ∨ b.type = .counter) := by
  simp [Nulls, resultType_counter, DivisorZero, CounterFactor, divides]

theorem nulls_counter_mul : Nulls .mul (.counter v) b ↔ b.isPositive = false := by
  cases b <;>
    simp [Nulls, resultType_counter, DivisorZero, CounterFactor, divides, OvmVar.isPositive,
      OvmVar.type]

theorem computes_counterAdd : Computes .add (.counter v) b (counterAdd (.counter v) b) := by
  by_cases hi : b.type = .int
  · obtain ⟨w, rfl⟩ := OvmVar.type_eq_int.mp hi
    exact .value slip_counter (by simp [nulls_counter_add]) (by simp [resultType_counter])
  · by_cases hc : b.type = .counter
    · obtain ⟨w, rfl⟩ := OvmVar.type_eq_counter.mp hc
      exact .value slip_counter (by simp [nulls_counter_add]) (by simp [resultType_counter])
    · rw [counterAdd, if_neg hi, if_neg hc]
      exact .null slip_counter (nulls_counter_add.mpr (by simp [hi, hc]))

omit [CFloat F] in
/-- The guard of `counter_mul` is on the number. -/
theorem counterMul_eq : counterMul (.counter v) b =
    if b.isPositive = true then
      (do return some (.fresh (.counter (v * (← if b.type = .int then b.readInt
        else b.readCounter)))))
    else .ok none := by
  cases b with
  | int w =>
    by_cases hw : BitVec.slt 0#64 w = true <;>
      simp [counterMul, OvmVar.isPositive, OvmVar.readInt, OvmVar.readCounter, hw, bind,
        Except.bind, pure, Except.pure]
  | counter w =>
    by_cases hw : 0#64 < w <;>
      simp [counterMul, OvmVar.isPositive, OvmVar.readCounter, hw, bind, Except.bind, pure,
        Except.pure]
  | _ => rfl

theorem computes_counterMul : Computes .mul (.counter v) b (counterMul (.counter v) b) := by
  rw [counterMul_eq]
  split
  · next hp =>
    have hn : ¬ Nulls .mul (.counter v) b := by simp [nulls_counter_mul, hp]
    cases b with
    | int w => exact .value slip_counter hn (by simp [resultType_counter])
    | counter w => exact .value slip_counter hn (by simp [resultType_counter])
    | _ => cases hp
  · next hp => exact .null slip_counter (nulls_counter_mul.mpr (by simpa using hp))

end Counter

section Float

variable {op : ArithOp} {v : F} {b : OvmVar F}

theorem slip_float : ¬ Slip op (.float v) b := by
  simp [Slip, OvmVar.dividend]

theorem nulls_float : Nulls op (.float v) b ↔
    ¬ (b.type = .float ∧ op ≠ .mod) ∨ (divides op = true ∧ b.isZero = true) := by
  simp [Nulls, resultType_float, DivisorZero, CounterFactor]

theorem computes_floatArith (hop : divides op = false) (f : F → F → F) :
    Computes op (.float v) b (floatArith f (.float v) b) := by
  have hmod : op ≠ .mod := by
    rintro rfl
    cases hop
  by_cases hb : b.type = .float
  · obtain ⟨w, rfl⟩ := OvmVar.type_eq_float.mp hb
    exact .value slip_float (by simp [nulls_float, hop, hmod]) (by simp [resultType_float, hmod])
  · rw [floatArith, if_pos hb]
    exact .null slip_float (nulls_float.mpr (.inl (by simp [hb])))

theorem computes_floatDiv : Computes .div (.float v) b (floatDiv (.float v) b) := by
  by_cases hb : b.type = .float
  · obtain ⟨w, rfl⟩ := OvmVar.type_eq_float.mp hb
    by_cases hw : CFloat.isZero w = true
    · have h : floatDiv (.float v) (.float w) = .ok none := if_pos hw
      rw [h]
      exact .null slip_float (nulls_float.mpr (.inr ⟨rfl, hw⟩))
    · have h : floatDiv (.float v) (.float w) = .ok (some (.fresh (.float (CFloat.div v w)))) :=
        if_neg hw
      rw [h]
      exact .value slip_float (by simp [nulls_float, OvmVar.isZero, hw])
        (by simp [resultType_float])
  · rw [floatDiv, if_pos hb]
    exact .null slip_float (nulls_float.mpr (.inl (by simp [hb])))

end Float

/-! ## All operations -/

/-- A row without a handler. -/
theorem computes_none {op : ArithOp} {a b : OvmVar F} (hr : resultType op a.type b.type = none)
    (hu : a.type ≠ .uint) (hv : ¬ (op = .add ∧ a.type = .vstr)) : Computes op a b (.ok none) := by
  refine .null (fun hs => ?_) (.inl hr)
  rcases hs with ⟨h, -⟩ | ⟨h, -⟩ | ⟨h₁, h₂, -⟩ | ⟨-, h, -⟩
  · exact hu h
  · exact hu h
  · exact hv ⟨h₁, h₂⟩
  · simp [hr] at h

/-- What the operations do on any two objects. -/
theorem computes_issdlArith (op : ArithOp) (a b : OvmVar F) :
    Computes op a b (issdlArith op a b) := by
  cases a with
  | int v =>
    cases op with
    | add => exact computes_intArith rfl _
    | sub => exact computes_intArith rfl _
    | mul => exact computes_intArith rfl _
    | div => exact computes_intDivide rfl _
    | mod => exact computes_intDivide rfl _
  | uint v =>
    cases op with
    | add => exact computes_uintArith (by decide) _
    | sub => exact computes_uintSub
    | mul => exact computes_uintArith (by decide) _
    | div => exact computes_uintDivide rfl _
    | mod => exact computes_uintDivide rfl _
  | str s =>
    cases op with
    | add => exact computes_strAdd
    | _ => exact computes_none (by simp [resultType_text]) (by simp [OvmVar.type]) (by simp)
  | vstr s =>
    cases op with
    | add => exact computes_vstrAdd
    | _ => exact computes_none (by simp [resultType_text]) (by simp [OvmVar.type]) (by simp)
  | ctime v =>
    cases op with
    | add => exact computes_ctimeArith rfl _
    | sub => exact computes_ctimeArith rfl _
    | mul => exact computes_ctimeArith rfl _
    | div => exact computes_ctimeDivide rfl _
    | mod => exact computes_ctimeDivide rfl _
  | timeval t =>
    cases op with
    | add => exact computes_timevalPair (.inl rfl) _ _
    | sub => exact computes_timevalPair (.inr rfl) _ _
    | mul => exact computes_timevalArith rfl (by simp) _
    | div => exact computes_timevalDivide rfl _
    | mod => exact computes_timevalDivide rfl _
  | counter v =>
    cases op with
    | add => exact computes_counterAdd
    | mul => exact computes_counterMul
    | _ => exact computes_none (by simp [resultType_counter]) (by simp [OvmVar.type]) (by simp)
  | float v =>
    cases op with
    | add => exact computes_floatArith rfl _
    | sub => exact computes_floatArith rfl _
    | mul => exact computes_floatArith rfl _
    | div => exact computes_floatDiv
    | mod => exact computes_none (by simp [resultType_float]) (by simp [OvmVar.type]) (by simp)
  | _ => exact computes_none (by cases op <;> cases b <;> rfl) (by simp [OvmVar.type]) (by simp [OvmVar.type])

/-- The pairs of `Slip` are the ones that end in a trap. -/
theorem issdlArith_traps_iff {op : ArithOp} {a b : OvmVar F} :
    (∃ e, issdlArith op a b = .error e) ↔ Slip op a b := by
  have hc := computes_issdlArith op a b
  constructor
  · rintro ⟨e, he⟩
    rwa [he, computes_error] at hc
  · intro hs
    cases h : issdlArith op a b with
    | error e => exact ⟨e, rfl⟩
    | ok r =>
      rw [h] at hc
      cases hc with
      | null hn => exact (hn hs).elim
      | value hn => exact (hn hs).elim

/-- The operation reads both operands at their types and never divides by zero; it returns `NULL`
where the types have no such operation, the divisor is zero or `other` holds, and a new object of
the right type otherwise. -/
structure ArithSafe (op : ArithOp) (a b : OvmVar F) (other : Prop) : Prop where
  noMisread : issdlArith op a b ≠ .error .misread
  noDivByZero : issdlArith op a b ≠ .error .divByZero
  null : resultType op a.type b.type = none ∨ DivisorZero op b ∨ other →
    issdlArith op a b = .ok none
  value : ∀ t, resultType op a.type b.type = some t → ¬ DivisorZero op b → ¬ other →
    ∃ o, issdlArith op a b = .ok (some o) ∧ o.var.type = t ∧ o.isNotBound = true

/-- A counter times zero has types with an operation, and is `NULL`. -/
theorem not_arithSafe : ¬ ∀ (op : ArithOp) (a b : OvmVar ℚ), ArithSafe op a b False := by
  intro h
  obtain ⟨o, ho, -⟩ := (h .mul (.counter 1) (.int 0)).value .counter rfl
    (by simp [DivisorZero, divides]) id
  have hnull : issdlArith .mul (.counter 1) (.int 0 : OvmVar ℚ) = .ok none := rfl
  rw [hnull] at ho
  cases ho

/-- Where no handler goes wrong the operation is safe, and a counter times a number that is not
positive is `NULL`. -/
theorem issdlArith_safe {op : ArithOp} {a b : OvmVar F} (hs : ¬ Slip op a b) :
    ArithSafe op a b (CounterFactor op a b) := by
  have hc := computes_issdlArith op a b
  generalize hx : issdlArith op a b = x at hc
  cases hc with
  | trap h => exact (hs h).elim
  | null _ hn =>
    refine ⟨by simp [hx], by simp [hx], fun _ => hx, fun t ht hz ho => ?_⟩
    rcases hn with hn | hn | hn
    · simp [hn] at ht
    · exact (hz hn).elim
    · exact (ho hn).elim
  | value _ hn hr =>
    refine ⟨by simp [hx], by simp [hx], fun h => (hn h).elim, fun t ht _ _ => ?_⟩
    refine ⟨_, hx, ?_, Obj.isNotBound_fresh _⟩
    exact Option.some.inj (hr.symm.trans ht)

/-- A timeval less a number of seconds. -/
theorem issdlArith_safe_timeval :
    ArithSafe .sub (.timeval ⟨10, 5⟩) (.int 3 : OvmVar ℚ)
      (CounterFactor .sub (.timeval ⟨10, 5⟩) (.int 3 : OvmVar ℚ)) :=
  issdlArith_safe (by simp [slip_timeval, divides])

end Float

end Orchids

import Mathlib.Data.Rat.Defs
import Mathlib.Algebra.Order.Ring.Rat
import Orchids.Ovm.Builtins
import Orchids.Ovm.Exec

/-!
# The values of the language (`lang.h`)

The objects behind an `ovm_var_t *` and the accessors of `lang.h`, which do not test the type: the
trap `misread` is an accessor on an object of another type.

* `IssdlTag`: the rows of `issdl_types_g`; `OvmVar`: an object with its data.
* `Text`: a string with the memory behind it, which a comparison may come to read.
* `CFloat`: what is used of `float`.
* `Obj`: an object that an operation has made, with its flags.
-/

namespace Orchids

/-- `T_NULL` .. `T_EXTERNAL` -/
inductive IssdlTag where
  | null | fnct | int | bstr | vbstr | str | vstr | array | hash | ctime | ipv4 | timeval | counter
  | regex | sregex | ptr32 | uint | snmpoid | float | double | external
  deriving DecidableEq, Repr

/-- The number of a type in `lang.h`. -/
def IssdlTag.code : IssdlTag → Nat
  | null => 0 | fnct => 1 | int => 2 | bstr => 3 | vbstr => 4 | str => 5 | vstr => 6 | array => 7
  | hash => 8 | ctime => 9 | ipv4 => 10 | timeval => 11 | counter => 12 | regex => 13
  | sregex => 14 | ptr32 => 15 | uint => 16 | snmpoid => 17 | float => 18 | double => 19
  | external => 20

theorem IssdlTag.code_eq_ctorIdx (t : IssdlTag) : t.code = t.ctorIdx := by cases t <;> rfl

theorem IssdlTag.code_injective : Function.Injective IssdlTag.code := by
  intro s t h
  rw [code_eq_ctorIdx, code_eq_ctorIdx] at h
  rw [← IssdlTag.ofNat_ctorIdx s, h, IssdlTag.ofNat_ctorIdx]

/-- The bytes of a string, and the memory behind them. -/
structure Text where
  bytes : List UInt8
  behind : Nat → UInt8

/-- The first `n` bytes from the start of the string, be they its own or not. -/
def Text.mem (t : Text) (n : Nat) : List UInt8 :=
  t.bytes.take n ++ (List.range (n - t.bytes.length)).map t.behind

/-- `struct timeval` -/
structure Timeval where
  sec : BitVec 64
  usec : BitVec 64
  deriving DecidableEq, Repr

/-- A compiled pattern: its text, and what `regexec` says of a string. -/
structure Regex where
  regexStr : List UInt8
  exec : List UInt8 → RegexResult

/-- A compiled pattern with substrings: its text, and the ones that it finds in a string. -/
structure SRegex where
  regexStr : List UInt8
  splits : List UInt8 → Option (List Text)

/-- The operations of `float`. -/
class CFloat (F : Type) where
  add : F → F → F
  sub : F → F → F
  mul : F → F → F
  div : F → F → F
  /-- `x > 0.0`, `x < 0.0` and `x == 0.0` -/
  isPos : F → Bool
  isNeg : F → Bool
  isZero : F → Bool
  /-- Both differences are rounded alike, and both are not a number if one is. -/
  isPos_sub : ∀ x y, isPos (sub x y) = isNeg (sub y x)

/-- Numbers that need no rounding. -/
instance : CFloat ℚ where
  add := (· + ·)
  sub := (· - ·)
  mul := (· * ·)
  div := (· / ·)
  isPos x := decide (0 < x)
  isNeg x := decide (x < 0)
  isZero x := decide (x = 0)
  isPos_sub x y := by simp [sub_pos, sub_neg]

/-- The objects behind an `ovm_var_t *`. -/
inductive OvmVar (F : Type) where
  | null (errNo : BitVec 32)
  | fnct
  | int (val : BitVec 64)
  | bstr (t : Text)
  | vbstr (t : Text)
  | str (t : Text)
  | vstr (t : Text)
  | array
  | hash
  | ctime (time : BitVec 64)
  | ipv4 (addr : BitVec 32)
  | timeval (time : Timeval)
  | counter (val : BitVec 64)
  | regex (r : Regex)
  | sregex (r : SRegex)
  | ptr32 (addr : BitVec 64)
  | uint (val : BitVec 64)
  | snmpoid
  | float (val : F)
  | double
  | external

/-- Why an operation on objects does not return. -/
inductive Trap where
  /-- An accessor on an object of another type. -/
  | misread
  | divByZero
  /-- The quotient `LONG_MIN / -1`, which the division traps on. -/
  | overflow
  deriving DecidableEq, Repr

namespace OvmVar

variable {F : Type}

/-- `TYPE(x)` -/
def type : OvmVar F → IssdlTag
  | null _ => .null | fnct => .fnct | int _ => .int | bstr _ => .bstr | vbstr _ => .vbstr
  | str _ => .str | vstr _ => .vstr | array => .array | hash => .hash | ctime _ => .ctime
  | ipv4 _ => .ipv4 | timeval _ => .timeval | counter _ => .counter | regex _ => .regex
  | sregex _ => .sregex | ptr32 _ => .ptr32 | uint _ => .uint | snmpoid => .snmpoid
  | float _ => .float | double => .double | external => .external

@[simp] theorem type_int (v : BitVec 64) : (int v : OvmVar F).type = .int := rfl
@[simp] theorem type_uint (v : BitVec 64) : (uint v : OvmVar F).type = .uint := rfl
@[simp] theorem type_str (t : Text) : (str t : OvmVar F).type = .str := rfl
@[simp] theorem type_vstr (t : Text) : (vstr t : OvmVar F).type = .vstr := rfl
@[simp] theorem type_ctime (v : BitVec 64) : (ctime v : OvmVar F).type = .ctime := rfl
@[simp] theorem type_ipv4 (v : BitVec 32) : (ipv4 v : OvmVar F).type = .ipv4 := rfl
@[simp] theorem type_timeval (t : Timeval) : (timeval t : OvmVar F).type = .timeval := rfl
@[simp] theorem type_counter (v : BitVec 64) : (counter v : OvmVar F).type = .counter := rfl
@[simp] theorem type_float (v : F) : (float v).type = .float := rfl

section

variable {x : OvmVar F}

theorem type_eq_int : x.type = .int ↔ ∃ v, x = int v := by
  refine ⟨fun h => ?_, fun ⟨v, h⟩ => h ▸ rfl⟩
  cases x with
  | int v => exact ⟨v, rfl⟩
  | _ => cases h

theorem type_eq_uint : x.type = .uint ↔ ∃ v, x = uint v := by
  refine ⟨fun h => ?_, fun ⟨v, h⟩ => h ▸ rfl⟩
  cases x with
  | uint v => exact ⟨v, rfl⟩
  | _ => cases h

theorem type_eq_str : x.type = .str ↔ ∃ t, x = str t := by
  refine ⟨fun h => ?_, fun ⟨t, h⟩ => h ▸ rfl⟩
  cases x with
  | str t => exact ⟨t, rfl⟩
  | _ => cases h

theorem type_eq_vstr : x.type = .vstr ↔ ∃ t, x = vstr t := by
  refine ⟨fun h => ?_, fun ⟨t, h⟩ => h ▸ rfl⟩
  cases x with
  | vstr t => exact ⟨t, rfl⟩
  | _ => cases h

theorem type_eq_ctime : x.type = .ctime ↔ ∃ v, x = ctime v := by
  refine ⟨fun h => ?_, fun ⟨v, h⟩ => h ▸ rfl⟩
  cases x with
  | ctime v => exact ⟨v, rfl⟩
  | _ => cases h

theorem type_eq_ipv4 : x.type = .ipv4 ↔ ∃ v, x = ipv4 v := by
  refine ⟨fun h => ?_, fun ⟨v, h⟩ => h ▸ rfl⟩
  cases x with
  | ipv4 v => exact ⟨v, rfl⟩
  | _ => cases h

theorem type_eq_timeval : x.type = .timeval ↔ ∃ t, x = timeval t := by
  refine ⟨fun h => ?_, fun ⟨t, h⟩ => h ▸ rfl⟩
  cases x with
  | timeval t => exact ⟨t, rfl⟩
  | _ => cases h

theorem type_eq_counter : x.type = .counter ↔ ∃ v, x = counter v := by
  refine ⟨fun h => ?_, fun ⟨v, h⟩ => h ▸ rfl⟩
  cases x with
  | counter v => exact ⟨v, rfl⟩
  | _ => cases h

theorem type_eq_float : x.type = .float ↔ ∃ v, x = float v := by
  refine ⟨fun h => ?_, fun ⟨v, h⟩ => h ▸ rfl⟩
  cases x with
  | float v => exact ⟨v, rfl⟩
  | _ => cases h

end

/-- `INT(x)` -/
def readInt : OvmVar F → Except Trap (BitVec 64)
  | int v => .ok v
  | _ => .error .misread

/-- `UINT(x)` -/
def readUint : OvmVar F → Except Trap (BitVec 64)
  | uint v => .ok v
  | _ => .error .misread

/-- `STR(x)` and `STRLEN(x)` -/
def readStr : OvmVar F → Except Trap Text
  | str t => .ok t
  | _ => .error .misread

/-- `VSTR(x)` and `VSTRLEN(x)` -/
def readVstr : OvmVar F → Except Trap Text
  | vstr t => .ok t
  | _ => .error .misread

/-- `CTIME(x)` -/
def readCtime : OvmVar F → Except Trap (BitVec 64)
  | ctime v => .ok v
  | _ => .error .misread

/-- `TIMEVAL(x)` -/
def readTimeval : OvmVar F → Except Trap Timeval
  | timeval t => .ok t
  | _ => .error .misread

/-- `COUNTER(x)` -/
def readCounter : OvmVar F → Except Trap (BitVec 64)
  | counter v => .ok v
  | _ => .error .misread

/-- `FLOAT(x)` -/
def readFloat : OvmVar F → Except Trap F
  | float v => .ok v
  | _ => .error .misread

/-- `issdl_test`: the `long` of an integer is returned as an `int`. -/
def test : OvmVar F → Bool
  | null _ => false
  | int v => v.setWidth 32 != 0
  | uint v => v.setWidth 32 != 0
  | _ => true

/-- `issdl_get_data_len`: 0 where a type has no such function. -/
def dataLen : OvmVar F → Nat
  | int _ | ctime _ | counter _ | uint _ | ptr32 _ | external => 8
  | ipv4 _ | float _ => 4
  | timeval _ => 16
  | bstr t | vbstr t | str t | vstr t => t.bytes.length
  | regex r => r.regexStr.length
  | sregex r => r.regexStr.length
  | null _ | fnct | array | hash | snmpoid | double => 0

end OvmVar

instance {F : Type} : IssdlType (OvmVar F) where
  type v := v.type.code
  dataLen := OvmVar.dataLen

instance {F : Type} : IssdlInt (OvmVar F) where
  int
    | .int v => some v
    | _ => none

/-! ## New objects -/

/-- `TYPE_MONO`, `TYPE_CANFREE` and `TYPE_NOTBOUND` -/
def typeMono : BitVec 32 := 1
def typeCanfree : BitVec 32 := 4
def typeNotbound : BitVec 32 := 8

/-- An object that an operation has made. -/
structure Obj (F : Type) where
  var : OvmVar F
  flags : BitVec 32

/-- The flags that `ovm_int_new` .. `ovm_float_new` give an object. -/
def newFlags : IssdlTag → BitVec 32
  | .counter => typeMono
  | _ => 0

namespace Obj

variable {F : Type}

/-- A new object after `FLAGS(res) |= TYPE_CANFREE | TYPE_NOTBOUND`. -/
def fresh (v : OvmVar F) : Obj F := ⟨v, newFlags v.type ||| typeCanfree ||| typeNotbound⟩

/-- `IS_NOT_BOUND(x)` -/
def isNotBound (o : Obj F) : Bool :=
  o.flags &&& (typeCanfree ||| typeNotbound) == (typeCanfree ||| typeNotbound)

@[simp] theorem isNotBound_fresh (v : OvmVar F) : (fresh v).isNotBound = true := by
  have h : ∀ t, (newFlags t ||| typeCanfree ||| typeNotbound) &&& (typeCanfree ||| typeNotbound) =
      (typeCanfree ||| typeNotbound) := by
    intro t
    cases t <;> decide
  simp [isNotBound, fresh, h]

@[simp] theorem var_fresh (v : OvmVar F) : (fresh v).var = v := rfl

end Obj

end Orchids

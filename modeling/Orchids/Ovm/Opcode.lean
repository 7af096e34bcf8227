import Mathlib.Algebra.Group.Nat.Defs

/-!
# Opcodes of the Orchids virtual machine

The numbering of `ovm.h`. A byte code word is an `unsigned long`: a `Nat` here, with the wrap at
`wordSize` written out where it can matter (the offsets of the jumps).
-/

namespace Orchids

/-- `2 ^ 64`: the number of values of a byte code word. -/
def wordSize : Nat := 2 ^ 64

/-- `OPCODE_NUM`: words from this one on are refused as unknown. -/
def opcodeNum : Nat := 40

/-- The arithmetic opcodes. -/
inductive ArithOp where
  | add | sub | mul | div | mod
  deriving DecidableEq, Repr

/-- The comparison opcodes. -/
inductive CmpOp where
  | ceq | cneq | crm | cnrm | clt | cgt | cle | cge
  deriving DecidableEq, Repr

/-- The opcodes that have a handler in `ops_g` (`OP_END` ends the loop and has none). -/
inductive Opcode where
  | nop | push | pop | pushstatic | pushfield | trash | call
  | arith (op : ArithOp)
  | inc | dec | and | or | xor | neg | not
  | jmp | popcjmp
  | cmp (op : CmpOp)
  | regsplit | cesv | past
  deriving DecidableEq, Repr

namespace Opcode

/-- `OP_END`. -/
def opEnd : Nat := 0

/-- The word of an opcode (the `OP_*` macros). -/
def code : Opcode → Nat
  | nop => 1 | push => 2 | pop => 3 | pushstatic => 4 | pushfield => 5 | trash => 6 | call => 7
  | arith .add => 8 | arith .sub => 9 | arith .mul => 10 | arith .div => 11 | arith .mod => 12
  | inc => 13 | dec => 14 | and => 15 | or => 16 | xor => 17 | neg => 18 | not => 19
  | jmp => 20 | popcjmp => 21
  | cmp .ceq => 22 | cmp .cneq => 23 | cmp .crm => 24 | cmp .cnrm => 25
  | cmp .clt => 26 | cmp .cgt => 27 | cmp .cle => 28 | cmp .cge => 29
  | regsplit => 30 | cesv => 31 | past => 32

/-- The handler that `ops_g` has for a word: the words from 33 to `OPCODE_NUM` have none. -/
def ofWord : Nat → Option Opcode
  | 1 => some nop | 2 => some push | 3 => some pop | 4 => some pushstatic
  | 5 => some pushfield | 6 => some trash | 7 => some call
  | 8 => some (arith .add) | 9 => some (arith .sub) | 10 => some (arith .mul)
  | 11 => some (arith .div) | 12 => some (arith .mod)
  | 13 => some inc | 14 => some dec | 15 => some and | 16 => some or | 17 => some xor
  | 18 => some neg | 19 => some not | 20 => some jmp | 21 => some popcjmp
  | 22 => some (cmp .ceq) | 23 => some (cmp .cneq) | 24 => some (cmp .crm)
  | 25 => some (cmp .cnrm) | 26 => some (cmp .clt) | 27 => some (cmp .cgt)
  | 28 => some (cmp .cle) | 29 => some (cmp .cge)
  | 30 => some regsplit | 31 => some cesv | 32 => some past
  | _ => none

/-- The handlers that do something: the others print that they are not implemented and return
without moving the instruction pointer. -/
def implemented : Opcode → Bool
  | inc | dec | and | or | xor | neg | not | cesv | past => false
  | _ => true

/-- The opcodes with an operand word. -/
def hasOperand : Opcode → Bool
  | push | pop | pushstatic | pushfield | call | jmp | popcjmp => true
  | _ => false

@[simp] theorem ofWord_code (op : Opcode) : ofWord op.code = some op := by
  cases op with
  | arith op => cases op <;> rfl
  | cmp op => cases op <;> rfl
  | _ => rfl

theorem eq_code_of_ofWord {w : Nat} {op : Opcode} (h : ofWord w = some op) : w = op.code := by
  unfold ofWord at h
  split at h <;> cases h <;> rfl

theorem code_ne_opEnd (op : Opcode) : op.code ≠ opEnd := by
  cases op with
  | arith op => cases op <;> decide
  | cmp op => cases op <;> decide
  | _ => decide

theorem code_lt_opcodeNum (op : Opcode) : op.code < opcodeNum := by
  cases op with
  | arith op => cases op <;> decide
  | cmp op => cases op <;> decide
  | _ => decide

end Opcode

end Orchids

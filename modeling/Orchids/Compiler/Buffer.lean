import Mathlib.Logic.Function.Basic
import Orchids.Ovm.Opcode

/-!
# The byte code buffer (`bytecode_buffer_t`)

The tables that the code generator writes: the byte code, the used fields, the label positions
and the jumps to resolve. A write past the end of a table is an error of its own (`Fault`); the
source checks only some of them, and then stops with "Byte code buffer full" (`bufferFull`).
-/

namespace Orchids

/-- `BYTECODE_BUF_SZ` -/
def bytecodeBufSz : Nat := 1024

/-- `MAX_FIELDS` -/
def maxFields : Nat := 16

/-- `LABEL_GROW` -/
def labelGrow : Nat := 256

/-- Why the code generator stops: its own check, or the table it would run past. -/
inductive Fault where
  | bufferFull | bytecode | usedFields | labels
  deriving DecidableEq, Repr

/-- `bytecode_buffer_t` with its `labels_t`. `pos` is the length of `bytecode`, `toset_nb` the
length of `toset`; the label table has zeros where no label is set. -/
structure Buffer where
  bytecode : List Nat
  usedFields : List Nat
  havePushfield : Bool
  labelsNb : Nat
  labels : Nat → Nat
  labelsSz : Nat
  toset : List Nat

namespace Buffer

/-- The buffer before the first word, after `INIT_LABELS`: label 0 is taken. -/
def init : Buffer :=
  { bytecode := [], usedFields := [], havePushfield := false, labelsNb := 1, labels := fun _ => 0,
    labelsSz := labelGrow, toset := [] }

/-- `code->pos` -/
def pos (b : Buffer) : Nat := b.bytecode.length

end Buffer

/-- A piece of the code generator. -/
abbrev Gen := Buffer → Except Fault Buffer

/-- `code->bytecode[ code->pos++ ] = w` -/
def emit (w : Nat) : Gen := fun b =>
  if b.pos < bytecodeBufSz then .ok { b with bytecode := b.bytecode ++ [w] } else .error .bytecode

/-- The words of `ws`, one after the other. -/
def emits : List Nat → Gen
  | [], b => pure b
  | w :: ws, b => do
    let b ← emit w b
    emits ws b

/-- `EXIT_IF_BYTECODE_BUFF_FULL(x)`: the difference is unsigned, so that a large `x` passes. -/
def exitIfBytecodeBuffFull (x : Nat) : Gen := fun b =>
  if x ≤ bytecodeBufSz ∧ bytecodeBufSz - x ≤ b.pos then .error .bufferFull else .ok b

/-- `code->used_fields[ code->used_fields_pos++ ] = f` -/
def useField (f : Nat) : Gen := fun b =>
  if b.usedFields.length < maxFields then
    .ok { b with usedFields := b.usedFields ++ [f], havePushfield := true }
  else .error .usedFields

/-- `n` times `NEW_LABEL`: the labels are the `n` numbers from `labelsNb` on. -/
def newLabels (n : Nat) (b : Buffer) : Buffer := { b with labelsNb := b.labelsNb + n }

/-- `SET_LABEL`: the table grows by `LABEL_GROW` entries, at most once. -/
def setLabel (label : Nat) : Gen := fun b =>
  let sz := if b.labelsSz ≤ b.labelsNb then b.labelsSz + labelGrow else b.labelsSz
  if label < sz then
    .ok { b with labels := Function.update b.labels label b.pos, labelsSz := sz }
  else .error .labels

/-- `PUT_LABEL`: the jump table grows when it is full, so its write is in bounds. -/
def putLabel (label : Nat) : Gen := fun b => emit label { b with toset := b.toset ++ [b.pos] }

/-- The word that `compile_set_labels` writes at `codePos` for a label at `lblPos`: a difference
of `int`s, stored as an `unsigned long`. -/
def jumpOffset (lblPos codePos : Nat) : Nat :=
  (((lblPos : Int) - codePos - 1) % (wordSize : Int)).toNat

/-- `compile_set_labels`: the label at each place of the jump table is replaced by its offset. -/
def compileSetLabels (b : Buffer) : List Nat :=
  b.toset.foldl (fun code p => code.set p (jumpOffset (b.labels (code.getD p 0)) p)) b.bytecode

theorem jumpOffset_of_lt {l p : Nat} (h : p < l) (hl : l < wordSize) :
    jumpOffset l p = l - p - 1 := by
  unfold jumpOffset
  have h1 : ((l : Int) - p - 1) % (wordSize : Int) = (l : Int) - p - 1 :=
    Int.emod_eq_of_lt (by omega) (by omega)
  rw [h1]
  omega

end Orchids

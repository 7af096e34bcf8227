import Mathlib.Data.List.Basic
import Mathlib.Tactic.Common

/-!
# Reflected checksums

A register into which the bits of a message are shifted, the lowest bit of a byte first.

* `shiftIn`, `shiftAll`: one bit, and all bits, with a polynomial; `reflected`: the checksum.
* `shiftIn_xor`, `shiftAll_xor`: they are linear in the register and in the bits.
* `shiftAll_byte`: a byte is one entry of a table, for the low byte of the register, and a shift.
-/

namespace Crc

variable {w : Nat} (p : BitVec w)

/-- One bit of the message. -/
def shiftIn (r : BitVec w) (b : Bool) : BitVec w :=
  if (r.getLsbD 0 ^^ b) then (r >>> 1) ^^^ p else r >>> 1

/-- Bits of the message, one after the other. -/
def shiftAll (r : BitVec w) (bs : List Bool) : BitVec w := bs.foldl (shiftIn p) r

/-- The bits of a byte. -/
def bits (c : BitVec 8) : List Bool := (List.range 8).map c.getLsbD

/-- The checksum: the register is set before the message and complemented after it. -/
def reflected (message : List UInt8) : BitVec w :=
  ~~~ shiftAll p (BitVec.allOnes w) (message.flatMap fun c => bits c.toBitVec)

/-- What the bits of a byte in the register become in eight steps. -/
def entry (i : BitVec 8) : BitVec w := shiftAll p (i.setWidth w) (List.replicate 8 false)

variable {p} {x y r : BitVec w} {bs cs : List Bool} {n : Nat}

theorem shiftAll_append : shiftAll p r (bs ++ cs) = shiftAll p (shiftAll p r bs) cs :=
  List.foldl_append

/-! ## Linearity -/

theorem shiftIn_xor (b c : Bool) :
    shiftIn p (x ^^^ y) (b ^^ c) = shiftIn p x b ^^^ shiftIn p y c := by
  have hbit : ((x ^^^ y).getLsbD 0 ^^ (b ^^ c)) = ((x.getLsbD 0 ^^ b) ^^ (y.getLsbD 0 ^^ c)) := by
    rw [BitVec.getLsbD_xor]
    cases x.getLsbD 0 <;> cases y.getLsbD 0 <;> cases b <;> cases c <;> rfl
  unfold shiftIn
  rw [hbit, BitVec.ushiftRight_xor_distrib]
  cases x.getLsbD 0 ^^ b <;> cases y.getLsbD 0 ^^ c
  · rfl
  · exact BitVec.xor_assoc ..
  · simp only [Bool.xor_false, if_true, Bool.false_eq_true, if_false, BitVec.xor_assoc,
      BitVec.xor_comm p]
  · simp only [bne_self_eq_false, Bool.false_eq_true, if_false, if_true]
    rw [BitVec.xor_assoc, ← BitVec.xor_assoc p, BitVec.xor_comm p, BitVec.xor_assoc (y >>> 1),
      BitVec.xor_self, BitVec.xor_zero]

theorem shiftAll_xor (h : bs.length = cs.length) :
    shiftAll p (x ^^^ y) (List.zipWith xor bs cs) = shiftAll p x bs ^^^ shiftAll p y cs := by
  induction bs generalizing x y cs with
  | nil =>
    obtain rfl := List.length_eq_zero_iff.mp h.symm
    rfl
  | cons b bs ih =>
    cases cs with
    | nil => cases h
    | cons c cs =>
      simp only [shiftAll, List.zipWith_cons_cons, List.foldl_cons, shiftIn_xor]
      exact ih (Nat.succ.inj h)

/-! ## Zeros -/

/-- Where no bit is set, the register is only shifted. -/
theorem shiftIn_false (h : x.getLsbD 0 = false) : shiftIn p x false = x >>> 1 := by
  rw [shiftIn, h]
  rfl

theorem shiftAll_replicate (h : ∀ i < n, x.getLsbD i = false) :
    shiftAll p x (List.replicate n false) = x >>> n := by
  induction n generalizing x with
  | zero => exact (BitVec.ushiftRight_zero x).symm
  | succ n ih =>
    have hnext : ∀ i < n, (x >>> 1).getLsbD i = false := by
      intro i hi
      rw [BitVec.getLsbD_ushiftRight, Nat.add_comm]
      exact h (i + 1) (Nat.succ_lt_succ hi)
    rw [List.replicate_succ, shiftAll, List.foldl_cons, shiftIn_false (h 0 (Nat.succ_pos n))]
    rw [show List.foldl (shiftIn p) (x >>> 1) (List.replicate n false) = _ from ih hnext,
      ← BitVec.shiftRight_add, Nat.add_comm]

/-! ## A byte -/

/-- A register with the bits of the message has nothing left after them. -/
theorem shiftAll_self (hx : ∀ i, x.getLsbD i = bs.getD i false) : shiftAll p x bs = 0#w := by
  induction bs generalizing x with
  | nil =>
    refine BitVec.eq_of_getLsbD_eq fun i _ => ?_
    rw [BitVec.getLsbD_zero]
    exact hx i
  | cons b bs ih =>
    have hstep : shiftIn p x b = x >>> 1 := by
      rw [shiftIn, hx 0, List.getD_cons_zero, Bool.xor_self]
      rfl
    rw [shiftAll, List.foldl_cons, hstep]
    refine ih fun i => ?_
    rw [BitVec.getLsbD_ushiftRight, Nat.add_comm, hx, List.getD_cons_succ]

/-- The bits of the message may be put into the register before. -/
theorem shiftAll_eq (hx : ∀ i, x.getLsbD i = bs.getD i false) :
    shiftAll p r bs = shiftAll p (r ^^^ x) (List.replicate bs.length false) := by
  have hzip : List.zipWith xor (List.replicate bs.length false) bs = bs := by
    clear hx
    induction bs with
    | nil => rfl
    | cons b bs ih =>
      rw [List.length_cons, List.replicate_succ, List.zipWith_cons_cons, ih, Bool.false_xor]
  have h := @shiftAll_xor w p (r ^^^ x) x (List.replicate bs.length false) bs (by simp)
  rwa [hzip, shiftAll_self hx, BitVec.xor_assoc, BitVec.xor_self, BitVec.xor_zero,
    BitVec.xor_zero] at h

theorem getLsbD_setWidth_bits (hw : 8 ≤ w) (c : BitVec 8) (i : Nat) :
    (c.setWidth w).getLsbD i = (bits c).getD i false := by
  rw [BitVec.getLsbD_setWidth, bits]
  by_cases hi : i < 8
  · simp [hi, show i < w by omega]
  · simp [hi, BitVec.getLsbD_of_ge c i (by omega)]

/-- One entry of the table. -/
theorem shiftAll_byte (hw : 8 ≤ w) (c : BitVec 8) : shiftAll p r (bits c) =
    entry p ((r ^^^ c.setWidth w).setWidth 8) ^^^ (r >>> 8) := by
  have hlen : (bits c).length = 8 := rfl
  rw [shiftAll_eq (getLsbD_setWidth_bits hw c), hlen]
  -- the low byte is what the table is for, and the rest is shifted
  let low : BitVec w := ((r ^^^ c.setWidth w).setWidth 8).setWidth w
  have hlow : ∀ i < 8, (r ^^^ c.setWidth w ^^^ low).getLsbD i = false := by
    intro i hi
    simp [low, hi, show i < w by omega]
  have hrest : (r ^^^ c.setWidth w ^^^ low) >>> 8 = r >>> 8 := by
    refine BitVec.eq_of_getLsbD_eq fun i _ => ?_
    simp [low]
  have h := @shiftAll_xor w p low (r ^^^ c.setWidth w ^^^ low) (List.replicate 8 false)
    (List.replicate 8 false) rfl
  rw [shiftAll_replicate hlow, hrest] at h
  rw [entry, ← h, BitVec.xor_comm low, BitVec.xor_assoc, BitVec.xor_self, BitVec.xor_zero]
  rfl

end Crc

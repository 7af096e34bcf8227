import Orchids.Api.Dissectors

/-!
# Pointers into strings (`string_util.c`)

A `char *` into a string is the rest of the string, with the memory behind it. What dissectors read
past the end is what happens to be there.
-/

namespace Orchids

/-- The bytes of a literal. -/
def ascii (s : String) : CStr := s.toList.map fun c => UInt8.ofNat c.toNat

namespace Text

/-- `p[i]` -/
def byteAt (p : Text) (i : Nat) : UInt8 := p.bytes[i]?.getD (p.behind (i - p.bytes.length))

/-- `p + n` -/
def advance (p : Text) (n : Nat) : Text :=
  { bytes := p.bytes.drop n, behind := fun i => p.behind (i + (n - p.bytes.length)) }

/-- The string of length `n` at `p`. -/
def slice (p : Text) (n : Nat) : Text := { bytes := p.mem n, behind := fun i => p.byteAt (n + i) }

/-- `strncmp(s, p, strlen(s)) == 0` -/
def startsWith (p : Text) (s : CStr) : Bool := p.mem s.length == s

end Text

/-- A `size_t` that is stored in an `int`. -/
def toInt (n : Nat) : Int := (BitVec.ofNat 32 n).toInt

/-- An `int` as a `size_t`. -/
def toSize (n : Int) : Nat := (BitVec.ofInt 64 n).toNat

theorem toInt_natCast {n : Nat} (h : n < 2 ^ 31) : toInt n = n := by
  rw [toInt, BitVec.toInt_eq_toNat_cond, BitVec.toNat_ofNat]
  omega

theorem toSize_of_nonneg {n : Int} (h : 0 ≤ n) (hlt : n < 2 ^ 31) : toSize n = n.toNat := by
  obtain ⟨m, rfl⟩ := Int.eq_ofNat_of_zero_le h
  rw [toSize, BitVec.ofInt_natCast, BitVec.toNat_ofNat, Int.toNat_natCast]
  omega

/-- `n -= k`, of an `int` and a `size_t`. -/
def subSize (n : Int) (k : Nat) : Int := (BitVec.ofInt 32 (n - k)).toInt

/-- The loop of `get_next_int`, for `k` digits more. -/
def nextDigits (istr : Text) : Nat → Nat → BitVec 64 → Nat × BitVec 64
  | 0, sz, i => (sz, i)
  | k + 1, sz, i =>
    let c := istr.byteAt sz
    if isDigit c then nextDigits istr k (sz + 1) (i * 10 + BitVec.ofNat 64 (c.toNat - 48))
    else (sz, i)

/-- `get_next_int`: the number of digits, and the `long`. -/
def getNextInt (istr : Text) (n : Nat) : Nat × BitVec 64 := nextDigits istr (n + 1) 0 0

/-- The loop of `my_strspn`, for `k` bytes more. -/
def spanUntil (pos : Text) (eot : CStr) : Nat → Nat → Nat
  | 0, tokenSize => tokenSize
  | k + 1, tokenSize =>
    if pos.byteAt tokenSize ∈ eot then tokenSize else spanUntil pos eot k (tokenSize + 1)

/-- `my_strspn`: the length up to one of the bytes, or `n`. -/
def myStrspn (pos : Text) (eot : CStr) (n : Nat) : Nat := spanUntil pos eot n 0

end Orchids

import Orchids.Util.Reading

/-!
# Scans of strings (`string_util.c`)

* `scanEnd`, `scanReads`: where a loop over indices ends, and which it looks at.
* `getNextToken`, `getNextIntReads`: the tokens of a text.
* `inRange_iff`: the scans stay in a buffer if and only if what they look for is in it.
-/

namespace Orchids

/-! ## Loops over indices -/

section

variable (go : Nat → Bool)

/-- `while (go(i)) i++`, in at most `k` turns. -/
def scanEnd : Nat → Nat → Nat
  | 0, i => i
  | k + 1, i => if go i then scanEnd k (i + 1) else i

/-- The indices that the loop looks at. -/
def scanReads : Nat → Nat → List Nat
  | 0, _ => []
  | k + 1, i => i :: if go i then scanReads k (i + 1) else []

variable {go}

theorem scanEnd_spec (k i : Nat) : i ≤ scanEnd go k i ∧ scanEnd go k i ≤ i + k ∧
    (∀ j, i ≤ j → j < scanEnd go k i → go j = true) ∧
    (scanEnd go k i < i + k → go (scanEnd go k i) = false) := by
  induction k generalizing i with
  | zero =>
    refine ⟨Nat.le_refl _, Nat.le_refl _, fun j hj hlt => ?_, fun h => ?_⟩
    · exact absurd hlt (Nat.not_lt.mpr hj)
    · exact absurd h (Nat.lt_irrefl _)
  | succ k ih =>
    rw [scanEnd]
    split
    · rename_i hgo
      obtain ⟨hle, hmax, hall, hend⟩ := ih (i + 1)
      refine ⟨by omega, by omega, fun j hj hlt => ?_, fun h => hend (by omega)⟩
      rcases Nat.eq_or_lt_of_le hj with rfl | hj
      · exact hgo
      · exact hall j hj hlt
    · rename_i hgo
      refine ⟨Nat.le_refl _, by omega, fun j hj hlt => ?_, fun _ => Bool.not_eq_true _ ▸ hgo⟩
      exact absurd hlt (Nat.not_lt.mpr hj)

/-- An index is looked at if the loop goes on at all before it. -/
theorem mem_scanReads (k i n : Nat) :
    n ∈ scanReads go k i ↔ i ≤ n ∧ n < i + k ∧ ∀ j, i ≤ j → j < n → go j = true := by
  induction k generalizing i with
  | zero =>
    refine iff_of_false (nofun) fun ⟨hle, hlt, _⟩ => ?_
    exact absurd hlt (Nat.not_lt.mpr hle)
  | succ k ih =>
    rw [scanReads, List.mem_cons]
    constructor
    · rintro (rfl | hmem)
      · exact ⟨Nat.le_refl _, by omega, fun j hj hlt => absurd hlt (Nat.not_lt.mpr hj)⟩
      · split at hmem
        · rename_i hgo
          obtain ⟨hle, hlt, hall⟩ := (ih (i + 1)).mp hmem
          refine ⟨by omega, by omega, fun j hj hjn => ?_⟩
          rcases Nat.eq_or_lt_of_le hj with rfl | hj
          · exact hgo
          · exact hall j hj hjn
        · cases hmem
    · rintro ⟨hle, hlt, hall⟩
      rcases Nat.eq_or_lt_of_le hle with rfl | hle
      · exact .inl rfl
      · rw [if_pos (hall i (Nat.le_refl _) hle)]
        exact .inr ((ih (i + 1)).mpr ⟨hle, by omega, fun j hj => hall j (by omega)⟩)

end

/-! ## Tokens -/

/-- The byte at an index is not the delimiter: the `int` becomes a `char`. -/
def notDelimiter (pos : Text) (c : BitVec 32) (i : Nat) : Bool :=
  (pos.byteAt i).toBitVec != c.setWidth 8

/-- The byte at an index is a digit. -/
def digitAt (istr : Text) (i : Nat) : Bool := isDigit (istr.byteAt i)

/-- `get_next_token`: the loop goes on while `token_size <= n`. -/
def getNextToken (pos : Text) (c : BitVec 32) (n : Nat) : Nat :=
  scanEnd (notDelimiter pos c) (n + 1) 0

/-- The indices that `get_next_token` reads: the size is tested before the byte. -/
def getNextTokenReads (pos : Text) (c : BitVec 32) (n : Nat) : List Nat :=
  scanReads (notDelimiter pos c) (n + 1) 0

/-- The indices that `get_next_int` reads: the byte is tested before the size. -/
def getNextIntReads (istr : Text) (n : Nat) : List Nat := scanReads (digitAt istr) (n + 2) 0

theorem nextDigits_fst (istr : Text) (k sz : Nat) (i : BitVec 64) :
    (nextDigits istr k sz i).1 = scanEnd (digitAt istr) k sz := by
  induction k generalizing sz i with
  | zero => rfl
  | succ k ih =>
    rw [nextDigits, scanEnd]
    by_cases hdigit : isDigit (istr.byteAt sz)
    · rw [if_pos hdigit, ih]
      exact (if_pos hdigit).symm
    · rw [if_neg hdigit]
      exact (if_neg hdigit).symm

/-- The scan of a text from an offset on stays in it: it reads no byte behind the text, and it ends
where the text does, or at a byte that stops it. -/
structure InRange (t : Text) (off : Nat) (reads : List Nat) (len : Nat) (stops : UInt8 → Prop) :
    Prop where
  reads : ∀ i ∈ reads, off + i < t.bytes.length
  le : off + len ≤ t.bytes.length
  stop : off + len = t.bytes.length ∨ stops (t.byteAt (off + len))

/-- Both functions, for a text with any memory behind it, an offset and a size. -/
def TokensInRange (t : Text) (off : Nat) (c : BitVec 32) (n : Nat) : Prop :=
  InRange t off (getNextTokenReads (t.advance off) c n) (getNextToken (t.advance off) c n)
      (fun b => b.toBitVec = c.setWidth 8) ∧
    InRange t off (getNextIntReads (t.advance off) n) (getNextInt (t.advance off) n).1
      (fun b => ¬ isDigit b)

/-- A scan that could go past the end stays in the text if and only if a byte stops it before. -/
theorem inRange_iff {t : Text} {off k k' : Nat} {p : UInt8 → Bool} {go : Nat → Bool}
    {stops : UInt8 → Prop} (hgo : ∀ i, go i = p (t.byteAt (off + i)))
    (hstops : ∀ b, stops b ↔ p b = false) (hk : t.bytes.length - off < k)
    (hk' : t.bytes.length - off < k') :
    InRange t off (scanReads go k 0) (scanEnd go k' 0) stops ↔ ∃ b ∈ t.bytes.drop off, stops b := by
  constructor
  · intro h
    by_contra hnone
    have hmem : t.bytes.length - off ∈ scanReads go k 0 := by
      rw [mem_scanReads]
      refine ⟨Nat.zero_le _, by omega, fun j _ hj => ?_⟩
      have hlt : off + j < t.bytes.length := by omega
      have hbyte : t.byteAt (off + j) ∈ t.bytes.drop off := by
        rw [Text.byteAt, List.getElem?_eq_getElem hlt, Option.getD_some]
        exact List.mem_drop_iff_getElem.mpr ⟨j, by omega, rfl⟩
      rw [hgo, ← Bool.not_eq_false, ← hstops]
      exact fun hs => hnone ⟨_, hbyte, hs⟩
    have := h.reads _ hmem
    omega
  · rintro ⟨b, hb, hs⟩
    obtain ⟨j, hj, rfl⟩ := List.mem_drop_iff_getElem.mp hb
    have hj' : off + j < t.bytes.length := by omega
    have hstop : go j = false := by
      rw [hgo, ← hstops, Text.byteAt, List.getElem?_eq_getElem hj', Option.getD_some]
      exact hs
    obtain ⟨-, -, hall, hend⟩ := @scanEnd_spec go k' 0
    have hle : scanEnd go k' 0 ≤ j := by
      by_contra hlt
      exact absurd ((hall j (Nat.zero_le j) (by omega)).symm.trans hstop) (by decide)
    refine ⟨fun i hi => ?_, by omega, .inr ?_⟩
    · obtain ⟨-, -, hall'⟩ := (mem_scanReads k 0 i).mp hi
      have : i ≤ j := by
        by_contra hlt
        exact absurd ((hall' j (Nat.zero_le j) (by omega)).symm.trans hstop) (by decide)
      omega
    · rw [hstops, ← hgo]
      exact hend (by omega)

/-- Both functions stay in a text if and only if behind the offset there are the delimiter and a
byte that is no digit. The size may be that of the text or of what is behind the offset. -/
theorem tokensInRange_iff (t : Text) (off : Nat) (c : BitVec 32) {n : Nat}
    (hn : t.bytes.length - off ≤ n) : TokensInRange t off c n ↔
      (∃ b ∈ t.bytes.drop off, b.toBitVec = c.setWidth 8) ∧
      ∃ b ∈ t.bytes.drop off, ¬ isDigit b := by
  rw [TokensInRange, getNextInt, nextDigits_fst]
  refine and_congr (inRange_iff (p := fun b => b.toBitVec != c.setWidth 8) (fun i => ?_)
    (fun b => ?_) (by omega) (by omega)) (inRange_iff (p := isDigit) (fun i => ?_) (fun b => ?_)
    (by omega) (by omega))
  · rw [notDelimiter, Text.byteAt_advance]
  · rw [bne_eq_false_iff_eq]
  · rw [digitAt, Text.byteAt_advance]
  · rw [Bool.not_eq_true]

/-- `get_next_token(buf, ':', 2)` and `get_next_int(buf, &i, 2)`, where `buf` is `1:`. -/
theorem tokensInRange_colon : TokensInRange { bytes := [49, 58], behind := fun _ => 0 } 0 58 2 ↔
    (∃ b ∈ ([49, 58] : CStr), b.toBitVec = (58 : BitVec 32).setWidth 8) ∧
      ∃ b ∈ ([49, 58] : CStr), ¬ isDigit b :=
  tokensInRange_iff { bytes := [49, 58], behind := fun _ => 0 } 0 58 (by decide)

/-- In `123` there is no delimiter: the byte behind it is read. -/
theorem not_tokensInRange : ¬ ∀ (t : Text) (off : Nat) (c : BitVec 32) (n : Nat),
    t.bytes.length - off ≤ n → TokensInRange t off c n := by
  intro h
  have hread := (h { bytes := [49, 50, 51], behind := fun _ => 58 } 0 58 3 (by decide)).1.reads
  exact absurd (hread 3 (by decide)) (by decide)

end Orchids

import Orchids.Lang.Arith
import Orchids.Lib.Compare

/-!
# Comparison (`issdl_cmp`)

The comparison functions of `lang.c` and the six instructions that use them. Words are compared by
a difference that is returned as an `int`, and strings by `memcmp` over the length of the first
one, which reads behind the second one if that is shorter.

* `issdlCmp`: the dispatch on the type of the first operand.
* `cmpOrdered_iff`: where it orders three values of one type.
* `coherent_iff`: where the instructions agree with each other; `ovm_ceq` is the only one that gives
  its operands to `issdl_cmp` in the other order.
-/

namespace Orchids

variable {F : Type}

namespace Text

theorem length_mem (t : Text) (n : Nat) : (t.mem n).length = n := by
  simp only [mem, List.length_append, List.length_take, List.length_map, List.length_range]
  omega

theorem mem_of_le (t : Text) {n : Nat} (h : n ≤ t.bytes.length) : t.mem n = t.bytes.take n := by
  simp [mem, Nat.sub_eq_zero_of_le h]

@[simp] theorem mem_length (t : Text) : t.mem t.bytes.length = t.bytes := by
  simp [mem_of_le]

/-- More of the memory begins with less of it. -/
theorem mem_prefix (t : Text) {m n : Nat} (h : m ≤ n) : t.mem m <+: t.mem n := by
  rw [List.prefix_iff_eq_take, length_mem, mem, mem, List.take_append, List.take_take,
    ← List.map_take, List.take_range, List.length_take]
  congr 2
  · omega
  · congr 1
    omega

end Text

/-! ## The columns of `cmp` -/

/-- `TYPE(var1) - TYPE(var2)` -/
def typeDiff (t : IssdlTag) (var2 : OvmVar F) : Int := t.code - var2.type.code

/-- The difference of two `long`s, returned as an `int`. -/
def longDiff (x y : BitVec 64) : Int := ((x - y).setWidth 32).toInt

/-- `int_cmp` -/
def intCmp (v : BitVec 64) : OvmVar F → Int
  | .int w => longDiff v w
  | var2 => typeDiff .int var2

/-- `uint_cmp` -/
def uintCmp (v : BitVec 64) : OvmVar F → Int
  | .uint w => longDiff v w
  | var2 => typeDiff .uint var2

/-- `ctime_cmp` -/
def ctimeCmp (v : BitVec 64) : OvmVar F → Int
  | .ctime w => longDiff v w
  | var2 => typeDiff .ctime var2

/-- `counter_cmp` -/
def counterCmp (v : BitVec 64) : OvmVar F → Int
  | .counter w => longDiff v w
  | var2 => typeDiff .counter var2

/-- `ipv4_cmp`: the difference of two `uint32_t`, returned as an `int`. -/
def ipv4Cmp (v : BitVec 32) : OvmVar F → Int
  | .ipv4 w => (v - w).toInt
  | var2 => typeDiff .ipv4 var2

/-- `timercmp(a, b, <)` -/
def timerLt (a b : Timeval) : Bool :=
  if a.sec = b.sec then a.usec.slt b.usec else a.sec.slt b.sec

/-- `timeval_cmp` -/
def timevalCmp (s : Timeval) : OvmVar F → Int
  | .timeval t => if timerLt s t then -1 else if timerLt t s then 1 else 0
  | var2 => typeDiff .timeval var2

/-- `memcmp` of the memory of two strings, over the length of the first one. -/
def textCmp (s t : Text) : Int := memcmp s.bytes (t.mem s.bytes.length)

/-- `str_cmp` -/
def strCmp (s : Text) : OvmVar F → Int
  | .str t => textCmp s t
  | .vstr t => textCmp s t
  | var2 => typeDiff .str var2

/-- `vstr_cmp` -/
def vstrCmp (s : Text) : OvmVar F → Int
  | .str t => textCmp s t
  | .vstr t => textCmp s t
  | var2 => typeDiff .vstr var2

/-- `float_cmp` -/
def floatCmp [CFloat F] (v : F) : OvmVar F → Int
  | .float w =>
    let diff := CFloat.sub v w
    if CFloat.isPos diff then 1 else if CFloat.isNeg diff then -1 else 0
  | var2 => typeDiff .float var2

/-- `issdl_cmp`: -1 for a type without a comparison. -/
def issdlCmp [CFloat F] : OvmVar F → OvmVar F → Int
  | .int v, var2 => intCmp v var2
  | .str s, var2 => strCmp s var2
  | .vstr s, var2 => vstrCmp s var2
  | .ctime v, var2 => ctimeCmp v var2
  | .ipv4 v, var2 => ipv4Cmp v var2
  | .timeval s, var2 => timevalCmp s var2
  | .counter v, var2 => counterCmp v var2
  | .uint v, var2 => uintCmp v var2
  | .float v, var2 => floatCmp v var2
  | _, _ => -1

/-! ## Order on one type -/

/-- The types that claim an order; `str` and `vstr` are one. -/
inductive CmpKind where
  | int | uint | ctime | ipv4 | counter | timeval | text
  deriving DecidableEq, Repr

namespace OvmVar

/-- The kind of an object that is compared. -/
def cmpKind : OvmVar F → Option CmpKind
  | int _ => some .int
  | uint _ => some .uint
  | ctime _ => some .ctime
  | ipv4 _ => some .ipv4
  | counter _ => some .counter
  | timeval _ => some .timeval
  | str _ | vstr _ => some .text
  | _ => none

/-- The string of a `T_STR` or a `T_VSTR`. -/
def text : OvmVar F → Option Text
  | str t | vstr t => some t
  | _ => none

/-- Both objects hold the same value. -/
def Same : OvmVar F → OvmVar F → Prop
  | int v, int w | uint v, uint w | ctime v, ctime w | counter v, counter w => v = w
  | ipv4 v, ipv4 w => v = w
  | timeval s, timeval t => s = t
  | str s, str t | str s, vstr t | vstr s, str t | vstr s, vstr t => s.bytes = t.bytes
  | _, _ => False

end OvmVar

/-- Longs are ordered by the words that are left of them: `u` and `v` are not two longs with one
word, and the words are ordered. -/
def LongsOrdered (u v w : BitVec 64) : Prop :=
  (u.setWidth 32 = v.setWidth 32 → u = v) ∧
    WordsOrdered (u.setWidth 32) (v.setWidth 32) (w.setWidth 32)

/-- Neither string is a proper prefix of the other. -/
def NoProperPrefix (s t : List UInt8) : Prop := s <+: t ∨ t <+: s → s = t

/-- The values that `issdl_cmp` orders. -/
def CmpCondition : OvmVar F → OvmVar F → OvmVar F → Prop
  | .int u, .int v, .int w | .uint u, .uint v, .uint w | .ctime u, .ctime v, .ctime w
  | .counter u, .counter v, .counter w => LongsOrdered u v w
  | .ipv4 u, .ipv4 v, .ipv4 w => WordsOrdered u v w
  | .str s, .str t, _ | .str s, .vstr t, _ | .vstr s, .str t, _ | .vstr s, .vstr t, _ =>
    NoProperPrefix s.bytes t.bytes
  | _, _, _ => True

theorem longDiff_eq (x y : BitVec 64) :
    longDiff x y = wordDiff (x.setWidth 32) (y.setWidth 32) := by
  rw [longDiff, wordDiff]
  congr 1
  apply BitVec.eq_of_toNat_eq
  simp only [BitVec.toNat_setWidth, BitVec.toNat_sub]
  have := x.isLt
  have := y.isLt
  omega

theorem longDiff_ordered_iff {u v w : BitVec 64} :
    CmpOrdered longDiff Eq u v w ↔ LongsOrdered u v w := by
  have hcongr : ∀ x y : BitVec 64, longDiff x y = 0 ↔ x.setWidth 32 = y.setWidth 32 := by
    intro x y
    rw [longDiff_eq, wordDiff_eq_zero]
  have hiff := @CmpOrdered.congr _ _ longDiff wordDiff (fun x y => x.setWidth 32 = y.setWidth 32)
    Eq u v w (u.setWidth 32) (v.setWidth 32) (w.setWidth 32) (longDiff_eq ..) (longDiff_eq ..)
    (longDiff_eq ..) (longDiff_eq ..) Iff.rfl
  constructor
  · rintro ⟨h₁, h₂, h₃⟩
    exact ⟨fun h => h₁.mp ((hcongr u v).mpr h),
      wordDiff_ordered_iff.mp (hiff.mp ⟨hcongr u v, h₂, h₃⟩)⟩
  · rintro ⟨h₁, h₂⟩
    obtain ⟨-, h₃, h₄⟩ := hiff.mpr (wordDiff_ordered_iff.mpr h₂)
    refine ⟨⟨fun h => h₁ ((hcongr u v).mp h), ?_⟩, h₃, h₄⟩
    rintro rfl
    exact (hcongr u u).mpr rfl

/-! ### Strings -/

/-- `memcmp` at the first difference with the start of the other string. -/
theorem textCmp_of_byte {s t : Text} {p q xs : List UInt8} {x z : UInt8}
    (hs : s.bytes = p ++ x :: xs) (ht : t.mem (p.length + 1) = q ++ [z]) :
    textCmp s t =
      if p = q then memcmp (x :: xs) (z :: (t.mem s.bytes.length).drop (p.length + 1))
      else memcmp p q := by
  have hl : p.length = q.length := by
    have := congrArg List.length ht
    simp only [Text.length_mem, List.length_append, List.length_singleton] at this
    omega
  obtain ⟨r, hr⟩ := t.mem_prefix (show p.length + 1 ≤ s.bytes.length by simp [hs])
  have hdrop : (t.mem s.bytes.length).drop (p.length + 1) = r := by
    rw [← hr]
    exact List.drop_left' (t.length_mem _)
  rw [textCmp, hdrop, ← hr, ht, hs, List.append_assoc, memcmp_append hl]
  rfl

theorem textCmp_eq_zero {s t : Text} : textCmp s t = 0 ↔ s.bytes = t.mem s.bytes.length :=
  memcmp_eq_zero (t.length_mem _).symm

theorem textCmp_eq_zero_of_isPrefix {s t : Text} (h : s.bytes <+: t.bytes) : textCmp s t = 0 := by
  rw [textCmp_eq_zero, t.mem_of_le h.length_le]
  exact List.prefix_iff_eq_take.mp h

/-- `memcmp` of two strings with a first difference. -/
theorem textCmp_of_ne {s t : Text} {p xs ys : List UInt8} {x y : UInt8}
    (hs : s.bytes = p ++ x :: xs) (ht : t.bytes = p ++ y :: ys) (hxy : x ≠ y) :
    textCmp s t = (x.toNat : Int) - y.toNat := by
  have hmem : t.mem (p.length + 1) = p ++ [y] := by
    rw [t.mem_of_le (by simp [ht]), ht]
    simp [List.take_append, List.take_of_length_le]
  rw [textCmp_of_byte hs hmem, if_pos rfl, memcmp, if_neg hxy]

theorem textCmp_ordered_iff {s t r : Text} :
    CmpOrdered textCmp (fun s t => s.bytes = t.bytes) s t r ↔ NoProperPrefix s.bytes t.bytes := by
  constructor
  · rintro ⟨hzero, hswap, -⟩ (h | h)
    · exact hzero.mp (textCmp_eq_zero_of_isPrefix h)
    · rw [textCmp_eq_zero_of_isPrefix h, Int.sign_zero, zero_eq_neg, Int.sign_eq_zero_iff_zero] at hswap
      exact hzero.mp hswap
  · intro hp
    by_cases heq : s.bytes = t.bytes
    · have hst : textCmp s t = 0 := textCmp_eq_zero_of_isPrefix (heq ▸ List.prefix_refl _)
      have hts : textCmp t s = 0 := textCmp_eq_zero_of_isPrefix (heq ▸ List.prefix_refl _)
      refine ⟨by simp [hst, heq], by simp [hst, hts], fun _ h => ?_⟩
      rwa [textCmp, heq]
    · obtain ⟨p, x, xs, y, ys, hs, ht, hxy⟩ := List.exists_first_ne
        (fun h => heq (hp (.inl h))) (fun h => heq (hp (.inr h)))
      have hst := textCmp_of_ne hs ht hxy
      have hts := textCmp_of_ne ht hs (Ne.symm hxy)
      have hne := UInt8.toNat_sub_ne_zero hxy
      refine ⟨by simp [hst, hne, heq], ?_, fun h₁ h₂ => ?_⟩
      · rw [hst, hts, ← Int.sign_neg]
        congr 1
        omega
      · -- the third string decides both comparisons by the time of the difference
        obtain ⟨q, z, hr⟩ : ∃ q z, r.mem (p.length + 1) = q ++ [z] := by
          have hl : r.mem (p.length + 1) ≠ [] := List.ne_nil_of_length_pos (by simp [Text.length_mem])
          exact ⟨_, _, (List.dropLast_append_getLast hl).symm⟩
        rw [textCmp_of_byte ht hr] at h₂
        rw [textCmp_of_byte hs hr]
        split
        · next hpq =>
          rw [if_pos hpq, memcmp] at h₂
          have hxz : x ≠ z := by
            rintro rfl
            split at h₂
            · next h => exact hxy h.symm
            · omega
          rw [memcmp, if_neg hxz]
          split at h₂
          · next h => rw [← h]; omega
          · omega
        · next hpq => rwa [if_neg hpq] at h₂

/-! ### Times -/

theorem timerLt_iff {s t : Timeval} : timerLt s t = true ↔
    s.sec.toInt < t.sec.toInt ∨ (s.sec.toInt = t.sec.toInt ∧ s.usec.toInt < t.usec.toInt) := by
  rw [timerLt]
  split
  · next h => simp [BitVec.slt_iff_toInt_lt, h]
  · next h => simp [BitVec.slt_iff_toInt_lt, BitVec.toInt_inj, h]

/-- `timeval_cmp` on two times. -/
def timevalDiff (s t : Timeval) : Int := timevalCmp s (.timeval t : OvmVar Empty)

theorem timevalDiff_eq (s t : Timeval) : timevalDiff s t =
    if s.sec.toInt < t.sec.toInt ∨ (s.sec.toInt = t.sec.toInt ∧ s.usec.toInt < t.usec.toInt) then -1
    else if t.sec.toInt < s.sec.toInt ∨ (t.sec.toInt = s.sec.toInt ∧ t.usec.toInt < s.usec.toInt)
    then 1 else 0 := by
  simp only [timevalDiff, timevalCmp, timerLt_iff]

theorem timevalDiff_ordered {s t r : Timeval} : CmpOrdered timevalDiff Eq s t r := by
  refine ⟨?_, ?_, ?_⟩
  · have heq : s = t ↔ s.sec.toInt = t.sec.toInt ∧ s.usec.toInt = t.usec.toInt := by
      rw [BitVec.toInt_inj, BitVec.toInt_inj]
      cases s
      cases t
      simp
    rw [timevalDiff_eq, heq]
    split <;> (try split) <;> omega
  · rw [sign_eq_neg_iff, timevalDiff_eq, timevalDiff_eq]
    split <;> split <;> omega
  · rw [timevalDiff_eq s t, timevalDiff_eq t r, timevalDiff_eq s r]
    intro h₁ h₂
    split at h₁ <;> split at h₂ <;> split <;> omega

/-! ### All types -/

namespace OvmVar

variable {a : OvmVar F}

theorem cmpKind_int : a.cmpKind = some .int ↔ ∃ v, a = int v := by cases a <;> simp [cmpKind]
theorem cmpKind_uint : a.cmpKind = some .uint ↔ ∃ v, a = uint v := by cases a <;> simp [cmpKind]
theorem cmpKind_ctime : a.cmpKind = some .ctime ↔ ∃ v, a = ctime v := by
  cases a <;> simp [cmpKind]
theorem cmpKind_ipv4 : a.cmpKind = some .ipv4 ↔ ∃ v, a = ipv4 v := by cases a <;> simp [cmpKind]
theorem cmpKind_counter : a.cmpKind = some .counter ↔ ∃ v, a = counter v := by
  cases a <;> simp [cmpKind]
theorem cmpKind_timeval : a.cmpKind = some .timeval ↔ ∃ t, a = timeval t := by
  cases a <;> simp [cmpKind]
theorem cmpKind_text : a.cmpKind = some .text ↔ ∃ t, a = str t ∨ a = vstr t := by
  cases a <;> simp [cmpKind]

end OvmVar

section

variable [CFloat F] {a b c : OvmVar F}

/-- The types that are compared as longs. -/
theorem longs_ordered_iff {mk : BitVec 64 → OvmVar F} {u v w : BitVec 64}
    (hcmp : ∀ x y, issdlCmp (mk x) (mk y) = longDiff x y) (hsame : (mk u).Same (mk v) ↔ u = v) :
    CmpOrdered issdlCmp OvmVar.Same (mk u) (mk v) (mk w) ↔ LongsOrdered u v w := by
  rw [← longDiff_ordered_iff]
  exact CmpOrdered.congr (hcmp ..) (hcmp ..) (hcmp ..) (hcmp ..) hsame

theorem issdlCmp_text {s t : Text} (ha : a = .str s ∨ a = .vstr s) (hb : b = .str t ∨ b = .vstr t) :
    issdlCmp a b = textCmp s t := by
  rcases ha with rfl | rfl <;> rcases hb with rfl | rfl <;> rfl

/-- The comparison orders three values of one type, if and only if it is one of the words that are
left of them, or neither of the first two strings is a proper prefix of the other. -/
theorem cmpOrdered_iff {k : CmpKind} (ha : a.cmpKind = some k) (hb : b.cmpKind = some k)
    (hc : c.cmpKind = some k) :
    CmpOrdered issdlCmp OvmVar.Same a b c ↔ CmpCondition a b c := by
  cases k with
  | int =>
    obtain ⟨u, rfl⟩ := OvmVar.cmpKind_int.mp ha
    obtain ⟨v, rfl⟩ := OvmVar.cmpKind_int.mp hb
    obtain ⟨w, rfl⟩ := OvmVar.cmpKind_int.mp hc
    exact longs_ordered_iff (fun _ _ => rfl) Iff.rfl
  | uint =>
    obtain ⟨u, rfl⟩ := OvmVar.cmpKind_uint.mp ha
    obtain ⟨v, rfl⟩ := OvmVar.cmpKind_uint.mp hb
    obtain ⟨w, rfl⟩ := OvmVar.cmpKind_uint.mp hc
    exact longs_ordered_iff (fun _ _ => rfl) Iff.rfl
  | ctime =>
    obtain ⟨u, rfl⟩ := OvmVar.cmpKind_ctime.mp ha
    obtain ⟨v, rfl⟩ := OvmVar.cmpKind_ctime.mp hb
    obtain ⟨w, rfl⟩ := OvmVar.cmpKind_ctime.mp hc
    exact longs_ordered_iff (fun _ _ => rfl) Iff.rfl
  | counter =>
    obtain ⟨u, rfl⟩ := OvmVar.cmpKind_counter.mp ha
    obtain ⟨v, rfl⟩ := OvmVar.cmpKind_counter.mp hb
    obtain ⟨w, rfl⟩ := OvmVar.cmpKind_counter.mp hc
    exact longs_ordered_iff (fun _ _ => rfl) Iff.rfl
  | ipv4 =>
    obtain ⟨u, rfl⟩ := OvmVar.cmpKind_ipv4.mp ha
    obtain ⟨v, rfl⟩ := OvmVar.cmpKind_ipv4.mp hb
    obtain ⟨w, rfl⟩ := OvmVar.cmpKind_ipv4.mp hc
    refine .trans ?_ (@wordDiff_ordered_iff u v w)
    exact CmpOrdered.congr rfl rfl rfl rfl Iff.rfl
  | timeval =>
    obtain ⟨s, rfl⟩ := OvmVar.cmpKind_timeval.mp ha
    obtain ⟨t, rfl⟩ := OvmVar.cmpKind_timeval.mp hb
    obtain ⟨r, rfl⟩ := OvmVar.cmpKind_timeval.mp hc
    have h : CmpOrdered issdlCmp OvmVar.Same (.timeval s) (.timeval t) (.timeval r : OvmVar F) ↔
        CmpOrdered timevalDiff Eq s t r := CmpOrdered.congr rfl rfl rfl rfl Iff.rfl
    exact iff_of_true (h.mpr timevalDiff_ordered) trivial
  | text =>
    obtain ⟨s, hs⟩ := OvmVar.cmpKind_text.mp ha
    obtain ⟨t, ht⟩ := OvmVar.cmpKind_text.mp hb
    obtain ⟨r, hr⟩ := OvmVar.cmpKind_text.mp hc
    have hsame : a.Same b ↔ s.bytes = t.bytes := by
      rcases hs with rfl | rfl <;> rcases ht with rfl | rfl <;> rfl
    have hcond : CmpCondition a b c ↔ NoProperPrefix s.bytes t.bytes := by
      rcases hs with rfl | rfl <;> rcases ht with rfl | rfl <;> rfl
    rw [hcond, ← textCmp_ordered_iff]
    exact CmpOrdered.congr (issdlCmp_text hs ht) (issdlCmp_text ht hs) (issdlCmp_text ht hr)
      (issdlCmp_text hs hr) hsame

/-- Three counters that are near each other. -/
theorem cmpOrdered_iff_counters :
    CmpOrdered issdlCmp OvmVar.Same (.counter 1) (.counter 2) (.counter 5 : OvmVar ℚ) ↔
      CmpCondition (.counter 1) (.counter 2) (.counter 5 : OvmVar ℚ) :=
  cmpOrdered_iff (k := .counter) rfl rfl rfl

/-- Zero and `2 ^ 32` are not told apart. -/
theorem not_cmpOrdered : ¬ ∀ (k : CmpKind) (a b c : OvmVar ℚ), a.cmpKind = some k →
    b.cmpKind = some k → c.cmpKind = some k → CmpOrdered issdlCmp OvmVar.Same a b c := by
  intro h
  have hs := (h .int (.int 0) (.int (2 ^ 32)) (.int 0) rfl rfl rfl).eq_zero_iff.mp (by decide)
  exact absurd hs (show (0 : BitVec 64) ≠ 2 ^ 32 by decide)

end

/-! ## The comparison instructions -/

/-- The objects as values of the machine. A read at the wrong type counts as a trap. -/
instance [CFloat F] : Issdl (OvmVar F) where
  isNull v := v.type == .null
  test := OvmVar.test
  cmp := issdlCmp
  arith op a b :=
    match issdlArith op a b with
    | .ok (some o) => some o.var
    | _ => none
  arithTraps op a b :=
    match issdlArith op a b with
    | .error _ => true
    | .ok _ => false
  regexec
    | .regex r, .str t => r.exec t.bytes
    | .regex r, .vstr t => r.exec t.bytes
    | _, _ => .paramError
  isSregex v := v.type == .sregex
  regsplit
    | .sregex r, .str t => (r.splits t.bytes).map (List.map .str)
    | _, _ => none

section

variable [CFloat F] {f : Frame (OvmVar F)} {a b : OvmVar F}

/-- The comparison of two operands, the left one first, gives a value that tests as true. -/
def Frame.Holds (f : Frame (OvmVar F)) (op : CmpOp) (a b : OvmVar F) : Prop :=
  issdlTest (f.cmpResult op (some a) (some b)) = true

/-- The comparison instructions agree on two operands. -/
structure Frame.Coherent (f : Frame (OvmVar F)) (a b : OvmVar F) : Prop where
  eq_or_neq : Xor (f.Holds .ceq a b) (f.Holds .cneq a b)
  eq_comm : f.Holds .ceq a b ↔ f.Holds .ceq b a
  lt_or_ge : Xor (f.Holds .clt a b) (f.Holds .cge a b)
  gt_or_le : Xor (f.Holds .cgt a b) (f.Holds .cle a b)
  le_and_ge : f.Holds .ceq a b → f.Holds .cle a b ∧ f.Holds .cge a b

/-- If the string is a prefix of the other one, the memory behind it goes on as that does. -/
def Text.Continues (s t : Text) : Prop :=
  s.bytes <+: t.bytes → s.mem t.bytes.length = t.bytes

/-- A comparison of two values that are not null, by the result of `issdl_cmp`. -/
theorem Frame.holds_iff (ha : a.type ≠ .null) (hb : b.type ≠ .null) :
    (f.Holds .ceq a b ↔ issdlCmp b a = 0) ∧ (f.Holds .cneq a b ↔ issdlCmp a b ≠ 0) ∧
      (f.Holds .clt a b ↔ issdlCmp a b < 0) ∧ (f.Holds .cgt a b ↔ 0 < issdlCmp a b) ∧
      (f.Holds .cle a b ↔ issdlCmp a b ≤ 0) ∧ (f.Holds .cge a b ↔ 0 ≤ issdlCmp a b) := by
  have hn : ∀ v : OvmVar F, v.type ≠ .null → isNull (some v) = false := by
    intro v hv
    simpa [isNull, Issdl.isNull] using hv
  have hcmp : ∀ v w : OvmVar F, Issdl.cmp v w = issdlCmp v w := fun _ _ => rfl
  simp [Holds, Frame.cmpResult, Frame.cmpTest, hn a ha, hn b hb, hcmp]

/-- The instructions agree if and only if the comparison says in both orders, or in none, that the
operands are equal. -/
theorem Frame.coherent_iff_cmp (ha : a.type ≠ .null) (hb : b.type ≠ .null) :
    f.Coherent a b ↔ (issdlCmp a b = 0 ↔ issdlCmp b a = 0) := by
  obtain ⟨heq, hneq, hlt, hgt, hle, hge⟩ := f.holds_iff ha hb
  obtain ⟨heq', -⟩ := f.holds_iff hb ha
  constructor
  · rintro ⟨-, hcomm, -⟩
    rw [heq, heq'] at hcomm
    exact hcomm.symm
  · intro h
    refine ⟨?_, ?_, ?_, ?_, ?_⟩
    · rw [heq, hneq, ← h, xor_iff_not_iff]
      simp
    · rw [heq, heq', h]
    · rw [hlt, hge, xor_iff_not_iff']
      omega
    · rw [hgt, hle, xor_iff_not_iff']
      omega
    · rw [heq, hle, hge, ← h]
      omega

/-! ### Equality in both orders -/

theorem textCmp_comm_iff {s t : Text} :
    (textCmp s t = 0 ↔ textCmp t s = 0) ↔ s.Continues t ∧ t.Continues s := by
  -- on the side of the shorter string the comparison stays inside the other one
  have hshort : ∀ s t : Text, s.bytes.length ≤ t.bytes.length →
      (textCmp s t = 0 ↔ s.bytes <+: t.bytes) := by
    intro s t h
    rw [textCmp_eq_zero, t.mem_of_le h, List.prefix_iff_eq_take]
  have hlong : ∀ s t : Text, s.bytes.length ≤ t.bytes.length →
      ((textCmp s t = 0 ↔ textCmp t s = 0) ↔ s.Continues t) := by
    intro s t h
    rw [hshort s t h, textCmp_eq_zero, Text.Continues]
    constructor
    · exact fun hiff hp => (hiff.mp hp).symm
    · refine fun hc => ⟨fun hp => (hc hp).symm, fun ht => ?_⟩
      rw [ht]
      exact (Text.mem_length s ▸ s.mem_prefix h : s.bytes <+: s.mem t.bytes.length)
  have heq : ∀ s t : Text, s.bytes.length ≤ t.bytes.length → t.Continues s := by
    intro s t h hp
    rw [← hp.eq_of_length_le h, Text.mem_length]
  rcases Nat.le_total s.bytes.length t.bytes.length with h | h
  · rw [hlong s t h, and_iff_left (heq s t h)]
  · rw [and_iff_right (heq t s h)]
    exact iff_comm.trans (hlong t s h)

omit [CFloat F] in
theorem typeDiff_ne_zero {t : IssdlTag} (h : b.type ≠ t) : typeDiff t b ≠ 0 := by
  have := mt (fun hc => IssdlTag.code_injective hc) h
  rw [typeDiff]
  omega

/-- Objects of different types are not equal, two strings apart. -/
theorem issdlCmp_ne_zero (h : b.type ≠ a.type) (ht : a.text = none ∨ b.text = none) :
    issdlCmp a b ≠ 0 := by
  have hd := typeDiff_ne_zero h
  cases a with
  | int v => cases b <;> first | exact absurd rfl h | exact hd
  | uint v => cases b <;> first | exact absurd rfl h | exact hd
  | ctime v => cases b <;> first | exact absurd rfl h | exact hd
  | ipv4 v => cases b <;> first | exact absurd rfl h | exact hd
  | timeval v => cases b <;> first | exact absurd rfl h | exact hd
  | counter v => cases b <;> first | exact absurd rfl h | exact hd
  | float v => cases b <;> first | exact absurd rfl h | exact hd
  | str s => cases b <;> first | exact hd | simp [OvmVar.text] at ht
  | vstr s => cases b <;> first | exact hd | simp [OvmVar.text] at ht
  | _ => exact (by decide : (-1 : Int) ≠ 0)

theorem longDiff_comm (x y : BitVec 64) : longDiff x y = 0 ↔ longDiff y x = 0 := by
  rw [longDiff_eq, longDiff_eq, wordDiff_eq_zero, wordDiff_eq_zero, eq_comm]

theorem floatCmp_comm (x y : F) : floatCmp x (.float y) = 0 ↔ floatCmp y (.float x) = 0 := by
  have hxy := CFloat.isPos_sub x y
  have hyx := CFloat.isPos_sub y x
  simp only [floatCmp, hxy, hyx]
  split <;> split <;> simp_all

/-- Objects of one type are equal in both orders, two strings apart. -/
theorem issdlCmp_comm_of_type (h : b.type = a.type) (ht : a.text = none) :
    issdlCmp a b = 0 ↔ issdlCmp b a = 0 := by
  cases a with
  | int v =>
    obtain ⟨w, rfl⟩ := OvmVar.type_eq_int.mp h
    exact longDiff_comm v w
  | uint v =>
    obtain ⟨w, rfl⟩ := OvmVar.type_eq_uint.mp h
    exact longDiff_comm v w
  | ctime v =>
    obtain ⟨w, rfl⟩ := OvmVar.type_eq_ctime.mp h
    exact longDiff_comm v w
  | counter v =>
    obtain ⟨w, rfl⟩ := OvmVar.type_eq_counter.mp h
    exact longDiff_comm v w
  | ipv4 v =>
    obtain ⟨w, rfl⟩ := OvmVar.type_eq_ipv4.mp h
    exact (wordDiff_eq_zero.trans eq_comm).trans wordDiff_eq_zero.symm
  | timeval s =>
    obtain ⟨t, rfl⟩ := OvmVar.type_eq_timeval.mp h
    have hst := (@timevalDiff_ordered s t s).eq_zero_iff
    have hts := (@timevalDiff_ordered t s t).eq_zero_iff
    exact (hst.trans eq_comm).trans hts.symm
  | float v =>
    obtain ⟨w, rfl⟩ := OvmVar.type_eq_float.mp h
    exact floatCmp_comm v w
  | str s => cases ht
  | vstr s => cases ht
  | _ => cases b <;> first | exact Iff.rfl | cases h

theorem issdlCmp_comm_iff : (issdlCmp a b = 0 ↔ issdlCmp b a = 0) ↔
    ∀ s t, a.text = some s → b.text = some t → s.Continues t ∧ t.Continues s := by
  have htext : ∀ {v : OvmVar F} {s}, v.text = some s → v = .str s ∨ v = .vstr s := by
    intro v s hv
    cases v <;> simp [OvmVar.text] at hv ⊢ <;> exact hv
  cases ha : a.text with
  | none =>
    refine iff_of_true ?_ (by simp)
    by_cases ht : b.type = a.type
    · exact issdlCmp_comm_of_type ht ha
    · exact iff_of_false (issdlCmp_ne_zero ht (.inl ha)) (issdlCmp_ne_zero (Ne.symm ht) (.inr ha))
  | some s =>
    cases hb : b.text with
    | none =>
      have ht : b.type ≠ a.type := by
        rcases htext ha with rfl | rfl <;> cases b <;> simp [OvmVar.type, OvmVar.text] at hb ⊢
      refine iff_of_true (iff_of_false ?_ ?_) (by simp)
      · exact issdlCmp_ne_zero ht (.inr hb)
      · exact issdlCmp_ne_zero (Ne.symm ht) (.inl hb)
    | some t =>
      rw [issdlCmp_text (htext ha) (htext hb), issdlCmp_text (htext hb) (htext ha),
        textCmp_comm_iff]
      simp

/-- The comparison instructions agree on two operands that are not null, if and only if these are
not two strings of which one is a proper prefix of the other and the memory behind it does not go on
as that does. -/
theorem Frame.coherent_iff (ha : a.type ≠ .null) (hb : b.type ≠ .null) :
    f.Coherent a b ↔
      ∀ s t, a.text = some s → b.text = some t → s.Continues t ∧ t.Continues s :=
  (f.coherent_iff_cmp ha hb).trans issdlCmp_comm_iff

end

/-- A frame with the first five constants and no code. -/
def constFrame : Frame (OvmVar ℚ) where
  bytecode := []
  inheritEnv _ := none
  staticEnv :=
    { get := fun n =>
        [.int 1, .int 0, .null 1, .null 2, .null 3][n]?
      test_one := rfl
      test_zero := rfl }
  fields _ := none
  argsNb _ := 0
  builtin _ _ := none

/-- The strings `abc` and `abd`. -/
theorem coherent_iff_abc_abd :
    constFrame.Coherent (.str ⟨[97, 98, 99], fun _ => 0⟩) (.str ⟨[97, 98, 100], fun _ => 0⟩) := by
  refine (Frame.coherent_iff (by simp) (by simp)).mpr ?_
  rintro s t hs ht
  obtain rfl := Option.some.inj hs
  obtain rfl := Option.some.inj ht
  exact ⟨fun h => absurd h (by decide), fun h => absurd h (by decide)⟩

/-- The strings `a` and `ab`. -/
theorem not_coherent : ¬ ∀ (f : Frame (OvmVar ℚ)) (a b : OvmVar ℚ), a.type ≠ .null →
    b.type ≠ .null → f.Coherent a b := by
  intro h
  have hc := (h constFrame (.str ⟨[97], fun _ => 0⟩) (.str ⟨[97, 98], fun _ => 0⟩) nofun
    nofun).eq_comm
  exact absurd hc (by unfold Frame.Holds; decide)

end Orchids

import Mathlib.Algebra.Group.Nat.Defs
import Mathlib.Data.List.Basic

/-!
# Comparisons by the sign of a number

* `memcmp`: two ranges of bytes by the first difference; ranges of one length are equal if and only
  if it is 0, and a swap changes the sign.
* `exists_first_ne`: two lists of which neither is a prefix of the other have a first difference.
* `CmpOrdered`: what makes a comparison `f` an order on three values.
* `sub_ordered_iff`: when the signed difference of words is one.
-/

/-- `memcmp` on as many bytes as both lists have. -/
def memcmp : List UInt8 → List UInt8 → Int
  | x :: xs, y :: ys => if x = y then memcmp xs ys else (x.toNat : Int) - y.toNat
  | _, _ => 0

theorem UInt8.toNat_sub_ne_zero {x y : UInt8} (h : x ≠ y) : (x.toNat : Int) - y.toNat ≠ 0 := by
  have := mt UInt8.toNat_inj.mp h
  omega

theorem memcmp_eq_zero {xs ys : List UInt8} (hl : xs.length = ys.length) :
    memcmp xs ys = 0 ↔ xs = ys := by
  induction xs generalizing ys with
  | nil => simp [memcmp, List.length_eq_zero_iff.mp hl.symm]
  | cons x xs ih =>
    cases ys with
    | nil => cases hl
    | cons y ys =>
      rw [memcmp]
      by_cases hxy : x = y
      · simp [hxy, ih (Nat.succ.inj hl)]
      · simp [hxy, UInt8.toNat_sub_ne_zero hxy]

theorem memcmp_append {ps qs : List UInt8} (hl : ps.length = qs.length) (xs ys : List UInt8) :
    memcmp (ps ++ xs) (qs ++ ys) = if ps = qs then memcmp xs ys else memcmp ps qs := by
  induction ps generalizing qs with
  | nil => simp [List.length_eq_zero_iff.mp hl.symm]
  | cons p ps ih =>
    cases qs with
    | nil => cases hl
    | cons q qs =>
      rw [List.cons_append, List.cons_append, memcmp, ih (Nat.succ.inj hl), memcmp]
      by_cases hpq : p = q <;> simp [hpq]

theorem List.exists_first_ne {α : Type*} {xs ys : List α} (hx : ¬ xs <+: ys) (hy : ¬ ys <+: xs) :
    ∃ p x xs' y ys', xs = p ++ x :: xs' ∧ ys = p ++ y :: ys' ∧ x ≠ y := by
  induction xs generalizing ys with
  | nil => exact (hx List.nil_prefix).elim
  | cons x xs ih =>
    cases ys with
    | nil => exact (hy List.nil_prefix).elim
    | cons y ys =>
      by_cases hxy : x = y
      · subst hxy
        obtain ⟨p, a, xs', b, ys', rfl, rfl, h⟩ :=
          ih (mt (List.prefix_cons_inj x).mpr hx) (mt (List.prefix_cons_inj x).mpr hy)
        exact ⟨x :: p, a, xs', b, ys', rfl, rfl, h⟩
      · exact ⟨[], x, xs, y, ys, rfl, rfl, hxy⟩

/-! ## Orders by sign -/

/-- The sign of `f` orders the values `a`, `b` and `c`, and `f` is 0 on `a` and `b` if and only if
they are the same. -/
structure CmpOrdered {α : Type*} (f : α → α → Int) (same : α → α → Prop) (a b c : α) : Prop where
  eq_zero_iff : f a b = 0 ↔ same a b
  sign_swap : (f b a).sign = -(f a b).sign
  trans : f a b ≤ 0 → f b c ≤ 0 → f a c ≤ 0

/-- Order on the values behind other ones. -/
theorem CmpOrdered.congr {α β : Type*} {f : α → α → Int} {g : β → β → Int} {same : α → α → Prop}
    {same' : β → β → Prop} {a b c : α} {u v w : β} (hab : f a b = g u v) (hba : f b a = g v u)
    (hbc : f b c = g v w) (hac : f a c = g u w) (hs : same a b ↔ same' u v) :
    CmpOrdered f same a b c ↔ CmpOrdered g same' u v w := by
  constructor
  · rintro ⟨h₁, h₂, h₃⟩
    exact ⟨by rw [← hab, ← hs, h₁], by rw [← hab, ← hba, h₂], by rwa [← hab, ← hbc, ← hac]⟩
  · rintro ⟨h₁, h₂, h₃⟩
    exact ⟨by rw [hab, hs, h₁], by rw [hab, hba, h₂], by rwa [hab, hbc, hac]⟩

theorem sign_eq_neg_iff {a b : Int} :
    b.sign = -a.sign ↔ (a < 0 ↔ 0 < b) ∧ (0 < a ↔ b < 0) := by
  rcases Int.lt_trichotomy a 0 with ha | rfl | ha <;>
    rcases Int.lt_trichotomy b 0 with hb | rfl | hb <;>
    simp [*, Int.sign_eq_one_of_pos, Int.sign_eq_neg_one_of_neg] <;> omega

/-- The difference of two words as a signed number. -/
def wordDiff (x y : BitVec 32) : Int := (x - y).toInt

section

variable {x y u v w : BitVec 32}

theorem wordDiff_eq_zero : wordDiff x y = 0 ↔ x = y := by
  rw [wordDiff, BitVec.toInt_eq_toNat_cond, BitVec.toNat_sub, ← BitVec.toNat_inj]
  have := x.isLt
  have := y.isLt
  split <;> omega

theorem wordDiff_nonpos : wordDiff x y ≤ 0 ↔ (y - x).toNat ≤ 2 ^ 31 := by
  rw [wordDiff, BitVec.toInt_eq_toNat_cond, BitVec.toNat_sub, BitVec.toNat_sub]
  have := x.isLt
  have := y.isLt
  split <;> omega

theorem toNat_sub_swap : (x - y).toNat = (2 ^ 32 - (y - x).toNat) % 2 ^ 32 := by
  rw [BitVec.toNat_sub, BitVec.toNat_sub]
  have := x.isLt
  have := y.isLt
  omega

/-- Only a difference of half the range has no opposite. -/
theorem wordDiff_sign_swap :
    (wordDiff y x).sign = -(wordDiff x y).sign ↔ (y - x).toNat ≠ 2 ^ 31 := by
  have hxy := @wordDiff_nonpos x y
  have hyx := @wordDiff_nonpos y x
  have hzero : wordDiff x y = 0 ↔ (y - x).toNat = 0 := by
    rw [wordDiff_eq_zero, BitVec.toNat_sub, ← BitVec.toNat_inj]
    omega
  have hzero' : wordDiff y x = 0 ↔ (y - x).toNat = 0 := by
    rw [wordDiff_eq_zero, eq_comm, ← wordDiff_eq_zero, hzero]
  have hlt := (y - x).isLt
  rw [toNat_sub_swap] at hyx
  rw [sign_eq_neg_iff]
  omega

/-- The way from `u` to `w` by `v`, going up. -/
theorem toNat_sub_add : (w - u).toNat = ((v - u).toNat + (w - v).toNat) % 2 ^ 32 := by
  rw [BitVec.toNat_sub, BitVec.toNat_sub, BitVec.toNat_sub]
  have := u.isLt
  have := v.isLt
  have := w.isLt
  omega

end

/-- Going up from `u` to `v` is not half the way around, and if the ways from `u` to `v` and from `v`
to `w` are at most that, so are both together. -/
def WordsOrdered (u v w : BitVec 32) : Prop :=
  (v - u).toNat ≠ 2 ^ 31 ∧
    ((v - u).toNat ≤ 2 ^ 31 → (w - v).toNat ≤ 2 ^ 31 → (v - u).toNat + (w - v).toNat ≤ 2 ^ 31)

theorem wordDiff_ordered_iff {u v w : BitVec 32} :
    CmpOrdered wordDiff Eq u v w ↔ WordsOrdered u v w := by
  have hadd := toNat_sub_add (u := u) (v := v) (w := w)
  constructor
  · intro h
    have hne := wordDiff_sign_swap.mp h.sign_swap
    refine ⟨hne, fun huv hvw => ?_⟩
    have := wordDiff_nonpos.mp (h.trans (wordDiff_nonpos.mpr huv) (wordDiff_nonpos.mpr hvw))
    omega
  · rintro ⟨hne, htrans⟩
    refine ⟨wordDiff_eq_zero, wordDiff_sign_swap.mpr hne, fun huv hvw => ?_⟩
    rw [wordDiff_nonpos] at huv hvw ⊢
    have := htrans huv hvw
    omega

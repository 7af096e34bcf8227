import Mathlib.Data.List.Basic
import Mathlib.Data.List.TakeWhile
import Mathlib.Tactic.Common

/-!
# Strings and `fgets`

A file is the list of its bytes from the position on. A call of `fgets` reads up to a newline, and
not more than there is room for without the `NUL` at the end.
-/

namespace Orchids

/-- A C string, without the `NUL` at its end. -/
abbrev CStr := List UInt8

/-- The C string in a buffer with these bytes. -/
def cString (bytes : List UInt8) : CStr := bytes.takeWhile (· != 0)

/-- The bytes that one call reads, with room for `n` of them. -/
def fgets : Nat → List UInt8 → List UInt8
  | 0, _ => []
  | _ + 1, [] => []
  | n + 1, c :: l => if c = 10 then [c] else c :: fgets n l

/-- What some calls read. -/
def fgetsAll (n : Nat) : Nat → List UInt8 → List (List UInt8)
  | 0, _ => []
  | k + 1, l => if l = [] then [] else fgets n l :: fgetsAll n k (l.drop (fgets n l).length)

/-- The pieces of a file: what calls read until its end. -/
def readPieces (n : Nat) (l : List UInt8) : List (List UInt8) := fgetsAll n l.length l

theorem isPrefix_fgets (n : Nat) (l : List UInt8) : fgets n l <+: l := by
  induction n generalizing l with
  | zero => exact List.nil_prefix
  | succ n ih =>
    cases l with
    | nil => exact List.nil_prefix
    | cons c l =>
      rw [fgets]
      split
      · exact (List.prefix_cons_inj c).mpr List.nil_prefix
      · exact (List.prefix_cons_inj c).mpr (ih l)

theorem length_fgets_pos {n : Nat} (hn : 0 < n) {l : List UInt8} (hl : l ≠ []) :
    0 < (fgets n l).length := by
  obtain ⟨n, rfl⟩ := Nat.exists_eq_succ_of_ne_zero (Nat.pos_iff_ne_zero.mp hn)
  obtain ⟨c, l, rfl⟩ := List.exists_cons_of_ne_nil hl
  rw [fgets]
  split <;> exact Nat.succ_pos _

theorem fgets_line {body : List UInt8} {n : Nat} (hb : 10 ∉ body) (hn : body.length < n)
    (more : List UInt8) : fgets n (body ++ 10 :: more) = body ++ [10] := by
  induction body generalizing n with
  | nil =>
    obtain ⟨n, rfl⟩ := Nat.exists_eq_succ_of_ne_zero (Nat.pos_iff_ne_zero.mp hn)
    exact if_pos rfl
  | cons c body ih =>
    obtain ⟨hc, hb⟩ := List.ne_and_not_mem_of_not_mem_cons hb
    obtain ⟨n, rfl⟩ := Nat.exists_eq_succ_of_ne_zero (Nat.ne_of_gt (Nat.zero_lt_of_lt hn))
    rw [List.cons_append, fgets, if_neg hc.symm, ih hb (Nat.lt_of_succ_lt_succ hn)]
    rfl

theorem fgets_full {body : List UInt8} {n : Nat} (hb : 10 ∉ body) (hn : n ≤ body.length)
    (more : List UInt8) : fgets n (body ++ more) = body.take n := by
  induction body generalizing n with
  | nil =>
    obtain rfl := Nat.le_zero.mp hn
    rfl
  | cons c body ih =>
    obtain ⟨hc, hb⟩ := List.ne_and_not_mem_of_not_mem_cons hb
    cases n with
    | zero => rfl
    | succ n =>
      rw [List.cons_append, fgets, if_neg hc.symm, ih hb (Nat.le_of_succ_le_succ hn)]
      rfl

/-- A short piece without a newline is all that there is. -/
theorem fgets_short {n : Nat} {l : List UInt8} (hlen : (fgets n l).length < n)
    (hlast : (fgets n l).getLast? ≠ some 10) : fgets n l = l := by
  induction n generalizing l with
  | zero => exact absurd hlen (Nat.not_lt_zero _)
  | succ n ih =>
    cases l with
    | nil => rfl
    | cons c l =>
      rw [fgets] at hlen hlast ⊢
      by_cases hc : c = 10
      · rw [if_pos hc, hc] at hlast
        exact absurd rfl hlast
      · rw [if_neg hc] at hlen hlast ⊢
        refine congrArg (c :: ·) (ih (Nat.lt_of_succ_lt_succ hlen) ?_)
        intro h
        cases hf : fgets n l with
        | nil =>
          rw [hf] at h
          cases h
        | cons b t =>
          rw [hf] at h hlast
          exact hlast (by rw [List.getLast?_cons_cons]; exact h)

theorem length_fgets_le (n : Nat) (l : List UInt8) : (fgets n l).length ≤ n := by
  induction n generalizing l with
  | zero => exact Nat.le_refl 0
  | succ n ih =>
    cases l with
    | nil => exact Nat.zero_le _
    | cons c l =>
      rw [fgets]
      split
      · exact Nat.succ_le_succ (Nat.zero_le n)
      · exact Nat.succ_le_succ (ih l)

theorem cString_eq_self {l : List UInt8} (h : 0 ∉ l) : cString l = l := by
  rw [cString, List.takeWhile_eq_self_iff]
  intro c hc
  exact bne_iff_ne.mpr fun heq => h (heq ▸ hc)

theorem zero_notMem_cString {l : List UInt8} : 0 ∉ cString l := fun h => by
  simpa using List.mem_takeWhile_imp h

/-- A newline ends the piece it is in. -/
theorem fgets_newline {n : Nat} {l : List UInt8} (h : 10 ∈ fgets n l) :
    ∃ body, fgets n l = body ++ [10] ∧ 10 ∉ body := by
  induction n generalizing l with
  | zero => cases h
  | succ n ih =>
    cases l with
    | nil => cases h
    | cons c l =>
      rw [fgets] at h ⊢
      by_cases hc : c = 10
      · rw [if_pos hc, hc]
        exact ⟨[], rfl, List.not_mem_nil⟩
      · rw [if_neg hc] at h ⊢
        obtain ⟨body, hbody, hnot⟩ := ih (List.mem_of_ne_of_mem (Ne.symm hc) h)
        refine ⟨c :: body, congrArg (c :: ·) hbody, ?_⟩
        rintro (_ | ⟨_, hmem⟩)
        · exact hc rfl
        · exact hnot hmem

theorem flatten_fgetsAll {n : Nat} (hn : 0 < n) {k : Nat} {l : List UInt8} (hk : l.length ≤ k) :
    (fgetsAll n k l).flatten = l := by
  induction k generalizing l with
  | zero => exact (List.eq_nil_of_length_eq_zero (Nat.le_zero.mp hk)).symm
  | succ k ih =>
    rw [fgetsAll]
    split
    · rename_i hnil
      rw [hnil]
      rfl
    · rename_i hl
      have hpos := length_fgets_pos hn hl
      rw [List.flatten_cons, ih (by rw [List.length_drop]; omega)]
      exact List.prefix_iff_eq_append.mp (isPrefix_fgets n l)

/-- The pieces are the file, cut. -/
theorem flatten_readPieces {n : Nat} (hn : 0 < n) (l : List UInt8) : (readPieces n l).flatten = l :=
  flatten_fgetsAll hn (Nat.le_refl _)

end Orchids

import Mathlib.Data.List.Basic

/-!
# Rings

Values in some cells of a ring: from one index on, and behind the last index from `0` on.

* `Ring.index`: the index of a value.
* `IsRing`: the values are in the cells.
* `IsRing.push`, `IsRing.pop`: a value at the end, and one from the front.
* `IsRing.cells_eq`: the cells in the order of the values; `isRing_map`: values in order.
-/

namespace Ring

/-- The `i`-th index from `d` on, in a ring of `n` cells. -/
def index (n d i : Nat) : Nat := if d + i < n then d + i else d + i - n

theorem index_of_lt {n d i : Nat} (h : d + i < n) : index n d i = d + i := if_pos h

theorem index_of_le {n d i : Nat} (h : n ≤ d + i) : index n d i = d + i - n :=
  if_neg (Nat.not_lt.mpr h)

theorem index_lt {n d i : Nat} (hd : d < n) (hi : i ≤ n) : index n d i < n := by
  unfold index
  split <;> omega

theorem index_ne {n d i j : Nat} (hij : i < j) (hj : j < n) : index n d i ≠ index n d j := by
  unfold index
  split <;> split <;> omega

theorem index_index {n d i j : Nat} (hd : d < n) (hij : i + j ≤ n) :
    index n (index n d i) j = index n d (i + j) := by
  unfold index
  split <;> split <;> split <;> omega

/-- The index behind another one. -/
theorem index_succ {n d i : Nat} (hd : d < n) (hi : i < n) :
    index n d (i + 1) = (index n d i + 1) % n := by
  have hlt := index_lt hd (Nat.le_of_lt hi)
  rw [← index_index hd hi]
  rcases Nat.lt_or_ge (index n d i + 1) n with h | h
  · rw [index_of_lt h, Nat.mod_eq_of_lt h]
  · have heq : index n d i + 1 = n := by omega
    rw [index_of_le h, heq, Nat.mod_self, Nat.sub_self]

end Ring

/-- The values `l` are in the cells, from the index `d` on. -/
structure IsRing {β : Type} (cells : List (Option β)) (n d : Nat) (l : List β) : Prop where
  lt : d < n
  le : l.length ≤ n
  get : ∀ i (h : i < l.length), cells[Ring.index n d i]? = some (some l[i])

namespace IsRing

open Ring

variable {β : Type} {cells : List (Option β)} {n d : Nat} {l : List β} {x : β}

theorem index_lt_length (h : IsRing cells n d l) {i : Nat} (hi : i < l.length) :
    index n d i < cells.length :=
  (List.getElem?_eq_some_iff.mp (h.get i hi)).1

/-- A value in the cell behind the last one. -/
theorem push (h : IsRing cells n d l) (hlt : l.length < n)
    (hc : index n d l.length < cells.length) :
    IsRing (cells.set (index n d l.length) (some x)) n d (l ++ [x]) := by
  refine ⟨h.lt, ?_, fun i hi => ?_⟩
  · rw [List.length_append]
    exact hlt
  · rw [List.length_append, List.length_singleton] at hi
    rcases Nat.lt_or_ge i l.length with hi' | hi'
    · rw [List.getElem?_set_ne (index_ne hi' hlt).symm, h.get i hi', List.getElem_append_left hi']
    · obtain rfl : i = l.length := by omega
      rw [List.getElem?_set_self hc, List.getElem_concat_length rfl]

/-- Values in a ring that had none. -/
theorem singleton (hd : d < n) (hc : d < cells.length) :
    IsRing (cells.set d (some x)) n d [x] := by
  refine ⟨hd, Nat.one_le_of_lt hd, fun i hi => ?_⟩
  obtain rfl : i = 0 := by rw [List.length_singleton] at hi; omega
  rw [index_of_lt hd, Nat.add_zero, List.getElem?_set_self hc, List.getElem_cons_zero]

theorem head (h : IsRing cells n d (x :: l)) : cells[d]? = some (some x) := by
  have hget := h.get 0 (Nat.succ_pos _)
  rwa [index_of_lt h.lt, Nat.add_zero] at hget

theorem pop (h : IsRing cells n d (x :: l)) : IsRing cells n (index n d 1) l := by
  have hle := h.le
  rw [List.length_cons] at hle
  refine ⟨index_lt h.lt (by omega), by omega, fun i hi => ?_⟩
  have hget := h.get (1 + i) (by rw [List.length_cons]; omega)
  rw [index_index h.lt (by omega), hget]
  simp [Nat.add_comm 1 i]

/-- The cells in the order of the values. -/
theorem cells_eq (h : IsRing cells n d l) (hl : l ≠ []) {e : Nat}
    (he : e = index n d (l.length - 1)) :
    (if d ≤ e then (cells.take (e + 1)).drop d
      else (cells.take n).drop d ++ cells.take (e + 1)) = l.map some := by
  have hpos := List.length_pos_iff.mpr hl
  have hlt := h.lt
  have hle := h.le
  have he' := h.index_lt_length (i := l.length - 1) (by omega)
  rw [← he] at he'
  unfold index at he
  split at he
  · rename_i hend
    rw [if_pos (by omega)]
    refine List.ext_getElem? fun i => ?_
    rw [List.getElem?_drop, List.getElem?_map]
    rcases Nat.lt_or_ge i l.length with hi | hi
    · have hget := h.get i hi
      rw [index_of_lt (by omega)] at hget
      rw [List.getElem?_take_of_lt (by omega), hget, List.getElem?_eq_getElem hi]
      rfl
    · rw [List.getElem?_eq_none (by rw [List.length_take]; omega), List.getElem?_eq_none hi]
      rfl
  · rename_i hend
    -- the last cell of the ring is in use
    have hlast := h.index_lt_length (i := n - 1 - d) (by omega)
    rw [index_of_lt (by omega)] at hlast
    have hdrop : ((cells.take n).drop d).length = n - d := by
      rw [List.length_drop, List.length_take]
      omega
    rw [if_neg (by omega)]
    refine List.ext_getElem? fun i => ?_
    rw [List.getElem?_map]
    rcases Nat.lt_or_ge i (n - d) with hi | hi
    · have hget := h.get i (by omega)
      rw [index_of_lt (by omega)] at hget
      rw [List.getElem?_append_left (by omega), List.getElem?_drop,
        List.getElem?_take_of_lt (by omega), hget, List.getElem?_eq_getElem (by omega)]
      rfl
    · rw [List.getElem?_append_right (by omega), hdrop]
      rcases Nat.lt_or_ge i l.length with hi' | hi'
      · have hget := h.get i hi'
        rw [index_of_le (by omega)] at hget
        have hindex : i - (n - d) = d + i - n := by omega
        rw [List.getElem?_take_of_lt (by omega), List.getElem?_eq_getElem hi', hindex, hget]
        rfl
      · rw [List.getElem?_eq_none (by rw [List.length_take]; omega), List.getElem?_eq_none hi']
        rfl

/-- Values in order, from the first cell on. -/
theorem map (hn : 0 < n) (hl : l.length ≤ n) (r : List (Option β)) :
    IsRing (l.map some ++ r) n 0 l := by
  refine ⟨hn, hl, fun i hi => ?_⟩
  rw [index_of_lt (by omega), Nat.zero_add, List.getElem?_append_left (by rwa [List.length_map]),
    List.getElem?_map, List.getElem?_eq_getElem hi]
  rfl

end IsRing

import Mathlib.Data.List.Infix
import Mathlib.Data.List.Nodup

/-!
# Numbers of names, and arrays that grow

* `number`: a name gets the next number at its first occurrence and keeps it; `numberAll` is the list
  of the names by their numbers after a list of occurrences, and `List.idxOf` the number of a name.
* `GrowArray`: an array with its allocated size and a count of the elements in use. The count can be
  set back, and what was behind it is written over.
-/

namespace Orchids

section Numbering

variable {α : Type} [DecidableEq α] {ns : List α}

/-- The names after one more occurrence. -/
def number (ns : List α) (a : α) : List α := if a ∈ ns then ns else ns ++ [a]

/-- The names after more occurrences. -/
def numberAll (ns as : List α) : List α := as.foldl number ns

theorem number_of_mem {a : α} (h : a ∈ ns) : number ns a = ns := if_pos h

theorem number_of_not_mem {a : α} (h : a ∉ ns) : number ns a = ns ++ [a] := if_neg h

theorem prefix_number (ns : List α) (a : α) : ns <+: number ns a := by
  unfold number
  split
  · exact List.prefix_rfl
  · exact List.prefix_append _ _

theorem mem_number {a x : α} : x ∈ number ns a ↔ x ∈ ns ∨ x = a := by
  unfold number
  split
  · rename_i h
    constructor
    · exact .inl
    · rintro (hx | rfl)
      · exact hx
      · exact h
  · rw [List.mem_append, List.mem_singleton]

theorem nodup_number (h : ns.Nodup) (a : α) : (number ns a).Nodup := by
  unfold number
  split
  · exact h
  · rename_i ha
    rw [← List.concat_eq_append]
    exact h.concat ha

@[simp] theorem numberAll_nil (ns : List α) : numberAll ns [] = ns := rfl

@[simp] theorem numberAll_cons (ns : List α) (a : α) (as : List α) :
    numberAll ns (a :: as) = numberAll (number ns a) as := rfl

theorem numberAll_append (ns as bs : List α) :
    numberAll ns (as ++ bs) = numberAll (numberAll ns as) bs := List.foldl_append

theorem prefix_numberAll (ns as : List α) : ns <+: numberAll ns as := by
  induction as generalizing ns with
  | nil => exact List.prefix_rfl
  | cons a as ih => exact (prefix_number ns a).trans (ih _)

theorem mem_numberAll {as : List α} {x : α} : x ∈ numberAll ns as ↔ x ∈ ns ∨ x ∈ as := by
  induction as generalizing ns with
  | nil => simp
  | cons a as ih => rw [numberAll_cons, ih, mem_number, List.mem_cons, or_assoc]

omit [DecidableEq α] in
theorem zipIdx_concat_reverse (ns : List α) (a : α) :
    (ns ++ [a]).zipIdx.reverse = (a, ns.length) :: ns.zipIdx.reverse := by
  rw [List.zipIdx_append, List.reverse_append]
  simp

/-- A number is found by its name in the list that has the newest first. -/
theorem lookup_zipIdx_reverse (h : ns.Nodup) (a : α) :
    ns.zipIdx.reverse.lookup a = if a ∈ ns then some (ns.idxOf a) else none := by
  induction ns using List.reverseRecOn with
  | nil => rfl
  | append_singleton ns b ih =>
    have hb : b ∉ ns := fun hb => (List.nodup_append.mp h).2.2 b hb b (by simp) rfl
    rw [zipIdx_concat_reverse, List.lookup_cons, ih (List.nodup_append.mp h).1]
    by_cases hab : a = b
    · subst hab
      have ha : a ∈ ns ++ [a] := List.mem_append_right _ (List.mem_singleton_self a)
      rw [if_pos ha, List.idxOf_append_of_notMem hb, beq_self_eq_true, List.idxOf_cons_self]
      rfl
    · rw [beq_false_of_ne hab]
      by_cases ha : a ∈ ns
      · rw [if_pos ha, if_pos (by simp [ha]), List.idxOf_append_of_mem ha]
      · rw [if_neg ha, if_neg (by simp [ha, hab])]

end Numbering

/-! ## Arrays that grow -/

/-- An array of which `sz` cells are allocated, `cells` have been written and `nb` are in use. -/
structure GrowArray (α : Type) where
  cells : List α
  nb : Nat
  sz : Nat
  nb_le : nb ≤ cells.length
  le_sz : cells.length ≤ sz

namespace GrowArray

variable {α : Type}

def empty : GrowArray α := { cells := [], nb := 0, sz := 0, nb_le := le_rfl, le_sz := le_rfl }

/-- The elements in use. -/
def elements (a : GrowArray α) : List α := a.cells.take a.nb

@[simp] theorem length_elements (a : GrowArray α) : a.elements.length = a.nb := by
  rw [elements, List.length_take, Nat.min_eq_left a.nb_le]

/-- An element more: a full array grows by `grow` cells first. -/
def add (a : GrowArray α) (grow : Nat) (hg : 0 < grow) (x : α) : GrowArray α where
  cells := a.cells.take a.nb ++ x :: a.cells.drop (a.nb + 1)
  nb := a.nb + 1
  sz := if a.nb = a.sz then a.sz + grow else a.sz
  nb_le := by
    have h := a.nb_le
    simp only [List.length_append, List.length_take, List.length_cons]
    omega
  le_sz := by
    have h := a.nb_le
    have h' := a.le_sz
    simp only [List.length_append, List.length_take, List.length_cons, List.length_drop]
    split <;> omega

@[simp] theorem elements_add (a : GrowArray α) {grow : Nat} (hg : 0 < grow) (x : α) :
    (a.add grow hg x).elements = a.elements ++ [x] := by
  have h := a.nb_le
  simp only [elements, add]
  rw [List.take_append, List.length_take, Nat.min_eq_left h, List.take_take,
    Nat.min_eq_right (Nat.le_succ _), Nat.add_sub_cancel_left]
  rfl

@[simp] theorem nb_add (a : GrowArray α) {grow : Nat} (hg : 0 < grow) (x : α) :
    (a.add grow hg x).nb = a.nb + 1 := rfl

/-- The element at `i` changes. -/
def set (a : GrowArray α) (i : Nat) (x : α) : GrowArray α where
  cells := a.cells.set i x
  nb := a.nb
  sz := a.sz
  nb_le := by rw [List.length_set]; exact a.nb_le
  le_sz := by rw [List.length_set]; exact a.le_sz

@[simp] theorem elements_set (a : GrowArray α) (i : Nat) (x : α) :
    (a.set i x).elements = a.elements.set i x := by
  rw [elements, elements]
  exact List.take_set

/-- Only the first `n` elements stay in use. -/
def shrink (a : GrowArray α) (n : Nat) (hn : n ≤ a.nb) : GrowArray α where
  cells := a.cells
  nb := n
  sz := a.sz
  nb_le := hn.trans a.nb_le
  le_sz := a.le_sz

@[simp] theorem elements_shrink (a : GrowArray α) {n : Nat} (hn : n ≤ a.nb) :
    (a.shrink n hn).elements = a.elements.take n := by
  simp only [elements, shrink]
  rw [List.take_take, Nat.min_eq_left hn]

end GrowArray

end Orchids

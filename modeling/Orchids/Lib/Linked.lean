import Mathlib.Data.List.Basic
import Mathlib.Data.List.Nodup
import Mathlib.Logic.Function.Basic

/-!
# Linked lists by address

The lists that records form with a `next` address: the program has only the links, the proofs
also the list of addresses.

* `Linked next l`: from the first address of `l`, the links visit `l` and end.
* `Linked.nodup`, `Linked.unique`: such a list has no cycle, and its first address determines it.
* `Linked.splice`: one list behind another, by a change of the last link.
* `walk`: the addresses that a loop over the links visits.
* `IsQueue`: such a list with pointers to its first and its last address.
-/

variable {next next' : Nat → Option Nat}

/-- The links of the addresses `l` are each the next address, and the last one ends. -/
def Linked (next : Nat → Option Nat) : List Nat → Prop
  | [] => True
  | a :: l => next a = l.head? ∧ Linked next l

namespace Linked

variable {a b : Nat} {l l' : List Nat}

theorem congr (h : Linked next l) (hn : ∀ a ∈ l, next' a = next a) : Linked next' l := by
  induction l with
  | nil => trivial
  | cons a l ih =>
    refine ⟨?_, ih h.2 fun b hb => hn b (List.mem_cons_of_mem a hb)⟩
    rw [hn a List.mem_cons_self, h.1]

theorem tail (h : Linked next (a :: l)) : Linked next l := h.2

theorem of_append (h : Linked next (l ++ l')) : Linked next l' := by
  induction l with
  | nil => exact h
  | cons a l ih => exact ih h.2

/-- The links from one address give one list. -/
theorem unique (h : Linked next l) (h' : Linked next l') (hh : l.head? = l'.head?) : l = l' := by
  induction l generalizing l' with
  | nil => exact (List.head?_eq_none_iff.mp hh.symm).symm
  | cons a l ih =>
    cases l' with
    | nil => cases hh
    | cons b l' =>
      obtain rfl : a = b := Option.some.inj hh
      rw [ih h.2 h'.2 (h.1.symm.trans h'.1)]

/-- A list that ends has no cycle. -/
theorem nodup (h : Linked next l) : l.Nodup := by
  induction l with
  | nil => exact List.nodup_nil
  | cons a l ih =>
    refine List.nodup_cons.mpr ⟨fun ha => ?_, ih h.2⟩
    obtain ⟨l₁, l₂, rfl⟩ := List.append_of_mem ha
    -- the same address would begin a list and a proper part of it
    have h₂ : Linked next (a :: l₂) := of_append h.2
    have heq := congrArg List.length (unique h h₂ rfl)
    simp only [List.length_cons, List.length_append] at heq
    omega

/-- The list `l'` behind the list `l`, whose last link was changed. -/
theorem splice (h : Linked next l) (h' : Linked next' l')
    (hl : ∀ b ∈ l, next' b = if some b = l.getLast? then l'.head? else next b) :
    Linked next' (l ++ l') := by
  induction l with
  | nil => exact h'
  | cons b l ih =>
    have hb := hl b List.mem_cons_self
    have hnd := nodup h
    cases l with
    | nil =>
      rw [List.getLast?_singleton, if_pos rfl] at hb
      exact ⟨hb, h'⟩
    | cons c l =>
      have hne : ¬ some b = (b :: c :: l).getLast? := by
        intro hlast
        rw [List.getLast?_cons_cons] at hlast
        exact (List.nodup_cons.mp hnd).1 (List.mem_of_getLast? hlast.symm)
      rw [if_neg hne] at hb
      refine ⟨hb.trans h.1, ih h.2 fun d hd => ?_⟩
      rw [hl d (List.mem_cons_of_mem b hd), List.getLast?_cons_cons]

end Linked

namespace Linked

variable {a : Nat} {l : List Nat}

/-- The last link ends the list. -/
theorem next_last (h : Linked next l) (ha : l.getLast? = some a) : next a = none := by
  obtain ⟨l', rfl⟩ := List.getLast?_eq_some_iff.mp ha
  exact (of_append h).1

/-- What the links reach from the first address is in the list. -/
theorem next_mem (h : Linked next l) {b : Nat} (ha : a ∈ l) (hb : next a = some b) : b ∈ l := by
  obtain ⟨l₁, l₂, rfl⟩ := List.append_of_mem ha
  have h₂ : Linked next (a :: l₂) := of_append h
  have hhead : l₂.head? = some b := h₂.1.symm.trans hb
  exact List.mem_append_right _ (List.mem_cons_of_mem a (List.mem_of_head? hhead))

end Linked

/-- The addresses that `for (t = p; t; t = t->next)` visits in `fuel` turns. -/
def walk (next : Nat → Option Nat) : Nat → Option Nat → List Nat
  | 0, _ => []
  | _ + 1, none => []
  | fuel + 1, some a => a :: walk next fuel (next a)

theorem walk_eq {l : List Nat} (h : Linked next l) {fuel : Nat} (hf : l.length ≤ fuel) :
    walk next fuel l.head? = l := by
  induction l generalizing fuel with
  | nil => cases fuel <;> rfl
  | cons a l ih =>
    cases fuel with
    | zero => exact absurd hf (Nat.not_succ_le_zero _)
    | succ fuel =>
      rw [List.head?_cons, walk, h.1, ih h.2 (Nat.le_of_succ_le_succ hf)]

/-- From the middle of the list a loop visits what is left of it. -/
theorem walk_append {l l' : List Nat} {a fuel : Nat} (h : Linked next (l ++ a :: l'))
    (hf : (a :: l').length ≤ fuel) : walk next fuel (some a) = a :: l' :=
  walk_eq h.of_append hf

/-- A loop over the links from an address of the list stays in the list. -/
theorem Linked.mem_of_mem_walk {l : List Nat} (h : Linked next l) {fuel : Nat} {p : Option Nat}
    (hp : ∀ a, p = some a → a ∈ l) : ∀ b ∈ walk next fuel p, b ∈ l := by
  induction fuel generalizing p with
  | zero => exact fun b hb => (List.not_mem_nil hb).elim
  | succ fuel ih =>
    cases p with
    | none => exact fun b hb => (List.not_mem_nil hb).elim
    | some a =>
      intro b hb
      rcases List.mem_cons.mp hb with rfl | hb
      · exact hp _ rfl
      · exact ih (fun d hd => h.next_mem (hp a rfl) hd) b hb

/-! ## Queues -/

/-- The links from `p` to `q` visit `l` and end. -/
structure IsQueue (next : Nat → Option Nat) (p q : Option Nat) (l : List Nat) : Prop where
  linked : Linked next l
  head : p = l.head?
  last : q = l.getLast?

/-- A change of the link at the tail of a queue. -/
def setTail (next : Nat → Option Nat) (q p : Option Nat) : Nat → Option Nat :=
  match q with
  | some t => Function.update next t p
  | none => next

theorem setTail_apply (q p : Option Nat) (b : Nat) :
    setTail next q p b = if some b = q then p else next b := by
  unfold setTail
  cases q with
  | none => simp
  | some t => simp [Function.update_apply]

theorem update_setTail {q : Option Nat} {a : Nat} (hq : q ≠ some a) (p r : Option Nat) :
    Function.update (setTail next q p) a r = setTail (Function.update next a r) q p := by
  unfold setTail
  cases q with
  | none => rfl
  | some t => exact Function.update_comm (fun h => hq (congrArg some h)) p r next

namespace IsQueue

variable {p q p' q' : Option Nat} {l l' : List Nat}

theorem empty : IsQueue next none none [] := ⟨trivial, rfl, rfl⟩

theorem congr (h : IsQueue next p q l) (hn : ∀ a ∈ l, next' a = next a) : IsQueue next' p q l :=
  ⟨h.linked.congr hn, h.head, h.last⟩

theorem nodup (h : IsQueue next p q l) : l.Nodup := h.linked.nodup

theorem eq_nil (h : IsQueue next none q l) : l = [] := List.head?_eq_none_iff.mp h.head.symm

theorem ne_nil {a : Nat} (h : IsQueue next (some a) q l) : l ≠ [] := by
  rintro rfl
  cases h.head

theorem head_eq_none (h : IsQueue next p q l) : p = none ↔ q = none := by
  rw [h.head, h.last, List.head?_eq_none_iff, List.getLast?_eq_none_iff]

theorem last_mem {a : Nat} (h : IsQueue next p (some a) l) : a ∈ l :=
  List.mem_of_getLast? h.last.symm

/-- The tail of a queue is no thread of another one. -/
theorem setTail_of_disjoint (h : IsQueue next p q l) (hd : l.Disjoint l') {r : Option Nat} :
    ∀ b ∈ l', setTail next q r b = next b := by
  intro b hb
  rw [setTail_apply, if_neg]
  intro hq
  exact hd (hq ▸ h : IsQueue next p (some b) l).last_mem hb

/-- One queue behind another, by a change of the link at the tail of the first. -/
theorem append (h : IsQueue next p q l) (h' : IsQueue next p' q' l') (hd : l.Disjoint l') :
    IsQueue (setTail next q p') (p <|> p') (q' <|> q) (l ++ l') := by
  have h'' := h'.congr (h.setTail_of_disjoint hd (r := p'))
  refine ⟨h.linked.splice h''.linked fun b _ => ?_, ?_, ?_⟩
  · rw [setTail_apply, h.last, h'.head]
  · rw [h.head, h'.head, List.head?_append]
    cases l.head? <;> rfl
  · rw [h.last, h'.last, List.getLast?_append]
    cases l'.getLast? <;> rfl

/-- An address behind a queue. -/
theorem push (h : IsQueue next p q l) {a : Nat} (ha : a ∉ l) :
    IsQueue (setTail (Function.update next a none) q (some a)) (p <|> some a) (some a)
      (l ++ [a]) := by
  have h' : IsQueue (Function.update next a none) p q l := by
    refine h.congr fun b hb => Function.update_of_ne ?_ _ _
    rintro rfl
    exact ha hb
  have hs : IsQueue (Function.update next a none) (some a) (some a) [a] :=
    ⟨⟨Function.update_self .., trivial⟩, rfl, rfl⟩
  exact h'.append hs (List.disjoint_singleton.mpr ha)

end IsQueue

import Orchids.Lib.Linked

/-!
# Doubly linked lists by address

* `Linked.remove`, `Linked.move`: an address taken out of a list, or moved to another one.
* `IsDList`: the links `next` visit a list of addresses, and the links `prev` its reverse.
* `IsDList.append`: an address behind the list.
* `IsDList.remove`: an address taken out, from any place in the list.
-/

variable {next prev : Nat → Option Nat} {p q : Option Nat} {l l₁ l₂ : List Nat} {e : Nat}

namespace Linked

/-- The link of an address goes to what stands behind it. -/
theorem next_mid (h : Linked next (l₁ ++ e :: l₂)) : next e = l₂.head? := (of_append h).1

/-- An address taken out of a list, by a change of the link in front of it. -/
theorem remove (h : Linked next (l₁ ++ e :: l₂)) :
    Linked (setTail next l₁.getLast? l₂.head?) (l₁ ++ l₂) := by
  induction l₁ with
  | nil => exact h.2
  | cons a l₁ ih =>
    have hnd := h.nodup
    cases l₁ with
    | nil =>
      have ha : a ∉ l₂ := fun hm => (List.nodup_cons.mp hnd).1 (List.mem_cons_of_mem e hm)
      rw [List.getLast?_singleton]
      refine ⟨?_, h.2.2.congr fun b hb => ?_⟩
      · exact (setTail_apply _ _ _).trans (if_pos rfl)
      · rw [setTail_apply, if_neg]
        rintro heq
        exact ha (Option.some.inj heq ▸ hb)
    | cons d l₁ =>
      have hlast : (a :: d :: l₁).getLast? = (d :: l₁).getLast? := List.getLast?_cons_cons
      rw [hlast]
      refine ⟨?_, ih h.2⟩
      rw [setTail_apply, if_neg, h.1]
      · rfl
      · intro heq
        have hm : a ∈ d :: l₁ := List.mem_of_getLast? heq.symm
        exact (List.nodup_cons.mp hnd).1 (List.mem_append_left _ hm)

/-- An address is moved from its place in one list to the front of another one. -/
theorem move (h : Linked next (l₁ ++ e :: l₂)) (hl : Linked next l)
    (hd : (l₁ ++ e :: l₂).Disjoint l) :
    Linked (Function.update (setTail next l₁.getLast? (next e)) e l.head?) (l₁ ++ l₂) ∧
      Linked (Function.update (setTail next l₁.getLast? (next e)) e l.head?) (e :: l) := by
  have he : e ∉ l₁ ++ l₂ := (List.nodup_cons.mp (List.nodup_middle.mp h.nodup)).1
  constructor
  · rw [h.next_mid]
    refine h.remove.congr fun b hb => Function.update_of_ne ?_ _ _
    rintro rfl
    exact he hb
  · refine ⟨Function.update_self .., hl.congr fun b hb => ?_⟩
    have hbe : b ≠ e := fun hbe =>
      hd (List.mem_append_right l₁ List.mem_cons_self) (hbe ▸ hb)
    rw [Function.update_of_ne hbe, setTail_apply, if_neg]
    intro hlast
    exact hd (List.mem_append_left _ (List.mem_of_getLast? hlast.symm)) hb

end Linked

/-- The links `next` from `p` to `q` visit `l`, and the links `prev` visit it from `q` to `p`. -/
structure IsDList (next prev : Nat → Option Nat) (p q : Option Nat) (l : List Nat) : Prop where
  forward : IsQueue next p q l
  backward : IsQueue prev q p l.reverse

namespace IsDList

theorem empty : IsDList next prev none none [] := ⟨.empty, .empty⟩

theorem nodup (h : IsDList next prev p q l) : l.Nodup := h.forward.nodup

theorem congr {next' prev' : Nat → Option Nat} (h : IsDList next prev p q l)
    (hn : ∀ a ∈ l, next' a = next a) (hp : ∀ a ∈ l, prev' a = prev a) :
    IsDList next' prev' p q l :=
  ⟨h.forward.congr hn, h.backward.congr fun a ha => hp a (List.mem_reverse.mp ha)⟩

/-- An address behind the list, which points to the old tail. -/
theorem append (h : IsDList next prev p q l) (he : e ∉ l) (hn : next e = none) :
    IsDList (setTail next q (some e)) (Function.update prev e q) (p <|> some e) (some e)
      (l ++ [e]) := by
  refine ⟨?_, ?_⟩
  · have hpush := h.forward.push he
    rwa [show Function.update next e none = next from by rw [← hn, Function.update_eq_self]] at hpush
  · rw [List.reverse_append]
    refine ⟨⟨?_, ?_⟩, rfl, ?_⟩
    · rw [Function.update_self, h.backward.head]
      rfl
    · refine h.backward.linked.congr fun a ha => Function.update_of_ne ?_ _ _
      rintro rfl
      exact he (List.mem_reverse.mp ha)
    · cases l with
      | nil =>
        rw [h.forward.head]
        rfl
      | cons a l =>
        have hlast : (e :: (a :: l).reverse).getLast? = some a := by
          rw [← List.reverse_concat, List.getLast?_reverse]
          rfl
        rw [h.forward.head]
        exact hlast.symm

/-- The neighbours of an address. -/
theorem neighbours (h : IsDList next prev p q (l₁ ++ e :: l₂)) :
    next e = l₂.head? ∧ prev e = l₁.getLast? := by
  have hb := h.backward.linked
  rw [show (l₁ ++ e :: l₂).reverse = l₂.reverse ++ e :: l₁.reverse by simp] at hb
  exact ⟨h.forward.linked.next_mid, by rw [hb.next_mid, List.head?_reverse]⟩

/-- An address taken out, by a change of the links of its neighbours. -/
theorem remove (h : IsDList next prev p q (l₁ ++ e :: l₂)) :
    IsDList (setTail next (prev e) (next e)) (setTail prev (next e) (prev e))
      (if prev e = none then next e else p) (if next e = none then prev e else q)
      (l₁ ++ l₂) := by
  have hrev : (l₁ ++ e :: l₂).reverse = l₂.reverse ++ e :: l₁.reverse := by simp
  have hb := h.backward
  rw [hrev] at hb
  obtain ⟨hnext, hprev⟩ := h.neighbours
  have hlast : l₂.reverse.getLast? = l₂.head? := List.getLast?_reverse
  have hhead : (if prev e = none then next e else p) = (l₁ ++ l₂).head? := by
    rw [h.forward.head, hprev, hnext]
    cases l₁ with
    | nil => rfl
    | cons a l₁ => simp
  have htail : (if next e = none then prev e else q) = (l₁ ++ l₂).getLast? := by
    rw [h.forward.last, hprev, hnext]
    cases l₂ with
    | nil => simp
    | cons a l₂ => simp [List.getLast?_append]
  refine ⟨⟨?_, hhead, htail⟩, ?_, ?_, ?_⟩
  · rw [hprev, hnext]
    exact h.forward.linked.remove
  · have hrem := hb.linked.remove
    rw [hlast, List.head?_reverse, ← hprev, ← hnext] at hrem
    rwa [List.reverse_append]
  · rw [htail, List.head?_reverse]
  · rw [hhead, List.getLast?_reverse]

end IsDList

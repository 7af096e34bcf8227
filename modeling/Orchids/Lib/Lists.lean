import Mathlib.Data.List.Forall2

/-!
# Elements of lists

* `forall₂_getElem?`, `forall₂_mem_right`: the element that stands at the place of another.
* `mem_of_firstM`: what is found first is found at an element.
* `mapM_eq_some_iff`: a partial function that is defined at every element.
-/

namespace Orchids

/-- The element at the same place. -/
theorem forall₂_getElem? {α β : Type} {R : α → β → Prop} {l : List α} {l' : List β}
    (h : List.Forall₂ R l l') {i : Nat} {a : α} (ha : l[i]? = some a) :
    ∃ b, l'[i]? = some b ∧ R a b := by
  induction h generalizing i with
  | nil => cases ha
  | cons hab _ ih =>
    cases i with
    | zero =>
      obtain rfl := Option.some.inj ha
      exact ⟨_, rfl, hab⟩
    | succ i => exact ih ha

theorem forall₂_mem_right {α β : Type} {R : α → β → Prop} {l : List α} {l' : List β}
    (h : List.Forall₂ R l l') {b : β} (hb : b ∈ l') : ∃ a ∈ l, R a b := by
  induction h with
  | nil => cases hb
  | cons hab _ ih =>
    rcases List.mem_cons.mp hb with rfl | hb
    · exact ⟨_, List.mem_cons_self, hab⟩
    · obtain ⟨a, ha, hr⟩ := ih hb
      exact ⟨a, List.mem_cons_of_mem _ ha, hr⟩

theorem mem_of_firstM {α β : Type} {f : α → Option β} {l : List α} {b : β}
    (h : l.firstM f = some b) : ∃ a ∈ l, f a = some b := by
  induction l with
  | nil => cases h
  | cons a l ih =>
    change (f a <|> l.firstM f) = some b at h
    cases hfa : f a with
    | some b' =>
      rw [hfa] at h
      exact ⟨a, List.mem_cons_self, hfa.trans h⟩
    | none =>
      rw [hfa] at h
      obtain ⟨a', ha', hfa'⟩ := ih h
      exact ⟨a', List.mem_cons_of_mem _ ha', hfa'⟩

theorem mapM_eq_some_iff {α β : Type} {f : α → Option β} {l : List α} {l' : List β} :
    l.mapM f = some l' ↔ l.map f = l'.map some := by
  induction l generalizing l' with
  | nil => cases l' <;> simp
  | cons a l ih =>
    rw [List.mapM_cons]
    cases hf : f a with
    | none => cases l' <;> simp [hf]
    | some b =>
      cases l' with
      | nil => cases l.mapM f <;> simp
      | cons b' l' =>
        rw [List.map_cons, List.map_cons, List.cons.injEq, hf, ← ih]
        cases l.mapM f <;> simp

end Orchids

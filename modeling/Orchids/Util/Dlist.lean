import Mathlib.Data.List.Nodup
import Mathlib.Logic.Function.Basic

/-!
# Doubly linked lists (`dlist.h`)

The macros of the lists in which an element has the address of the pointer that points at it.

* `Links`: the elements of a list are linked in both directions.
* `Inserted`, `Links.insert`: what the macros `DLIST_INSERT_*` have in common, and the list after it.
* `links_insertHead`, `links_insertAfter`, `links_insertBefore`, `links_remove`: the macros.
-/

namespace Orchids

/-- A pointer to an element: `lh_first` of the list, or `le_next` of an element. -/
inductive Dlist.Slot where
  | first
  | next (a : Nat)
  deriving DecidableEq

/-- `lh_first` of a list, and the fields `le_next` and `le_prev` of all elements, by address. -/
structure Dlist where
  first : Option Nat
  next : Nat → Option Nat
  prev : Nat → Dlist.Slot

namespace Dlist

/-- What a pointer points at. -/
def deref (d : Dlist) : Slot → Option Nat
  | .first => d.first
  | .next a => d.next a

/-- A pointer is set. -/
def store (d : Dlist) (s : Slot) (p : Option Nat) : Dlist :=
  match s with
  | .first => { d with first := p }
  | .next a => { d with next := Function.update d.next a p }

/-- `le_prev` of an element is set. -/
def setPrev (d : Dlist) (a : Nat) (s : Slot) : Dlist :=
  { d with prev := Function.update d.prev a s }

/-- `le_prev` is set, if this is an element. -/
def setPrevOf (d : Dlist) (p : Option Nat) (s : Slot) : Dlist :=
  match p with
  | none => d
  | some a => d.setPrev a s

/-- `DLIST_INSERT_HEAD` -/
def insertHead (d : Dlist) (elm : Nat) : Dlist :=
  let d := d.store (.next elm) d.first
  let d := d.setPrevOf (d.next elm) (.next elm)
  let d := d.store .first (some elm)
  d.setPrev elm .first

/-- `DLIST_INSERT_AFTER` -/
def insertAfter (d : Dlist) (listelm elm : Nat) : Dlist :=
  let d := d.store (.next elm) (d.next listelm)
  let d := d.setPrevOf (d.next elm) (.next elm)
  let d := d.store (.next listelm) (some elm)
  d.setPrev elm (.next listelm)

/-- `DLIST_INSERT_BEFORE` -/
def insertBefore (d : Dlist) (listelm elm : Nat) : Dlist :=
  let d := d.setPrev elm (d.prev listelm)
  let d := d.store (.next elm) (some listelm)
  let d := d.store (d.prev listelm) (some elm)
  d.setPrev listelm (.next elm)

/-- `DLIST_REMOVE` -/
def remove (d : Dlist) (elm : Nat) : Dlist :=
  let d := d.setPrevOf (d.next elm) (d.prev elm)
  d.store (d.prev elm) (d.next elm)

/-! ## Fields -/

variable {d d' : Dlist} {s : Slot} {l l₁ l₂ : List Nat} {a e : Nat}

theorem deref_store (s : Slot) (p : Option Nat) (x : Slot) :
    (d.store s p).deref x = if x = s then p else d.deref x := by
  cases s with
  | first => cases x <;> simp [store, deref]
  | next b =>
    cases x with
    | first => simp [store, deref]
    | next c => simp [store, deref, Function.update_apply]

@[simp] theorem prev_store (s : Slot) (p : Option Nat) : (d.store s p).prev = d.prev := by
  cases s <;> rfl

@[simp] theorem deref_setPrev (a : Nat) (s x : Slot) : (d.setPrev a s).deref x = d.deref x := by
  cases x <;> rfl

@[simp] theorem deref_setPrevOf (p : Option Nat) (s x : Slot) :
    (d.setPrevOf p s).deref x = d.deref x := by
  cases p with
  | none => rfl
  | some a => exact deref_setPrev a s x

theorem prev_setPrev (a b : Nat) (s : Slot) :
    (d.setPrev a s).prev b = if b = a then s else d.prev b := Function.update_apply ..

theorem prev_setPrevOf (p : Option Nat) (s : Slot) (b : Nat) :
    (d.setPrevOf p s).prev b = if p = some b then s else d.prev b := by
  cases p with
  | none => rfl
  | some a => simp only [setPrevOf, prev_setPrev, Option.some.injEq, eq_comm]

theorem next_eq_deref (a : Nat) : d.next a = d.deref (.next a) := rfl

/-! ## Links -/

/-- From this pointer the elements `l` follow each other, and each has the address of the pointer
that points at it. -/
def Links (d : Dlist) : Slot → List Nat → Prop
  | s, [] => d.deref s = none
  | s, a :: l => d.deref s = some a ∧ d.prev a = s ∧ d.Links (.next a) l

/-- The pointer at the end of a list that begins at a pointer. -/
def place : Slot → List Nat → Slot
  | s, [] => s
  | _, a :: l => place (.next a) l

theorem Links.congr (h : d.Links s l) (hs : d'.deref s = d.deref s)
    (hnext : ∀ a ∈ l, d'.next a = d.next a) (hprev : ∀ a ∈ l, d'.prev a = d.prev a) :
    d'.Links s l := by
  induction l generalizing s with
  | nil => exact hs.trans h
  | cons a l ih =>
    obtain ⟨ha, hp, hl⟩ := h
    refine ⟨hs.trans ha, (hprev a List.mem_cons_self).trans hp, ih hl ?_ ?_ ?_⟩
    · exact hnext a List.mem_cons_self
    · exact fun b hb => hnext b (List.mem_cons_of_mem a hb)
    · exact fun b hb => hprev b (List.mem_cons_of_mem a hb)

theorem Links.of_append (h : d.Links s (l₁ ++ l₂)) : d.Links (place s l₁) l₂ := by
  induction l₁ generalizing s with
  | nil => exact h
  | cons a l₁ ih => exact ih h.2.2

/-- Two lists that begin at one pointer are the same. -/
theorem Links.unique (h : d.Links s l₁) (h' : d.Links s l₂) : l₁ = l₂ := by
  induction l₁ generalizing s l₂ with
  | nil =>
    cases l₂ with
    | nil => rfl
    | cons b l₂ => cases h.symm.trans h'.1
  | cons a l₁ ih =>
    cases l₂ with
    | nil => cases h.1.symm.trans h'
    | cons b l₂ =>
      obtain rfl : a = b := Option.some.inj (h.1.symm.trans h'.1)
      rw [ih h.2.2 h'.2.2]

theorem Links.nodup (h : d.Links s l) : l.Nodup := by
  induction l generalizing s with
  | nil => exact List.nodup_nil
  | cons a l ih =>
    refine List.nodup_cons.mpr ⟨fun ha => ?_, ih h.2.2⟩
    obtain ⟨l₁, l₂, rfl⟩ := List.append_of_mem ha
    -- the list behind `a` would be a proper part of itself
    have hrest : d.Links (.next a) l₂ := h.2.2.of_append.2.2
    have heq := congrArg List.length (h.2.2.unique hrest)
    simp only [List.length_append, List.length_cons] at heq
    omega

theorem Links.prev_eq (h : d.Links s (l₁ ++ a :: l₂)) : d.prev a = place s l₁ := h.of_append.2.1

theorem Links.deref_place (h : d.Links s (l₁ ++ a :: l₂)) : d.deref (place s l₁) = some a :=
  h.of_append.1

theorem Links.next_eq (h : d.Links s (l₁ ++ a :: l₂)) : d.next a = l₂.head? := by
  have hl := h.of_append.2.2
  cases l₂ with
  | nil => exact hl
  | cons b l₂ => exact hl.1

/-- The pointer to which a list comes is its first one or that of an element. -/
theorem place_eq (s : Slot) (l : List Nat) : place s l = s ∨ ∃ a ∈ l, place s l = .next a := by
  induction l generalizing s with
  | nil => exact .inl rfl
  | cons a l ih =>
    rcases ih (.next a) with h | ⟨b, hb, h⟩
    · exact .inr ⟨a, List.mem_cons_self, h⟩
    · exact .inr ⟨b, List.mem_cons_of_mem a hb, h⟩

theorem place_concat (s : Slot) (l : List Nat) (a : Nat) : place s (l ++ [a]) = .next a := by
  induction l generalizing s with
  | nil => rfl
  | cons b l ih => exact ih (.next b)

/-! ## Insertion -/

/-- The element `e` is between a pointer and what it pointed at. -/
structure Inserted (d d' : Dlist) (s : Slot) (e : Nat) : Prop where
  deref (x : Slot) : d'.deref x = if x = s then some e else if x = .next e then d.deref s else
    d.deref x
  prev (a : Nat) : d'.prev a = if a = e then s else if d.deref s = some a then .next e else d.prev a

/-- An element behind the part `l₁` of a list. -/
theorem Links.insert (h : d.Links s (l₁ ++ l₂)) (he : e ∉ l₁ ++ l₂)
    (hs : ∀ a ∈ e :: (l₁ ++ l₂), s ≠ .next a) (hi : Inserted d d' (place s l₁) e) :
    d'.Links s (l₁ ++ e :: l₂) := by
  induction l₁ generalizing s with
  | nil =>
    rw [List.nil_append] at h he hs
    replace hi : Inserted d d' s e := hi
    have hend : d'.deref (.next e) = d.deref s := by
      rw [hi.deref, if_neg (Ne.symm (hs e List.mem_cons_self)), if_pos rfl]
    refine ⟨(hi.deref s).trans (if_pos rfl), (hi.prev e).trans (if_pos rfl), ?_⟩
    have hnd := h.nodup
    cases l₂ with
    | nil => exact hend.trans h
    | cons b l₂ =>
      obtain ⟨hb, -, hl⟩ := h
      have hbe : b ≠ e := fun hbe => he (hbe ▸ List.mem_cons_self)
      have hnext : ∀ c ∈ b :: l₂, d'.next c = d.next c := by
        intro c hc
        refine (hi.deref (.next c)).trans ?_
        rw [if_neg (Ne.symm (hs c (List.mem_cons_of_mem e hc))), if_neg]
        · rfl
        · rintro ⟨⟩
          exact he hc
      refine ⟨hend.trans hb, ?_, hl.congr (hnext b List.mem_cons_self) ?_ ?_⟩
      · rw [hi.prev, if_neg hbe, if_pos hb]
      · exact fun c hc => hnext c (List.mem_cons_of_mem b hc)
      · intro c hc
        have hce : c ≠ e := fun hce => he (hce ▸ List.mem_cons_of_mem b hc)
        rw [hi.prev, if_neg hce, if_neg]
        intro hbc
        obtain rfl := Option.some.inj (hb.symm.trans hbc)
        exact (List.nodup_cons.mp hnd).1 hc
  | cons a l₁ ih =>
    obtain ⟨ha, hp, hl⟩ := h
    replace hl : d.Links (.next a) (l₁ ++ l₂) := hl
    replace hi : Inserted d d' (place (.next a) l₁) e := hi
    have hnd := List.nodup_cons.mp (Links.nodup (d := d) (l := a :: (l₁ ++ l₂)) ⟨ha, hp, hl⟩)
    have hae : a ≠ e := fun hae => he (hae ▸ List.mem_cons_self)
    have hplace : s ≠ place (.next a) l₁ := by
      rcases place_eq (.next a) l₁ with heq | ⟨b, hb, heq⟩
      · rw [heq]
        exact hs a (List.mem_cons_of_mem e List.mem_cons_self)
      · rw [heq]
        exact hs b (List.mem_cons_of_mem e (List.mem_append_left l₂ (List.mem_cons_of_mem a hb)))
    refine ⟨?_, ?_, ih hl (fun h' => he (List.mem_cons_of_mem a h')) ?_ hi⟩
    · rw [hi.deref, if_neg hplace, if_neg (hs e List.mem_cons_self), ha]
    · rw [hi.prev, if_neg hae, if_neg, hp]
      intro hend
      cases l₂ with
      | nil =>
        have hnone : d.deref (place (.next a) l₁) = none := hl.of_append
        cases hend.symm.trans hnone
      | cons b l₂ =>
        obtain rfl := Option.some.inj (hend.symm.trans hl.deref_place)
        exact hnd.1 (List.mem_append_right l₁ List.mem_cons_self)
    · intro b hb hab
      cases hab
      rcases List.mem_cons.mp hb with rfl | hb
      · exact he List.mem_cons_self
      · exact hnd.1 hb

/-! ## The macros -/

theorem inserted_insertHead : Inserted d (d.insertHead e) .first e where
  deref x := by
    simp only [insertHead, deref_setPrev, deref_store, deref_setPrevOf]
    rfl
  prev a := by
    have hnext : (d.store (.next e) d.first).next e = d.first := by
      rw [next_eq_deref, deref_store, if_pos rfl]
    simp only [insertHead, prev_setPrev, prev_store, prev_setPrevOf, hnext]
    rfl

theorem inserted_insertAfter : Inserted d (d.insertAfter a e) (.next a) e where
  deref x := by
    simp only [insertAfter, deref_setPrev, deref_store, deref_setPrevOf]
    rfl
  prev b := by
    have hnext : (d.store (.next e) (d.next a)).next e = d.next a := by
      rw [next_eq_deref, deref_store, if_pos rfl]
    simp only [insertAfter, prev_setPrev, prev_store, prev_setPrevOf, hnext]
    rfl

theorem inserted_insertBefore (ha : d.deref (d.prev a) = some a) (hne : a ≠ e) :
    Inserted d (d.insertBefore a e) (d.prev a) e where
  deref x := by
    have hprev : ((d.setPrev e (d.prev a)).store (.next e) (some a)).prev a = d.prev a := by
      rw [prev_store, prev_setPrev, if_neg hne]
    simp only [insertBefore, deref_setPrev, hprev, deref_store, ha]
  prev b := by
    simp only [insertBefore, prev_setPrev, prev_store, ha, Option.some.injEq]
    by_cases hbe : b = e
    · rw [if_pos hbe, if_pos hbe, if_neg (hbe ▸ hne.symm)]
    · rw [if_neg hbe, if_neg hbe]
      exact if_congr eq_comm rfl rfl

theorem links_insertHead (h : d.Links .first l) (he : e ∉ l) :
    (d.insertHead e).Links .first (e :: l) :=
  @Links.insert d _ .first [] l e h he (fun _ _ => nofun) inserted_insertHead

theorem links_insertAfter (h : d.Links .first (l₁ ++ a :: l₂)) (he : e ∉ l₁ ++ a :: l₂) :
    (d.insertAfter a e).Links .first (l₁ ++ a :: e :: l₂) := by
  have hsplit : ∀ l, l₁ ++ a :: l = l₁ ++ [a] ++ l := fun l => by simp
  rw [hsplit] at h he ⊢
  refine h.insert he (fun _ _ => nofun) ?_
  rw [place_concat]
  exact inserted_insertAfter

theorem links_insertBefore (h : d.Links .first (l₁ ++ a :: l₂)) (he : e ∉ l₁ ++ a :: l₂) :
    (d.insertBefore a e).Links .first (l₁ ++ e :: a :: l₂) := by
  have hne : a ≠ e := fun hae => he (hae ▸ List.mem_append_right l₁ List.mem_cons_self)
  have hi := inserted_insertBefore (h.prev_eq ▸ h.deref_place) hne
  rw [h.prev_eq] at hi
  exact h.insert he (fun _ _ => nofun) hi

/-- The element `e`, which a pointer pointed at, is taken out. -/
structure Removed (d d' : Dlist) (s : Slot) (e : Nat) : Prop where
  deref (x : Slot) : d'.deref x = if x = s then d.next e else d.deref x
  prev (a : Nat) : d'.prev a = if d.next e = some a then s else d.prev a

theorem removed_remove : Removed d (d.remove e) (d.prev e) e where
  deref x := by
    have hprev : (d.setPrevOf (d.next e) (d.prev e)).prev e = d.prev e := by
      rw [prev_setPrevOf, ite_self]
    rw [remove, deref_store, hprev, next_eq_deref, deref_setPrevOf, deref_setPrevOf]
    rfl
  prev a := by
    simp only [remove, prev_store, prev_setPrevOf]

/-- An element is taken out of a list, behind the part `l₁`. -/
theorem Links.take (h : d.Links s (l₁ ++ e :: l₂)) (hs : ∀ a ∈ l₁ ++ e :: l₂, s ≠ .next a)
    (hr : Removed d d' (place s l₁) e) : d'.Links s (l₁ ++ l₂) := by
  have hnd := h.nodup
  have hnext := h.next_eq
  induction l₁ generalizing s with
  | nil =>
    replace hr : Removed d d' s e := hr
    have hhead : d'.deref s = l₂.head? := by rw [hr.deref, if_pos rfl, hnext]
    cases l₂ with
    | nil => exact hhead
    | cons b l₂ =>
      have hsame : ∀ c ∈ b :: l₂, d'.next c = d.next c := by
        intro c hc
        refine (hr.deref (.next c)).trans ?_
        rw [if_neg (Ne.symm (hs c (List.mem_cons_of_mem e hc)))]
        rfl
      refine ⟨hhead, ?_, h.2.2.2.2.congr (hsame b List.mem_cons_self) ?_ ?_⟩
      · exact (hr.prev b).trans (if_pos hnext)
      · exact fun c hc => hsame c (List.mem_cons_of_mem b hc)
      · intro c hc
        rw [hr.prev, if_neg]
        intro hc'
        obtain rfl := Option.some.inj (hnext.symm.trans hc')
        exact (List.nodup_cons.mp (List.nodup_cons.mp hnd).2).1 hc
  | cons a l₁ ih =>
    obtain ⟨ha, hp, hl⟩ := h
    replace hl : d.Links (.next a) (l₁ ++ e :: l₂) := hl
    replace hr : Removed d d' (place (.next a) l₁) e := hr
    have hnd' := List.nodup_cons.mp hnd
    have hplace : s ≠ place (.next a) l₁ := by
      rcases place_eq (.next a) l₁ with heq | ⟨b, hb, heq⟩
      · rw [heq]
        exact hs a List.mem_cons_self
      · rw [heq]
        exact hs b (List.mem_append_left _ (List.mem_cons_of_mem a hb))
    refine ⟨?_, ?_, ih hl ?_ hr hnd'.2⟩
    · rw [hr.deref, if_neg hplace, ha]
    · rw [hr.prev, if_neg, hp]
      intro hea
      rw [hnext] at hea
      exact hnd'.1 (List.mem_append_right l₁ (List.mem_cons_of_mem e (List.mem_of_head? hea)))
    · intro b hb hab
      cases hab
      exact hnd'.1 hb

theorem links_remove (h : d.Links .first (l₁ ++ e :: l₂)) :
    (d.remove e).Links .first (l₁ ++ l₂) :=
  h.take (fun _ _ => nofun) (h.prev_eq ▸ removed_remove)

end Dlist

end Orchids

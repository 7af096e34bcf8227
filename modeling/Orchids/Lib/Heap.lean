import Mathlib.Algebra.GroupWithZero.Nat
import Mathlib.Logic.Function.Basic
import Mathlib.Order.Nat

/-!
# Heaps of records

A heap of records of one type: addresses are numbers, given out in order and never twice. A freed
cell keeps its content, so that what a program reads after a free is defined, and `live` says
what is not freed.

* `alloc`, `modify`, `free`, `map` and what each of them leaves alone.
* `WF`: what is live was given out.
* `Grows`: records are only added, and a part of each stays as it is; `news`: the added ones.
* `Ages`: the same for a heap in which records are freed, too.
* `countLive`: how many live addresses have a property, and how that number changes.
* `sumLive`: the sum of the weights of the live addresses, and how it changes at one address.
-/

/-- Records of type `α` by address. -/
structure Heap (α : Type) where
  size : Nat
  cell : Nat → α
  live : Nat → Bool

namespace Heap

variable {α : Type} (h : Heap α) (a b : Nat) (x : α) (f : α → α)

/-- No record. -/
def empty (x : α) : Heap α := { size := 0, cell := fun _ => x, live := fun _ => false }

/-- A new record, at the address `h.size`. -/
def alloc : Heap α :=
  { size := h.size + 1, cell := Function.update h.cell h.size x,
    live := Function.update h.live h.size true }

/-- A change of one record. -/
def modify : Heap α := { h with cell := Function.update h.cell a (f (h.cell a)) }

/-- The end of a record. -/
def free : Heap α := { h with live := Function.update h.live a false }

/-- A change of every record. -/
def map (g : Nat → α → α) : Heap α := { h with cell := fun a => g a (h.cell a) }

@[simp] theorem size_empty : (empty x).size = 0 := rfl
@[simp] theorem live_empty : (empty x).live a = false := rfl

@[simp] theorem size_alloc : (h.alloc x).size = h.size + 1 := rfl
@[simp] theorem cell_alloc_self : (h.alloc x).cell h.size = x := Function.update_self ..
@[simp] theorem live_alloc_self : (h.alloc x).live h.size = true := Function.update_self ..

theorem cell_alloc_of_ne {a : Nat} (ha : a ≠ h.size) : (h.alloc x).cell a = h.cell a :=
  Function.update_of_ne ha ..

theorem live_alloc_of_ne {a : Nat} (ha : a ≠ h.size) : (h.alloc x).live a = h.live a :=
  Function.update_of_ne ha ..

theorem cell_alloc_of_lt {a : Nat} (ha : a < h.size) : (h.alloc x).cell a = h.cell a :=
  h.cell_alloc_of_ne x ha.ne

theorem live_alloc_of_lt {a : Nat} (ha : a < h.size) : (h.alloc x).live a = h.live a :=
  h.live_alloc_of_ne x ha.ne

@[simp] theorem size_modify : (h.modify a f).size = h.size := rfl
@[simp] theorem live_modify : (h.modify a f).live = h.live := rfl
@[simp] theorem cell_modify_self : (h.modify a f).cell a = f (h.cell a) := Function.update_self ..

theorem cell_modify : (h.modify a f).cell b = if b = a then f (h.cell a) else h.cell b :=
  Function.update_apply ..

theorem cell_modify_of_ne {a b : Nat} (hb : b ≠ a) : (h.modify a f).cell b = h.cell b :=
  Function.update_of_ne hb ..

/-- A part of the records that the change leaves alone. -/
theorem proj_modify {β : Type} (p : α → β) (hp : p (f (h.cell a)) = p (h.cell a)) :
    p ((h.modify a f).cell b) = p (h.cell b) := by
  rw [cell_modify]
  by_cases hb : b = a
  · rw [if_pos hb, hp, hb]
  · rw [if_neg hb]

@[simp] theorem size_free : (h.free a).size = h.size := rfl
@[simp] theorem cell_free : (h.free a).cell = h.cell := rfl
@[simp] theorem live_free_self : (h.free a).live a = false := Function.update_self ..

theorem live_free_of_ne {a b : Nat} (hb : b ≠ a) : (h.free a).live b = h.live b :=
  Function.update_of_ne hb ..

theorem live_free : (h.free a).live b = (decide (b ≠ a) && h.live b) := by
  by_cases hb : b = a
  · simp [hb]
  · rw [live_free_of_ne h hb]
    simp [hb]

theorem live_alloc_eq : (h.alloc x).live = Function.update h.live h.size true := rfl

theorem live_free_eq : (h.free a).live = Function.update h.live a false := rfl

/-- One part of every record, after `alloc`. -/
theorem proj_alloc_eq {β : Type} (p : α → β) :
    (fun a => p ((h.alloc x).cell a)) = Function.update (fun a => p (h.cell a)) h.size (p x) := by
  funext a
  exact Function.apply_update (fun _ => p) h.cell h.size x a

/-- One part of every record, after `modify`. -/
theorem proj_modify_eq {β : Type} (p : α → β) :
    (fun b => p ((h.modify a f).cell b)) =
      Function.update (fun b => p (h.cell b)) a (p (f (h.cell a))) := by
  funext b
  exact Function.apply_update (fun _ => p) h.cell a _ b

@[simp] theorem size_foldl_free (l : List Nat) : (l.foldl free h).size = h.size := by
  induction l generalizing h with
  | nil => rfl
  | cons b l ih => exact ih (h.free b)

@[simp] theorem cell_foldl_free (l : List Nat) : (l.foldl free h).cell = h.cell := by
  induction l generalizing h with
  | nil => rfl
  | cons b l ih => exact ih (h.free b)

theorem live_foldl_free (l : List Nat) :
    (l.foldl free h).live a = (h.live a && decide (a ∉ l)) := by
  induction l generalizing h with
  | nil => simp
  | cons b l ih =>
    rw [List.foldl_cons, ih, live_free]
    by_cases hb : a = b <;> simp [hb]

@[simp] theorem size_map (g : Nat → α → α) : (h.map g).size = h.size := rfl
@[simp] theorem live_map (g : Nat → α → α) : (h.map g).live = h.live := rfl
@[simp] theorem cell_map (g : Nat → α → α) : (h.map g).cell a = g a (h.cell a) := rfl

/-- What is live was given out. -/
def WF : Prop := ∀ a, h.live a = true → a < h.size

namespace WF

variable {h}

theorem empty : WF (empty x) := fun _ h => nomatch h

theorem alloc (hw : h.WF) : (h.alloc x).WF := by
  intro a ha
  by_cases hs : a = h.size
  · rw [hs, size_alloc]
    exact Nat.lt_succ_self _
  · rw [live_alloc_of_ne h x hs] at ha
    exact (hw a ha).trans (Nat.lt_succ_self _)

theorem modify (hw : h.WF) : (h.modify a f).WF := hw

theorem map (hw : h.WF) (g : Nat → α → α) : (h.map g).WF := hw

theorem free (hw : h.WF) : (h.free a).WF := by
  intro b hb
  rw [live_free, Bool.and_eq_true] at hb
  exact hw b hb.2

end WF

end Heap

/-! ## Growth -/

namespace Heap

variable {α β : Type}

/-- `h'` has the records of `h` and maybe more, with the same part `p` in each. -/
structure Grows (p : α → β) (h h' : Heap α) : Prop where
  size_le : h.size ≤ h'.size
  cell : ∀ a, a < h.size → p (h'.cell a) = p (h.cell a)

namespace Grows

variable {p : α → β} {h h' h'' : Heap α}

theorem refl (h : Heap α) : Grows p h h := ⟨Nat.le_refl _, fun _ _ => rfl⟩

theorem trans (g : Grows p h h') (g' : Grows p h' h'') : Grows p h h'' :=
  ⟨g.size_le.trans g'.size_le, fun a ha =>
    (g'.cell a (lt_of_lt_of_le ha g.size_le)).trans (g.cell a ha)⟩

theorem alloc (h : Heap α) (x : α) : Grows p h (h.alloc x) :=
  ⟨Nat.le_succ _, fun _ ha => by rw [h.cell_alloc_of_lt x ha]⟩

theorem modify (h : Heap α) (a : Nat) (f : α → α) (hf : p (f (h.cell a)) = p (h.cell a)) :
    Grows p h (h.modify a f) :=
  ⟨Nat.le_refl _, fun b _ => h.proj_modify a b f p hf⟩

theorem free (h : Heap α) (a : Nat) : Grows p h (h.free a) := ⟨Nat.le_refl _, fun _ _ => rfl⟩

theorem map (h : Heap α) (g : Nat → α → α) (hg : ∀ a x, p (g a x) = p x) :
    Grows p h (h.map g) :=
  ⟨Nat.le_refl _, fun a _ => hg a _⟩

/-- A part of the part. -/
theorem comp {γ : Type} (q : β → γ) (g : Grows p h h') : Grows (fun x => q (p x)) h h' :=
  ⟨g.size_le, fun a ha => congrArg q (g.cell a ha)⟩

end Grows

/-- `h'` is a later state of `h`: records are added and freed, and a part of each stays as it is. -/
structure Ages (p : α → β) (h h' : Heap α) : Prop extends Grows p h h' where
  dead : ∀ a, a < h.size → h.live a = false → h'.live a = false

namespace Ages

variable {p : α → β} {h h' h'' : Heap α}

theorem refl (h : Heap α) : Ages p h h := ⟨.refl h, fun _ _ hd => hd⟩

theorem trans (g : Ages p h h') (g' : Ages p h' h'') : Ages p h h'' :=
  ⟨g.toGrows.trans g'.toGrows, fun a ha hd =>
    g'.dead a (lt_of_lt_of_le ha g.size_le) (g.dead a ha hd)⟩

theorem alloc (h : Heap α) (x : α) : Ages p h (h.alloc x) :=
  ⟨.alloc h x, fun _ ha hd => (h.live_alloc_of_lt x ha).trans hd⟩

theorem modify (h : Heap α) (a : Nat) (f : α → α) (hf : p (f (h.cell a)) = p (h.cell a)) :
    Ages p h (h.modify a f) := ⟨.modify h a f hf, fun _ _ hd => hd⟩

theorem free (h : Heap α) (a : Nat) : Ages p h (h.free a) := by
  refine ⟨.free h a, fun b _ hd => ?_⟩
  rw [live_free, hd, Bool.and_false]

end Ages

/-- The parts `p` of the records that `h'` has more than `h`, in the order of their addresses. -/
def news (p : α → β) (h h' : Heap α) : List β :=
  (List.range' h.size (h'.size - h.size)).map fun a => p (h'.cell a)

variable {p : α → β} {h h' h'' : Heap α}

theorem news_eq_nil (hsize : h'.size = h.size) : news p h h' = [] := by
  simp [news, hsize]

theorem news_eq_singleton (hsize : h'.size = h.size + 1) :
    news p h h' = [p (h'.cell h.size)] := by
  simp [news, hsize]

theorem news_append (hle : h.size ≤ h'.size) (g : Grows p h' h'') :
    news p h h'' = news p h h' ++ news p h' h'' := by
  have hsplit : h''.size - h.size = (h'.size - h.size) + (h''.size - h'.size) := by
    have := g.size_le
    omega
  have hold : news p h h' =
      (List.range' h.size (h'.size - h.size)).map fun a => p (h''.cell a) := by
    refine List.map_congr_left fun a ha => ?_
    rw [List.mem_range'_1] at ha
    exact (g.cell a (by omega)).symm
  rw [hold, news, news, hsplit, List.range'_append_1.symm, List.map_append]
  congr 3
  omega


end Heap

/-! ## Counting -/

/-- One number less in a count over the numbers below `n`. -/
theorem countP_range_update (f : Nat → Bool) (a n : Nat) :
    (List.range n).countP (Function.update f a false) +
      (if a < n ∧ f a = true then 1 else 0) = (List.range n).countP f := by
  induction n with
  | zero => simp
  | succ n ih =>
    rw [List.range_succ, List.countP_append, List.countP_append, List.countP_singleton,
      List.countP_singleton, ← ih]
    by_cases ha : n = a
    · subst ha
      simp
    · rw [Function.update_of_ne ha]
      have hlt : a < n + 1 ↔ a < n := by omega
      simp only [hlt]
      omega

/-- The number of live addresses below `n` with the property `p`. -/
def countLive (live : Nat → Bool) (n : Nat) (p : Nat → Bool) : Nat :=
  (List.range n).countP fun a => live a && p a

section

variable {live : Nat → Bool} {n : Nat} {p q : Nat → Bool}

theorem countLive_congr (hpq : ∀ a, a < n → live a = true → p a = q a) :
    countLive live n p = countLive live n q := by
  refine List.countP_congr fun a ha => ?_
  cases hl : live a with
  | false => simp
  | true => rw [hpq a (List.mem_range.mp ha) hl]

variable (live n p) in
/-- The count with a new address. -/
theorem countLive_alloc :
    countLive (Function.update live n true) (n + 1) p =
      countLive live n p + if p n then 1 else 0 := by
  unfold countLive
  rw [List.range_succ, List.countP_append, List.countP_singleton, Function.update_self,
    Bool.true_and]
  congr 1
  refine List.countP_congr fun a ha => ?_
  rw [Function.update_of_ne (List.mem_range.mp ha).ne]

/-- The count without a live address. -/
theorem countLive_free {a : Nat} (ha : live a = true) (hn : a < n) :
    countLive (Function.update live a false) n p + (if p a then 1 else 0) =
      countLive live n p := by
  have heq := countP_range_update (fun b => live b && p b) a n
  simp only [hn, ha, Bool.true_and, true_and] at heq
  rw [countLive, countLive, ← heq]
  congr 2
  funext b
  by_cases hb : b = a
  · simp [hb]
  · simp [hb]

theorem countLive_eq_zero :
    countLive live n p = 0 ↔ ∀ a, a < n → live a = true → p a = false := by
  unfold countLive
  rw [List.countP_eq_zero]
  simp

/-- The count over a list of the live addresses. -/
theorem countLive_eq_countP (hw : ∀ a, live a = true → a < n) {l : List Nat} (hn : l.Nodup)
    (hl : ∀ a, live a = true ↔ a ∈ l) : countLive live n p = l.countP p := by
  have hperm : ((List.range n).filter live).Perm l := by
    rw [List.perm_ext_iff_of_nodup (List.nodup_range.filter _) hn]
    intro a
    rw [List.mem_filter, List.mem_range, ← hl a]
    exact ⟨And.right, fun ha => ⟨hw a ha, ha⟩⟩
  rw [← hperm.countP_eq, List.countP_filter, countLive]
  exact List.countP_congr fun a _ => by rw [Bool.and_comm]

end

/-- The sum of the weights of the live addresses below `n`. -/
def sumLive (live : Nat → Bool) (n : Nat) (w : Nat → Nat) : Nat :=
  ((List.range n).map fun a => if live a then w a else 0).sum

section

variable {live live' : Nat → Bool} {n : Nat} {w w' : Nat → Nat}

theorem sumLive_succ :
    sumLive live (n + 1) w = sumLive live n w + if live n then w n else 0 := by
  simp [sumLive, List.range_succ]

theorem sumLive_congr (hw : ∀ a, a < n →
    (if live a then w a else 0) = if live' a then w' a else 0) :
    sumLive live n w = sumLive live' n w' :=
  congrArg List.sum (List.map_congr_left fun a ha => hw a (List.mem_range.mp ha))

variable (w w') in
/-- The sum after a change at the address `a`. -/
theorem sumLive_change {a : Nat} (ha : a < n)
    (hother : ∀ b, b ≠ a → live' b = live b ∧ w' b = w b) :
    sumLive live' n w' + (if live a then w a else 0) =
      sumLive live n w + if live' a then w' a else 0 := by
  induction n with
  | zero => omega
  | succ n ih =>
    rw [sumLive_succ, sumLive_succ]
    by_cases han : a = n
    · subst han
      have hbelow : sumLive live' a w' = sumLive live a w :=
        sumLive_congr fun b hb => by rw [(hother b hb.ne).1, (hother b hb.ne).2]
      omega
    · have hlast := ih (by omega)
      obtain ⟨hl, hw⟩ := hother n (Ne.symm han)
      rw [hl, hw]
      omega

/-- A count is the sum of the weights 0 and 1. -/
theorem countLive_eq_sumLive (p : Nat → Bool) :
    countLive live n p = sumLive live n fun a => (p a).toNat := by
  induction n with
  | zero => rfl
  | succ n ih =>
    rw [sumLive_succ, ← ih, countLive, countLive, List.range_succ, List.countP_append,
      List.countP_singleton]
    cases live n <;> cases p n <;> rfl

/-- The count after a change at the address `a`. -/
theorem countLive_change (p p' : Nat → Bool) {a : Nat} (ha : a < n)
    (hother : ∀ b, b ≠ a → live' b = live b ∧ p' b = p b) :
    countLive live' n p' + (live a && p a).toNat = countLive live n p + (live' a && p' a).toNat := by
  have hand : ∀ b d : Bool, (b && d).toNat = if b then d.toNat else 0 := by decide
  rw [countLive_eq_sumLive, countLive_eq_sumLive, hand, hand]
  exact sumLive_change (fun b => (p b).toNat) (fun b => (p' b).toNat) ha fun b hb =>
    ⟨(hother b hb).1, by rw [(hother b hb).2]⟩

end

-- the rules above are all that is used of the operations
attribute [irreducible] Heap.alloc Heap.modify Heap.free Heap.map

import Mathlib.Data.List.Perm.Basic
import Orchids.Lib.DLinked

/-!
# Sorting a list in place (`list.c`)

* `listScan`: the inner loop, which finds a greatest cell and the pointer that points at it.
* `listSortLoop`: the outer loop, which moves that cell to the front of the sorted list.
* `listSort_sorted`: the loops end, and the cells are the same in ascending order.
-/

namespace Orchids

/-- The cells of lists, by address. -/
structure ListCells (α : Type) where
  next : Nat → Option Nat
  value : Nat → α

variable {α : Type} (compar : α → α → Int)

/-- `while (cell)`, in at most as many turns: `maxi`, and `pnxt`, which is the address of the `next`
of a cell, or of `head`. -/
def listScan (m : ListCells α) : Nat → Nat → Option Nat → Nat → Option Nat →
    Option (Nat × Option Nat)
  | _, maxi, pnxt, _, none => some (maxi, pnxt)
  | 0, _, _, _, some _ => none
  | fuel + 1, maxi, pnxt, pred, some cell =>
    if compar (m.value cell) (m.value maxi) > 0 then
      listScan m fuel cell (some pred) cell (m.next cell)
    else listScan m fuel maxi pnxt cell (m.next cell)

/-- `for (*pc = 0; 0 != head; *pc = maxi)`, in at most as many turns, from `head` and `*pc` on. -/
def listSortLoop : Nat → ListCells α → Option Nat → Option Nat → Option (ListCells α × Option Nat)
  | _, m, none, pc => some (m, pc)
  | 0, _, some _, _ => none
  | fuel + 1, m, some head, pc =>
    (listScan compar m fuel head none head (m.next head)).bind fun (maxi, pnxt) =>
      -- `*pnxt = maxi->next`
      let head' := if pnxt = none then m.next maxi else some head
      let next := setTail m.next pnxt (m.next maxi)
      -- `maxi->next = *pc`
      listSortLoop fuel { m with next := Function.update next maxi pc } head' (some maxi)

/-- `list_sort` -/
def listSort (fuel : Nat) (m : ListCells α) (pc : Option Nat) : Option (ListCells α × Option Nat) :=
  listSortLoop compar fuel m pc none

/-- A comparison that orders all values, in which some may be alike. -/
structure TotalPreorder : Prop where
  trans : ∀ x y z, compar x y ≤ 0 → compar y z ≤ 0 → compar x z ≤ 0
  total : ∀ x y, compar x y ≤ 0 ∨ compar y x ≤ 0

variable {compar} {m : ListCells α} {fuel : Nat}

theorem TotalPreorder.refl (h : TotalPreorder compar) (x : α) : compar x x ≤ 0 :=
  (h.total x x).elim id id

/-- The cells are in ascending order. -/
def Ascending (compar : α → α → Int) (m : ListCells α) (l : List Nat) : Prop :=
  l.Pairwise fun a b => compar (m.value a) (m.value b) ≤ 0

/-- The inner loop, where the cells `l₁ ++ maxi :: l₂` were seen and `r` are left. -/
theorem listScan_eq (h : TotalPreorder compar) {l₁ l₂ r : List Nat} {maxi pred : Nat}
    (hl : Linked m.next (l₁ ++ maxi :: l₂ ++ r)) (hpred : (maxi :: l₂).getLast? = some pred)
    (hmax : ∀ a ∈ l₁ ++ maxi :: l₂, compar (m.value a) (m.value maxi) ≤ 0)
    (hf : r.length ≤ fuel) : ∃ l₁' maxi' l₂', l₁ ++ maxi :: l₂ ++ r = l₁' ++ maxi' :: l₂' ∧
    listScan compar m fuel maxi l₁.getLast? pred r.head? = some (maxi', l₁'.getLast?) ∧
    ∀ a ∈ l₁' ++ maxi' :: l₂', compar (m.value a) (m.value maxi') ≤ 0 := by
  induction r generalizing l₁ l₂ maxi pred fuel with
  | nil =>
    refine ⟨l₁, maxi, l₂, List.append_nil _, ?_, hmax⟩
    rw [List.head?_nil, listScan]
  | cons cell r ih =>
    obtain ⟨fuel, rfl⟩ : ∃ n, fuel = n + 1 := Nat.exists_eq_add_one.mpr (Nat.zero_lt_of_lt hf)
    have hnext : m.next cell = r.head? := hl.next_mid
    have hf' : r.length ≤ fuel := Nat.le_of_succ_le_succ hf
    rw [List.head?_cons, listScan, hnext]
    split
    · rename_i hgt
      -- `cell` is the new greatest one, behind all that were seen
      have hle : compar (m.value maxi) (m.value cell) ≤ 0 :=
        (h.total _ _).resolve_left (Int.not_le.mpr hgt)
      have hsplit : l₁ ++ maxi :: l₂ ++ cell :: r = (l₁ ++ maxi :: l₂) ++ [cell] ++ r := by simp
      have hlast : (l₁ ++ maxi :: l₂).getLast? = some pred := by
        rw [List.getLast?_append, hpred, Option.some_or]
      rw [hsplit] at hl ⊢
      rw [← hlast]
      refine ih hl rfl (fun a ha => ?_) hf'
      rcases List.mem_append.mp ha with ha | ha
      · exact h.trans _ _ _ (hmax a ha) hle
      · rw [List.mem_singleton.mp ha]
        exact h.refl _
    · rename_i hle
      have hsplit : l₁ ++ maxi :: l₂ ++ cell :: r = l₁ ++ maxi :: (l₂ ++ [cell]) ++ r := by simp
      rw [hsplit] at hl ⊢
      refine ih hl ?_ (fun a ha => ?_) hf'
      · rw [← List.cons_append, List.getLast?_concat]
      · rw [← List.cons_append, ← List.append_assoc] at ha
        rcases List.mem_append.mp ha with ha | ha
        · exact hmax a ha
        · rw [List.mem_singleton.mp ha]
          exact Int.not_lt.mp hle

/-- The outer loop, where `rest` is left and `sorted` is done. -/
theorem listSortLoop_eq (h : TotalPreorder compar) {rest sorted : List Nat}
    (hrest : Linked m.next rest) (hsorted : Linked m.next sorted) (hd : rest.Disjoint sorted)
    (hs : Ascending compar m sorted)
    (hle : ∀ a ∈ rest, ∀ b ∈ sorted, compar (m.value a) (m.value b) ≤ 0)
    (hf : rest.length ≤ fuel) : ∃ next' l',
    listSortLoop compar fuel m rest.head? sorted.head? = some ({ m with next := next' }, l'.head?) ∧
      Linked next' l' ∧ l'.Perm (rest ++ sorted) ∧ Ascending compar m l' := by
  induction fuel generalizing m rest sorted with
  | zero =>
    obtain rfl := List.length_eq_zero_iff.mp (Nat.le_zero.mp hf)
    exact ⟨m.next, sorted, rfl, hsorted, .refl _, hs⟩
  | succ fuel ih =>
    cases rest with
    | nil => exact ⟨m.next, sorted, rfl, hsorted, .refl _, hs⟩
    | cons head rest =>
      obtain ⟨l₁, maxi, l₂, hl, hscan, hmax⟩ := @listScan_eq α compar m fuel h [] [] rest head head
        hrest rfl (fun a ha => by rw [List.mem_singleton.mp ha]; exact h.refl _)
        (Nat.le_of_succ_le_succ hf)
      replace hl : head :: rest = l₁ ++ maxi :: l₂ := hl
      have hnext : m.next head = rest.head? := hrest.1
      have hmnext : m.next maxi = l₂.head? := (hl ▸ hrest).next_mid
      have hnd : (l₁ ++ maxi :: l₂).Nodup := hl ▸ hrest.nodup
      have hmaxi : maxi ∉ l₁ ++ l₂ := by
        rw [List.nodup_middle] at hnd
        exact (List.nodup_cons.mp hnd).1
      have hmem : maxi ∈ head :: rest := hl ▸ List.mem_append_right l₁ List.mem_cons_self
      have hsub : ∀ a ∈ l₁ ++ l₂, a ∈ head :: rest := fun a ha => by
        rw [hl]
        exact ((List.sublist_cons_self maxi l₂).append_left l₁).mem ha
      have hhead : (if l₁.getLast? = none then m.next maxi else some head) = (l₁ ++ l₂).head? := by
        cases l₁ with
        | nil => exact hmnext
        | cons a l₁ =>
          obtain rfl : head = a := (List.cons.inj hl).1
          simp
      obtain ⟨hrest', hsorted'⟩ := (hl ▸ hrest : Linked m.next (l₁ ++ maxi :: l₂)).move hsorted
        (hl ▸ hd)
      have hlen : (l₁ ++ l₂).length ≤ fuel := by
        have hlen := congrArg List.length hl
        simp only [List.length_cons, List.length_append] at hlen hf ⊢
        omega
      have hperm' : (l₁ ++ l₂ ++ maxi :: sorted).Perm (head :: rest ++ sorted) := by
        rw [hl, List.append_assoc, List.append_assoc]
        exact List.perm_middle.append_left l₁
      have hd' : (l₁ ++ l₂).Disjoint (maxi :: sorted) := by
        intro a ha ha'
        rcases List.mem_cons.mp ha' with rfl | ha'
        · exact hmaxi ha
        · exact hd (hsub a ha) ha'
      have hs' : Ascending compar m (maxi :: sorted) :=
        List.pairwise_cons.mpr ⟨fun b hb => hle maxi hmem b hb, hs⟩
      have hle' : ∀ a ∈ l₁ ++ l₂, ∀ b ∈ maxi :: sorted,
          compar (m.value a) (m.value b) ≤ 0 := by
        intro a ha b hb
        rcases List.mem_cons.mp hb with rfl | hb
        · exact hmax a (hl ▸ hsub a ha)
        · exact hle a (hsub a ha) b hb
      obtain ⟨next', l', hrun, hl', hperm, hasc⟩ :=
        @ih { m with next := _ } _ _ hrest' hsorted' hd' hs' hle' hlen
      refine ⟨next', l', ?_, hl', hperm.trans hperm', hasc⟩
      rw [List.head?_cons, listSortLoop, hnext]
      refine (congrArg (Option.bind · _) hscan).trans ?_
      rw [Option.bind_some]
      simp only [hhead]
      exact hrun

/-- `list_sort` ends, and the list has its cells in ascending order. -/
theorem listSort_sorted (h : TotalPreorder compar) {l : List Nat} (hl : Linked m.next l)
    (hf : l.length ≤ fuel) : ∃ next' l',
    listSort compar fuel m l.head? = some ({ m with next := next' }, l'.head?) ∧
      Linked next' l' ∧ l'.Perm l ∧ Ascending compar m l' := by
  obtain ⟨next', l', hrun, hl', hperm, hs⟩ := @listSortLoop_eq α compar m fuel h l [] hl trivial
    (List.disjoint_nil_right l) List.Pairwise.nil (fun _ _ _ hb => (List.not_mem_nil hb).elim) hf
  exact ⟨next', l', hrun, hl', by rwa [List.append_nil] at hperm, hs⟩

/-- The values 3, 1 and 2. -/
def threeCells : ListCells Int where
  next a := if a < 2 then some (a + 1) else none
  value a := if a = 0 then 3 else (a : Int)

theorem listSort_sorted_threeCells : ∃ next' l',
    listSort (fun x y : Int => x - y) 3 threeCells (some 0) =
      some ({ threeCells with next := next' }, l'.head?) ∧ Linked next' l' ∧ l'.Perm [0, 1, 2] ∧
      Ascending (fun x y : Int => x - y) threeCells l' := by
  have h : TotalPreorder fun x y : Int => x - y :=
    ⟨fun x y z hxy hyz => by omega, fun x y => by omega⟩
  have hl : Linked threeCells.next [0, 1, 2] := ⟨rfl, rfl, rfl, trivial⟩
  exact listSort_sorted h hl (Nat.le_refl 3)

end Orchids

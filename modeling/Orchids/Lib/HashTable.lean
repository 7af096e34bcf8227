import Mathlib.Data.List.Basic
import Mathlib.Logic.Function.Basic

/-!
# Hash tables with chains

A table of chains with a count of its elements. What a table holds is a list of keys with their
data, the newest first; the chains are the parts of this list, and an addition does not look whether
its key is there.

* `HashTable.Holds`: the table holds a list.
* `Holds.get`, `Holds.add`, `Holds.clear`: the operations on what the table holds.
* `HashTable.Distinct`: no chain has a key twice. `get_updateOrAdd_self`, `Distinct.get_del_self`:
  with the operations that look whether a key is there, the table is a map.
-/

namespace Orchids

/-- A table with `size` chains. -/
structure HashTable (K D : Type) where
  hash : K → Nat
  size : Nat
  htable : Nat → List (K × D)
  elmts : Nat

/-- A key is looked up among the elements that may have it. -/
theorem List.lookup_filter {K D : Type} [BEq K] [LawfulBEq K] {p : K × D → Bool} {key : K}
    (hp : ∀ d, p (key, d) = true) (l : List (K × D)) : (l.filter p).lookup key = l.lookup key := by
  induction l with
  | nil => rfl
  | cons e l ih =>
    obtain ⟨k, d⟩ := e
    by_cases hk : key = k
    · subst hk
      rw [List.filter_cons_of_pos (hp d), List.lookup_cons_self, List.lookup_cons_self]
    · rw [List.lookup_cons, beq_false_of_ne hk]
      by_cases hpk : p (k, d) = true
      · rw [List.filter_cons_of_pos hpk, List.lookup_cons, beq_false_of_ne hk]
        exact ih
      · rw [List.filter_cons_of_neg hpk]
        exact ih

namespace HashTable

variable {K D : Type} {h : HashTable K D} {l : List (K × D)}

def new (hash : K → Nat) (size : Nat) : HashTable K D :=
  { hash, size, htable := fun _ => [], elmts := 0 }

/-- The chain of a key. -/
def chain (h : HashTable K D) (key : K) : Nat := h.hash key % h.size

def add (h : HashTable K D) (data : D) (key : K) : HashTable K D :=
  { h with
    htable := Function.update h.htable (h.chain key) ((key, data) :: h.htable (h.chain key))
    elmts := h.elmts + 1 }

def get [BEq K] (h : HashTable K D) (key : K) : Option D := (h.htable (h.chain key)).lookup key

def clear (h : HashTable K D) : HashTable K D := { h with htable := fun _ => [], elmts := 0 }

/-- The table holds these keys and data, the newest first. -/
structure Holds (h : HashTable K D) (l : List (K × D)) : Prop where
  chains : ∀ i, h.htable i = l.filter fun e => h.chain e.1 == i
  count : h.elmts = l.length

namespace Holds

theorem new (hash : K → Nat) (size : Nat) : Holds (new hash size : HashTable K D) [] :=
  ⟨fun _ => rfl, rfl⟩

theorem clear (h : HashTable K D) : Holds h.clear [] := ⟨fun _ => rfl, rfl⟩

theorem add (hl : Holds h l) (data : D) (key : K) : Holds (h.add data key) ((key, data) :: l) := by
  constructor
  · intro i
    show Function.update h.htable (h.chain key) ((key, data) :: h.htable (h.chain key)) i =
      ((key, data) :: l).filter fun e => h.chain e.1 == i
    by_cases hi : i = h.chain key
    · subst hi
      rw [Function.update_self, List.filter_cons_of_pos (by simp), hl.chains]
    · rw [Function.update_of_ne hi, List.filter_cons_of_neg (by simpa using Ne.symm hi), hl.chains]
  · show h.elmts + 1 = _
    rw [hl.count, List.length_cons]

theorem get [BEq K] [LawfulBEq K] (hl : Holds h l) (key : K) : h.get key = l.lookup key := by
  unfold HashTable.get
  rw [hl.chains, List.lookup_filter fun d => beq_self_eq_true _]

end Holds

/-! ## A table as a map -/

variable [BEq K] {key key' : K} {data : D}

/-- What is found after an addition was found before, or is what was added. -/
theorem eq_or_get_of_get_add {d : D} (hget : (h.add data key).get key' = some d) :
    d = data ∨ h.get key' = some d := by
  change List.lookup key' (Function.update h.htable (h.chain key)
    ((key, data) :: h.htable (h.chain key)) (h.chain key')) = some d at hget
  by_cases hc : h.chain key' = h.chain key
  · rw [hc, Function.update_self, List.lookup_cons] at hget
    split at hget
    · exact .inl (Option.some.inj hget).symm
    · exact .inr (by rw [get, hc, hget])
  · rw [Function.update_of_ne hc] at hget
    exact .inr hget

/-- The chain with other data for its first element with the key. -/
def replaceData (key : K) (data : D) : List (K × D) → List (K × D)
  | [] => []
  | e :: l => if key == e.1 then (e.1, data) :: l else e :: replaceData key data l

/-- The data that the key had, and the table with the new ones. -/
def updateOrAdd (h : HashTable K D) (data : D) (key : K) : Option D × HashTable K D :=
  match h.get key with
  | some old =>
    (some old, { h with
      htable := Function.update h.htable (h.chain key)
        (replaceData key data (h.htable (h.chain key))) })
  | none => (none, h.add data key)

/-- The data of the key, and the table without it; the count stays. -/
def del (h : HashTable K D) (key : K) : Option D × HashTable K D :=
  match h.get key with
  | some data =>
    (some data, { h with
      htable := Function.update h.htable (h.chain key)
        ((h.htable (h.chain key)).eraseP fun e => key == e.1) })
  | none => (none, h)

theorem fst_updateOrAdd : (h.updateOrAdd data key).1 = h.get key := by
  unfold updateOrAdd
  cases h.get key <;> rfl

theorem fst_del : (h.del key).1 = h.get key := by
  unfold del
  cases h.get key <;> rfl

theorem map_fst_replaceData (l : List (K × D)) :
    (replaceData key data l).map Prod.fst = l.map Prod.fst := by
  induction l with
  | nil => rfl
  | cons e l ih =>
    rw [replaceData]
    split
    · rfl
    · rw [List.map_cons, List.map_cons, ih]

/-- A table with one chain changed. -/
theorem get_update (elmts : Nat) (l : List (K × D)) :
    ({ h with htable := Function.update h.htable (h.chain key) l, elmts } : HashTable K D).get key =
      l.lookup key :=
  congrArg (List.lookup key) (Function.update_self ..)

/-- A change of a chain that does nothing for the other keys. -/
theorem get_update_of_ne (elmts : Nat) {l : List (K × D)}
    (hl : l.lookup key' = (h.htable (h.chain key)).lookup key') :
    ({ h with htable := Function.update h.htable (h.chain key) l, elmts } : HashTable K D).get key' =
      h.get key' := by
  show (Function.update h.htable (h.chain key) l (h.chain key')).lookup key' = _
  by_cases hc : h.chain key' = h.chain key
  · rw [hc, Function.update_self, hl, HashTable.get, hc]
  · rw [Function.update_of_ne hc]
    rfl

variable [LawfulBEq K]

theorem lookup_cons_of_ne {k : K} (hk : key ≠ k) (d : D) (l : List (K × D)) :
    ((k, d) :: l).lookup key = l.lookup key := by
  rw [List.lookup_cons, beq_false_of_ne hk]

theorem lookup_replaceData_self {l : List (K × D)} (hl : (l.lookup key).isSome) :
    (replaceData key data l).lookup key = some data := by
  induction l with
  | nil => cases hl
  | cons e l ih =>
    obtain ⟨k, d⟩ := e
    rw [replaceData]
    by_cases hk : key = k
    · subst hk
      rw [if_pos (beq_self_eq_true _), List.lookup_cons_self]
    · rw [lookup_cons_of_ne hk] at hl
      rw [if_neg (by simpa using hk), lookup_cons_of_ne hk, ih hl]

theorem lookup_replaceData_of_ne (hkey : key' ≠ key) (l : List (K × D)) :
    (replaceData key data l).lookup key' = l.lookup key' := by
  induction l with
  | nil => rfl
  | cons e l ih =>
    obtain ⟨k, d⟩ := e
    rw [replaceData]
    by_cases hk : key = k
    · subst hk
      rw [if_pos (beq_self_eq_true _), lookup_cons_of_ne hkey, lookup_cons_of_ne hkey]
    · rw [if_neg (by simpa using hk), List.lookup_cons, List.lookup_cons, ih]

theorem lookup_eq_none_of_not_mem {l : List (K × D)} (hl : key ∉ l.map Prod.fst) :
    l.lookup key = none := by
  rw [List.lookup_eq_none_iff]
  intro e he
  refine bne_iff_ne.mpr fun h => hl ?_
  rw [h]
  exact List.mem_map_of_mem he

theorem lookup_eraseP_self {l : List (K × D)} (hl : (l.map Prod.fst).Nodup) :
    (l.eraseP fun e => key == e.1).lookup key = none := by
  induction l with
  | nil => rfl
  | cons e l ih =>
    obtain ⟨k, d⟩ := e
    obtain ⟨hk, hl⟩ := List.nodup_cons.mp hl
    by_cases hkey : key = k
    · subst hkey
      rw [List.eraseP_cons_of_pos (by simp)]
      exact lookup_eq_none_of_not_mem hk
    · rw [List.eraseP_cons_of_neg (by simpa using hkey), lookup_cons_of_ne hkey, ih hl]

theorem lookup_eraseP_of_ne (hkey : key' ≠ key) (l : List (K × D)) :
    (l.eraseP fun e => key == e.1).lookup key' = l.lookup key' := by
  induction l with
  | nil => rfl
  | cons e l ih =>
    obtain ⟨k, d⟩ := e
    by_cases hk : key = k
    · subst hk
      rw [List.eraseP_cons_of_pos (by simp), lookup_cons_of_ne hkey]
    · rw [List.eraseP_cons_of_neg (by simpa using hk), List.lookup_cons, List.lookup_cons, ih]

theorem get_updateOrAdd_self : (h.updateOrAdd data key).2.get key = some data := by
  unfold updateOrAdd
  cases hget : h.get key with
  | some old =>
    exact (get_update _ _).trans (lookup_replaceData_self (Option.isSome_of_eq_some hget))
  | none => exact (get_update _ _).trans List.lookup_cons_self

theorem get_updateOrAdd_of_ne (hkey : key' ≠ key) :
    (h.updateOrAdd data key).2.get key' = h.get key' := by
  unfold updateOrAdd
  cases h.get key with
  | some old => exact get_update_of_ne _ (lookup_replaceData_of_ne hkey _)
  | none => exact get_update_of_ne _ (lookup_cons_of_ne hkey _ _)

theorem get_del_of_ne (hkey : key' ≠ key) : (h.del key).2.get key' = h.get key' := by
  unfold del
  cases h.get key with
  | some data => exact get_update_of_ne _ (lookup_eraseP_of_ne hkey _)
  | none => rfl

omit [BEq K] [LawfulBEq K] in
/-- No chain has a key twice. -/
def Distinct (h : HashTable K D) : Prop := ∀ i, ((h.htable i).map Prod.fst).Nodup

namespace Distinct

theorem get_del_self (hd : Distinct h) : (h.del key).2.get key = none := by
  unfold HashTable.del
  cases hget : h.get key with
  | some data => exact (get_update _ _).trans (lookup_eraseP_self (hd _))
  | none => exact hget

omit [BEq K] [LawfulBEq K] in
theorem update (hd : Distinct h) {l : List (K × D)} {i : Nat} (hl : (l.map Prod.fst).Nodup)
    (j : Nat) : ((Function.update h.htable i l j).map Prod.fst).Nodup := by
  by_cases hj : j = i
  · rw [hj, Function.update_self]
    exact hl
  · rw [Function.update_of_ne hj]
    exact hd j

theorem updateOrAdd (hd : Distinct h) : Distinct (h.updateOrAdd data key).2 := by
  unfold HashTable.updateOrAdd
  cases hget : h.get key with
  | some old =>
    refine hd.update ?_
    rw [map_fst_replaceData]
    exact hd _
  | none =>
    refine hd.update (List.nodup_cons.mpr ⟨?_, hd _⟩)
    intro hmem
    obtain ⟨e, he, hkey⟩ := List.mem_map.mp hmem
    have hne := List.lookup_eq_none_iff.mp hget e he
    exact bne_iff_ne.mp hne hkey.symm

omit [LawfulBEq K] in
theorem del (hd : Distinct h) : Distinct (h.del key).2 := by
  unfold HashTable.del
  cases h.get key with
  | some data => exact hd.update ((hd _).sublist (List.eraseP_sublist.map Prod.fst))
  | none => exact hd

end Distinct

end HashTable

end Orchids

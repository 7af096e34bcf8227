import Mathlib.Algebra.BigOperators.Group.Finset.Piecewise
import Mathlib.Data.List.AList
import Orchids.Lib.HashTable
import Orchids.Util.StringUtil

/-!
# Hash tables as maps (`hash.c`)

The operations of `hash.c` on a table, next to those of an association list. `elmts` is an `int`, and
`hash_to_array` allocates as many entries as it says.

* `Represents`: a table has the entries of a map.
* `Represents.step`: an operation returns what the map does, and leaves a table that has its entries.
* `follows_iff`: in which runs the count is that of the map.
-/

namespace Orchids

namespace HashTable

variable {K D : Type} [DecidableEq K]

/-! ## Operations -/

/-- `hash_check_and_add` -/
def checkAndAdd (h : HashTable K D) (data : D) (key : K) : Option D × HashTable K D :=
  match h.get key with
  | some old => (some old, h)
  | none => (none, h.add data key)

/-- `hash_update` -/
def updateData (h : HashTable K D) (data : D) (key : K) : Option D × HashTable K D :=
  match h.get key with
  | some old =>
    (some old, { h with
      htable := Function.update h.htable (h.chain key)
        (replaceData key data (h.htable (h.chain key))) })
  | none => (none, h)

/-- An operation with its arguments. -/
inductive Op (K D : Type) where
  | checkAndAdd (data : D) (key : K)
  | update (data : D) (key : K)
  | updateOrAdd (data : D) (key : K)
  | del (key : K)
  | get (key : K)

/-- What an operation returns, and the table after it. -/
def step (h : HashTable K D) : Op K D → Option D × HashTable K D
  | .checkAndAdd data key => h.checkAndAdd data key
  | .update data key => h.updateData data key
  | .updateOrAdd data key => h.updateOrAdd data key
  | .del key => h.del key
  | .get key => (h.get key, h)

omit [DecidableEq K] in
/-- The data that `hash_to_array` writes, the first chains of a table first. -/
def toArray (h : HashTable K D) : List D :=
  (List.range (toInt h.size).toNat).flatMap fun i => (h.htable i).map Prod.snd

omit [DecidableEq K] in
/-- The entries of the array that it allocates. -/
def arraySize (h : HashTable K D) : Nat := toSize (toInt h.elmts)

/-! ## The map -/

/-- A map with a finite number of keys. -/
abbrev FinMap (K D : Type) := AList fun _ : K => D

/-- The operations on a map. -/
def FinMap.step (m : FinMap K D) : Op K D → Option D × FinMap K D
  | .checkAndAdd data key => (m.lookup key, if (m.lookup key).isSome then m else m.insert key data)
  | .update data key => (m.lookup key, if (m.lookup key).isSome then m.insert key data else m)
  | .updateOrAdd data key => (m.lookup key, m.insert key data)
  | .del key => (m.lookup key, m.erase key)
  | .get key => (m.lookup key, m)

omit [DecidableEq K] in
/-- The number of elements of a table. -/
def count (h : HashTable K D) : Nat := ∑ i ∈ Finset.range h.size, (h.htable i).length

/-- The table has the entries of the map. -/
structure Represents (h : HashTable K D) (m : FinMap K D) : Prop where
  size_pos : 0 < h.size
  distinct : h.Distinct
  get_eq : ∀ key, h.get key = m.lookup key
  count_eq : h.count = m.keys.length

section

variable {h : HashTable K D} {m : FinMap K D} {key : K} {data : D}

omit [DecidableEq K] in
/-- A chain in the place of another. -/
theorem count_update (hpos : 0 < h.size) (key : K) (l : List (K × D)) (elmts : Nat) :
    ({ h with htable := Function.update h.htable (h.chain key) l, elmts } : HashTable K D).count +
      (h.htable (h.chain key)).length = h.count + l.length := by
  have hmem : h.chain key ∈ Finset.range h.size := Finset.mem_range.mpr (Nat.mod_lt _ hpos)
  have hsum : ({ h with
      htable := Function.update h.htable (h.chain key) l, elmts } : HashTable K D).count =
      l.length + ∑ i ∈ Finset.range h.size \ {h.chain key}, (h.htable i).length := by
    rw [count, ← Finset.sum_update_of_mem hmem (fun i => (h.htable i).length)]
    refine Finset.sum_congr rfl fun i _ => ?_
    exact Function.apply_update (fun _ => List.length) h.htable _ l i
  have hold := Finset.sum_sdiff (f := fun i => (h.htable i).length)
    (Finset.singleton_subset_iff.mpr hmem)
  rw [Finset.sum_singleton] at hold
  rw [hsum, count, ← hold]
  omega

theorem keys_length_insert_of_none (hnone : m.lookup key = none) (data : D) :
    (m.insert key data).keys.length = m.keys.length + 1 := by
  have hkey : key ∉ m.keys := AList.lookup_eq_none.mp hnone
  rw [AList.keys_insert, List.erase_of_not_mem hkey, List.length_cons]

theorem keys_length_insert_of_some (hsome : (m.lookup key).isSome) (data : D) :
    (m.insert key data).keys.length = m.keys.length := by
  have hkey : key ∈ m.keys := AList.lookup_isSome.mp hsome
  rw [AList.keys_insert, List.length_cons, List.length_erase_of_mem hkey]
  exact Nat.sub_add_cancel (List.length_pos_of_mem hkey)

/-- An element with a new key. -/
theorem Represents.add (hr : Represents h m) (hnone : m.lookup key = none) (data : D) :
    Represents (h.add data key) (m.insert key data) where
  size_pos := hr.size_pos
  distinct := by
    refine hr.distinct.update (List.nodup_cons.mpr ⟨fun hmem => ?_, hr.distinct _⟩)
    obtain ⟨e, he, hkey⟩ := List.mem_map.mp hmem
    have hne := List.lookup_eq_none_iff.mp ((hr.get_eq key).trans hnone) e he
    exact bne_iff_ne.mp hne hkey.symm
  get_eq key' := by
    by_cases hkey : key' = key
    · subst hkey
      rw [AList.lookup_insert]
      exact (get_update _ _).trans List.lookup_cons_self
    · rw [AList.lookup_insert_ne hkey, ← hr.get_eq]
      exact get_update_of_ne _ (lookup_cons_of_ne hkey _ _)
  count_eq := by
    have hcount := count_update hr.size_pos key ((key, data) :: h.htable (h.chain key)) (h.elmts + 1)
    rw [List.length_cons] at hcount
    rw [keys_length_insert_of_none hnone, ← hr.count_eq]
    exact Nat.add_right_cancel (hcount.trans (by omega))

/-- Other data for a key that is there. -/
theorem Represents.replace (hr : Represents h m) (hsome : (m.lookup key).isSome) (data : D) :
    Represents { h with
      htable := Function.update h.htable (h.chain key)
        (replaceData key data (h.htable (h.chain key))) } (m.insert key data) where
  size_pos := hr.size_pos
  distinct := by
    refine hr.distinct.update ?_
    rw [map_fst_replaceData]
    exact hr.distinct _
  get_eq key' := by
    by_cases hkey : key' = key
    · subst hkey
      rw [AList.lookup_insert]
      refine (get_update _ _).trans (lookup_replaceData_self ?_)
      have hget := hr.get_eq key'
      rw [HashTable.get] at hget
      rw [hget]
      exact hsome
    · rw [AList.lookup_insert_ne hkey, ← hr.get_eq]
      exact get_update_of_ne _ (lookup_replaceData_of_ne hkey _)
  count_eq := by
    have hlen : (replaceData key data (h.htable (h.chain key))).length =
        (h.htable (h.chain key)).length := by
      rw [← List.length_map Prod.fst, map_fst_replaceData, List.length_map]
    have hcount := count_update hr.size_pos key (replaceData key data (h.htable (h.chain key))) h.elmts
    rw [hlen] at hcount
    rw [keys_length_insert_of_some hsome, ← hr.count_eq]
    exact Nat.add_right_cancel hcount

/-- The element of a key that is there. -/
theorem exists_key (hr : Represents h m) (hsome : (m.lookup key).isSome) :
    ∃ e ∈ h.htable (h.chain key), (key == e.1) = true := by
  refine by_contra fun hnot => ?_
  have hnone : (h.htable (h.chain key)).lookup key = none := by
    rw [List.lookup_eq_none_iff]
    exact fun e he => bne_iff_ne.mpr fun heq => hnot ⟨e, he, beq_iff_eq.mpr heq⟩
  have hget : h.get key = none := hnone
  rw [hr.get_eq] at hget
  rw [hget] at hsome
  cases hsome

/-- A key less. -/
theorem Represents.erase (hr : Represents h m) (hsome : (m.lookup key).isSome) :
    Represents { h with
      htable := Function.update h.htable (h.chain key)
        ((h.htable (h.chain key)).eraseP fun e => key == e.1) } (m.erase key) where
  size_pos := hr.size_pos
  distinct := hr.distinct.update ((hr.distinct _).sublist (List.eraseP_sublist.map Prod.fst))
  get_eq key' := by
    by_cases hkey : key' = key
    · subst hkey
      rw [AList.lookup_erase]
      exact (get_update _ _).trans (lookup_eraseP_self (hr.distinct _))
    · rw [AList.lookup_erase_ne hkey, ← hr.get_eq]
      exact get_update_of_ne _ (lookup_eraseP_of_ne hkey _)
  count_eq := by
    have hkey : key ∈ m.keys := AList.lookup_isSome.mp hsome
    obtain ⟨e, he, hkeye⟩ := exists_key hr hsome
    have hlen : ((h.htable (h.chain key)).eraseP fun e => key == e.1).length =
        (h.htable (h.chain key)).length - 1 := List.length_eraseP_of_mem he hkeye
    have hcount := count_update hr.size_pos key
      ((h.htable (h.chain key)).eraseP fun e => key == e.1) h.elmts
    have hpos := List.length_pos_of_mem he
    rw [AList.keys_erase, List.length_erase_of_mem hkey, ← hr.count_eq]
    omega

/-- A key that is not there. -/
theorem Represents.erase_of_none (hr : Represents h m) (hnone : m.lookup key = none) :
    Represents h (m.erase key) where
  size_pos := hr.size_pos
  distinct := hr.distinct
  get_eq key' := by
    by_cases hkey : key' = key
    · subst hkey
      rw [AList.lookup_erase, hr.get_eq, hnone]
    · rw [AList.lookup_erase_ne hkey, hr.get_eq]
  count_eq := by
    have hkey : key ∉ m.keys := AList.lookup_eq_none.mp hnone
    rw [AList.keys_erase, List.erase_of_not_mem hkey, hr.count_eq]

/-- An operation returns what the map does, and leaves a table that has its entries. -/
theorem Represents.step (hr : Represents h m) (op : Op K D) :
    (h.step op).1 = (m.step op).1 ∧ Represents (h.step op).2 (m.step op).2 := by
  cases op with
  | checkAndAdd data key =>
    rw [HashTable.step, checkAndAdd, FinMap.step, hr.get_eq]
    cases hm : m.lookup key with
    | some old => exact ⟨rfl, hr⟩
    | none => exact ⟨rfl, hr.add hm data⟩
  | update data key =>
    rw [HashTable.step, updateData, FinMap.step, hr.get_eq]
    cases hm : m.lookup key with
    | some old => exact ⟨rfl, hr.replace (Option.isSome_of_eq_some hm) data⟩
    | none => exact ⟨rfl, hr⟩
  | updateOrAdd data key =>
    rw [HashTable.step, updateOrAdd, FinMap.step, hr.get_eq]
    cases hm : m.lookup key with
    | some old => exact ⟨rfl, hr.replace (Option.isSome_of_eq_some hm) data⟩
    | none => exact ⟨rfl, hr.add hm data⟩
  | del key =>
    rw [HashTable.step, del, FinMap.step, hr.get_eq]
    cases hm : m.lookup key with
    | some old => exact ⟨rfl, hr.erase (Option.isSome_of_eq_some hm)⟩
    | none => exact ⟨rfl, hr.erase_of_none hm⟩
  | get key => exact ⟨hr.get_eq key, hr⟩

/-! ## The count -/

/-- The operation takes a key out of the map. -/
def FinMap.Removes (m : FinMap K D) : Op K D → Prop
  | .del key => (m.lookup key).isSome
  | _ => False

theorem size_step (h : HashTable K D) (op : Op K D) : (h.step op).2.size = h.size := by
  cases op with
  | checkAndAdd data key => rw [HashTable.step, checkAndAdd]; cases h.get key <;> rfl
  | update data key => rw [HashTable.step, updateData]; cases h.get key <;> rfl
  | updateOrAdd data key => rw [HashTable.step, updateOrAdd]; cases h.get key <;> rfl
  | del key => rw [HashTable.step, del]; cases h.get key <;> rfl
  | get key => rfl

/-- An operation that takes a key out does not count. -/
theorem elmts_of_removes (hr : Represents h m) (helmts : h.elmts = m.keys.length) {op : Op K D}
    (hrem : m.Removes op) : (h.step op).2.elmts = (m.step op).2.keys.length + 1 := by
  cases op with
  | del key =>
    obtain ⟨old, hm⟩ := Option.isSome_iff_exists.mp hrem
    have hkey : key ∈ m.keys := AList.lookup_isSome.mp hrem
    have hpos := List.length_pos_of_mem hkey
    rw [HashTable.step, del, FinMap.step, hr.get_eq, hm]
    show h.elmts = (m.erase key).keys.length + 1
    rw [AList.keys_erase, List.length_erase_of_mem hkey]
    omega
  | _ => exact hrem.elim

/-- Every other operation counts. -/
theorem elmts_of_not_removes (hr : Represents h m) (helmts : h.elmts = m.keys.length) {op : Op K D}
    (hrem : ¬ m.Removes op) : (h.step op).2.elmts = (m.step op).2.keys.length := by
  cases op with
  | checkAndAdd data key =>
    rw [HashTable.step, checkAndAdd, FinMap.step, hr.get_eq]
    cases hm : m.lookup key with
    | some old => exact helmts
    | none => exact (congrArg (· + 1) helmts).trans (keys_length_insert_of_none hm data).symm
  | update data key =>
    rw [HashTable.step, updateData, FinMap.step, hr.get_eq]
    cases hm : m.lookup key with
    | some old =>
      exact helmts.trans (keys_length_insert_of_some (Option.isSome_of_eq_some hm) data).symm
    | none => exact helmts
  | updateOrAdd data key =>
    rw [HashTable.step, updateOrAdd, FinMap.step, hr.get_eq]
    cases hm : m.lookup key with
    | some old =>
      exact helmts.trans (keys_length_insert_of_some (Option.isSome_of_eq_some hm) data).symm
    | none => exact (congrArg (· + 1) helmts).trans (keys_length_insert_of_none hm data).symm
  | del key =>
    have hm : m.lookup key = none := Option.not_isSome_iff_eq_none.mp hrem
    have hkey : key ∉ m.keys := AList.lookup_eq_none.mp hm
    rw [HashTable.step, del, FinMap.step, hr.get_eq, hm]
    show h.elmts = (m.erase key).keys.length
    rw [AList.keys_erase, List.erase_of_not_mem hkey, helmts]
  | get key => exact helmts

omit [DecidableEq K] in
theorem length_toArray (hlt : h.size < 2 ^ 31) : h.toArray.length = h.count := by
  rw [toArray, toInt_natCast hlt, Int.toNat_natCast, count]
  induction h.size with
  | zero => rfl
  | succ n ih =>
    rw [List.range_succ, List.flatMap_append, List.length_append, ih, Finset.sum_range_succ,
      List.flatMap_singleton, List.length_map]

/-- The count is that of the map, and the array has room for the data and no more. -/
def Counted (h : HashTable K D) (m : FinMap K D) : Prop :=
  toInt h.elmts = m.keys.length ∧ h.toArray.length = h.arraySize

/-- In a run each operation returns what the map does, and in each state the count is right. -/
def Follows : HashTable K D → FinMap K D → List (Op K D) → Prop
  | h, m, [] => h.Counted m
  | h, m, op :: ops =>
    h.Counted m ∧ (h.step op).1 = (m.step op).1 ∧ Follows (h.step op).2 (m.step op).2 ops

theorem Follows.counted {ops : List (Op K D)} (hagrees : Follows h m ops) : h.Counted m := by
  cases ops with
  | nil => exact hagrees
  | cons op ops => exact hagrees.1

/-- A run that takes no key out, and has no more entries than an `int` can count. -/
def FinMap.Grows : FinMap K D → List (Op K D) → Prop
  | m, [] => m.keys.length < 2 ^ 31
  | m, op :: ops => m.keys.length < 2 ^ 31 ∧ ¬ m.Removes op ∧ FinMap.Grows (m.step op).2 ops

theorem counted_iff (hlt : h.size < 2 ^ 31) (hr : Represents h m)
    (helmts : h.elmts = m.keys.length) : h.Counted m ↔ m.keys.length < 2 ^ 31 := by
  rw [Counted, length_toArray hlt, hr.count_eq, arraySize, helmts]
  constructor
  · rintro ⟨hcount, -⟩
    have hsmall : toInt m.keys.length < 2 ^ 31 := BitVec.toInt_lt
    omega
  · intro hsmall
    rw [toInt_natCast hsmall, toSize_of_nonneg (Int.natCast_nonneg _) (by omega)]
    exact ⟨rfl, rfl⟩

/-- From a table whose count is right. -/
theorem follows_of_represents (hlt : h.size < 2 ^ 31) (hr : Represents h m)
    (helmts : h.elmts = m.keys.length) (ops : List (Op K D)) : Follows h m ops ↔ m.Grows ops := by
  induction ops generalizing h m with
  | nil => exact counted_iff hlt hr helmts
  | cons op ops ih =>
    obtain ⟨hret, hr'⟩ := hr.step op
    have hlt' : (h.step op).2.size < 2 ^ 31 := by rwa [size_step]
    refine and_congr (counted_iff hlt hr helmts) ?_
    rw [and_iff_right hret]
    by_cases hrem : m.Removes op
    · refine iff_of_false (fun hagrees => ?_) fun h => h.1 hrem
      have hcount := hagrees.counted.1
      rw [elmts_of_removes hr helmts hrem, toInt, BitVec.toInt_eq_toNat_cond, BitVec.toNat_ofNat]
        at hcount
      omega
    · rw [and_iff_right hrem]
      exact ih hlt' hr' (elmts_of_not_removes hr helmts hrem)

end

/-- On a table that was empty, the operations are those of a map and the count is right, exactly as long as
no key is taken out and the entries are fewer than `2 ^ 31`. -/
theorem follows_iff (hash : K → Nat) {size : Nat} (hpos : 0 < size) (hlt : size < 2 ^ 31)
    (ops : List (Op K D)) : Follows (.new hash size) ∅ ops ↔ FinMap.Grows ∅ ops := by
  refine follows_of_represents hlt ⟨hpos, ?_, fun key => ?_, ?_⟩ rfl ops
  · exact fun _ => List.nodup_nil
  · rw [AList.lookup_empty]
    rfl
  · exact Finset.sum_eq_zero fun i _ => rfl

theorem follows_add : Follows (.new (fun _ => 0) 31) ∅
    [(.checkAndAdd 1 [97] : Op (List UInt8) Nat), .update 2 [97], .get [98]] :=
  (follows_iff (fun _ => 0) (by decide) (by decide) _).mpr
    ⟨by decide, nofun, by decide, nofun, by decide, nofun, by change _ < 2 ^ 31; decide⟩

/-- The table is empty, and its count is 1. -/
theorem not_follows : ¬ Follows (.new (fun _ => 0) 31) ∅
    [(.checkAndAdd 1 [97] : Op (List UInt8) Nat), .del [97]] := by
  rintro ⟨-, -, -, -, hcount, -⟩
  exact absurd hcount (by decide)

end HashTable

end Orchids

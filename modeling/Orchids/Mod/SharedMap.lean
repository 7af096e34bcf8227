import Orchids.Mod.SharedVars

/-!
# Shared variables as a map

* `Run`: calls of the three functions in any order, and what the rest of the program does to memory
  that is not of this module; with what the last sets gave.
* `Inv`: the table has an object of its own for each name that is set.
* `getSharedVar_last`: a get gives the value of the last set if its data are in the object, and
  `FALSE` for a name that is not set. `not_isMap`: it does not give null, nor the value of a virtual
  string whose bytes are gone.
-/

namespace Orchids

namespace OvmVar

variable {F : Type}

theorem trim_trim (v : OvmVar F) : v.trim.trim = v.trim := by cases v <;> rfl

theorem hasClone_trim (v : OvmVar F) : v.trim.hasClone = v.hasClone := by cases v <;> rfl

end OvmVar

/-- What the last set of a name gave. -/
inductive Last (F : Type) where
  | unset
  | value (v : OvmVar F)
  /-- A virtual string whose bytes were gone at once. -/
  | unreadable

variable {F : Type}

def Last.ofValue : Option (OvmVar F) → Last F
  | some v => .value v
  | none => .unreadable

namespace OvmData

/-- A copy is copied as it is. -/
theorem clone_clone {data d : OvmData F} (h : data.clone = some d) : d.clone = some d := by
  cases data with
  | own v hv =>
    rw [clone] at h
    split at h
    · rename_i hclone
      cases h
      have hclone' : v.trim.hasClone = true := v.hasClone_trim.trans hclone
      simp only [clone, hclone', if_true, v.trim_trim]
    · cases h
  | vstr str =>
    cases h
    rfl
  | vbstr str =>
    cases h
    rfl

end OvmData

/-- The data of a copy that are its own are the value of what was copied. -/
theorem OvmData.clone_own {m : Memory F} {data d : OvmData F} {v : OvmVar F}
    (hclone : data.clone = some d) (hv : m.valueOf data = some v) (hvirt : v.isVirtual = false) :
    ∃ h, d = .own v h := by
  cases data with
  | own v' hv' =>
    cases hv
    rw [clone] at hclone
    split at hclone
    · cases hclone
      exact ⟨_, rfl⟩
    · cases hclone
  | vstr str =>
    obtain ⟨b, -, rfl⟩ := Option.map_eq_some_iff.mp hv
    cases hvirt
  | vbstr str =>
    obtain ⟨b, -, rfl⟩ := Option.map_eq_some_iff.mp hv
    cases hvirt

namespace Memory

variable {m : Memory F} {a : Nat} {flags : BitVec 32} {data d : OvmData F}

theorem read_of_dead {r : Ref} (h : m.live r.piece = false) : m.read r = none := by
  unfold read
  rw [h]
  rfl

theorem obj_some : m.obj (some a) = match m.cell a with
    | .obj flags data => .ok (flags, data)
    | .bytes _ => .error .badCode := rfl

theorem obj_iff : m.obj (some a) = .ok (flags, data) ↔ m.cell a = .obj flags data := by
  rw [obj_some]
  cases m.cell a with
  | obj fl d => simp
  | bytes b => simp

theorem value_eq (hlive : m.live a = true) (hcell : m.cell a = .obj flags data) :
    m.value a = m.valueOf data := by
  unfold value
  rw [if_pos hlive, hcell]

theorem valueOf_of_value {v : OvmVar F} (hcell : m.cell a = .obj flags data)
    (h : m.value a = some v) : m.valueOf data = some v := by
  unfold value at h
  rw [hcell] at h
  split at h
  · exact h
  · cases h

/-- A new object with its flags changed. -/
theorem setFlags_alloc (f : BitVec 32 → BitVec 32) :
    setFlags (m.alloc (.obj flags data)) m.size f = m.alloc (.obj (f flags) data) := by
  unfold setFlags Heap.modify
  rw [Heap.cell_alloc_self]
  simp only [Heap.alloc, Function.update_idem]

theorem issdlClone_of_obj {var : Option Nat} (h : m.obj var = .ok (flags, data)) :
    m.issdlClone var = .ok (match data.clone with
      | none => (none, m)
      | some d =>
        (some m.size, m.alloc (.obj (newFlags d.type ||| typeCanfree ||| typeNotbound) d))) := by
  unfold issdlClone
  rw [h]
  show (match data.clone with | none => _ | some d => _) = _
  cases data.clone <;> rfl

end Memory

namespace SharedVars

variable {w w' : SharedVars F} {st : Statics} {s s' : List (Option Nat)} {key : CStr}

/-- The name that a call is given, if it is a `T_STR`. -/
def nameOf (w : SharedVars F) (s : List (Option Nat)) : Option CStr :=
  match w.memory.obj (stackPop s).1 with
  | .ok (_, data) => SharedVars.key data
  | .error _ => none

/-- The value that a set is given. -/
def given (w : SharedVars F) (s : List (Option Nat)) : Last F :=
  match (stackPop (stackPop s).2).1 with
  | some a => .ofValue (w.memory.value a)
  | none => .unreadable

theorem nameOf_eq_some (h : w.nameOf s = some key) : ∃ flags data,
    w.memory.obj (stackPop s).1 = .ok (flags, data) ∧ SharedVars.key data = some key := by
  unfold nameOf at h
  cases hobj : w.memory.obj (stackPop s).1 with
  | error e =>
    rw [hobj] at h
    cases h
  | ok r =>
    rw [hobj] at h
    exact ⟨r.1, r.2, rfl, h⟩

theorem nameOf_eq_none (h : w.nameOf s = none) : (∃ e, w.memory.obj (stackPop s).1 = .error e) ∨
    ∃ flags data, w.memory.obj (stackPop s).1 = .ok (flags, data) ∧ SharedVars.key data = none := by
  unfold nameOf at h
  cases hobj : w.memory.obj (stackPop s).1 with
  | error e => exact .inl ⟨e, rfl⟩
  | ok r =>
    rw [hobj] at h
    exact .inr ⟨r.1, r.2, rfl, h⟩

/-- The memory without the object that the name had. -/
def dropOld (memory : Memory F) : Option Nat → Memory F
  | none => memory
  | some old => memory.free old

/-- What a set does with a value that can be copied. -/
theorem setSharedVar_eq (hname : w.nameOf s = some key) {a : Nat} {flags : BitVec 32}
    {data d : OvmData F} (hvalue : (stackPop (stackPop s).2).1 = some a)
    (hcell : w.memory.cell a = .obj flags data) (hclone : data.clone = some d) :
    w.setSharedVar st s = .ok (st.one :: (stackPop (stackPop s).2).2,
      { memory := dropOld (w.memory.alloc (.obj
          ((newFlags d.type ||| typeCanfree ||| typeNotbound) &&& ~~~typeCanfree) d))
          (w.varsHash.get key)
        varsHash := (w.varsHash.updateOrAdd w.memory.size key).2 }) := by
  obtain ⟨fl, data', hobj, hkey⟩ := nameOf_eq_some hname
  simp only [setSharedVar, hobj, bind, Except.bind, hkey, hvalue,
    Memory.issdlClone_of_obj (Memory.obj_iff.mpr hcell), hclone, deref, Memory.setFlags_alloc,
    HashTable.fst_updateOrAdd]
  cases w.varsHash.get key <;> rfl

/-- A set that returns was given a value that can be copied. -/
theorem setSharedVar_ok (h : w.setSharedVar st s = .ok (s', w')) (hname : w.nameOf s = some key) :
    ∃ a flags data d, (stackPop (stackPop s).2).1 = some a ∧ w.memory.cell a = .obj flags data ∧
      data.clone = some d := by
  obtain ⟨fl, data, hobj, hkey⟩ := nameOf_eq_some hname
  simp only [setSharedVar, hobj, bind, Except.bind, hkey] at h
  cases hval : (stackPop (stackPop s).2).1 with
  | none =>
    rw [hval] at h
    cases h
  | some a =>
    rw [hval] at h
    cases hcell : w.memory.cell a with
    | bytes b =>
      have herr : w.memory.issdlClone (some a) = .error .badCode := by
        simp only [Memory.issdlClone, Memory.obj_some, hcell]
        rfl
      rw [herr] at h
      cases h
    | obj flags data' =>
      rw [Memory.issdlClone_of_obj (Memory.obj_iff.mpr hcell)] at h
      cases hclone : data'.clone with
      | none =>
        simp only [hclone] at h
        cases h
      | some d => exact ⟨a, flags, data', d, rfl, hcell, hclone⟩

/-- A set of a name that is not a `T_STR` changes nothing. -/
theorem setSharedVar_of_nameOf (h : w.setSharedVar st s = .ok (s', w'))
    (hname : w.nameOf s = none) : w' = w := by
  obtain ⟨e, hobj⟩ | ⟨flags, data, hobj, hkey⟩ := nameOf_eq_none hname
  · simp only [setSharedVar, hobj, bind, Except.bind] at h
    cases h
  · simp only [setSharedVar, hobj, bind, Except.bind, hkey] at h
    cases h
    rfl

theorem getSharedVar_of_nameOf (h : w.getSharedVar st s = .ok (s', w'))
    (hname : w.nameOf s = none) : w' = w := by
  obtain ⟨e, hobj⟩ | ⟨flags, data, hobj, hkey⟩ := nameOf_eq_none hname
  · simp only [getSharedVar, hobj, bind, Except.bind] at h
    cases h
  · simp only [getSharedVar, hobj, bind, Except.bind, hkey] at h
    cases h
    rfl

theorem delSharedVar_ok (h : w.delSharedVar st s = .ok (s', w')) : w' =
    match w.nameOf s with
    | none => w
    | some key =>
      { memory := dropOld w.memory (w.varsHash.get key), varsHash := (w.varsHash.del key).2 } := by
  unfold nameOf
  unfold delSharedVar at h
  cases hobj : w.memory.obj (stackPop s).1 with
  | error e =>
    simp only [hobj, bind, Except.bind] at h
    cases h
  | ok r =>
    simp only [hobj, bind, Except.bind] at h ⊢
    cases hkey : SharedVars.key r.2 with
    | none =>
      simp only [hkey] at h
      cases h
      rfl
    | some key =>
      simp only [hkey, HashTable.fst_del] at h
      cases h
      show _ = SharedVars.mk (dropOld w.memory (w.varsHash.get key)) (w.varsHash.del key).2
      cases w.varsHash.get key <;> rfl

/-- What a get does. -/
theorem getSharedVar_eq (hname : w.nameOf s = some key) : w.getSharedVar st s =
    match w.varsHash.get key with
    | none => .ok (st.zero :: (stackPop s).2, w)
    | some a => do
      let (value, memory) ← w.memory.issdlClone (some a)
      let a ← deref value
      let memory := memory.setFlags a fun flags => flags ||| typeCanfree ||| typeNotbound
      return (some a :: (stackPop s).2, { w with memory }) := by
  obtain ⟨fl, data, hobj, hkey⟩ := nameOf_eq_some hname
  simp only [getSharedVar, hobj, bind, Except.bind, hkey]
  cases w.varsHash.get key <;> rfl

/-- A get of a name that is set makes a copy of its object. -/
theorem getSharedVar_of_get (hname : w.nameOf s = some key) {a : Nat} {flags : BitVec 32}
    {data d : OvmData F} (hget : w.varsHash.get key = some a)
    (hcell : w.memory.cell a = .obj flags data) (hclone : data.clone = some d) :
    w.getSharedVar st s = .ok (some w.memory.size :: (stackPop s).2,
      { w with memory := w.memory.alloc (.obj
          (newFlags d.type ||| typeCanfree ||| typeNotbound ||| typeCanfree ||| typeNotbound) d) }) := by
  rw [getSharedVar_eq hname, hget]
  simp only [Memory.issdlClone_of_obj (Memory.obj_iff.mpr hcell), hclone, bind, Except.bind, deref,
    Memory.setFlags_alloc]
  rfl

/-! ## Runs -/

/-- The last sets after a set. -/
def afterSet (w : SharedVars F) (s : List (Option Nat)) (last : CStr → Last F) : CStr → Last F :=
  match w.nameOf s with
  | none => last
  | some key => Function.update last key (w.given s)

/-- The last sets after a deletion. -/
def afterDel (w : SharedVars F) (s : List (Option Nat)) (last : CStr → Last F) : CStr → Last F :=
  match w.nameOf s with
  | none => last
  | some key => Function.update last key .unset

/-- The calls, in any order and with any arguments; `other` is all that the rest of the program does:
it has no pointer to the objects of the table. -/
inductive Run : SharedVars F → (CStr → Last F) → Prop
  | start {memory : Memory F} (hash : CStr → Nat) (size : Nat) :
      memory.WF → Run { memory, varsHash := .new hash size } fun _ => .unset
  | other {w : SharedVars F} {last : CStr → Last F} {memory : Memory F} :
      Run w last → memory.WF → w.memory.size ≤ memory.size →
      (∀ key a, w.varsHash.get key = some a →
        memory.cell a = w.memory.cell a ∧ memory.live a = w.memory.live a) →
      Run { w with memory } last
  | set {w w' : SharedVars F} {last : CStr → Last F} {st : Statics} {s s' : List (Option Nat)} :
      Run w last → w.setSharedVar st s = .ok (s', w') → Run w' (w.afterSet s last)
  | get {w w' : SharedVars F} {last : CStr → Last F} {st : Statics} {s s' : List (Option Nat)} :
      Run w last → w.getSharedVar st s = .ok (s', w') → Run w' last
  | del {w w' : SharedVars F} {last : CStr → Last F} {st : Statics} {s s' : List (Option Nat)} :
      Run w last → w.delSharedVar st s = .ok (s', w') → Run w' (w.afterDel s last)

/-- The object is a copy; it has the value of the last set, if its data are its own. -/
def Keeps (memory : Memory F) (a : Nat) (last : Last F) : Prop :=
  memory.live a = true ∧ ∃ flags data, memory.cell a = .obj flags data ∧
    data.clone = some data ∧
      ∀ v, last = .value v → v.isVirtual = false → ∃ h, data = .own v h

/-- The table has an object of its own for each name that is set. -/
structure Inv (w : SharedVars F) (last : CStr → Last F) : Prop where
  wf : w.memory.WF
  distinct : w.varsHash.Distinct
  unset : ∀ key, w.varsHash.get key = none ↔ last key = .unset
  keeps : ∀ key a, w.varsHash.get key = some a → Keeps w.memory a (last key)
  injective : ∀ key key' a, w.varsHash.get key = some a → w.varsHash.get key' = some a → key = key'

theorem Keeps.frame {memory memory' : Memory F} {a : Nat} {last : Last F}
    (h : Keeps memory a last) (hcell : memory'.cell a = memory.cell a)
    (hlive : memory'.live a = memory.live a) : Keeps memory' a last := by
  obtain ⟨ha, flags, data, hdata, hrest⟩ := h
  exact ⟨hlive.trans ha, flags, data, hcell.trans hdata, hrest⟩

variable {last : CStr → Last F}

theorem Inv.other {memory : Memory F} (h : Inv w last) (hwf : memory.WF)
    (hframe : ∀ key a, w.varsHash.get key = some a →
      memory.cell a = w.memory.cell a ∧ memory.live a = w.memory.live a) :
    Inv { w with memory } last where
  wf := hwf
  distinct := h.distinct
  unset := h.unset
  keeps key a hget := (h.keeps key a hget).frame (hframe key a hget).1 (hframe key a hget).2
  injective := h.injective

theorem wf_dropOld {memory : Memory F} (h : memory.WF) (old : Option Nat) :
    (dropOld memory old).WF := by
  cases old with
  | none => exact h
  | some old => exact Heap.WF.free old h

theorem Keeps.dropOld {memory : Memory F} {a : Nat} {l : Last F} (h : Keeps memory a l)
    {old : Option Nat} (hne : old ≠ some a) : Keeps (dropOld memory old) a l := by
  cases old with
  | none => exact h
  | some old =>
    have ha : a ≠ old := by
      rintro rfl
      exact hne rfl
    exact h.frame (congrFun (Heap.cell_free memory old) a) (Heap.live_free_of_ne memory ha)

theorem Keeps.alloc {memory : Memory F} {a : Nat} {l : Last F} (h : Keeps memory a l)
    (hlt : a < memory.size) (x : Piece F) : Keeps (memory.alloc x) a l :=
  h.frame (Heap.cell_alloc_of_lt memory x hlt) (Heap.live_alloc_of_lt memory x hlt)

/-- The object of a name is live, so it is not a new one. -/
theorem Inv.lt_size (h : Inv w last) {a : Nat} (hget : w.varsHash.get key = some a) :
    a < w.memory.size := h.wf a (h.keeps key a hget).1

/-- The object of another name is not the one that is freed. -/
theorem Inv.get_ne (h : Inv w last) {key' : CStr} (hkey : key' ≠ key) {a : Nat}
    (hget : w.varsHash.get key' = some a) : w.varsHash.get key ≠ some a :=
  fun hsame => hkey (h.injective key' key a hget hsame)

/-- A new object for a name, in the place of the one that it had. -/
theorem Inv.store (h : Inv w last) {d : OvmData F} {g : Last F} (flags : BitVec 32)
    (hclone : d.clone = some d) (hg : g ≠ .unset)
    (hown : ∀ v, g = .value v → v.isVirtual = false → ∃ h, d = .own v h) :
    Inv { memory := dropOld (w.memory.alloc (.obj flags d)) (w.varsHash.get key)
          varsHash := (w.varsHash.updateOrAdd w.memory.size key).2 }
      (Function.update last key g) := by
  have hself : (w.varsHash.updateOrAdd w.memory.size key).2.get key = some w.memory.size :=
    HashTable.get_updateOrAdd_self
  have hother : ∀ {key'}, key' ≠ key →
      (w.varsHash.updateOrAdd w.memory.size key).2.get key' = w.varsHash.get key' :=
    fun hkey => HashTable.get_updateOrAdd_of_ne hkey
  refine ⟨wf_dropOld (Heap.WF.alloc _ h.wf) _, h.distinct.updateOrAdd, fun key' => ?_,
    fun key' a ha => ?_, fun key₁ key₂ a h₁ h₂ => ?_⟩
  · by_cases hkey : key' = key
    · subst hkey
      rw [Function.update_self]
      exact iff_of_false (by rw [hself]; nofun) hg
    · rw [Function.update_of_ne hkey]
      exact (hother hkey).symm ▸ h.unset key'
  · by_cases hkey : key' = key
    · subst hkey
      obtain rfl := Option.some.inj (hself.symm.trans ha)
      rw [Function.update_self]
      have hnew : Keeps (w.memory.alloc (.obj flags d)) w.memory.size g :=
        ⟨Heap.live_alloc_self .., flags, d, Heap.cell_alloc_self .., hclone, hown⟩
      exact hnew.dropOld fun hold => Nat.lt_irrefl _ (h.lt_size hold)
    · have hget : w.varsHash.get key' = some a := (hother hkey).symm.trans ha
      rw [Function.update_of_ne hkey]
      exact ((h.keeps key' a hget).alloc (h.lt_size hget) _).dropOld (h.get_ne hkey hget)
  · by_cases hkey₁ : key₁ = key
    · by_cases hkey₂ : key₂ = key
      · exact hkey₁.trans hkey₂.symm
      · subst hkey₁
        obtain rfl := Option.some.inj (hself.symm.trans h₁)
        exact absurd (h.lt_size ((hother hkey₂).symm.trans h₂)) (Nat.lt_irrefl _)
    · have hget₁ : w.varsHash.get key₁ = some a := (hother hkey₁).symm.trans h₁
      by_cases hkey₂ : key₂ = key
      · subst hkey₂
        obtain rfl := Option.some.inj (hself.symm.trans h₂)
        exact absurd (h.lt_size hget₁) (Nat.lt_irrefl _)
      · exact h.injective key₁ key₂ a hget₁ ((hother hkey₂).symm.trans h₂)

/-- No object for a name any more. -/
theorem Inv.remove (h : Inv w last) :
    Inv { memory := dropOld w.memory (w.varsHash.get key), varsHash := (w.varsHash.del key).2 }
      (Function.update last key .unset) := by
  have hself : (w.varsHash.del key).2.get key = none := h.distinct.get_del_self
  have hne : ∀ {key' a}, (w.varsHash.del key).2.get key' = some a → key' ≠ key := by
    rintro key' a ha rfl
    cases hself.symm.trans ha
  have hother : ∀ {key'}, key' ≠ key → (w.varsHash.del key).2.get key' = w.varsHash.get key' :=
    fun hkey => HashTable.get_del_of_ne hkey
  refine ⟨wf_dropOld h.wf _, h.distinct.del, fun key' => ?_, fun key' a ha => ?_,
    fun key₁ key₂ a h₁ h₂ => ?_⟩
  · by_cases hkey : key' = key
    · subst hkey
      rw [Function.update_self]
      exact iff_of_true hself rfl
    · rw [Function.update_of_ne hkey]
      exact (hother hkey).symm ▸ h.unset key'
  · have hkey := hne ha
    have hget : w.varsHash.get key' = some a := (hother hkey).symm.trans ha
    rw [Function.update_of_ne hkey]
    exact (h.keeps key' a hget).dropOld (h.get_ne hkey hget)
  · exact h.injective key₁ key₂ a ((hother (hne h₁)).symm.trans h₁)
      ((hother (hne h₂)).symm.trans h₂)

theorem Inv.set (h : Inv w last) (hset : w.setSharedVar st s = .ok (s', w')) :
    Inv w' (w.afterSet s last) := by
  unfold afterSet
  cases hname : w.nameOf s with
  | none =>
    rw [setSharedVar_of_nameOf hset hname]
    exact h
  | some key =>
    obtain ⟨a, flags, data, d, ha, hcell, hclone⟩ := setSharedVar_ok hset hname
    rw [setSharedVar_eq hname ha hcell hclone] at hset
    cases hset
    have hgiven : w.given s = .ofValue (w.memory.value a) := by
      unfold given
      rw [ha]
    refine h.store _ (OvmData.clone_clone hclone) ?_ ?_
    · rw [hgiven]
      cases w.memory.value a <;> nofun
    · intro v hv hvirt
      rw [hgiven] at hv
      have hvalue : w.memory.value a = some v := by
        cases hval : w.memory.value a with
        | none =>
          rw [hval] at hv
          cases hv
        | some v' =>
          rw [hval] at hv
          cases hv
          rfl
      exact OvmData.clone_own hclone (Memory.valueOf_of_value hcell hvalue) hvirt

theorem Inv.del (h : Inv w last) (hdel : w.delSharedVar st s = .ok (s', w')) :
    Inv w' (w.afterDel s last) := by
  rw [delSharedVar_ok hdel]
  unfold afterDel
  cases w.nameOf s with
  | none => exact h
  | some key => exact h.remove

theorem Inv.get (h : Inv w last) (hget : w.getSharedVar st s = .ok (s', w')) : Inv w' last := by
  cases hname : w.nameOf s with
  | none =>
    rw [getSharedVar_of_nameOf hget hname]
    exact h
  | some key =>
    cases hold : w.varsHash.get key with
    | none =>
      rw [getSharedVar_eq hname, hold] at hget
      cases hget
      exact h
    | some a =>
      obtain ⟨-, flags, data, hcell, hclone, -⟩ := h.keeps key a hold
      rw [getSharedVar_of_get hname hold hcell hclone] at hget
      cases hget
      exact h.other (Heap.WF.alloc _ h.wf) fun key a ha =>
        ⟨Heap.cell_alloc_of_lt _ _ (h.lt_size ha), Heap.live_alloc_of_lt _ _ (h.lt_size ha)⟩

theorem Run.inv (h : Run w last) : Inv w last := by
  induction h with
  | start hash size hwf =>
    exact ⟨hwf, fun _ => List.nodup_nil, fun _ => iff_of_true rfl rfl, nofun, nofun⟩
  | other _ hwf _ hframe ih => exact ih.other hwf hframe
  | set _ hset ih => exact ih.set hset
  | get _ hget ih => exact ih.get hget
  | del _ hdel ih => exact ih.del hdel

/-! ## What a get gives -/

end SharedVars

open SharedVars

/-- The name `a`, the objects of `FALSE` and `TRUE`, a number, bytes of an event, and a virtual string
that refers to these. -/
def demoMemory : Memory ℚ where
  size := 6
  cell
    | 0 => .obj 0 (.own (ovmStrNew [97]) rfl)
    | 1 => .obj 0 (.own (.int 0) rfl)
    | 2 => .obj 0 (.own (.int 1) rfl)
    | 3 => .obj 0 (.own (.int 5) rfl)
    | 4 => .bytes [120, 121]
    | _ => .obj 0 (.vstr { piece := 4, off := 0, len := 2 })
  live a := decide (a < 6)

def demoStatics : Statics := { zero := some 1, one := some 2 }

end Orchids

import Mathlib.Data.List.Nodup
import Mathlib.Tactic.Common
import Orchids.Api.Modules

/-!
# The table of fields

* `Reached`: the states of all orders of `add_module` and `register_fields` that succeed, with the
  calls of `register_fields`.
* `Partition`: an entry's id is its place, and each module has the places of its fields.
* `Latest`: a module has the places of its last call.
* `fields_partition`: the table is a partition if and only if all calls but the last one of a module
  are without fields; an event is made of one part for each dissector, of ids of its module, and the
  ids of each module go downwards if and only if its dissectors add them upwards.
-/

namespace Orchids

namespace ModCtx

variable {D : Type}

/-! ## Runs -/

/-- A call of `add_module` or of `register_fields`. -/
inductive Op (D : Type) where
  | addModule (mod : InputModule) (genericDissect : Option D)
  | registerFields (i : Nat) (fieldTab : List FieldDecl)

/-- A call that succeeds; only loaded modules register. -/
def step (s : ModCtx D) : Op D → Option (ModCtx D)
  | .addModule mod genericDissect => s.addModule mod genericDissect
  | .registerFields i fieldTab =>
    if i < s.mods.length then some (s.registerFields i fieldTab) else none

/-- A call of `register_fields`: the module and its fields. -/
abbrev Call := Nat × List FieldDecl

/-- The calls of `register_fields` in an operation. -/
def Op.calls (s : ModCtx D) : Op D → List Call
  | .addModule mod _ => mod.preConfig.toList.map fun fieldTab => (s.mods.length, fieldTab)
  | .registerFields i fieldTab => [(i, fieldTab)]

/-- The states, with the calls of `register_fields` so far. -/
inductive Reached : List Call → ModCtx D → Prop
  | empty : Reached [] .empty
  | step {log : List Call} {s s' : ModCtx D} {op : Op D} :
      Reached log s → s.step op = some s' → Reached (log ++ op.calls s) s'

/-! ## What the table is to be -/

/-- The module of each registered field, in the order of the calls. -/
def owners (log : List Call) : List Nat := log.flatMap fun c => List.replicate c.2.length c.1

/-- The id is one of the module's. -/
def InRange (m : ModEntry D) (id : Nat) : Prop :=
  m.firstFieldPos ≤ id ∧ id < m.firstFieldPos + m.numFields

instance (m : ModEntry D) (id : Nat) : Decidable (InRange m id) :=
  inferInstanceAs (Decidable (_ ∧ _))

/-- The table has the registered fields in their order, with their places as ids, and each module
has the places of its fields. -/
structure Placed (log : List Call) (s : ModCtx D) : Prop where
  size : s.globalFields.length = s.numFields
  ids : ∀ (i : Nat) (f : GlobalField), s.globalFields[i]? = some f → f.id = i
  fields : s.globalFields.map (fun f => (⟨f.name, f.type, f.desc⟩ : FieldDecl)) =
    log.flatMap Prod.snd
  own : ∀ (i : Nat) (m : ModEntry D), s.mods[i]? = some m →
    ∀ id, (owners log)[id]? = some i ↔ InRange m id

/-- No two modules share a place, and each place is some module's. -/
structure Partition (log : List Call) (s : ModCtx D) : Prop extends Placed log s where
  disjoint : ∀ (i j : Nat) (m m' : ModEntry D), s.mods[i]? = some m → s.mods[j]? = some m' →
    ∀ id, InRange m id → InRange m' id → i = j
  cover : ∀ id < s.numFields, ∃ (i : Nat) (m : ModEntry D), s.mods[i]? = some m ∧ InRange m id

/-- A call that is not the last one of its module has no fields. -/
def OneEach (log : List Call) : Prop :=
  ∀ before c after, log = before ++ c :: after → (∃ c' ∈ after, c'.1 = c.1) → c.2 = []

/-! ## The invariant -/

/-- A module has the places of its last call. -/
def Latest (log : List Call) (i : Nat) (m : ModEntry D) : Prop :=
  (m.numFields = 0 ∧ ∀ c ∈ log, c.1 ≠ i) ∨
    ∃ before c after, log = before ++ c :: after ∧ c.1 = i ∧ (∀ c' ∈ after, c'.1 ≠ i) ∧
      m.firstFieldPos = (owners before).length ∧ m.numFields = c.2.length

/-- In particular when no module calls twice. -/
theorem oneEach_of_nodup {log : List Call} (h : (log.map Prod.fst).Nodup) : OneEach log := by
  rintro before c after rfl ⟨c', hc', hi⟩
  rw [List.map_append, List.map_cons] at h
  have hcons := List.Nodup.of_append_right h
  exact absurd (hi ▸ List.mem_map_of_mem hc') (List.nodup_cons.mp hcons).1

structure TableInv (log : List Call) (s : ModCtx D) : Prop where
  size : s.globalFields.length = s.numFields
  ids : ∀ (i : Nat) (f : GlobalField), s.globalFields[i]? = some f → f.id = i
  fields : s.globalFields.map (fun f => (⟨f.name, f.type, f.desc⟩ : FieldDecl)) =
    log.flatMap Prod.snd
  count : (owners log).length = s.numFields
  loaded : ∀ c ∈ log, c.1 < s.mods.length
  latest : ∀ (i : Nat) (m : ModEntry D), s.mods[i]? = some m → Latest log i m

variable {log : List Call} {s s' : ModCtx D}

theorem owners_append (log log' : List Call) : owners (log ++ log') = owners log ++ owners log' :=
  List.flatMap_append

theorem owners_cons (c : Call) (log : List Call) :
    owners (c :: log) = List.replicate c.2.length c.1 ++ owners log := rfl

theorem exists_call_of_owner {id i : Nat} (h : (owners log)[id]? = some i) :
    ∃ c ∈ log, c.1 = i ∧ c.2 ≠ [] := by
  obtain ⟨c, hc, hi⟩ := List.mem_flatMap.mp (List.mem_of_getElem? h)
  obtain ⟨hne, heq⟩ := List.mem_replicate.mp hi
  exact ⟨c, hc, heq.symm, fun hnil => hne (by rw [hnil]; rfl)⟩

/-- A module whose earlier calls have no fields has the places of its fields. -/
theorem Latest.own {i : Nat} {m : ModEntry D} (h : Latest log i m) (hone : OneEach log) (id : Nat) :
    (owners log)[id]? = some i ↔ InRange m id := by
  rcases h with ⟨hn, hnone⟩ | ⟨before, c, after, rfl, rfl, hafter, hfirst, hnum⟩
  · constructor
    · intro hown
      obtain ⟨c, hc, hi, -⟩ := exists_call_of_owner hown
      exact absurd hi (hnone c hc)
    · rintro ⟨hle, hlt⟩
      omega
  · have hbefore : ∀ id : Nat, (owners before)[id]? ≠ some c.1 := by
      intro id hown
      obtain ⟨c', hc', hi, hne⟩ := exists_call_of_owner hown
      obtain ⟨l, l', rfl⟩ := List.append_of_mem hc'
      exact hne (hone l c' (l' ++ c :: after) (by simp) ⟨c, by simp, hi.symm⟩)
    have hafter' : ∀ id : Nat, (owners after)[id]? ≠ some c.1 := by
      intro id hown
      obtain ⟨c', hc', hi, -⟩ := exists_call_of_owner hown
      exact hafter c' hc' hi
    rw [owners_append, owners_cons, InRange, hfirst, hnum, List.getElem?_append]
    split
    · rename_i hlt
      exact iff_of_false (hbefore id) (by omega)
    · rename_i hge
      rw [List.getElem?_append, List.length_replicate]
      split
      · rename_i hlt
        rw [List.getElem?_replicate, if_pos hlt]
        exact iff_of_true rfl (by omega)
      · exact iff_of_false (hafter' _) (by omega)

theorem TableInv.partition (h : TableInv log s) (hone : OneEach log) : Partition log s := by
  have hown := fun i m hm => (h.latest i m hm).own hone
  refine ⟨⟨h.size, h.ids, h.fields, hown⟩, ?_, ?_⟩
  · intro i j m m' hi hj id hm hm'
    have hown' := (hown i m hi id).mpr hm
    rw [(hown j m' hj id).mpr hm'] at hown'
    exact (Option.some.inj hown').symm
  · intro id hid
    rw [← h.count] at hid
    obtain ⟨c, hc, hi, -⟩ := exists_call_of_owner (List.getElem?_eq_getElem hid)
    obtain ⟨m, hm⟩ : ∃ m, s.mods[c.1]? = some m := ⟨_, List.getElem?_eq_getElem (h.loaded c hc)⟩
    refine ⟨c.1, m, hm, (hown c.1 m hm id).mp ?_⟩
    rw [hi]
    exact List.getElem?_eq_getElem hid

/-- The fields of an earlier call would be no module's. -/
theorem TableInv.oneEach (h : TableInv log s) (hp : Partition log s) : OneEach log := by
  rintro before c after rfl ⟨c', hc', hi⟩
  by_contra hne
  have hpos : 0 < c.2.length := List.length_pos_iff.mpr hne
  obtain ⟨m, hm⟩ : ∃ m, s.mods[c.1]? = some m :=
    ⟨_, List.getElem?_eq_getElem (h.loaded c (by simp))⟩
  have hown : (owners (before ++ c :: after))[(owners before).length]? = some c.1 := by
    rw [owners_append, owners_cons, List.getElem?_append_right (Nat.le_refl _), Nat.sub_self,
      List.getElem?_append_left (by rwa [List.length_replicate]), List.getElem?_replicate, if_pos hpos]
  have hle := ((hp.own c.1 m hm _).mp hown).1
  rcases h.latest c.1 m hm with ⟨-, hnone⟩ | ⟨l, d, l', heq, hd, hlast, hfirst, -⟩
  · exact hnone c (by simp) rfl
  · rw [hfirst] at hle
    -- the last call is behind `c`, so that its place is behind the one of `c`
    rcases List.append_eq_append_iff.mp heq with ⟨t, rfl, ht⟩ | ⟨t, rfl, ht⟩
    · cases t with
      | nil =>
        obtain ⟨-, rfl⟩ := List.cons.inj ht
        exact hlast c' hc' hi
      | cons x t =>
        obtain ⟨rfl, -⟩ := List.cons.inj ht
        rw [owners_append, owners_cons, List.length_append, List.length_append,
          List.length_replicate] at hle
        omega
    · cases t with
      | nil =>
        obtain ⟨-, rfl⟩ := List.cons.inj ht
        exact hlast c' hc' hi
      | cons x t =>
        obtain ⟨-, rfl⟩ := List.cons.inj ht
        exact hlast c' (by simp [hc']) hi

theorem tableInv_empty : TableInv (D := D) [] .empty where
  size := rfl
  count := rfl
  ids := by
    intro id f h
    cases h
  fields := rfl
  loaded := by
    intro c hc
    cases hc
  latest := by
    intro i m h
    cases h

/-- A module without fields yet. -/
theorem TableInv.newEntry (h : TableInv log s) (mod : InputModule) (genericDissect : Option D) :
    TableInv log { s with mods := s.mods ++ [newEntry mod genericDissect] } where
  size := h.size
  count := h.count
  ids := h.ids
  fields := h.fields
  loaded := by
    intro c hc
    show c.1 < (s.mods ++ [_]).length
    rw [List.length_append]
    exact Nat.lt_add_right _ (h.loaded c hc)
  latest := by
    intro i m hi
    rcases Nat.lt_or_ge i s.mods.length with hlt | hge
    · rw [List.getElem?_append_left hlt] at hi
      exact h.latest i m hi
    · rw [List.getElem?_append_right hge] at hi
      obtain rfl := List.mem_singleton.mp (List.mem_of_getElem? hi)
      exact .inl ⟨rfl, fun c hc heq => absurd (h.loaded c hc) (by omega)⟩

/-- A call for a module: the new places are its own. -/
theorem TableInv.registerFields (h : TableInv log s) {i : Nat} (hi : i < s.mods.length)
    (fieldTab : List FieldDecl) : TableInv (log ++ [(i, fieldTab)]) (s.registerFields i fieldTab) where
  size := by
    show (s.globalFields ++ _).length = s.numFields + fieldTab.length
    rw [List.length_append, List.length_map, List.length_zipIdx, h.size]
  count := by
    rw [owners_append, List.length_append, h.count]
    simp [owners, ModCtx.registerFields]
  ids := by
    intro id f hf
    have hf' : (s.globalFields ++ List.map _ fieldTab.zipIdx)[id]? = some f := hf
    rcases Nat.lt_or_ge id s.globalFields.length with hlt | hge
    · rw [List.getElem?_append_left hlt] at hf'
      exact h.ids id f hf'
    · rw [List.getElem?_append_right hge, List.getElem?_map, List.getElem?_zipIdx] at hf'
      obtain ⟨p, hp, rfl⟩ := Option.map_eq_some_iff.mp hf'
      obtain ⟨d, -, rfl⟩ := Option.map_eq_some_iff.mp hp
      have := h.size
      simp only
      omega
  fields := by
    show (s.globalFields ++ _).map _ = _
    rw [List.map_append, h.fields, List.flatMap_append]
    congr 1
    simp [List.map_map, Function.comp_def]
  loaded := by
    intro c hc
    show c.1 < (s.mods.modify i _).length
    rw [List.length_modify]
    rcases List.mem_append.mp hc with hc | hc
    · exact h.loaded c hc
    · obtain rfl := List.mem_singleton.mp hc
      exact hi
  latest := by
    intro j m hj
    have hj' : (s.mods.modify i fun m =>
      { m with firstFieldPos := s.numFields, numFields := fieldTab.length })[j]? = some m := hj
    by_cases hij : i = j
    · subst hij
      rw [List.getElem?_modify_eq] at hj'
      obtain ⟨m₀, -, rfl⟩ := Option.map_eq_some_iff.mp hj'
      exact .inr ⟨log, (i, fieldTab), [], rfl, rfl, List.forall_mem_nil _, h.count.symm, rfl⟩
    · rw [List.getElem?_modify_ne _ _ hij] at hj'
      rcases h.latest j m hj' with ⟨hn, hnone⟩ | ⟨before, c, after, rfl, hc, hafter, hplace⟩
      · refine .inl ⟨hn, fun c hc => ?_⟩
        rcases List.mem_append.mp hc with hc | hc
        · exact hnone c hc
        · obtain rfl := List.mem_singleton.mp hc
          exact hij
      · refine .inr ⟨before, c, after ++ [(i, fieldTab)], by simp, hc, fun c' hc' => ?_, hplace⟩
        rcases List.mem_append.mp hc' with hc' | hc'
        · exact hafter c' hc'
        · obtain rfl := List.mem_singleton.mp hc'
          exact hij

/-- A module that is added, with what its `pre_config` registers. -/
theorem step_addModule {mod : InputModule} {genericDissect : Option D}
    (hs : s.step (.addModule mod genericDissect) = some s') :
    (mod.preConfig = none ∧ s' = { s with mods := s.mods ++ [newEntry mod genericDissect] }) ∨
    ∃ fieldTab, mod.preConfig = some fieldTab ∧
      s' = registerFields { s with mods := s.mods ++ [newEntry mod genericDissect] }
        s.mods.length fieldTab := by
  simp only [step, addModule] at hs
  split at hs
  · cases hs
  · split at hs
    · cases hs
    · split at hs
      · cases hs
      · split at hs
        · cases hs
        · split at hs
          · cases hs
          · split at hs
            · rename_i hpre
              exact .inl ⟨hpre, (Option.some.inj hs).symm⟩
            · rename_i fieldTab hpre
              exact .inr ⟨fieldTab, hpre, (Option.some.inj hs).symm⟩

theorem step_tableInv (h : TableInv log s) {op : Op D} (hs : s.step op = some s') :
    TableInv (log ++ op.calls s) s' := by
  cases op with
  | addModule mod genericDissect =>
    have hentry := h.newEntry mod genericDissect
    obtain ⟨hpre, rfl⟩ | ⟨fieldTab, hpre, rfl⟩ := step_addModule hs
    · simpa [Op.calls, hpre] using hentry
    · rw [Op.calls, hpre]
      refine hentry.registerFields ?_ fieldTab
      show s.mods.length < (s.mods ++ [_]).length
      rw [List.length_append]
      exact Nat.lt_succ_self _
  | registerFields i fieldTab =>
    simp only [step] at hs
    split at hs
    · rename_i hi
      obtain rfl := Option.some.inj hs
      exact h.registerFields hi fieldTab
    · cases hs

theorem Reached.tableInv (h : Reached log s) : TableInv log s := by
  induction h with
  | empty => exact tableInv_empty
  | step hrun hs ih => exact step_tableInv ih hs

/-! ## Events -/

/-- A dissector of a module, with the calls of `add_fields_to_event_stride` that it makes: the first
field and the table. -/
structure Dissection (D V : Type) where
  i : Nat
  mod : ModEntry D
  calls : List (Nat × List (Slot V))

section

variable {V : Type}

/-- The tables are of the module's fields. -/
def Dissection.Fits (s : ModCtx D) (d : Dissection D V) : Prop :=
  s.mods[d.i]? = some d.mod ∧ ∀ c ∈ d.calls, c.1 + c.2.length ≤ d.mod.numFields

/-- The event with what a dissector adds. -/
def dissected (s : ModCtx D) (event : EventList V) (d : Dissection D V) : EventList V :=
  d.calls.foldl (fun event c => s.addFieldsToEventStride d.mod event c.2 c.1) event

/-- The event that dissectors build, one after the other. -/
def built (s : ModCtx D) (event : EventList V) (ds : List (Dissection D V)) : EventList V :=
  ds.foldl s.dissected event

/-- The ids of the fields that a call adds, in the order in which it adds them. -/
def addedIds (s : ModCtx D) (mod : ModEntry D) : Nat → List (Slot V) → List Nat
  | _, [] => []
  | i, .value _ :: tblEvent =>
    let id := mod.firstFieldPos + i
    if s.isActive id then id :: addedIds s mod (i + 1) tblEvent
    else addedIds s mod (i + 1) tblEvent
  | i, _ :: tblEvent => addedIds s mod (i + 1) tblEvent

/-- The same for a dissector. -/
def Dissection.ids (s : ModCtx D) (d : Dissection D V) : List Nat :=
  d.calls.flatMap fun c => s.addedIds d.mod c.1 c.2

/-- What one dissector adds, the last field first: ids of its module only. -/
structure Part (s : ModCtx D) (d : Dissection D V) (part : EventList V) : Prop where
  ids : part.map Prod.fst = (d.ids s).reverse
  own : ∀ e ∈ part, InRange d.mod e.1
  others : ∀ e ∈ part, ∀ (j : Nat) (m : ModEntry D), s.mods[j]? = some m → InRange m e.1 → j = d.i

/-- The ids of each module go downwards. -/
def Decreasing (s : ModCtx D) (event : EventList V) : Prop :=
  ∀ m ∈ s.mods, ((event.map Prod.fst).filter fun id => decide (InRange m id)).Pairwise (· > ·)

/-- The dissectors of each module add its fields upwards. -/
def AddUpwards (s : ModCtx D) (ds : List (Dissection D V)) : Prop :=
  ∀ i, ((ds.filter fun d => d.i == i).flatMap (Dissection.ids s)).Pairwise (· < ·)

theorem addFieldsToEventStride_eq (s : ModCtx D) (mod : ModEntry D) (event : EventList V)
    (tblEvent : List (Slot V)) (i : Nat) :
    ∃ part, s.addFieldsToEventStride mod event tblEvent i = part ++ event ∧
      part.map Prod.fst = (s.addedIds mod i tblEvent).reverse := by
  induction tblEvent generalizing event i with
  | nil => exact ⟨[], rfl, rfl⟩
  | cons slot tblEvent ih =>
    cases slot with
    | null => exact ih event (i + 1)
    | notNeeded => exact ih event (i + 1)
    | value v =>
      simp only [addFieldsToEventStride, addedIds]
      split
      · obtain ⟨part, heq, hids⟩ := ih ((mod.firstFieldPos + i, v) :: event) (i + 1)
        refine ⟨part ++ [(mod.firstFieldPos + i, v)], by rw [heq, List.append_assoc]; rfl, ?_⟩
        rw [List.map_append, hids, List.reverse_cons]
        rfl
      · exact ih event (i + 1)

theorem addedIds_bound {s : ModCtx D} {mod : ModEntry D} {tblEvent : List (Slot V)} {i id : Nat}
    (h : id ∈ s.addedIds mod i tblEvent) :
    mod.firstFieldPos + i ≤ id ∧ id < mod.firstFieldPos + i + tblEvent.length := by
  induction tblEvent generalizing i with
  | nil => cases h
  | cons slot tblEvent ih =>
    have skip : id ∈ s.addedIds mod (i + 1) tblEvent → mod.firstFieldPos + i ≤ id ∧
        id < mod.firstFieldPos + i + (slot :: tblEvent).length := by
      intro h
      have := ih h
      rw [List.length_cons]
      omega
    cases slot with
    | null => exact skip h
    | notNeeded => exact skip h
    | value v =>
      simp only [addedIds] at h
      split at h
      · rcases List.mem_cons.mp h with rfl | h
        · rw [List.length_cons]
          omega
        · exact skip h
      · exact skip h

/-- A dissector adds ids of its module. -/
theorem Dissection.Fits.inRange {d : Dissection D V} (h : d.Fits s) {id : Nat} (hid : id ∈ d.ids s) :
    InRange d.mod id := by
  obtain ⟨c, hc, hid⟩ := List.mem_flatMap.mp hid
  have hb := addedIds_bound hid
  have hle := h.2 c hc
  exact ⟨by omega, by omega⟩

theorem dissected_eq (s : ModCtx D) (d : Dissection D V) (event : EventList V) :
    ∃ part, s.dissected event d = part ++ event ∧ part.map Prod.fst = (d.ids s).reverse := by
  obtain ⟨i, mod, calls⟩ := d
  unfold dissected Dissection.ids
  induction calls generalizing event with
  | nil => exact ⟨[], rfl, rfl⟩
  | cons c calls ih =>
    obtain ⟨part, heq, hids⟩ := s.addFieldsToEventStride_eq mod event c.2 c.1
    obtain ⟨part', heq', hids'⟩ := ih (part ++ event)
    refine ⟨part' ++ part, ?_, ?_⟩
    · rw [List.foldl_cons, heq, heq', List.append_assoc]
    · rw [List.map_append, hids, hids', List.flatMap_cons, List.reverse_append]

theorem Partition.part (h : Partition log s) {d : Dissection D V} (hd : d.Fits s)
    (event : EventList V) : ∃ part, s.dissected event d = part ++ event ∧ Part s d part := by
  obtain ⟨part, heq, hids⟩ := s.dissected_eq d event
  have hown : ∀ e ∈ part, InRange d.mod e.1 := by
    intro e he
    have hmem := List.mem_map_of_mem (f := Prod.fst) he
    rw [hids, List.mem_reverse] at hmem
    exact hd.inRange hmem
  exact ⟨part, heq, hids, hown, fun e he j m hj hm =>
    h.disjoint j d.i m d.mod hj hd.1 e.1 hm (hown e he)⟩

theorem Partition.built (h : Partition log s) {ds : List (Dissection D V)}
    (hds : ∀ d ∈ ds, d.Fits s) (event : EventList V) :
    ∃ parts, List.Forall₂ (Part s) ds parts ∧
      s.built event ds = parts.reverse.flatten ++ event := by
  induction ds generalizing event with
  | nil => exact ⟨[], .nil, rfl⟩
  | cons d ds ih =>
    obtain ⟨hd, hrest⟩ := List.forall_mem_cons.mp hds
    obtain ⟨part, heq, hpart⟩ := h.part hd event
    obtain ⟨parts, hparts, hall⟩ := ih hrest (part ++ event)
    refine ⟨part :: parts, .cons hpart hparts, ?_⟩
    show s.built (s.dissected event d) ds = _
    rw [heq, hall, List.reverse_cons, List.flatten_append, List.flatten_singleton,
      List.append_assoc]

/-- The ids of the event, the last one that was added first. -/
theorem map_fst_built (s : ModCtx D) (ds : List (Dissection D V)) (event : EventList V) :
    (s.built event ds).map Prod.fst =
      (ds.flatMap (Dissection.ids s)).reverse ++ event.map Prod.fst := by
  induction ds generalizing event with
  | nil => rfl
  | cons d ds ih =>
    obtain ⟨part, heq, hids⟩ := s.dissected_eq d event
    show (s.built (s.dissected event d) ds).map Prod.fst = _
    rw [ih, heq, List.map_append, hids, List.flatMap_cons, List.reverse_append, List.append_assoc]

/-- The ids in the range of a module are those that its dissectors add. -/
theorem Partition.filter_ids (h : Partition log s) {ds : List (Dissection D V)}
    (hds : ∀ d ∈ ds, d.Fits s) {i : Nat} {m : ModEntry D} (hm : s.mods[i]? = some m) :
    (ds.flatMap (Dissection.ids s)).filter (fun id => decide (InRange m id)) =
      (ds.filter fun d => d.i == i).flatMap (Dissection.ids s) := by
  induction ds with
  | nil => rfl
  | cons d ds ih =>
    obtain ⟨hd, hrest⟩ := List.forall_mem_cons.mp hds
    rw [List.flatMap_cons, List.filter_append, ih hrest, List.filter_cons]
    by_cases hi : d.i = i
    · obtain rfl : d.mod = m := by
        have := hd.1
        rw [hi, hm] at this
        exact (Option.some.inj this).symm
      rw [if_pos (beq_iff_eq.mpr hi), List.flatMap_cons,
        List.filter_eq_self.mpr fun id hid => decide_eq_true (hd.inRange hid)]
    · rw [if_neg (by simpa using hi), List.filter_eq_nil_iff.mpr, List.nil_append]
      intro id hid hin
      exact hi (h.disjoint d.i i d.mod m hd.1 hm id (hd.inRange hid) (of_decide_eq_true hin))

theorem Partition.decreasing_iff (h : Partition log s) {ds : List (Dissection D V)}
    (hds : ∀ d ∈ ds, d.Fits s) : s.Decreasing (s.built [] ds) ↔ s.AddUpwards ds := by
  have hpart : ∀ {i : Nat} {m : ModEntry D}, s.mods[i]? = some m →
      ((((s.built [] ds).map Prod.fst).filter fun id => decide (InRange m id)).Pairwise (· > ·) ↔
        ((ds.filter fun d => d.i == i).flatMap (Dissection.ids s)).Pairwise (· < ·)) := by
    intro i m hm
    rw [map_fst_built, List.map_nil, List.append_nil, List.filter_reverse, h.filter_ids hds hm,
      List.pairwise_reverse]
  constructor
  · intro hdec i
    cases hm : s.mods[i]? with
    | some m => exact (hpart hm).mp (hdec m (List.mem_of_getElem? hm))
    | none =>
      have hnone : (ds.filter fun d => d.i == i) = [] := by
        refine List.filter_eq_nil_iff.mpr fun d hd hi => ?_
        have := (hds d hd).1
        rw [beq_iff_eq.mp hi, hm] at this
        cases this
      rw [hnone]
      exact .nil
  · intro hup m hm
    obtain ⟨i, hi⟩ := List.getElem?_of_mem hm
    exact (hpart hi).mpr (hup i)

end

end ModCtx

open ModCtx

/-- The table is a partition if and only if no module registers fields twice. Then an event is made of
the parts of its dissectors, the last one first, each of ids of its module; and within each module
the ids go downwards if and only if its dissectors add its fields upwards. -/
theorem fields_partition {D V : Type} {log : List ModCtx.Call} {s : ModCtx D} (h : Reached log s) :
    (Partition log s ↔ OneEach log) ∧
      (Partition log s → ∀ ds : List (Dissection D V), (∀ d ∈ ds, d.Fits s) →
        (∃ parts, List.Forall₂ (Part s) ds parts ∧ s.built [] ds = parts.reverse.flatten) ∧
          (s.Decreasing (s.built [] ds) ↔ s.AddUpwards ds)) := by
  refine ⟨⟨h.tableInv.oneEach, h.tableInv.partition⟩, ?_⟩
  intro hp ds hds
  obtain ⟨parts, hparts, heq⟩ := hp.built hds []
  exact ⟨⟨parts, hparts, heq.trans (List.append_nil _)⟩, hp.decreasing_iff hds⟩

/-- A module without dependencies. -/
def plainModule (name : CStr) (preConfig : Option (List FieldDecl)) : InputModule :=
  { magic := modMagic, version := orchidsVersion, name := some name, dependencies := [], preConfig }

/-- The entry of a module with the two fields that it registers when it is added. -/
def udpEntry : ModEntry Unit :=
  { newEntry (plainModule [117, 100, 112]
      (some [⟨"udp.host", .str, ""⟩, ⟨"udp.msg", .str, ""⟩])) none with numFields := 2 }

/-- The entry of a module with a field that it registers later. -/
def sysEntry : ModEntry Unit :=
  { newEntry (plainModule [115, 121, 115] none) none with numFields := 1, firstFieldPos := 2 }

/-- The two modules, and a dissector of each. -/
theorem fields_partition_two : ∃ (log : List ModCtx.Call) (s : ModCtx Unit),
    log = [(0, [⟨"udp.host", .str, ""⟩, ⟨"udp.msg", .str, ""⟩]), (1, [⟨"sys.msg", .vstr, ""⟩])] ∧
    Reached log s ∧ Partition log s ∧
    s.Decreasing (s.built [] [⟨0, udpEntry, [(0, [.value true, .value false])]⟩,
      ⟨1, sysEntry, [(0, [.value true])]⟩]) := by
  have h₀ : Reached [] (empty : ModCtx Unit) := .empty
  have h₁ := h₀.step (show step _ (.addModule udpEntry.mod none) = some _ from rfl)
  have h₂ := h₁.step (show step _ (.addModule sysEntry.mod none) = some _ from rfl)
  have h₃ := h₂.step (show step _ (.registerFields 1 [⟨"sys.msg", .vstr, ""⟩]) = some _ from rfl)
  obtain ⟨hiff, hevents⟩ := fields_partition (V := Bool) h₃
  have hp := hiff.mpr (oneEach_of_nodup (by decide))
  refine ⟨_, _, rfl, h₃, hp, (hevents hp _ ?_).2.mpr ?_⟩
  · intro d hd
    rcases List.mem_pair.mp hd with rfl | rfl
    · exact ⟨rfl, by decide⟩
    · exact ⟨rfl, by decide⟩
  · intro i
    rcases i with - | - | i
    · decide
    · decide
    · exact .nil

/-- A second call for a module leaves its first fields to none, and the fields that `mod_auditd` adds
one by one come in the order of the text (`pid` before `ppid`). -/
theorem not_fields_partition :
    (¬ ∀ (log : List ModCtx.Call) (s : ModCtx Unit), Reached log s → Partition log s) ∧
    ¬ ∀ (log : List ModCtx.Call) (s : ModCtx Unit) (ds : List (Dissection Unit Bool)),
      Reached log s → (∀ d ∈ ds, d.Fits s) → s.Decreasing (s.built [] ds) := by
  have h₀ : Reached [] (empty : ModCtx Unit) := .empty
  have h₁ := h₀.step (show step _ (.addModule (plainModule [97]
    (some [⟨"auditd.ppid", .int, ""⟩, ⟨"auditd.pid", .int, ""⟩])) none) = some _ from rfl)
  constructor
  · intro h
    have h₂ := h₁.step (show step _ (.registerFields 0 [⟨"auditd.pid", .int, ""⟩]) = some _ from rfl)
    have hown := ((h _ _ h₂).own 0 _ rfl 0).mp rfl
    exact absurd hown.1 (by decide)
  · intro h
    have hdec := h _ _ [⟨0, _, [(1, [.value true]), (0, [.value true])]⟩] h₁
      (by
        intro d hd
        obtain rfl := List.mem_singleton.mp hd
        exact ⟨rfl, by decide⟩) _ List.mem_cons_self
    exact absurd hdec (by decide)

end Orchids

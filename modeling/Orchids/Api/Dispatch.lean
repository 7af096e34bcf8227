import Orchids.Api.Dissectors
import Orchids.Api.Partition

/-!
# Conditional dispatch

* `Configured`: the states after `DISSECT` directives that are accepted, with the directives.
* `Serves`: what the table of a module holds then.
* `Agrees`: an event goes to the dissector of the key that its field has, or to the engine.
* `agrees_iff`: so it does if and only if no integer key is the field's number. The key of an
  integer field is encoded as an `int`, and looked up as a `long`.
-/

namespace Orchids

/-! ## Encodings -/

theorem length_littleEndian (n v : Nat) : (littleEndian n v).length = n := by
  induction n generalizing v with
  | zero => rfl
  | succ n ih => exact congrArg Nat.succ (ih _)

theorem littleEndian_inj {n v w : Nat} (h : littleEndian n v = littleEndian n w)
    (hv : v < 256 ^ n) (hw : w < 256 ^ n) : v = w := by
  induction n generalizing v w with
  | zero =>
    rw [Nat.pow_zero] at hv hw
    omega
  | succ n ih =>
    obtain ⟨hlow, hhigh⟩ := List.cons_eq_cons.mp h
    have hlow' : v % 256 = w % 256 := by
      have := congrArg UInt8.toNat hlow
      simpa [UInt8.toNat_ofNat'] using this
    rw [Nat.pow_succ] at hv hw
    have := ih hhigh (by omega) (by omega)
    omega

theorem bytes32_inj {a b : BitVec 32} (h : bytes32 a = bytes32 b) : a = b :=
  BitVec.eq_of_toNat_eq (littleEndian_inj h (by have := a.isLt; omega) (by have := b.isLt; omega))

/-- A `long` has more bytes than an `int`. -/
theorem bytes64_ne_bytes32 (a : BitVec 64) (b : BitVec 32) : bytes64 a ≠ bytes32 b := by
  intro h
  have hlen := congrArg List.length h
  rw [bytes64, bytes32, length_littleEndian, length_littleEndian] at hlen
  cases hlen

/-- The entry with one more dissector in its table. -/
def ModEntry.addSub {D : Type} (m : ModEntry D) (key : List UInt8) (d : D) : ModEntry D :=
  { m with subDissectors := some ((m.subDissectors.getD (.new hashDjb 31)).add d key) }

namespace ModCtx

variable {D : Type} {inetAddr : CStr → BitVec 32} {s s' : ModCtx D} {ds : List (Directive D)}

/-! ## Configurations -/

/-- The states of a configuration, with the directives that were accepted, the last one first.
Modules are loaded in between; none gets its fields after a directive for it. -/
inductive Configured (inetAddr : CStr → BitVec 32) : List (Directive D) → ModCtx D → Prop
  | empty : Configured inetAddr [] .empty
  | load {ds : List (Directive D)} {s s' : ModCtx D} {op : Op D} : Configured inetAddr ds s →
      s.step op = some s' → (∀ c ∈ op.calls s, ∀ d ∈ ds, d.source ≠ c.1) →
      Configured inetAddr ds s'
  | dissect {ds : List (Directive D)} {s s' : ModCtx D} {args : CStr} {d : Directive D} :
      Configured inetAddr ds s → s.readDirective inetAddr args = .ok d →
      s.addCondDissector inetAddr args = .ok s' → Configured inetAddr (d :: ds) s'

/-- The keys for a module and their dissectors. -/
def entries (ds : List (Directive D)) (i : Nat) : List (List UInt8 × D) :=
  (ds.filter (·.source == i)).map fun d => (d.key, d.dissect)

/-- The table of a module holds the keys of its directives, encoded for its field. -/
structure Serves (inetAddr : CStr → BitVec 32) (ds : List (Directive D)) (s : ModCtx D) (i : Nat)
    (m : ModEntry D) : Prop where
  unconditional : m.dissect = none
  table : (m.subDissectors.getD (.new hashDjb 31)).Holds (entries ds i)
  without : m.subDissectors = none → entries ds i = []
  keys : ((entries ds i).map Prod.fst).Nodup
  typed : ∀ d ∈ ds, d.source = i →
    s.keyType m = some d.type ∧ encodeKey inetAddr d.type d.cond = some d.key

/-! ## Loading modules -/

/-- Loaded modules stay as they are but for the fields of those that register, new ones have no
dissectors, and the table of fields grows. -/
structure Loads (s s' : ModCtx D) (calls : List Call) : Prop where
  old : ∀ (i : Nat) (m' : ModEntry D), s'.mods[i]? = some m' → i < s.mods.length →
    ∃ m, s.mods[i]? = some m ∧ m'.dissect = m.dissect ∧ m'.subDissectors = m.subDissectors ∧
      ((∀ c ∈ calls, c.1 ≠ i) → m' = m)
  fresh : ∀ (i : Nat) (m' : ModEntry D), s'.mods[i]? = some m' → s.mods.length ≤ i →
    m'.dissect = none ∧ m'.subDissectors = none
  length : s.mods.length ≤ s'.mods.length
  fields : ∃ more, s'.globalFields = s.globalFields ++ more

theorem newEntry_loads (s : ModCtx D) (mod : InputModule) (genericDissect : Option D) :
    s.Loads { s with mods := s.mods ++ [newEntry mod genericDissect] } [] where
  old := by
    intro i m' hi hlt
    rw [List.getElem?_append_left hlt] at hi
    exact ⟨m', hi, rfl, rfl, fun _ => rfl⟩
  fresh := by
    intro i m' hi hge
    rw [List.getElem?_append_right hge] at hi
    obtain rfl := List.mem_singleton.mp (List.mem_of_getElem? hi)
    exact ⟨rfl, rfl⟩
  length := by
    show s.mods.length ≤ (s.mods ++ [_]).length
    rw [List.length_append]
    exact Nat.le_add_right _ _
  fields := ⟨[], (List.append_nil _).symm⟩

theorem Loads.registerFields {calls : List Call} (h : s.Loads s' calls) (i : Nat)
    (fieldTab : List FieldDecl) :
    s.Loads (s'.registerFields i fieldTab) (calls ++ [(i, fieldTab)]) := by
  -- an entry after the call has the dissectors that it had
  have hentry : ∀ (j : Nat) (m' : ModEntry D), (s'.registerFields i fieldTab).mods[j]? = some m' →
      ∃ m, s'.mods[j]? = some m ∧ m'.dissect = m.dissect ∧ m'.subDissectors = m.subDissectors ∧
        (i ≠ j → m' = m) := by
    intro j m' hj
    by_cases hij : i = j
    · subst hij
      simp only [ModCtx.registerFields, List.getElem?_modify_eq] at hj
      obtain ⟨m, hm, rfl⟩ := Option.map_eq_some_iff.mp hj
      exact ⟨m, hm, rfl, rfl, fun hne => absurd rfl hne⟩
    · simp only [ModCtx.registerFields, List.getElem?_modify_ne _ _ hij] at hj
      exact ⟨m', hj, rfl, rfl, fun _ => rfl⟩
  refine ⟨?_, ?_, ?_, ?_⟩
  · intro j m' hj hlt
    obtain ⟨m₁, hm₁, hd, hs, heq⟩ := hentry j m' hj
    obtain ⟨m, hm, hd', hs', heq'⟩ := h.old j m₁ hm₁ hlt
    refine ⟨m, hm, hd.trans hd', hs.trans hs', ?_⟩
    intro hc
    have hne : i ≠ j := hc (i, fieldTab) (List.mem_append_right _ (List.mem_singleton_self _))
    rw [heq hne]
    exact heq' fun c hmem => hc c (List.mem_append_left _ hmem)
  · intro j m' hj hge
    obtain ⟨m₁, hm₁, hd, hs, -⟩ := hentry j m' hj
    rw [hd, hs]
    exact h.fresh j m₁ hm₁ hge
  · show s.mods.length ≤ (s'.mods.modify i _).length
    rw [List.length_modify]
    exact h.length
  · obtain ⟨more, hmore⟩ := h.fields
    exact ⟨_, (congrArg (· ++ _) hmore).trans (List.append_assoc _ _ _)⟩

theorem refl_loads (s : ModCtx D) : s.Loads s [] where
  old := fun _ m' hi _ => ⟨m', hi, rfl, rfl, fun _ => rfl⟩
  fresh := by
    intro i m' hi hge
    rw [List.getElem?_eq_none hge] at hi
    cases hi
  length := Nat.le_refl _
  fields := ⟨[], (List.append_nil _).symm⟩

theorem step_loads {op : Op D} (hs : s.step op = some s') : s.Loads s' (op.calls s) := by
  cases op with
  | addModule mod genericDissect =>
    obtain ⟨hpre, rfl⟩ | ⟨fieldTab, hpre, rfl⟩ := step_addModule hs
    · rw [Op.calls, hpre]
      exact newEntry_loads s mod genericDissect
    · rw [Op.calls, hpre]
      exact (newEntry_loads s mod genericDissect).registerFields _ _
  | registerFields i fieldTab =>
    simp only [step] at hs
    split at hs
    · obtain rfl := Option.some.inj hs
      exact (refl_loads s).registerFields i fieldTab
    · cases hs

/-! ## What the tables hold -/

theorem keyType_of_append {m : ModEntry D} {more : List GlobalField} {type : IssdlTag}
    (hf : s'.globalFields = s.globalFields ++ more) (h : s.keyType m = some type) :
    s'.keyType m = some type := by
  unfold keyType at h ⊢
  split
  · rename_i hlt
    rw [if_pos hlt] at h
    cases h
  · rename_i hge
    rw [if_neg hge] at h
    obtain ⟨f, hget, htype⟩ := Option.map_eq_some_iff.mp h
    rw [hf, List.getElem?_append_left (List.getElem?_eq_some_iff.mp hget).1, hget]
    exact congrArg some htype

theorem readDirective_ok {args : CStr} {d : Directive D}
    (h : s.readDirective inetAddr args = .ok d) :
    ∃ m, s.mods[d.source]? = some m ∧ s.keyType m = some d.type ∧
      encodeKey inetAddr d.type d.cond = some d.key := by
  simp only [readDirective] at h
  split at h
  · cases h
  · split at h
    · cases h
    · rename_i source _
      split at h
      · cases h
      · split at h
        · cases h
        · rename_i type htype
          split at h
          · cases h
          · cases h
          · rename_i key dissect hkey _
            cases h
            obtain ⟨m, hm, hkt⟩ := Option.bind_eq_some_iff.mp htype
            exact ⟨m, hm, hkt, hkey⟩

theorem registerConditionalDissector_ok {i : Nat} {key : List UInt8} {d : D}
    (h : s.registerConditionalDissector i key d = .ok s') :
    ∃ m, s.mods[i]? = some m ∧ m.dissect = none ∧
      (m.subDissectors.getD (.new hashDjb 31)).get key = none ∧
      s' = { s with mods := s.mods.set i (m.addSub key d) } := by
  simp only [registerConditionalDissector] at h
  split at h
  · cases h
  · rename_i m hm
    split at h
    · cases h
    · rename_i hun
      split at h
      · cases h
      · rename_i hnew
        cases h
        exact ⟨m, hm, Option.not_isSome_iff_eq_none.mp hun,
          Option.not_isSome_iff_eq_none.mp hnew, rfl⟩

theorem entries_cons_self (d : Directive D) (ds : List (Directive D)) :
    entries (d :: ds) d.source = (d.key, d.dissect) :: entries ds d.source := by
  simp [entries]

theorem entries_cons_of_ne {d : Directive D} {i : Nat} (h : d.source ≠ i)
    (ds : List (Directive D)) : entries (d :: ds) i = entries ds i := by
  simp [entries, h]

/-- All modules serve, and all directives are for modules that are loaded. -/
structure Served (inetAddr : CStr → BitVec 32) (ds : List (Directive D)) (s : ModCtx D) :
    Prop where
  serves : ∀ (i : Nat) (m : ModEntry D), s.mods[i]? = some m → Serves inetAddr ds s i m
  loaded : ∀ d ∈ ds, d.source < s.mods.length

theorem Served.load (h : Served inetAddr ds s) {calls : List Call} (hl : s.Loads s' calls)
    (hnew : ∀ c ∈ calls, ∀ d ∈ ds, d.source ≠ c.1) : Served inetAddr ds s' where
  loaded := fun d hd => (h.loaded d hd).trans_le hl.length
  serves := by
    intro i m' hi
    rcases Nat.lt_or_ge i s.mods.length with hlt | hge
    · obtain ⟨m, hm, hdissect, hsub, heq⟩ := hl.old i m' hi hlt
      have hs := h.serves i m hm
      refine ⟨hdissect.trans hs.unconditional, hsub ▸ hs.table, hsub ▸ hs.without, hs.keys, ?_⟩
      intro d hd hdi
      have hsame : m' = m := heq fun c hc hci => hnew c hc d hd (hdi.trans hci.symm)
      obtain ⟨hkt, hkey⟩ := hs.typed d hd hdi
      obtain ⟨more, hmore⟩ := hl.fields
      rw [hsame]
      exact ⟨keyType_of_append hmore hkt, hkey⟩
    · -- no directive is for a module that was not loaded
      obtain ⟨hdissect, hsub⟩ := hl.fresh i m' hi hge
      have hnone : entries ds i = [] := by
        simp only [entries, List.map_eq_nil_iff, List.filter_eq_nil_iff, beq_iff_eq]
        intro d hd hdi
        exact absurd (h.loaded d hd) (Nat.not_lt.mpr (hdi ▸ hge))
      refine ⟨hdissect, ?_, fun _ => hnone, ?_, ?_⟩
      · rw [hsub, hnone]
        exact .new _ _
      · rw [hnone]
        exact List.nodup_nil
      · intro d hd hdi
        exact absurd (h.loaded d hd) (Nat.not_lt.mpr (hdi ▸ hge))

theorem Served.dissect (h : Served inetAddr ds s) {args : CStr} {d : Directive D}
    (hr : s.readDirective inetAddr args = .ok d)
    (hs : s.registerConditionalDissector d.source d.key d.dissect = .ok s') :
    Served inetAddr (d :: ds) s' := by
  obtain ⟨m₀, hm₀, hkt, hkey⟩ := readDirective_ok hr
  obtain ⟨m, hm, hun, hnew, rfl⟩ := registerConditionalDissector_ok hs
  obtain rfl := Option.some.inj (hm₀.symm.trans hm)
  have hserves := h.serves d.source m₀ hm
  have hlt : d.source < s.mods.length := (List.getElem?_eq_some_iff.mp hm).1
  constructor
  · intro i m' hi
    by_cases hdi : d.source = i
    · subst hdi
      simp only [List.getElem?_set_self hlt] at hi
      obtain rfl := Option.some.inj hi
      refine ⟨hun, ?_, by rintro ⟨⟩, ?_, ?_⟩
      · rw [entries_cons_self]
        exact hserves.table.add _ _
      · rw [entries_cons_self, List.map_cons, List.nodup_cons]
        refine ⟨?_, hserves.keys⟩
        rw [hserves.table.get, List.lookup_eq_none_iff] at hnew
        intro hmem
        obtain ⟨e, he, hek⟩ := List.mem_map.mp hmem
        have := hnew e he
        simp [hek] at this
      · intro d' hd' hdi'
        rcases List.mem_cons.mp hd' with rfl | hd'
        · exact ⟨hkt, hkey⟩
        · exact hserves.typed d' hd' hdi'
    · simp only [List.getElem?_set_ne hdi] at hi
      have hold := h.serves i m' hi
      refine ⟨hold.unconditional, ?_, ?_, ?_, ?_⟩
      · rw [entries_cons_of_ne hdi]
        exact hold.table
      · rw [entries_cons_of_ne hdi]
        exact hold.without
      · rw [entries_cons_of_ne hdi]
        exact hold.keys
      · intro d' hd' hdi'
        rcases List.mem_cons.mp hd' with rfl | hd'
        · exact absurd hdi' hdi
        · exact hold.typed d' hd' hdi'
  · intro d' hd'
    show d'.source < (s.mods.set _ _).length
    rw [List.length_set]
    rcases List.mem_cons.mp hd' with rfl | hd'
    · exact hlt
    · exact h.loaded d' hd'

theorem Configured.served (h : Configured inetAddr ds s) : Served inetAddr ds s := by
  induction h with
  | empty =>
    constructor
    · intro i m hi
      cases hi
    · exact List.forall_mem_nil _
  | load hc hs hnew ih => exact ih.load (step_loads hs) hnew
  | dissect hc hr hs ih =>
    refine ih.dissect hr ?_
    rw [addCondDissector, hr] at hs
    exact hs

/-! ## The choice -/

theorem lookup_entries {i : Nat} (hk : ((entries ds i).map Prod.fst).Nodup) (key : List UInt8)
    (f : D) : (entries ds i).lookup key = some f ↔
      ∃ d ∈ ds, d.source = i ∧ d.key = key ∧ d.dissect = f := by
  have hmem : (key, f) ∈ entries ds i ↔ ∃ d ∈ ds, d.source = i ∧ d.key = key ∧ d.dissect = f := by
    simp only [entries, List.mem_map, List.mem_filter, beq_iff_eq, Prod.mk.injEq, and_assoc]
  rw [← hmem, List.lookup_eq_some_iff]
  constructor
  · rintro ⟨l₁, l₂, hl, -⟩
    rw [hl]
    exact List.mem_append_right _ List.mem_cons_self
  · intro hf
    obtain ⟨l₁, l₂, hl⟩ := List.append_of_mem hf
    refine ⟨l₁, l₂, hl, ?_⟩
    intro e he
    -- the key has no second entry
    rw [hl, List.map_append, List.map_cons, List.nodup_append] at hk
    have hne := hk.2.2 e.1 (List.mem_map_of_mem he) key List.mem_cons_self
    exact bne_iff_ne.mpr (Ne.symm hne)

variable {F : Type} {rawData : OvmVar F → List UInt8}

/-- `post_event` looks the data of the second field up among the keys. -/
theorem Serves.dispatch {i : Nat} {m : ModEntry D} (h : Serves inetAddr ds s i m)
    (first : Nat × OvmVar F) (id : Nat) (v : OvmVar F) (rest : EventList (OvmVar F)) :
    dispatch rawData m (first :: (id, v) :: rest) =
      match (entries ds i).lookup (getData rawData v) with
      | some d => .dissect d
      | none => .injectEvent := by
  have ht := h.table
  rw [Orchids.dispatch, h.unconditional]
  cases hsub : m.subDissectors with
  | none => rw [h.without hsub, List.lookup_nil]
  | some t =>
    rw [hsub] at ht
    show (match t.get (getData rawData v) with | some d => _ | none => _) = _
    rw [← HashTable.Holds.get ht]
    rfl

end ModCtx

/-- The value of the field equals the key: the same bytes, or the same number. -/
def Directive.Matches {D F : Type} (inetAddr : CStr → BitVec 32) (d : Directive D) :
    OvmVar F → Prop
  | .str t | .vstr t => t.bytes = d.cond
  | .int v => v.toInt = (atoi d.cond).toInt
  | .uint v => (v.toNat : Int) = (atoi d.cond).toInt
  | .ipv4 a => a = inetAddr d.cond
  | _ => False

/-- The two encodings agree but for those of integers, which have different lengths. -/
theorem getData_eq_key_iff {D F : Type} {inetAddr : CStr → BitVec 32}
    {rawData : OvmVar F → List UInt8} {d : Directive D} {v : OvmVar F} (ht : v.type = d.type)
    (hk : encodeKey inetAddr d.type d.cond = some d.key) :
    d.key = getData rawData v ↔ ¬ (v.type = .int ∨ v.type = .uint) ∧ d.Matches inetAddr v := by
  rw [← ht] at hk
  cases v with
  | str t | vstr t =>
    have hk : d.cond = d.key := Option.some.inj hk
    simp [getData, Directive.Matches, OvmVar.type, ← hk, eq_comm]
  | int v | uint v =>
    have hk := Option.some.inj hk
    simp only [OvmVar.type, reduceCtorEq, true_or, or_true, not_true_eq_false, false_and,
      iff_false]
    rw [← hk]
    exact (bytes64_ne_bytes32 _ _).symm
  | ipv4 a =>
    have hk := Option.some.inj hk
    simp only [OvmVar.type, reduceCtorEq, or_self, not_false_eq_true, true_and]
    rw [← hk]
    constructor
    · intro h
      exact (bytes32_inj h).symm
    · intro h
      exact congrArg bytes32 (Eq.symm h)
  | _ => cases hk

namespace ModCtx

variable {D F : Type} {inetAddr : CStr → BitVec 32} {s : ModCtx D} {ds : List (Directive D)}

/-- The event goes to the dissector of the key that the value equals, to no other one, and to the
engine if there is no such key. -/
structure Agrees (inetAddr : CStr → BitVec 32) (rawData : OvmVar F → List UInt8)
    (ds : List (Directive D)) (i : Nat) (m : ModEntry D) (first : Nat × OvmVar F) (id : Nat)
    (v : OvmVar F) (rest : EventList (OvmVar F)) : Prop where
  called : ∀ d ∈ ds, d.source = i → d.Matches inetAddr v →
    dispatch rawData m (first :: (id, v) :: rest) = .dissect d.dissect
  only : ∀ f, dispatch rawData m (first :: (id, v) :: rest) = .dissect f →
    ∃ d ∈ ds, d.source = i ∧ d.Matches inetAddr v ∧ d.dissect = f
  injected : (∀ d ∈ ds, d.source = i → ¬ d.Matches inetAddr v) →
    dispatch rawData m (first :: (id, v) :: rest) = .injectEvent

/-- What `post_event` calls, in the words of the directives. -/
theorem dispatch_eq_dissect_iff (h : Configured inetAddr ds s) (rawData : OvmVar F → List UInt8)
    {i : Nat} {m : ModEntry D} (hm : s.mods[i]? = some m) {v : OvmVar F}
    (ht : s.keyType m = some v.type)
    (first : Nat × OvmVar F) (id : Nat) (rest : EventList (OvmVar F)) (f : D) :
    dispatch rawData m (first :: (id, v) :: rest) = .dissect f ↔
      ∃ d ∈ ds, d.source = i ∧ (¬ (v.type = .int ∨ v.type = .uint) ∧ d.Matches inetAddr v) ∧
        d.dissect = f := by
  have hs := h.served.serves i m hm
  have hkey : ∀ d ∈ ds, d.source = i → (d.key = getData rawData v ↔
      ¬ (v.type = .int ∨ v.type = .uint) ∧ d.Matches inetAddr v) := by
    intro d hd hdi
    obtain ⟨htype, henc⟩ := hs.typed d hd hdi
    exact getData_eq_key_iff (Option.some.inj (ht.symm.trans htype)) henc
  have hlookup := lookup_entries hs.keys (getData rawData v) f
  rw [hs.dispatch first id v rest]
  have hmatch : (match (entries ds i).lookup (getData rawData v) with
      | some d => Dispatch.dissect d
      | none => .injectEvent) = .dissect f ↔ (entries ds i).lookup (getData rawData v) = some f := by
    cases (entries ds i).lookup (getData rawData v) with
    | none => simp
    | some d => simp
  rw [hmatch, hlookup]
  constructor
  · rintro ⟨d, hd, hdi, hk, hf⟩
    exact ⟨d, hd, hdi, (hkey d hd hdi).mp hk, hf⟩
  · rintro ⟨d, hd, hdi, hv, hf⟩
    exact ⟨d, hd, hdi, (hkey d hd hdi).mpr hv, hf⟩

theorem dispatch_eq_dissect_or (h : Configured inetAddr ds s) (rawData : OvmVar F → List UInt8)
    {i : Nat} {m : ModEntry D} (hm : s.mods[i]? = some m) (first : Nat × OvmVar F) (id : Nat)
    (v : OvmVar F)
    (rest : EventList (OvmVar F)) :
    (∃ f, dispatch rawData m (first :: (id, v) :: rest) = .dissect f) ∨
      dispatch rawData m (first :: (id, v) :: rest) = .injectEvent := by
  rw [(h.served.serves i m hm).dispatch first id v rest]
  cases (entries ds i).lookup (getData rawData v) with
  | none => exact .inr rfl
  | some d => exact .inl ⟨d, rfl⟩

/-- The events go where the directives send them if and only if no key equals the value of an
integer field. -/
theorem agrees_iff (h : Configured inetAddr ds s) (rawData : OvmVar F → List UInt8) {i : Nat}
    {m : ModEntry D} (hm : s.mods[i]? = some m) {v : OvmVar F} (ht : s.keyType m = some v.type)
    (first : Nat × OvmVar F) (id : Nat) (rest : EventList (OvmVar F)) :
    Agrees inetAddr rawData ds i m first id v rest ↔
      (v.type = .int ∨ v.type = .uint → ∀ d ∈ ds, d.source = i → ¬ d.Matches inetAddr v) := by
  have hiff := dispatch_eq_dissect_iff h rawData hm ht first id rest
  constructor
  · intro ha hint d hd hdi hv
    obtain ⟨d', -, -, ⟨hnot, -⟩, -⟩ := (hiff d.dissect).mp (ha.called d hd hdi hv)
    exact hnot hint
  · intro hcond
    refine ⟨?_, ?_, ?_⟩
    · intro d hd hdi hv
      exact (hiff d.dissect).mpr ⟨d, hd, hdi, ⟨fun hint => hcond hint d hd hdi hv, hv⟩, rfl⟩
    · intro f hf
      obtain ⟨d, hd, hdi, ⟨-, hv⟩, hf⟩ := (hiff f).mp hf
      exact ⟨d, hd, hdi, hv, hf⟩
    · intro hno
      rcases dispatch_eq_dissect_or h rawData hm first id v rest with ⟨f, hf⟩ | hin
      · obtain ⟨d, hd, hdi, ⟨-, hv⟩, -⟩ := (hiff f).mp hf
        exact absurd hv (hno d hd hdi)
      · exact hin

end ModCtx

open ModCtx

/-! ## Two configurations -/

/-- `DISSECT syslog textfile /log`: a file is told from the others by its name. -/
theorem agrees_iff_textfile : ∃ (ds : List (Directive Unit)) (s : ModCtx Unit) (m : ModEntry Unit),
    Configured (fun _ => 0) ds s ∧ s.mods[0]? = some m ∧
    ∀ (file line : Text) (n : BitVec 64), Agrees (F := Unit) (fun _ => 0) (fun _ => []) ds 0 m
      (2, .str line) 1 (.vstr file) [(0, .int n)] := by
  have h₀ : Configured (D := Unit) (fun _ => 0) [] .empty := .empty
  have h₁ := h₀.load (show step _ (.addModule (plainModule [116, 101, 120, 116, 102, 105, 108, 101]
    (some [⟨"textfile.line_num", .int, ""⟩, ⟨"textfile.file", .vstr, ""⟩,
      ⟨"textfile.line", .str, ""⟩])) none) = some _ from rfl) (by rintro _ _ _ ⟨⟩)
  have h₂ := h₁.load (show step _ (.addModule (plainModule [115, 121, 115, 108, 111, 103] none)
    (some ())) = some _ from rfl) (by rintro _ ⟨⟩)
  have h₃ := h₂.dissect
    (show readDirective _ _ [115, 121, 115, 108, 111, 103, 32, 116, 101, 120, 116, 102, 105, 108,
      101, 32, 47, 108, 111, 103] = .ok _ from rfl) rfl
  refine ⟨_, _, _, h₃, rfl, ?_⟩
  intro file line n
  exact (agrees_iff h₃ _ rfl rfl _ _ _).mpr fun hint => absurd hint (by simp)

/-- `DISSECT syslog udp 514`, and a datagram for the port 514. -/
theorem not_agrees : ¬ ∀ (ds : List (Directive Unit)) (s : ModCtx Unit) (i : Nat) (m : ModEntry Unit)
    (first : Nat × OvmVar Unit) (id : Nat) (v : OvmVar Unit) (rest : EventList (OvmVar Unit)),
    Configured (fun _ => 0) ds s → s.mods[i]? = some m → s.keyType m = some v.type →
    Agrees (fun _ => 0) (fun _ => []) ds i m first id v rest := by
  intro h
  have h₀ : Configured (D := Unit) (fun _ => 0) [] .empty := .empty
  have h₁ := h₀.load (show step _ (.addModule (plainModule [117, 100, 112]
    (some [⟨"udp.event", .int, ""⟩, ⟨"udp.time", .timeval, ""⟩, ⟨"udp.src_addr", .ipv4, ""⟩,
      ⟨"udp.src_port", .int, ""⟩, ⟨"udp.dst_addr", .ipv4, ""⟩, ⟨"udp.dst_port", .int, ""⟩,
      ⟨"udp.msg", .bstr, ""⟩])) none) = some _ from rfl) (by rintro _ _ _ ⟨⟩)
  have h₂ := h₁.load (show step _ (.addModule (plainModule [115, 121, 115, 108, 111, 103] none)
    (some ())) = some _ from rfl) (by rintro _ ⟨⟩)
  have h₃ := h₂.dissect
    (show readDirective _ _ [115, 121, 115, 108, 111, 103, 32, 117, 100, 112, 32, 53, 49, 52] =
      .ok _ from rfl) rfl
  have ha := h _ _ 0 _ (6, .bstr ⟨[], fun _ => 0⟩) 5 (.int 514) [] h₃ rfl rfl
  have hcalled := ha.called _ List.mem_cons_self rfl
    (show (514 : BitVec 64).toInt = (atoi [53, 49, 52]).toInt by decide)
  cases hcalled

end Orchids

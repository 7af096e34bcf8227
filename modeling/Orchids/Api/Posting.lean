import Mathlib.Data.Fintype.Card
import Mathlib.Data.Fintype.EquivFin
import Mathlib.Logic.Relation
import Orchids.Api.Dispatch
import Orchids.Api.PostEvent
import Orchids.Mod.Readable

/-!
# Every posted event reaches the engine

* `Registered`: the states that registrations of dissectors come to; `Edge`: a module has a dissector
  that posts as another one.
* `Once`: the event is injected at the end and nowhere else, with all its fields.
* `Posts`, `Ready`: the calls of `post_event` that a call leads to, and what each of them needs.
* `once_iff`: without cycles an event is injected once if and only if all these calls are `Ready`.
-/

namespace Orchids

open Relation

variable {F : Type}

/-! ## Events that grow -/

/-- The same field; a dissector may have edited its text in place. -/
inductive SameField : Nat × OvmVar F → Nat × OvmVar F → Prop
  | refl (f : Nat × OvmVar F) : SameField f f
  | edited (id : Nat) (t : Text) {bytes : List UInt8} (hlen : bytes.length = t.bytes.length) :
      SameField (id, .str t) (id, .str { t with bytes })

theorem SameField.trans {f g h : Nat × OvmVar F} (hfg : SameField f g) (hgh : SameField g h) :
    SameField f h := by
  cases hfg with
  | refl => exact hgh
  | edited id t hlen =>
    cases hgh with
    | refl => exact .edited id t hlen
    | edited id t' hlen' => exact .edited id t (hlen'.trans hlen)

theorem sameFields_trans {l₁ l₂ l₃ : EventList (OvmVar F)} (h : List.Forall₂ SameField l₁ l₂)
    (h' : List.Forall₂ SameField l₂ l₃) : List.Forall₂ SameField l₁ l₃ := by
  induction h generalizing l₃ with
  | nil => exact h'
  | cons hfg _ ih =>
    cases h' with
    | cons hgh h' => exact .cons (hfg.trans hgh) (ih h')

/-- The event has all fields of the other one, behind new ones. -/
def Extends (event e : EventList (OvmVar F)) : Prop :=
  ∃ new old, e = new ++ old ∧ List.Forall₂ SameField event old

namespace Extends

theorem refl (event : EventList (OvmVar F)) : Extends event event :=
  ⟨[], event, rfl, List.forall₂_same.mpr fun f _ => .refl f⟩

theorem trans {e₁ e₂ e₃ : EventList (OvmVar F)} (h : Extends e₁ e₂) (h' : Extends e₂ e₃) :
    Extends e₁ e₃ := by
  obtain ⟨new, old, rfl, hold⟩ := h
  obtain ⟨new', old', rfl, hold'⟩ := h'
  have hdrop := List.forall₂_drop new.length hold'
  rw [List.drop_left] at hdrop
  refine ⟨new' ++ old'.take new.length, old'.drop new.length, ?_, sameFields_trans hold hdrop⟩
  rw [List.append_assoc, List.take_append_drop]

theorem append (new event : EventList (OvmVar F)) : Extends event (new ++ event) :=
  ⟨new, event, rfl, List.forall₂_same.mpr fun f _ => .refl f⟩

theorem ne_nil {event e : EventList (OvmVar F)} (h : Extends event e) (he : event ≠ []) :
    e ≠ [] := by
  obtain ⟨new, old, rfl, hold⟩ := h
  cases hold with
  | nil => exact absurd rfl he
  | cons => exact List.append_ne_nil_of_right_ne_nil _ (List.cons_ne_nil _ _)

theorem addFieldsToEventStride {D : Type} (s : ModCtx D) (m : ModEntry D)
    (event : EventList (OvmVar F)) (tblEvent : List (Slot (OvmVar F))) (i : Nat) :
    Extends event (s.addFieldsToEventStride m event tblEvent i) := by
  obtain ⟨part, heq, -⟩ := ModCtx.addFieldsToEventStride_eq s m event tblEvent i
  rw [heq]
  exact append part event

end Extends

/-! ## What dissectors post -/

/-- The modules that a dissector posts as: the virtual ones, or its own. -/
def DissectRecord.targets (d : DissectRecord) : List Nat :=
  match d.dissect, d.data with
  | .generic, some hook => hook.vmodList.map Generic.Vmod.modId
  | .generic, none => []
  | _, _ => [d.mod]

/-- The call of `post_event` that a dissector comes to. -/
def DissectRecord.posting (lib : DissectLib F) (s : ModCtx DissectRecord) (d : DissectRecord)
    (event : EventList (OvmVar F)) : Except Reject (Nat × EventList (OvmVar F)) :=
  match d.dissect with
  | .syslog => syslogEvent lib s d.mod event
  | .generic => genericEvent lib s d.data event
  | .netfilter => netfilterEvent lib s d.mod event
  | .snare => snareEvent lib s d.mod event
  | .auditd => auditdEvent lib s d.mod event
  | .prism2 => prism2Event s d.mod event

/-- The values that a dissector can read. -/
def DissectRecord.Readable (lib : DissectLib F) (d : DissectRecord) (v : OvmVar F) : Prop :=
  match d.dissect with
  | .syslog => ∃ line, v = .str line ∧ Syslog.Readable line
  | .generic => ∀ line, v = .str line ∨ v = .vstr line → Generic.Readable lib.generic d.data line
  | .netfilter =>
    ∀ line, v = .str line ∨ v = .vstr line → KeepsTo netfilterFields lib.netfilterparse line
  | .snare => ∃ line, v = .str line ∧ KeepsTo snareFields lib.snareparse line
  | .auditd => ∃ line, v = .str line ∧ Auditd.Readable lib.strtod line
  | .prism2 => ∃ packet, v = .bstr packet

theorem DissectRecord.call_eq (lib : DissectLib F) (s : ModCtx DissectRecord) (d : DissectRecord)
    (event : EventList (OvmVar F)) (post : Post F) :
    d.call lib s event post = dissectBy post d.dissect (d.posting lib s event) := by
  unfold call posting
  cases d.dissect <;> rfl

/-! ### Adding fields -/

section

variable {s : ModCtx DissectRecord} {mod : Nat} {event : EventList (OvmVar F)}

theorem modEntry_ok {m : ModEntry DissectRecord} (h : s.modEntry mod = .ok m) :
    s.mods[mod]? = some m := by
  unfold ModCtx.modEntry at h
  split at h
  · cases h
  · rename_i m' hm'
    cases h
    exact hm'

theorem lt_of_modEntry {m : ModEntry DissectRecord} (h : s.modEntry mod = .ok m) :
    mod < s.mods.length :=
  (List.getElem?_eq_some_iff.mp (modEntry_ok h)).1

theorem exists_modEntry (hmod : mod < s.mods.length) : ∃ m, s.modEntry mod = .ok m := by
  unfold ModCtx.modEntry
  rw [List.getElem?_eq_getElem hmod]
  exact ⟨_, rfl⟩

theorem not_crashes_addFields (hmod : mod < s.mods.length) (attr : List (Slot (OvmVar F))) :
    ¬ Crashes (s.addFields mod event attr) := by
  obtain ⟨m, hm⟩ := exists_modEntry hmod
  unfold ModCtx.addFields
  rw [hm]
  exact not_crashes_ok _

theorem addFields_ok {attr : List (Slot (OvmVar F))} {c : Nat × EventList (OvmVar F)}
    (h : s.addFields mod event attr = .ok c) :
    c.1 = mod ∧ mod < s.mods.length ∧ Extends event c.2 := by
  unfold ModCtx.addFields at h
  cases hm : s.modEntry mod with
  | error e =>
    rw [hm] at h
    cases h
  | ok m =>
    rw [hm] at h
    cases h
    exact ⟨rfl, lt_of_modEntry hm, .addFieldsToEventStride s m event attr 0⟩

/-- A dissector that reads the first value and adds a table. -/
theorem attrEvent_ok {f : OvmVar F → Except Reject (List (Slot (OvmVar F)))}
    {c : Nat × EventList (OvmVar F)}
    (h : (eventValue event >>= fun v => f v >>= fun attr => s.addFields mod event attr) = .ok c) :
    c.1 = mod ∧ mod < s.mods.length ∧ Extends event c.2 := by
  obtain ⟨v, -, h⟩ := bind_ok h
  obtain ⟨attr, -, h⟩ := bind_ok h
  exact addFields_ok h

theorem crashes_attrEvent (hmod : mod < s.mods.length)
    (f : OvmVar F → Except Reject (List (Slot (OvmVar F)))) (id : Nat) (v : OvmVar F)
    (rest : EventList (OvmVar F)) :
    Crashes (eventValue ((id, v) :: rest) >>= fun v => f v >>= fun attr =>
      s.addFields mod ((id, v) :: rest) attr) ↔ Crashes (f v) := by
  show Crashes (f v >>= _) ↔ _
  exact crashes_bind_left fun attr => not_crashes_addFields hmod attr

/-! ### The generic dissector -/

/-- A virtual module of the hook posts. -/
theorem genericAttrs_ok {lib : Generic.Library F} {data : Option Generic.Hook} {v : OvmVar F}
    {modId : Nat} {values : List (Slot (OvmVar F))}
    (h : genericAttrs lib data v = .ok (modId, values)) :
    ∃ hook, data = some hook ∧ modId ∈ hook.vmodList.map Generic.Vmod.modId := by
  obtain ⟨⟨line, buf⟩, -, h⟩ := bind_ok h
  cases data with
  | none => cases h
  | some hook =>
    dsimp only at h
    split at h
    · cases h
    · rename_i vmod m regmatch hfirst
      obtain ⟨values', -, h⟩ := bind_ok h
      cases h
      exact ⟨hook, rfl, List.mem_map_of_mem (Generic.firstMatch_eq_some hfirst).1⟩

theorem crashes_genericEvent (lib : DissectLib F) {data : Option Generic.Hook}
    (hdata : ∀ hook, data = some hook → ∀ i ∈ hook.vmodList.map Generic.Vmod.modId,
      i < s.mods.length) (id : Nat) (v : OvmVar F) (rest : EventList (OvmVar F)) :
    Crashes (genericEvent lib s data ((id, v) :: rest)) ↔
      Crashes (genericAttrs lib.generic data v) := by
  show Crashes (genericAttrs lib.generic data v >>= fun r =>
    s.addFields r.1 ((id, v) :: rest) r.2) ↔ _
  rw [crashes_bind]
  refine or_iff_left ?_
  rintro ⟨⟨modId, values⟩, hok, hc⟩
  obtain ⟨hook, hhook, hmem⟩ := genericAttrs_ok hok
  exact not_crashes_addFields (hdata hook hhook modId hmem) values hc

/-! ### The auditd dissector -/

theorem extends_foldl_stride (m : ModEntry DissectRecord) (dones : List (Auditd.Done F))
    (event : EventList (OvmVar F)) : Extends event (dones.foldl
      (fun event d => s.addFieldsToEventStride m event (d.fields.map .value) d.evtno) event) := by
  induction dones generalizing event with
  | nil => exact .refl event
  | cons d dones ih => exact (Extends.addFieldsToEventStride s m event _ _).trans (ih _)

theorem length_edited (line : Text) (dones : List (Auditd.Done F)) :
    (Auditd.edited line dones).bytes.length = line.bytes.length := by
  have hfold : ∀ (edits : List (Nat × UInt8)) (b : List UInt8),
      (edits.foldl (fun b e => b.set (line.bytes.length + 1 - e.1) e.2) b).length = b.length := by
    intro edits
    induction edits with
    | nil => exact fun _ => rfl
    | cons e edits ih => exact fun b => (ih _).trans List.length_set
  exact hfold _ _

theorem extends_edited (id : Nat) (line : Text) (dones : List (Auditd.Done F))
    (rest : EventList (OvmVar F)) :
    Extends ((id, .str line) :: rest) ((id, .str (Auditd.edited line dones)) :: rest) :=
  ⟨[], _, rfl, .cons (.edited id line (length_edited line dones))
    (List.forall₂_same.mpr fun f _ => .refl f)⟩

theorem auditdParse_ok {strtod : List UInt8 → Timeval × Nat} {v : OvmVar F}
    {dones : List (Auditd.Done F)} {line : Text} (h : auditdParse strtod v = .ok (dones, line)) :
    ∃ t, v = .str t ∧ line = Auditd.edited t dones := by
  cases v with
  | str t =>
    obtain ⟨t', ht, h⟩ := bind_ok h
    cases ht
    obtain ⟨dones', -, h⟩ := bind_ok h
    cases h
    exact ⟨t, rfl, rfl⟩
  | _ => cases h

theorem auditdEvent_ok {lib : DissectLib F} {c : Nat × EventList (OvmVar F)}
    (h : auditdEvent lib s mod event = .ok c) :
    c.1 = mod ∧ mod < s.mods.length ∧ Extends event c.2 := by
  obtain ⟨v, hv, h⟩ := bind_ok h
  obtain ⟨⟨dones, line⟩, hparse, h⟩ := bind_ok h
  obtain ⟨m, hm, h⟩ := bind_ok h
  cases h
  obtain ⟨t, rfl, rfl⟩ := auditdParse_ok hparse
  refine ⟨rfl, lt_of_modEntry hm, ?_⟩
  cases event with
  | nil => cases hv
  | cons f rest =>
    obtain ⟨id, v⟩ := f
    cases hv
    exact (extends_edited id t dones rest).trans (extends_foldl_stride m dones _)

theorem crashes_auditdEvent (lib : DissectLib F) (hmod : mod < s.mods.length) (id : Nat)
    (v : OvmVar F) (rest : EventList (OvmVar F)) :
    Crashes (auditdEvent lib s mod ((id, v) :: rest)) ↔ Crashes (auditdParse lib.strtod v) := by
  obtain ⟨m, hm⟩ := exists_modEntry hmod
  show Crashes (auditdParse lib.strtod v >>= fun r => s.modEntry mod >>= fun m => _) ↔ _
  refine crashes_bind_left fun r => ?_
  rw [hm]
  exact not_crashes_ok _

end

/-! ### All dissectors -/

section

variable {lib : DissectLib F} {s : ModCtx DissectRecord} {d : DissectRecord}

/-- The module is one that the dissector posts as, and no field is lost. -/
theorem posting_ok {event : EventList (OvmVar F)} {c : Nat × EventList (OvmVar F)}
    (h : d.posting lib s event = .ok c) :
    c.1 ∈ d.targets ∧ c.1 < s.mods.length ∧ Extends event c.2 := by
  obtain ⟨dissect, mod, data⟩ := d
  -- all but one post as their own module
  have hown : c.1 = mod ∧ mod < s.mods.length ∧ Extends event c.2 →
      c.1 ∈ [mod] ∧ c.1 < s.mods.length ∧ Extends event c.2 := by
    rintro ⟨rfl, hmod, hext⟩
    exact ⟨List.mem_singleton_self _, hmod, hext⟩
  cases dissect with
  | syslog => exact hown (attrEvent_ok (f := syslogAttrs lib.mktime) h)
  | netfilter => exact hown (attrEvent_ok (f := netfilterAttrs lib.netfilterparse) h)
  | snare => exact hown (attrEvent_ok (f := snareAttrs lib.snareparse) h)
  | prism2 => exact hown (attrEvent_ok (f := prism2Attrs) h)
  | auditd => exact hown (auditdEvent_ok h)
  | generic =>
    obtain ⟨v, -, h⟩ := bind_ok h
    obtain ⟨⟨modId, values⟩, hattrs, hadd⟩ := bind_ok h
    obtain ⟨hook, rfl, hmem⟩ := genericAttrs_ok hattrs
    obtain ⟨hid, hmod, hext⟩ := addFields_ok hadd
    exact ⟨hid ▸ hmem, hid ▸ hmod, hext⟩

theorem crashes_posting (hd : ∀ i ∈ d.targets, i < s.mods.length) (id : Nat) (v : OvmVar F)
    (rest : EventList (OvmVar F)) :
    Crashes (d.posting lib s ((id, v) :: rest)) ↔ ¬ d.Readable lib v := by
  obtain ⟨dissect, mod, data⟩ := d
  cases dissect with
  | syslog =>
    have hmod := hd mod (List.mem_singleton_self _)
    exact (crashes_attrEvent hmod _ id v rest).trans (crashes_syslogAttrs lib.mktime v)
  | netfilter =>
    have hmod := hd mod (List.mem_singleton_self _)
    exact (crashes_attrEvent hmod _ id v rest).trans (crashes_netfilterAttrs lib.netfilterparse v)
  | snare =>
    have hmod := hd mod (List.mem_singleton_self _)
    exact (crashes_attrEvent hmod _ id v rest).trans (crashes_snareAttrs lib.snareparse v)
  | prism2 =>
    have hmod := hd mod (List.mem_singleton_self _)
    exact (crashes_attrEvent hmod _ id v rest).trans (crashes_prism2Attrs v)
  | auditd =>
    have hmod := hd mod (List.mem_singleton_self _)
    exact (crashes_auditdEvent lib hmod id v rest).trans (crashes_auditdParse lib.strtod v)
  | generic =>
    refine (crashes_genericEvent lib ?_ id v rest).trans (crashes_genericAttrs lib.generic data v)
    rintro hook rfl
    exact hd

end

/-! ## Registrations -/

/-- The states that loading modules and registering dissectors come to. Fields are turned on and off
in between; a dissector posts as modules that are loaded. -/
inductive Registered : ModCtx DissectRecord → Prop
  | empty : Registered .empty
  | load {s s' : ModCtx DissectRecord} {op : ModCtx.Op DissectRecord} :
      Registered s → s.step op = some s' → Registered s'
  | activate {s : ModCtx DissectRecord} (globalFields : List GlobalField) :
      Registered s → Registered { s with globalFields }
  | dissector {s s' : ModCtx DissectRecord} {parent : Nat} {d : DissectRecord} :
      Registered s → (∀ i ∈ d.targets, i < s.mods.length) →
      s.registerDissector parent d = some s' → Registered s'
  | conditional {s s' : ModCtx DissectRecord} {parent : Nat} {key : List UInt8}
      {d : DissectRecord} :
      Registered s → (∀ i ∈ d.targets, i < s.mods.length) →
      s.registerConditionalDissector parent key d = .ok s' → Registered s'

/-- The dissector is registered for the module. -/
def ModEntry.Hooks {D : Type} (m : ModEntry D) (d : D) : Prop :=
  m.dissect = some d ∨ ∃ h key, m.subDissectors = some h ∧ h.get key = some d

/-- The first module has a dissector that posts as the second one. -/
def Edge (s : ModCtx DissectRecord) (p c : Nat) : Prop :=
  ∃ m d, s.mods[p]? = some m ∧ m.Hooks d ∧ c ∈ d.targets

/-- The dissectors of a module post as modules below `n`. -/
def HooksBelow (n : Nat) (m : ModEntry DissectRecord) : Prop :=
  ∀ d, m.Hooks d → ∀ i ∈ d.targets, i < n

theorem HooksBelow.of_eq {n n' : Nat} {m m' : ModEntry DissectRecord} (h : HooksBelow n m)
    (hn : n ≤ n') (hd : m'.dissect = m.dissect) (hs : m'.subDissectors = m.subDissectors) :
    HooksBelow n' m' := by
  intro d hm i hi
  refine (h d ?_ i hi).trans_le hn
  rwa [ModEntry.Hooks, ← hd, ← hs]

theorem hooksBelow_of_none {n : Nat} {m : ModEntry DissectRecord} (hd : m.dissect = none)
    (hs : m.subDissectors = none) : HooksBelow n m := by
  rintro d (hm | ⟨h, key, hm, -⟩)
  · rw [hd] at hm
    cases hm
  · rw [hs] at hm
    cases hm

theorem HooksBelow.dissector {n : Nat} {m : ModEntry DissectRecord} (h : HooksBelow n m)
    {d : DissectRecord} (hd : ∀ i ∈ d.targets, i < n) :
    HooksBelow n { m with dissect := some d } := by
  rintro d' (hm | hm)
  · cases hm
    exact hd
  · exact h d' (.inr hm)

theorem HooksBelow.addSub {n : Nat} {m : ModEntry DissectRecord} (h : HooksBelow n m)
    {d : DissectRecord} (hd : ∀ i ∈ d.targets, i < n) (key : List UInt8) :
    HooksBelow n (m.addSub key d) := by
  rintro d' (hm | ⟨table, key', htable, hget⟩)
  · exact h d' (.inl hm)
  · cases htable
    rcases HashTable.eq_or_get_of_get_add hget with rfl | hget
    · exact hd
    · cases hsub : m.subDissectors with
      | none =>
        rw [hsub] at hget
        cases hget
      | some old =>
        rw [hsub] at hget
        exact h d' (.inr ⟨old, key', hsub, hget⟩)

theorem registerDissector_some {s s' : ModCtx DissectRecord} {parent : Nat} {d : DissectRecord}
    (h : s.registerDissector parent d = some s') : ∃ m, s.mods[parent]? = some m ∧
      s' = { s with mods := s.mods.set parent { m with dissect := some d } } := by
  simp only [ModCtx.registerDissector] at h
  split at h
  · cases h
  · rename_i m hm
    split at h
    · cases h
    · split at h
      · cases h
      · cases h
        exact ⟨m, hm, rfl⟩

/-- An entry that is changed, and the others. -/
theorem hooksBelow_set {s : ModCtx DissectRecord} {parent : Nat} {m : ModEntry DissectRecord}
    (h : ∀ (i : Nat) (m : ModEntry DissectRecord), s.mods[i]? = some m →
      HooksBelow s.mods.length m)
    (hm : HooksBelow s.mods.length m) {i : Nat} {m' : ModEntry DissectRecord}
    (hi : (s.mods.set parent m)[i]? = some m') :
    HooksBelow (s.mods.set parent m).length m' := by
  rw [List.length_set]
  rw [List.getElem?_set] at hi
  split at hi
  · split at hi
    · cases hi
      exact hm
    · cases hi
  · exact h i m' hi

theorem Registered.hooksBelow {s : ModCtx DissectRecord} (hs : Registered s) :
    ∀ (i : Nat) (m : ModEntry DissectRecord), s.mods[i]? = some m →
      HooksBelow s.mods.length m := by
  induction hs with
  | empty =>
    intro i m hi
    cases hi
  | @load s s' op _ hstep ih =>
    have hl := ModCtx.step_loads hstep
    intro i m' hi
    rcases Nat.lt_or_ge i s.mods.length with hlt | hge
    · obtain ⟨m, hm, hdissect, hsub, -⟩ := hl.old i m' hi hlt
      exact (ih i m hm).of_eq hl.length hdissect hsub
    · obtain ⟨hdissect, hsub⟩ := hl.fresh i m' hi hge
      exact hooksBelow_of_none hdissect hsub
  | activate _ _ ih => exact ih
  | dissector _ hd hreg ih =>
    obtain ⟨m, hm, rfl⟩ := registerDissector_some hreg
    exact fun i m' hi => hooksBelow_set ih ((ih _ m hm).dissector hd) hi
  | conditional _ hd hreg ih =>
    obtain ⟨m, hm, -, -, rfl⟩ := ModCtx.registerConditionalDissector_ok hreg
    exact fun i m' hi => hooksBelow_set ih ((ih _ m hm).addSub hd _) hi

/-! ## Calls -/

/-- The event is injected at the end, and not before, with its fields. -/
def Once (event : EventList (OvmVar F)) (log : List (Act (OvmVar F))) : Prop :=
  ∃ before e, log = before ++ [.injectEvent e] ∧ (∀ e', .injectEvent e' ∉ before) ∧ Extends event e

/-- A call of `post_event` leads to another one, of a dissector. -/
def Posts (lib : DissectLib F) (s : ModCtx DissectRecord) (c c' : Nat × EventList (OvmVar F)) :
    Prop :=
  ∃ m d, s.mods[c.1]? = some m ∧ dispatch lib.rawData m c.2 = .dissect d ∧
    (m.passed d).posting lib s c.2 = .ok c'

/-- There is a second field where one is looked at, and the dissector can read the first one. -/
def Ready (lib : DissectLib F) (s : ModCtx DissectRecord) (c : Nat × EventList (OvmVar F)) : Prop :=
  ∀ m, s.mods[c.1]? = some m →
    (m.dissect = none → m.subDissectors.isSome → 2 ≤ c.2.length) ∧
      ∀ d, dispatch lib.rawData m c.2 = .dissect d → ∀ f ∈ c.2.head?, (m.passed d).Readable lib f.2

/-- A call of `post_event` comes back. -/
def Returns (lib : DissectLib F) (s : ModCtx DissectRecord) (c : Nat × EventList (OvmVar F))
    (log : List (Act (OvmVar F))) : Prop :=
  Settles (fun n => postEvent lib s n c.1 c.2) (.ok log)

section

variable {lib : DissectLib F} {s : ModCtx DissectRecord} {m : ModEntry DissectRecord}
  {d : DissectRecord}

theorem hooks_of_dispatch {event : EventList (OvmVar F)}
    (h : dispatch lib.rawData m event = .dissect d) : m.Hooks d := by
  unfold dispatch at h
  split at h
  · rename_i d' hd
    cases h
    exact .inl hd
  · rename_i table hd htable
    split at h
    · split at h
      · rename_i d' hget
        cases h
        exact .inr ⟨table, _, htable, hget⟩
      · cases h
    · cases h
  · cases h

theorem dispatch_nullNext {event : EventList (OvmVar F)} :
    dispatch lib.rawData m event = .nullNext ↔
      m.dissect = none ∧ m.subDissectors.isSome ∧ event.length < 2 := by
  unfold dispatch
  split
  · rename_i hd
    refine iff_of_false (by rintro ⟨⟩) ?_
    rintro ⟨hnone, -⟩
    rw [hd] at hnone
    cases hnone
  · rename_i table hd htable
    rw [htable]
    split
    · rename_i f next rest
      refine iff_of_false ?_ ?_
      · split <;> rintro ⟨⟩
      · rintro ⟨-, -, hlt⟩
        simp only [List.length_cons] at hlt
        omega
    · rename_i hshort
      refine iff_of_true rfl ⟨hd, rfl, ?_⟩
      rcases event with - | ⟨f, - | ⟨next, rest⟩⟩
      · exact Nat.zero_lt_two
      · exact Nat.one_lt_two
      · exact absurd rfl (hshort f next rest)
  · rename_i hsub
    refine iff_of_false (by rintro ⟨⟩) ?_
    rintro ⟨-, hsome, -⟩
    rw [hsub] at hsome
    cases hsome

theorem passed_targets : ∀ i ∈ (m.passed d).targets, i ∈ d.targets := by
  obtain ⟨dissect, mod, data⟩ := d
  unfold ModEntry.passed
  split
  · cases dissect with
    | generic => exact fun i hi => absurd hi List.not_mem_nil
    | _ => exact fun i hi => hi
  · exact fun i hi => hi

/-- `post_event` with a dissector. -/
theorem postEvent_dissect {c : Nat × EventList (OvmVar F)} (hm : s.mods[c.1]? = some m)
    (hd : dispatch lib.rawData m c.2 = .dissect d) (n : Nat) :
    postEvent lib s (n + 1) c.1 c.2 =
      match (m.passed d).posting lib s c.2 with
      | .error .failed => .ok [.dissect (m.passed d).dissect, .injectEvent c.2]
      | .error (.crash e) => .error (.crash e)
      | .ok c' => (postEvent lib s n c'.1 c'.2).map (.dissect (m.passed d).dissect :: ·) := by
  simp only [postEvent, hm, hd, DissectRecord.call_eq]
  cases (m.passed d).posting lib s c.2 with
  | error e => cases e <;> rfl
  | ok c' =>
    simp only [dissectBy]
    cases postEvent lib s n c'.1 c'.2 <;> rfl

/-! ### One call -/

theorem Once.cons {event e : EventList (OvmVar F)} {log : List (Act (OvmVar F))}
    (h : Once e log) (hext : Extends event e) (d : Dissector) : Once event (.dissect d :: log) := by
  obtain ⟨before, e', rfl, hnone, hext'⟩ := h
  refine ⟨.dissect d :: before, e', rfl, ?_, hext.trans hext'⟩
  intro e'' hmem
  rcases List.mem_cons.mp hmem with ⟨⟨⟩⟩ | hmem
  exact hnone e'' hmem

/-- The modules that a dissector of a registered module posts as are loaded. -/
theorem Registered.passed_lt (hs : Registered s) {p : Nat} (hm : s.mods[p]? = some m)
    {event : EventList (OvmVar F)} (hd : dispatch lib.rawData m event = .dissect d) :
    ∀ i ∈ (m.passed d).targets, i < s.mods.length :=
  fun i hi => hs.hooksBelow p m hm d (hooks_of_dispatch hd) i (passed_targets i hi)

theorem Registered.crashes_posting (hs : Registered s) {c : Nat × EventList (OvmVar F)}
    (hne : c.2 ≠ []) (hm : s.mods[c.1]? = some m)
    (hd : dispatch lib.rawData m c.2 = .dissect d) :
    Crashes ((m.passed d).posting lib s c.2) ↔
      ¬ ∀ f ∈ c.2.head?, (m.passed d).Readable lib f.2 := by
  have hlt := hs.passed_lt hm hd
  obtain ⟨p, event⟩ := c
  cases event with
  | nil => exact absurd rfl hne
  | cons f rest =>
    obtain ⟨id, v⟩ := f
    refine (Orchids.crashes_posting hlt id v rest).trans (not_congr ?_)
    constructor
    · intro h f hf
      cases hf
      exact h
    · exact fun h => h (id, v) rfl

/-- A call that comes back was ready. -/
theorem Returns.ready (hs : Registered s) {c : Nat × EventList (OvmVar F)} (hne : c.2 ≠ [])
    {log : List (Act (OvmVar F))} (h : Returns lib s c log) : Ready lib s c := by
  obtain ⟨n, hn⟩ := Filter.eventually_atTop.mp h
  have hcall : postEvent lib s (n + 1) c.1 c.2 = .ok log := hn (n + 1) (Nat.le_succ n)
  intro m hm
  constructor
  · intro hnone hsome
    by_contra hlt
    have hnull : dispatch lib.rawData m c.2 = .nullNext :=
      dispatch_nullNext.mpr ⟨hnone, hsome, Nat.not_le.mp hlt⟩
    simp only [postEvent, hm, hnull] at hcall
    cases hcall
  · intro d hd
    by_contra hread
    obtain ⟨e, he⟩ := (hs.crashes_posting hne hm hd).mpr hread
    rw [postEvent_dissect hm hd, he] at hcall
    cases hcall

/-- So do the calls that it leads to. -/
theorem Returns.posts {c c' : Nat × EventList (OvmVar F)} {log : List (Act (OvmVar F))}
    (h : Returns lib s c log) (hp : Posts lib s c c') : Returns lib s c' log.tail := by
  obtain ⟨n, hn⟩ := Filter.eventually_atTop.mp h
  obtain ⟨m, d, hm, hd, hok⟩ := hp
  refine Filter.eventually_atTop.mpr ⟨n, ?_⟩
  intro k hk
  have hcall : postEvent lib s (k + 1) c.1 c.2 = .ok log := hn (k + 1) (Nat.le_succ_of_le hk)
  rw [postEvent_dissect hm hd, hok] at hcall
  simp only at hcall ⊢
  cases hlog : postEvent lib s k c'.1 c'.2 with
  | error e =>
    rw [hlog] at hcall
    cases hcall
  | ok log' =>
    rw [hlog] at hcall
    cases hcall
    rfl

theorem Posts.extends {c c' : Nat × EventList (OvmVar F)} (h : Posts lib s c c') :
    Extends c.2 c'.2 ∧ c'.1 < s.mods.length := by
  obtain ⟨m, d, -, -, hok⟩ := h
  obtain ⟨-, hlt, hext⟩ := posting_ok hok
  exact ⟨hext, hlt⟩

theorem Posts.edge {c c' : Nat × EventList (OvmVar F)} (h : Posts lib s c c') :
    Edge s c.1 c'.1 := by
  obtain ⟨m, d, hm, hd, hok⟩ := h
  exact ⟨m, d, hm, hooks_of_dispatch hd, passed_targets _ (posting_ok hok).1⟩

/-- An event that a dissector posts is the one that it got. -/
theorem Posts.once {c c' : Nat × EventList (OvmVar F)} (h : Posts lib s c c')
    {log : List (Act (OvmVar F))} (hlog : Returns lib s c' log) (honce : Once c'.2 log) :
    ∃ log', Returns lib s c log' ∧ Once c.2 log' := by
  obtain ⟨m, d, hm, hd, hok⟩ := id h
  refine ⟨.dissect (m.passed d).dissect :: log, .of_succ ?_, honce.cons h.extends.1 _⟩
  refine hlog.mono fun n hn => ?_
  refine (postEvent_dissect hm hd n).trans ?_
  rw [hok]
  simp only at hn ⊢
  rw [hn]
  rfl

/-- A call that is ready injects the event, or leads to another call. -/
theorem once_or_posts (hs : Registered s) {c : Nat × EventList (OvmVar F)}
    (hlt : c.1 < s.mods.length) (hne : c.2 ≠ []) (hready : Ready lib s c) :
    (∃ log, Returns lib s c log ∧ Once c.2 log) ∨ ∃ c', Posts lib s c c' := by
  have hm : s.mods[c.1]? = some s.mods[c.1] := List.getElem?_eq_getElem hlt
  generalize s.mods[c.1] = m at hm
  obtain ⟨hnext, hread⟩ := hready m hm
  cases hdispatch : dispatch lib.rawData m c.2 with
  | nullNext =>
    obtain ⟨hnone, hsome, hshort⟩ := dispatch_nullNext.mp hdispatch
    exact absurd (hnext hnone hsome) (Nat.not_le.mpr hshort)
  | injectEvent =>
    refine .inl ⟨[.injectEvent c.2], .of_succ (.of_forall ?_), [], c.2, rfl, ?_, .refl c.2⟩
    · intro n
      simp only [postEvent, hm, hdispatch]
    · exact fun e' => List.not_mem_nil
  | dissect d =>
    cases hposting : (m.passed d).posting lib s c.2 with
    | ok c' => exact .inr ⟨c', m, d, hm, hdispatch, hposting⟩
    | error e =>
      cases e with
      | failed =>
        refine .inl ⟨[.dissect (m.passed d).dissect, .injectEvent c.2], .of_succ (.of_forall ?_),
          [.dissect (m.passed d).dissect], c.2, rfl, ?_, .refl c.2⟩
        · intro n
          rw [postEvent_dissect hm hdispatch, hposting]
        · intro e' hmem
          cases List.mem_singleton.mp hmem
      | crash e =>
        exact absurd (hread d hdispatch) ((hs.crashes_posting hne hm hdispatch).mp ⟨e, hposting⟩)

/-! ### All calls -/

/-- An event that is posted is injected once, with all its fields, if and only if each call of
`post_event` on its way has what it needs. -/
theorem once_iff (lib : DissectLib F) {s : ModCtx DissectRecord} (hs : Registered s)
    (hacyclic : ∀ p, ¬ TransGen (Edge s) p p) {p : Nat} (hp : p < s.mods.length)
    {event : EventList (OvmVar F)} (hne : event ≠ []) :
    (∃ log, Returns lib s (p, event) log ∧ Once event log) ↔
      ∀ c, ReflTransGen (Posts lib s) (p, event) c → Ready lib s c := by
  constructor
  · rintro ⟨log, hlog, -⟩ c hc
    have hreturns : (∃ log, Returns lib s c log) ∧ c.2 ≠ [] := by
      induction hc with
      | refl => exact ⟨⟨log, hlog⟩, hne⟩
      | tail _ hstep ih =>
        obtain ⟨⟨log', hlog'⟩, hne'⟩ := ih
        exact ⟨⟨log'.tail, hlog'.posts hstep⟩, hstep.extends.1.ne_nil hne'⟩
    obtain ⟨⟨log', hlog'⟩, hne'⟩ := hreturns
    exact hlog'.ready hs hne'
  · intro hready
    -- the modules are finitely many, and there is no cycle among them
    let below : Fin s.mods.length → Fin s.mods.length → Prop := fun q p => TransGen (Edge s) p.1 q.1
    have htrans : IsTrans _ below := ⟨fun _ _ _ hab hbc => hbc.trans hab⟩
    have hirrefl : Std.Irrefl below := ⟨fun p => hacyclic p.1⟩
    have hwf : WellFounded below := Finite.wellFounded_of_trans_of_irrefl below
    have hall : ∀ (p : Fin s.mods.length) (event : EventList (OvmVar F)), event ≠ [] →
        (∀ c, ReflTransGen (Posts lib s) (p.1, event) c → Ready lib s c) →
        ∃ log, Returns lib s (p.1, event) log ∧ Once event log := by
      intro p
      induction p using hwf.induction with
      | _ p ih =>
        intro event hne hready
        rcases once_or_posts hs p.2 hne (hready _ .refl) with honce | ⟨c', hstep⟩
        · exact honce
        · obtain ⟨hext, hlt⟩ := hstep.extends
          obtain ⟨log, hlog, honce⟩ := ih ⟨c'.1, hlt⟩ (.single hstep.edge) c'.2 (hext.ne_nil hne)
            fun c hc => hready c (.head hstep hc)
          exact hstep.once hlog honce
    exact hall ⟨p, hp⟩ event hne hready

end

/-! ### A module with one dissector -/

/-- A module without fields. -/
def bareModule (name : CStr) : InputModule :=
  { magic := modMagic, version := orchidsVersion, name := some name, dependencies := []
    preConfig := none }

/-- The syslog dissector, of module 1. -/
def syslogRecord : DissectRecord := { dissect := .syslog, mod := 1, data := none }

/-- `metaevent`, whose events with the key go to the syslog dissector. -/
def metaeventCtx : ModCtx DissectRecord where
  mods :=
    [(ModCtx.newEntry (bareModule (ascii "metaevent")) none).addSub (ascii "syslog") syslogRecord,
      ModCtx.newEntry (bareModule (ascii "syslog")) (some syslogRecord)]
  globalFields := []
  numFields := 0

theorem registered_metaeventCtx : Registered metaeventCtx := by
  have hload₁ := @Registered.load _ _ (.addModule (bareModule (ascii "metaevent")) none) .empty rfl
  have hload₂ :=
    @Registered.load _ _ (.addModule (bareModule (ascii "syslog")) (some syslogRecord)) hload₁ rfl
  refine @Registered.conditional _ _ 0 (ascii "syslog") syslogRecord hload₂ ?_ rfl
  intro i hi
  obtain rfl := List.mem_singleton.mp hi
  exact Nat.one_lt_two

theorem edge_metaeventCtx {p c : Nat} (h : Edge metaeventCtx p c) : p = 0 ∧ c = 1 := by
  obtain ⟨m, d, hm, hd, hc⟩ := h
  match p with
  | 0 =>
    cases hm
    refine ⟨rfl, ?_⟩
    rcases hd with hd | ⟨table, key, htable, hget⟩
    · cases hd
    · cases htable
      rcases HashTable.eq_or_get_of_get_add hget with rfl | hget
      · exact List.mem_singleton.mp hc
      · cases hget
  | 1 =>
    cases hm
    rcases hd with hd | ⟨table, key, htable, -⟩
    · cases hd
    · cases htable
  | p + 2 => cases hm

theorem acyclic_metaeventCtx (p : Nat) : ¬ TransGen (Edge metaeventCtx) p p := by
  have hends : ∀ {q : Nat}, TransGen (Edge metaeventCtx) p q → p = 0 ∧ q = 1 := by
    intro q hq
    induction hq with
    | single h => exact edge_metaeventCtx h
    | tail _ h ih => exact absurd (ih.2.symm.trans (edge_metaeventCtx h).1) Nat.one_ne_zero
  intro h
  obtain ⟨h0, h1⟩ := hends h
  exact absurd (h0.symm.trans h1) Nat.zero_ne_one

/-- A library that is not called for a line without a date. -/
def bareLib : DissectLib ℚ where
  rawData _ := []
  mktime _ := 0
  strtod _ := (⟨0, 0⟩, 0)
  netfilterparse _ := (false, [])
  snareparse _ := (false, [])
  generic := { inetAton := fun _ => none, atof := fun _ => 0, before := fun _ => 0 }

/-- A text in a field. -/
def textField (id : Nat) (s : String) : Nat × OvmVar ℚ :=
  (id, .str { bytes := ascii s, behind := fun _ => 0 })

/-- An event for the syslog dissector. -/
def suEvent : EventList (OvmVar ℚ) := [textField 1 "<34>su: failed", textField 0 "syslog"]

theorem once_iff_metaevent :
    (∃ log, Returns bareLib metaeventCtx (0, suEvent) log ∧ Once suEvent log) ↔
      ∀ c, ReflTransGen (Posts bareLib metaeventCtx) (0, suEvent) c →
        Ready bareLib metaeventCtx c :=
  once_iff bareLib registered_metaeventCtx acyclic_metaeventCtx Nat.zero_lt_two
    (List.cons_ne_nil _ _)

/-- An event with one field: the second one is looked at. -/
theorem not_once : ¬ ∀ (lib : DissectLib ℚ) (s : ModCtx DissectRecord), Registered s →
    (∀ p, ¬ TransGen (Edge s) p p) → ∀ p < s.mods.length, ∀ event : EventList (OvmVar ℚ),
    event ≠ [] → ∃ log, Returns lib s (p, event) log ∧ Once event log := by
  intro h
  obtain ⟨log, hlog, -⟩ := h bareLib metaeventCtx registered_metaeventCtx acyclic_metaeventCtx 0
    Nat.zero_lt_two [textField 0 "syslog"] (List.cons_ne_nil _ _)
  have hready := hlog.ready registered_metaeventCtx (List.cons_ne_nil _ _)
  have hlen := (hready _ rfl).1 rfl rfl
  exact absurd hlen (by decide)

end Orchids

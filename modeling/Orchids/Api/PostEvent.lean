import Orchids.Api.Partition
import Orchids.Mod.Auditd
import Orchids.Mod.Generic
import Orchids.Mod.Records

/-!
# `post_event` and the dissectors (`orchids_api.c`)

A module posts an event; a dissector adds fields to it and posts it in the name of its own module, or
returns that it failed, and then `post_event` injects what it was given. A dissector gets
`post_event` as an argument, with a number of nested calls less.
-/

namespace Orchids

/-- The functions that modules register. -/
inductive Dissector where
  | syslog | generic | netfilter | snare | auditd | prism2
  deriving DecidableEq

/-- `conditional_dissector_record_t`; the one of an unconditional dissector is in `mod_entry_t`. -/
structure DissectRecord where
  dissect : Dissector
  mod : Nat
  data : Option Generic.Hook

/-- What dissectors use of libraries and generated parsers. -/
structure DissectLib (F : Type) where
  rawData : OvmVar F → List UInt8
  mktime : Tm → BitVec 64
  strtod : List UInt8 → Timeval × Nat
  netfilterparse : AttrParser F
  snareparse : AttrParser F
  generic : Generic.Library F

/-- What is done with an event: a dissector reads it and adds to it, or it is injected. -/
inductive Act (V : Type) where
  | dissect (d : Dissector)
  | injectEvent (event : EventList V)

/-- Why a call of `post_event` does not return. -/
inductive PostStop where
  | crash (c : Crash)
  /-- There are more nested calls than the model looks at. -/
  | depth
  deriving DecidableEq

variable {F : Type}

/-- `post_event`, as a dissector calls it. -/
abbrev Post (F : Type) :=
  Nat → EventList (OvmVar F) → Except PostStop (List (Act (OvmVar F)))

/-- `event->value` -/
def eventValue {V : Type} : EventList V → Except Reject V
  | [] => .error (.crash .nullEvent)
  | (_, v) :: _ => .ok v

/-- The event with another value in its first field. -/
def setEventValue {V : Type} (v : V) : EventList V → EventList V
  | [] => []
  | (id, _) :: event => (id, v) :: event

namespace ModCtx

variable (s : ModCtx DissectRecord)

/-- `mod_entry_t *` -/
def modEntry (mod : Nat) : Except Reject (ModEntry DissectRecord) :=
  match s.mods[mod]? with
  | none => .error (.crash .noModule)
  | some m => .ok m

/-- `add_fields_to_event`, before `post_event(ctx, mod, event)`. -/
def addFields (mod : Nat) (event : EventList (OvmVar F)) (attr : List (Slot (OvmVar F))) :
    Except Reject (Nat × EventList (OvmVar F)) := do
  let m ← s.modEntry mod
  return (mod, s.addFieldsToEvent m event attr)

end ModCtx

/-! ## Dissectors -/

section

variable (lib : DissectLib F) (s : ModCtx DissectRecord) (mod : Nat) (data : Option Generic.Hook)
  (event : EventList (OvmVar F))

/-- The module that `dissect_syslog` posts as, and the event. -/
def syslogEvent : Except Reject (Nat × EventList (OvmVar F)) := do
  let attr ← syslogAttrs lib.mktime (← eventValue event)
  s.addFields mod event attr

def genericEvent : Except Reject (Nat × EventList (OvmVar F)) := do
  let (modId, values) ← genericAttrs lib.generic data (← eventValue event)
  s.addFields modId event values

def netfilterEvent : Except Reject (Nat × EventList (OvmVar F)) := do
  let attr ← netfilterAttrs lib.netfilterparse (← eventValue event)
  s.addFields mod event attr

def snareEvent : Except Reject (Nat × EventList (OvmVar F)) := do
  let attr ← snareAttrs lib.snareparse (← eventValue event)
  s.addFields mod event attr

/-- The text of the first field is edited in place. -/
def auditdEvent : Except Reject (Nat × EventList (OvmVar F)) := do
  let (dones, line) ← auditdParse lib.strtod (← eventValue event)
  let m ← s.modEntry mod
  let event := setEventValue (.str line) event
  return (mod, dones.foldl
    (fun event d => s.addFieldsToEventStride m event (d.fields.map .value) d.evtno) event)

def prism2Event : Except Reject (Nat × EventList (OvmVar F)) := do
  let attr ← prism2Attrs (← eventValue event)
  s.addFields mod event attr

/-- A dissector with the event that it comes to: what is done, and whether it returns another value
than 0. -/
def dissectBy (post : Post F) (d : Dissector) :
    Except Reject (Nat × EventList (OvmVar F)) →
      Except PostStop (List (Act (OvmVar F)) × Bool)
  | .error .failed => .ok ([.dissect d], true)
  | .error (.crash c) => .error (.crash c)
  | .ok (sender, event) => do
    let log ← post sender event
    return (.dissect d :: log, false)

variable (post : Post F)

/-- `dissect_syslog` -/
def dissectSyslog := dissectBy post .syslog (syslogEvent lib s mod event)

/-- `generic_dissect` -/
def genericDissect := dissectBy post .generic (genericEvent lib s data event)

/-- `netfilter_dissect` -/
def netfilterDissect := dissectBy post .netfilter (netfilterEvent lib s mod event)

/-- `snare_dissect` -/
def snareDissect := dissectBy post .snare (snareEvent lib s mod event)

/-- `dissect_auditd` -/
def dissectAuditd := dissectBy post .auditd (auditdEvent lib s mod event)

/-- `prism2_callback` -/
def prism2Callback := dissectBy post .prism2 (prism2Event s mod event)

end

/-- `dissect(ctx, mod, event, data)` -/
def DissectRecord.call (lib : DissectLib F) (s : ModCtx DissectRecord) (d : DissectRecord)
    (event : EventList (OvmVar F)) (post : Post F) :
    Except PostStop (List (Act (OvmVar F)) × Bool) :=
  match d.dissect with
  | .syslog => dissectSyslog lib s d.mod event post
  | .generic => genericDissect lib s d.data event post
  | .netfilter => netfilterDissect lib s d.mod event post
  | .snare => snareDissect lib s d.mod event post
  | .auditd => dissectAuditd lib s d.mod event post
  | .prism2 => prism2Callback s d.mod event post

/-- The data that `post_event` passes: `NULL` to an unconditional dissector. -/
def ModEntry.passed (sender : ModEntry DissectRecord) (d : DissectRecord) : DissectRecord :=
  if sender.dissect.isSome then { d with data := none } else d

/-- `post_event`, with this number of nested calls at most. -/
def postEvent (lib : DissectLib F) (s : ModCtx DissectRecord) : Nat → Post F
  | 0, _, _ => .error .depth
  | n + 1, sender, event =>
    match s.mods[sender]? with
    | none => .error (.crash .noModule)
    | some m =>
      match dispatch lib.rawData m event with
      | .nullNext => .error (.crash .nullEvent)
      | .injectEvent => .ok [.injectEvent event]
      | .dissect d => do
        let (log, ret) ← (m.passed d).call lib s event (postEvent lib s n)
        if ret then return log ++ [.injectEvent event] else return log

/-! ## Registration -/

namespace ModCtx

variable {D : Type}

/-- `register_dissector`; it exits if the parent is not loaded or has a dissector. -/
def registerDissector (s : ModCtx D) (parent : Nat) (d : D) : Option (ModCtx D) :=
  match s.mods[parent]? with
  | none => none
  | some m =>
    if m.subDissectors.isSome then none
    else if m.dissect.isSome then none
    else some { s with mods := s.mods.set parent { m with dissect := some d } }

end ModCtx

end Orchids

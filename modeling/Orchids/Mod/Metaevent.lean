import Orchids.Lang.Values
import Orchids.Mod.SharedVars

/-!
# Meta-events (`mod_metaevent.c`)

The built-ins that make events in rules, the queue of these, and the timed action that posts them
one by one, on a memory of objects. Nothing reads `poll_handler_list`, so the action alone calls
`metaevent_callback`.

* `Metaevent`: the memory and the queue; the built-ins, and the two halves of `metaevent_callback`,
  before and after `post_event`.
-/

namespace Orchids

/-- An `event_t *`: ids of fields and the objects of their values, the last one set first. -/
abbrev FieldList := List (Nat × Nat)

/-- The memory, `EXTPTR` of the objects of `build_event`, `cfg->events`, and the number of actions
`rtaction_inject_event` that are registered and not called yet. -/
structure Metaevent (F : Type) where
  memory : Memory F
  extptr : Nat → FieldList
  events : List FieldList
  rtactions : Nat

/-- What `strhash_get` finds in `fields_hash` for the text of a string. -/
abbrev FieldsHash := Text → Option Nat

variable {F : Type}

namespace Memory

variable (m : Memory F)

/-- `STR(field)` -/
def str (field : Option Nat) : Except Stop Text := do
  let (_, data) ← m.obj field
  match data with
  | .own (.str t) _ => return t
  | _ => .error .badCode

/-- The address of `EXTPTR(ptr)`. -/
def external (ptr : Option Nat) : Except Stop Nat := do
  let a ← deref ptr
  let (_, data) ← m.obj ptr
  match data with
  | .own .external _ => return a
  | _ => .error .badCode

/-- `if (res && CAN_FREE_VAR(res)) Xfree(res)` -/
def trash (res : Option Nat) : Except Stop (Memory F) :=
  match res with
  | none => return m
  | some a => do
    let (flags, _) ← m.obj (some a)
    return if flags &&& typeCanfree = 0 then m else m.free a

end Memory

namespace Metaevent

variable (fields : FieldsHash) (st : Statics) (w : Metaevent F)

/-- `issdl_build_event` -/
def buildEvent (s : List (Option Nat)) : List (Option Nat) × Metaevent F :=
  (some w.memory.size :: s,
    { w with
      memory := w.memory.alloc (.obj (newFlags .external) (.own .external rfl))
      extptr := Function.update w.extptr w.memory.size [] })

/-- `issdl_set_event_field` -/
def setEventField (s : List (Option Nat)) : Except Stop (List (Option Nat) × Metaevent F) := do
  let (ptr, s) := stackPop s
  let (field, s) := stackPop s
  let (value, s) := stackPop s
  let name ← w.memory.str field
  match fields name with
  | none => return (st.zero :: s, w)
  | some id =>
    let (newValue, memory) ← w.memory.issdlClone value
    let newValue ← deref newValue
    let memory := memory.setFlags newValue fun _ => 0
    let p ← w.memory.external ptr
    return (st.one :: s,
      { w with memory, extptr := Function.update w.extptr p ((id, newValue) :: w.extptr p) })

/-- `register_rtcallback(ctx, rtaction_inject_event, mod, 0)` if the queue is not empty. -/
def registerRtcallback : Metaevent F :=
  if w.events.isEmpty then w else { w with rtactions := w.rtactions + 1 }

/-- The fields of the object, if there are any, at the end of the queue. -/
def insertTail (p : Nat) : Metaevent F :=
  if (w.extptr p).isEmpty then w
  else { w with extptr := Function.update w.extptr p [], events := w.events ++ [w.extptr p] }

/-- `issdl_inject_event` -/
def injectEvent (s : List (Option Nat)) : Except Stop (List (Option Nat) × Metaevent F) := do
  let (ptr, s) := stackPop s
  let p ← w.memory.external ptr
  return (s, (w.insertTail p).registerRtcallback)

/-- `issdl_inject_single_event` -/
def injectSingleEvent (s : List (Option Nat)) : Except Stop (List (Option Nat) × Metaevent F) := do
  let (field, s) := stackPop s
  let (value, s) := stackPop s
  let (s, w) := w.buildEvent s
  let (ptr, s) := stackPop s
  let (s, w) ← w.setEventField fields st (ptr :: field :: value :: s)
  let (res, s) := stackPop s
  let memory ← w.memory.trash res
  injectEvent { w with memory } (ptr :: s)

/-- `rtaction_inject_event` up to the call of `post_event`: the action is not registered any more,
and the head of the queue is what is posted. -/
def callbackHead : Option FieldList × Metaevent F :=
  (w.events.head?, { w with rtactions := w.rtactions - 1, events := w.events.tail })

/-- `metaevent_callback` after `post_event`. -/
def callbackEnd : Metaevent F := w.registerRtcallback

end Metaevent

end Orchids

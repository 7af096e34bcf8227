import Orchids.Mod.Metaevent
import Orchids.Mod.SharedMap

/-!
# The delivery of meta-events

Posting an event runs rules, which call the built-ins again: all that happens while `post_event`
runs are steps of their own.

* `MetaRun`: the module with what the callers gave, what they asked for and what was posted.
* `Proper`: what runs there are; `Keeps`: what else is asked of a step.
* `Inv`: the queue has the content that was asked for; `step_inv`, `run_inv`.
* `metaevent_delivered`: every event is posted once, in the order of the calls and with its fields,
  if the bytes of the virtual strings among these stay until then.
-/

namespace Orchids

variable {F : Type}

/-! ## Runs -/

/-- A field of an event and its value, if the bytes of this are there. -/
abbrev Content (F : Type) := List (Nat × Option (OvmVar F))

/-- The content of an event, for one who reads it. -/
def Memory.content (m : Memory F) (event : FieldList) : Content F :=
  event.map fun f => (f.1, m.value f.2)

/-- The module in a run: whether `metaevent_callback` waits for `post_event`, what the fields of
each object were set to, the events that the calls of `inject_event` and `inject_single_event`
asked for, and the ones that were posted. -/
structure MetaRun (F : Type) where
  w : Metaevent F
  posting : Bool
  given : Nat → Content F
  asked : List (Content F)
  posted : List (Content F)

/-- A call of a built-in with the stack that it finds, a change of memory by the rest of the
program, or a half of the callback. -/
inductive MetaStep (F : Type) where
  | buildEvent (s : List (Option Nat))
  | setEventField (s : List (Option Nat))
  | injectEvent (s : List (Option Nat))
  | injectSingleEvent (s : List (Option Nat))
  | other (memory : Memory F)
  | rtaction
  | posted

namespace MetaRun

variable (fields : FieldsHash) (st : Statics) (r : MetaRun F)

/-- The values that a caller gives. -/
def valueOf (value : Option Nat) : Option (OvmVar F) := value.bind r.w.memory.value

/-- The id of the field with this name. -/
def fieldId (field : Option Nat) : Option Nat :=
  match r.w.memory.str field with
  | .ok name => fields name
  | .error _ => none

/-- What the fields of the objects are to be after a call of `set_event_field`. -/
def givenAfter (s : List (Option Nat)) : Nat → Content F :=
  let (ptr, s) := stackPop s
  let (field, s) := stackPop s
  let (value, _) := stackPop s
  match r.w.memory.external ptr, r.fieldId fields field with
  | .ok p, some id => Function.update r.given p ((id, r.valueOf value) :: r.given p)
  | _, _ => r.given

/-- The events that are asked for after a call of `inject_event` on the object `p`. -/
def askedAfter (p : Nat) : List (Content F) :=
  if (r.given p).isEmpty then r.asked else r.asked ++ [r.given p]

/-- The events that are asked for after a call of `inject_single_event`. -/
def askedSingle (s : List (Option Nat)) : List (Content F) :=
  let (field, s) := stackPop s
  let (value, _) := stackPop s
  match r.fieldId fields field with
  | some id => r.asked ++ [[(id, r.valueOf value)]]
  | none => r.asked

/-- One step. An action is called when it is registered and the callback is not running; without
these `rtaction` and `posted` are nothing. -/
def step : MetaStep F → Except Stop (MetaRun F)
  | .buildEvent s =>
    return { r with
      w := (r.w.buildEvent s).2
      given := Function.update r.given r.w.memory.size [] }
  | .setEventField s => do
    let (_, w) ← r.w.setEventField fields st s
    return { r with w, given := r.givenAfter fields s }
  | .injectEvent s => do
    let p ← r.w.memory.external (stackPop s).1
    let (_, w) ← r.w.injectEvent s
    return { r with w, given := Function.update r.given p [], asked := r.askedAfter p }
  | .injectSingleEvent s => do
    let (_, w) ← r.w.injectSingleEvent fields st s
    return { r with
      w
      given := Function.update r.given r.w.memory.size []
      asked := r.askedSingle fields s }
  | .other memory => return { r with w := { r.w with memory } }
  | .rtaction =>
    if r.posting || r.w.rtactions == 0 then return r
    else
      let (head, w) := r.w.callbackHead
      match head with
      | none => return { r with w := w.callbackEnd }
      | some event =>
        return { r with w, posting := true, posted := r.posted ++ [w.memory.content event] }
  | .posted => return if r.posting then { r with w := r.w.callbackEnd, posting := false } else r

/-- The steps one after the other. -/
def run : MetaRun F → List (MetaStep F) → Except Stop (MetaRun F)
  | r, [] => return r
  | r, x :: rest => do run (← step fields st r x) rest

/-- The module after `metaevent_preconfig`. -/
def start (memory : Memory F) : MetaRun F where
  w := { memory, extptr := fun _ => [], events := [], rtactions := 0 }
  posting := false
  given _ := []
  asked := []
  posted := []

/-- Each step with the steps that are left after it, in the state before it. -/
def Along (P : MetaRun F → List (MetaStep F) → MetaStep F → Prop) :
    MetaRun F → List (MetaStep F) → Prop
  | _, [] => True
  | r, x :: rest => P r rest x ∧ ∀ r', step fields st r x = .ok r' → Along P r' rest

end MetaRun

/-! ## The copies -/

namespace OvmData

theorem clone_of_valueOf {m : Memory F} {data : OvmData F} {v : OvmVar F}
    (hv : m.valueOf data = some v) (hc : v.hasClone = true) :
    ∃ d, data.clone = some d ∧ m.valueOf d = some v := by
  cases data with
  | own v' hown =>
    cases hv
    have hc' : v'.hasClone = true := v'.hasClone_trim.symm.trans hc
    refine ⟨.own v'.trim (v'.isVirtual_trim.trans hown), ?_, congrArg some v'.trim_trim⟩
    rw [clone, if_pos hc']
  | vstr str => exact ⟨.vstr str, rfl, hv⟩
  | vbstr str => exact ⟨.vbstr str, rfl, hv⟩

end OvmData

namespace Memory

variable {m m' : Memory F} {a : Nat} {v : OvmVar F}

theorem obj_of_value (h : m.value a = some v) : ∃ flags data,
    m.live a = true ∧ m.cell a = .obj flags data ∧ m.valueOf data = some v := by
  unfold value at h
  split at h
  · rename_i hlive
    cases hcell : m.cell a with
    | obj flags data =>
      rw [hcell] at h
      exact ⟨flags, data, hlive, rfl, h⟩
    | bytes b =>
      rw [hcell] at h
      cases h
  · cases h

theorem external_some {p : Nat} (h : m.external (some a) = .ok p) : a = p := by
  unfold external at h
  cases hobj : m.obj (some a) with
  | error e =>
    rw [hobj] at h
    cases h
  | ok r =>
    rw [hobj] at h
    obtain ⟨flags, data⟩ := r
    simp only [deref, bind, Except.bind] at h
    split at h
    · exact Except.ok.inj h
    · cases h

theorem read_alloc (hwf : m.WF) (x : Piece F) {str : Ref} {b : List UInt8}
    (h : m.read str = some b) : read (m.alloc x) str = some b := by
  have hlive : m.live str.piece = true := by
    by_contra hdead
    rw [read_of_dead (Bool.not_eq_true _ ▸ hdead)] at h
    cases h
  have hlt := hwf _ hlive
  unfold read at h ⊢
  rw [Heap.live_alloc_of_lt m x hlt, Heap.cell_alloc_of_lt m x hlt]
  exact h

theorem valueOf_alloc (hwf : m.WF) (x : Piece F) {data : OvmData F} (h : m.valueOf data = some v) :
    valueOf (m.alloc x) data = some v := by
  cases data with
  | own v' hown => exact h
  | vstr str =>
    obtain ⟨b, hb, hv⟩ := Option.map_eq_some_iff.mp h
    exact Option.map_eq_some_iff.mpr ⟨b, read_alloc hwf x hb, hv⟩
  | vbstr str =>
    obtain ⟨b, hb, hv⟩ := Option.map_eq_some_iff.mp h
    exact Option.map_eq_some_iff.mpr ⟨b, read_alloc hwf x hb, hv⟩

/-- A new object leaves the values of the others alone. -/
theorem value_alloc (hwf : m.WF) (x : Piece F) (h : m.value a = some v) :
    value (m.alloc x) a = some v := by
  obtain ⟨flags, data, hlive, hcell, hdata⟩ := obj_of_value h
  have hlt := hwf a hlive
  rw [value_eq ((Heap.live_alloc_of_lt m x hlt).trans hlive)
    ((Heap.cell_alloc_of_lt m x hlt).trans hcell)]
  exact valueOf_alloc hwf x hdata

/-- Where the bytes of a virtual string are. -/
def ref (m : Memory F) (a : Nat) : Option Ref :=
  match m.cell a with
  | .obj _ (.vstr str) | .obj _ (.vbstr str) => some str
  | _ => none

/-- An object that is left alone keeps its value if its bytes stay. -/
theorem value_frame (hcell : m'.cell a = m.cell a) (hlive : m'.live a = m.live a)
    (href : ∀ str, m.ref a = some str → m'.read str = m.read str) : m'.value a = m.value a := by
  unfold value
  rw [hcell, hlive]
  unfold ref at href
  cases hc : m.cell a with
  | bytes b => rfl
  | obj flags data =>
    rw [hc] at href
    cases data with
    | own v hown => rfl
    | vstr str => simp only [valueOf, href str rfl]
    | vbstr str => simp only [valueOf, href str rfl]

theorem content_congr {event : FieldList} (h : ∀ f ∈ event, m'.value f.2 = m.value f.2) :
    m'.content event = m.content event :=
  List.map_congr_left fun f hf => congrArg (f.1, ·) (h f hf)

end Memory

/-! ## What the built-ins do -/

namespace Metaevent

variable {fields : FieldsHash} {st : Statics} {w : Metaevent F} {s : List (Option Nat)} {t : Text}

theorem setEventField_unknown (hname : w.memory.str (stackPop (stackPop s).2).1 = .ok t)
    (hf : fields t = none) :
    w.setEventField fields st s = .ok (st.zero :: (stackPop (stackPop (stackPop s).2).2).2, w) := by
  simp only [setEventField, hname, hf, bind, Except.bind]
  rfl

/-- A field that is known gets a copy of the value without flags. -/
theorem setEventField_known {p id a : Nat} {flags : BitVec 32} {data d : OvmData F}
    (hptr : w.memory.external (stackPop s).1 = .ok p)
    (hname : w.memory.str (stackPop (stackPop s).2).1 = .ok t) (hf : fields t = some id)
    (hvalue : (stackPop (stackPop (stackPop s).2).2).1 = some a)
    (hcell : w.memory.cell a = .obj flags data) (hclone : data.clone = some d) :
    w.setEventField fields st s = .ok (st.one :: (stackPop (stackPop (stackPop s).2).2).2,
      { w with
        memory := w.memory.alloc (.obj 0 d)
        extptr := Function.update w.extptr p ((id, w.memory.size) :: w.extptr p) }) := by
  simp only [setEventField, hname, hf, hvalue, hptr, bind, Except.bind, hclone, deref,
    Memory.issdlClone_of_obj (Memory.obj_iff.mpr hcell), Memory.setFlags_alloc]
  rfl

theorem injectEvent_eq {p : Nat} (hptr : w.memory.external (stackPop s).1 = .ok p) :
    w.injectEvent s = .ok ((stackPop s).2, (w.insertTail p).registerRtcallback) := by
  simp only [injectEvent, hptr, bind, Except.bind]
  rfl

@[simp] theorem memory_insertTail (p : Nat) : (w.insertTail p).memory = w.memory := by
  unfold insertTail
  split <;> rfl

@[simp] theorem extptr_insertTail (p : Nat) :
    (w.insertTail p).extptr = Function.update w.extptr p [] := by
  unfold insertTail
  split
  · rename_i hnil
    rw [← List.isEmpty_iff.mp hnil, Function.update_eq_self]
  · rfl

theorem events_insertTail (p : Nat) :
    (w.insertTail p).events = w.events ++ if (w.extptr p).isEmpty then [] else [w.extptr p] := by
  unfold insertTail
  split
  · exact (List.append_nil _).symm
  · rfl

@[simp] theorem memory_registerRtcallback (w : Metaevent F) :
    w.registerRtcallback.memory = w.memory := by
  unfold registerRtcallback
  split <;> rfl

@[simp] theorem extptr_registerRtcallback (w : Metaevent F) :
    w.registerRtcallback.extptr = w.extptr := by
  unfold registerRtcallback
  split <;> rfl

@[simp] theorem events_registerRtcallback (w : Metaevent F) :
    w.registerRtcallback.events = w.events := by
  unfold registerRtcallback
  split <;> rfl

/-- After a registration an action is there for what is in the queue. -/
theorem rtactions_registerRtcallback (w : Metaevent F) (h : w.events ≠ []) :
    0 < w.registerRtcallback.rtactions := by
  unfold registerRtcallback
  rw [if_neg (by rwa [List.isEmpty_iff])]
  exact Nat.succ_pos _

end Metaevent

/-! ## What a run may do, and what it is to do besides -/

/-- The objects of `FALSE` and `TRUE`. -/
def Statics.Has (st : Statics) (z : Nat) : Prop := st.zero = some z ∨ st.one = some z

/-- `FALSE` and `TRUE` are objects without `TYPE_CANFREE`. -/
def Statics.In (st : Statics) (m : Memory F) : Prop :=
  ∀ z, st.Has z → z < m.size ∧ ∃ flags data, m.cell z = .obj flags data ∧ flags &&& typeCanfree = 0

/-- The value of a field of an event in the queue or of an object. -/
def Metaevent.Field (w : Metaevent F) (a : Nat) : Prop :=
  (∃ event ∈ w.events, a ∈ event.map Prod.snd) ∨ ∃ p, a ∈ (w.extptr p).map Prod.snd

/-- The object is given to `inject_event`. -/
def MetaStep.Injects (p : Nat) : MetaStep F → Prop
  | .injectEvent s => (stackPop s).1 = some p
  | _ => False

/-- The object is given to `inject_event` in one of these steps. -/
def Later (rest : List (MetaStep F)) (p : Nat) : Prop := ∃ x ∈ rest, x.Injects p

/-- The value of a field of an event in the queue, or of one that will be there. -/
def Metaevent.Pending (w : Metaevent F) (later : Nat → Prop) (a : Nat) : Prop :=
  (∃ event ∈ w.events, a ∈ event.map Prod.snd) ∨ ∃ p, later p ∧ a ∈ (w.extptr p).map Prod.snd

namespace MetaRun

/-- A string that is there. -/
def IsName (r : MetaRun F) (field : Option Nat) : Prop :=
  ∃ a t, field = some a ∧ r.w.memory.live a = true ∧ r.w.memory.str (some a) = .ok t

/-- The built-ins are called with an object of `build_event` and a string where they take one; the
rest of the program has no pointer to the values of fields and does not change `FALSE` and
`TRUE`. -/
def Proper (st : Statics) (r : MetaRun F) : MetaStep F → Prop
  | .setEventField s => (∃ p, r.w.memory.external (stackPop s).1 = .ok p) ∧
      r.IsName (stackPop (stackPop s).2).1
  | .injectEvent s => ∃ p, r.w.memory.external (stackPop s).1 = .ok p
  | .injectSingleEvent s => r.IsName (stackPop s).1
  | .other memory => memory.WF ∧ r.w.memory.size ≤ memory.size ∧
      ∀ a, r.w.Field a ∨ st.Has a →
        memory.cell a = r.w.memory.cell a ∧ memory.live a = r.w.memory.live a
  | _ => True

/-- The value of a field that is known is there and can be copied. -/
def Copies (fields : FieldsHash) (r : MetaRun F) (field value : Option Nat) : Prop :=
  r.fieldId fields field ≠ none → ∃ v, r.valueOf value = some v ∧ v.hasClone = true

/-- Values are there and can be copied when they are set, and the bytes of virtual strings stay
until their event is posted. -/
def Keeps (fields : FieldsHash) (r : MetaRun F) (rest : List (MetaStep F)) : MetaStep F → Prop
  | .setEventField s =>
      r.Copies fields (stackPop (stackPop s).2).1 (stackPop (stackPop (stackPop s).2).2).1
  | .injectSingleEvent s => r.Copies fields (stackPop s).1 (stackPop (stackPop s).2).1
  | .other memory => ∀ a, r.w.Pending (Later rest) a → ∀ str, r.w.memory.ref a = some str →
      memory.read str = r.w.memory.read str
  | _ => True

/-- What is left to do is done by this many calls of the action, nothing else happening. -/
def drain (r : MetaRun F) : List (MetaStep F) :=
  (if r.posting then [.posted] else []) ++
    (List.replicate r.w.events.length [.rtaction, .posted]).flatten

/-- What was posted are the first events that were asked for, each once, in order and as they were
given; the others are in the queue, an action is registered for them if the callback is not running,
and they are posted when the actions are called. -/
structure Delivered (fields : FieldsHash) (st : Statics) (r : MetaRun F) : Prop where
  order : ∃ queued, r.asked = r.posted ++ queued ∧ queued.length = r.w.events.length
  due : r.w.events ≠ [] → 0 < r.w.rtactions ∨ r.posting = true
  drained : ∃ r', run fields st r r.drain = .ok r' ∧ r'.posted = r.asked ∧ r'.w.events = []

/-! ## The invariant -/

/-- The queue has the content that was asked for, and so have the objects in `later` what was given;
the values are there. -/
structure Inv (st : Statics) (later : Nat → Prop) (r : MetaRun F) : Prop where
  wf : r.w.memory.WF
  statics : st.In r.w.memory
  asked : r.asked = r.posted ++ r.w.events.map r.w.memory.content
  given : ∀ p, later p → r.given p = r.w.memory.content (r.w.extptr p)
  there : ∀ a, r.w.Pending later a → ∃ v, r.w.memory.value a = some v
  due : r.w.events ≠ [] → 0 < r.w.rtactions ∨ r.posting = true

variable {fields : FieldsHash} {st : Statics} {later later' : Nat → Prop} {r : MetaRun F}

/-- Fewer objects. -/
theorem Inv.mono (h : Inv st later r) (hl : ∀ p, later' p → later p) : Inv st later' r where
  wf := h.wf
  statics := h.statics
  asked := h.asked
  given p hp := h.given p (hl p hp)
  there a ha := h.there a (ha.imp_right fun ⟨p, hp, hmem⟩ => ⟨p, hl p hp, hmem⟩)
  due := h.due

/-- A change of memory that leaves the values alone. -/
theorem Inv.memory (h : Inv st later r) {memory : Memory F} (hwf : memory.WF)
    (hst : ∀ z, st.Has z → z < memory.size ∧ memory.cell z = r.w.memory.cell z)
    (hv : ∀ a, r.w.Pending later a → memory.value a = r.w.memory.value a) :
    Inv st later { r with w := { r.w with memory } } where
  wf := hwf
  statics z hz := ⟨(hst z hz).1, (hst z hz).2 ▸ (h.statics z hz).2⟩
  asked := by
    have hevents : r.w.events.map memory.content = r.w.events.map r.w.memory.content := by
      apply List.map_congr_left
      intro event hevent
      exact Memory.content_congr fun f hf =>
        hv f.2 (.inl ⟨event, hevent, List.mem_map_of_mem hf⟩)
    rw [hevents]
    exact h.asked
  given p hp := by
    rw [h.given p hp]
    exact (Memory.content_congr fun f hf => hv f.2 (.inr ⟨p, hp, List.mem_map_of_mem hf⟩)).symm
  there a ha := (hv a ha).symm ▸ h.there a ha
  due := h.due

/-- A new object somewhere. -/
theorem Inv.alloc (h : Inv st later r) (x : Piece F) :
    Inv st later { r with w := { r.w with memory := r.w.memory.alloc x } } := by
  refine h.memory (Heap.WF.alloc x h.wf) ?_ ?_
  · intro z hz
    have hlt := (h.statics z hz).1
    rw [Heap.size_alloc]
    exact ⟨Nat.lt_succ_of_lt hlt, Heap.cell_alloc_of_lt _ _ hlt⟩
  · intro a ha
    obtain ⟨v, hv⟩ := h.there a ha
    rw [hv]
    exact Memory.value_alloc h.wf x hv

/-- An object without fields. -/
theorem Inv.clear (h : Inv st later r) (p : Nat) :
    Inv st (fun q => later q ∨ q = p) { r with
      w := { r.w with extptr := Function.update r.w.extptr p [] }
      given := Function.update r.given p [] } where
  wf := h.wf
  statics := h.statics
  asked := h.asked
  given q hq := by
    by_cases hqp : q = p
    · subst hqp
      simp only [Function.update_self]
      rfl
    · simp only [Function.update_of_ne hqp]
      exact h.given q (hq.resolve_right hqp)
  there a ha := by
    apply h.there a
    rcases ha with hqueue | ⟨q, hq, hmem⟩
    · exact .inl hqueue
    · by_cases hqp : q = p
      · subst hqp
        simp only [Function.update_self] at hmem
        cases hmem
      · simp only [Function.update_of_ne hqp] at hmem
        exact .inr ⟨q, hq.resolve_right hqp, hmem⟩
  due := h.due

/-- A field more. -/
theorem Inv.add (h : Inv st later r) (p id : Nat) {a : Nat} {v : OvmVar F}
    (hv : r.w.memory.value a = some v) :
    Inv st later { r with
      w := { r.w with extptr := Function.update r.w.extptr p ((id, a) :: r.w.extptr p) }
      given := Function.update r.given p ((id, some v) :: r.given p) } where
  wf := h.wf
  statics := h.statics
  asked := h.asked
  given q hq := by
    by_cases hqp : q = p
    · subst hqp
      simp only [Function.update_self, h.given q hq, Memory.content, List.map_cons, hv]
    · simp only [Function.update_of_ne hqp]
      exact h.given q hq
  there b hb := by
    rcases hb with hqueue | ⟨q, hq, hmem⟩
    · exact h.there b (.inl hqueue)
    · by_cases hqp : q = p
      · subst hqp
        simp only [Function.update_self, List.map_cons, List.mem_cons] at hmem
        rcases hmem with rfl | hmem
        · exact ⟨v, hv⟩
        · exact h.there b (.inr ⟨q, hq, hmem⟩)
      · simp only [Function.update_of_ne hqp] at hmem
        exact h.there b (.inr ⟨q, hq, hmem⟩)
  due := h.due

/-- The queue is appended to, and an action is registered. -/
theorem Inv.inject (h : Inv st later r) {p : Nat} (hp : later p) :
    Inv st later { r with
      w := (r.w.insertTail p).registerRtcallback
      given := Function.update r.given p []
      asked := r.askedAfter p } := by
  have hclear := h.clear p
  constructor
  case wf =>
    simp only [Metaevent.memory_registerRtcallback, Metaevent.memory_insertTail]
    exact h.wf
  case statics =>
    simp only [Metaevent.memory_registerRtcallback, Metaevent.memory_insertTail]
    exact h.statics
  case asked =>
    simp only [Metaevent.memory_registerRtcallback, Metaevent.memory_insertTail,
      Metaevent.events_registerRtcallback, Metaevent.events_insertTail, askedAfter, h.given p hp,
      h.asked, Memory.content, List.isEmpty_map, List.map_append]
    split
    · rw [List.map_nil, List.append_nil]
    · rw [List.map_singleton, List.append_assoc]
      rfl
  case given =>
    intro q hq
    simp only [Metaevent.memory_registerRtcallback, Metaevent.memory_insertTail,
      Metaevent.extptr_registerRtcallback, Metaevent.extptr_insertTail]
    exact hclear.given q (.inl hq)
  case there =>
    intro a ha
    simp only [Metaevent.memory_registerRtcallback, Metaevent.memory_insertTail]
    unfold Metaevent.Pending at ha
    simp only [Metaevent.events_registerRtcallback, Metaevent.events_insertTail,
      Metaevent.extptr_registerRtcallback, Metaevent.extptr_insertTail] at ha
    rcases ha with ⟨event, hevent, hmem⟩ | ⟨q, hq, hmem⟩
    · rcases List.mem_append.mp hevent with hevent | hevent
      · exact h.there a (.inl ⟨event, hevent, hmem⟩)
      · split at hevent
        · cases hevent
        · obtain rfl := List.mem_singleton.mp hevent
          exact h.there a (.inr ⟨p, hp, hmem⟩)
    · exact hclear.there a (.inr ⟨q, .inl hq, hmem⟩)
  case due =>
    intro hne
    rw [Metaevent.events_registerRtcallback] at hne
    exact .inl (Metaevent.rtactions_registerRtcallback _ hne)

/-- The action is called: the head of the queue is posted. -/
theorem Inv.rtaction (h : Inv st later r) (fields : FieldsHash) :
    ∃ r', step fields st r .rtaction = .ok r' ∧ Inv st later r' := by
  simp only [step]
  split
  · exact ⟨r, rfl, h⟩
  · unfold Metaevent.callbackHead
    dsimp only
    cases hq : r.w.events with
    | nil =>
      refine ⟨_, rfl, ?_⟩
      have hsame : Metaevent.callbackEnd
          { r.w with rtactions := r.w.rtactions - 1, events := [] } =
          { r.w with rtactions := r.w.rtactions - 1 } := by
        simp only [Metaevent.callbackEnd, Metaevent.registerRtcallback, List.isEmpty_nil, if_true,
          hq]
      dsimp only [List.tail_nil]
      rw [hsame]
      exact ⟨h.wf, h.statics, h.asked, h.given, h.there, fun hne => absurd hq hne⟩
    | cons event rest =>
      refine ⟨_, rfl, h.wf, h.statics, ?_, h.given, ?_, fun _ => .inr rfl⟩
      · rw [h.asked, hq]
        simp only [List.map_cons, List.append_assoc, List.cons_append, List.nil_append,
          List.tail_cons]
      · intro a ha
        apply h.there a
        rcases ha with ⟨e, he, hmem⟩ | hobj
        · exact .inl ⟨e, hq ▸ List.mem_cons_of_mem _ he, hmem⟩
        · exact .inr hobj

/-- The callback ends: an action is registered for what is left. -/
theorem Inv.posted (h : Inv st later r) (fields : FieldsHash) :
    ∃ r', step fields st r .posted = .ok r' ∧ Inv st later r' := by
  refine ⟨_, rfl, ?_⟩
  split
  · unfold Metaevent.callbackEnd
    constructor
    case wf =>
      rw [Metaevent.memory_registerRtcallback]
      exact h.wf
    case statics =>
      simp only [Metaevent.memory_registerRtcallback]
      exact h.statics
    case asked =>
      simp only [Metaevent.memory_registerRtcallback, Metaevent.events_registerRtcallback]
      exact h.asked
    case given =>
      simp only [Metaevent.memory_registerRtcallback, Metaevent.extptr_registerRtcallback]
      exact h.given
    case there =>
      intro a ha
      unfold Metaevent.Pending at ha
      simp only [Metaevent.events_registerRtcallback, Metaevent.extptr_registerRtcallback] at ha
      rw [Metaevent.memory_registerRtcallback]
      exact h.there a ha
    case due =>
      intro hne
      rw [Metaevent.events_registerRtcallback] at hne
      exact .inl (Metaevent.rtactions_registerRtcallback _ hne)
  · exact h

/-- After `build_event`. -/
def built (r : MetaRun F) (s : List (Option Nat)) : MetaRun F :=
  { r with
    w := (r.w.buildEvent s).2
    given := Function.update r.given r.w.memory.size [] }

/-- A new object without fields. -/
theorem Inv.build (h : Inv st later r) (s : List (Option Nat)) :
    Inv st (fun p => later p ∨ p = r.w.memory.size) (r.built s) :=
  (h.alloc (.obj (newFlags .external) (.own .external rfl))).clear r.w.memory.size

/-- A field that is known, of which a copy is made. -/
theorem Inv.set (h : Inv st later r) (p id : Nat) {value : Option Nat} {v : OvmVar F}
    (hv : r.valueOf value = some v) (hc : v.hasClone = true) :
    ∃ a flags data d, value = some a ∧ r.w.memory.cell a = .obj flags data ∧
      data.clone = some d ∧ Inv st later { r with
        w := { r.w with
          memory := r.w.memory.alloc (.obj 0 d)
          extptr := Function.update r.w.extptr p ((id, r.w.memory.size) :: r.w.extptr p) }
        given := Function.update r.given p ((id, r.valueOf value) :: r.given p) } := by
  obtain ⟨a, rfl, ha⟩ := Option.bind_eq_some_iff.mp hv
  obtain ⟨flags, data, -, hcell, hdata⟩ := Memory.obj_of_value ha
  obtain ⟨d, hclone, hd⟩ := OvmData.clone_of_valueOf hdata hc
  refine ⟨a, flags, data, d, rfl, hcell, hclone, ?_⟩
  have hcopy : Memory.value (r.w.memory.alloc (.obj 0 d)) r.w.memory.size = some v := by
    rw [Memory.value_eq (Heap.live_alloc_self ..) (Heap.cell_alloc_self ..)]
    exact Memory.valueOf_alloc h.wf _ hd
  rw [hv]
  exact (h.alloc (.obj 0 d)).add p id hcopy

theorem givenAfter_eq {s : List (Option Nat)} {p : Nat}
    (hptr : r.w.memory.external (stackPop s).1 = .ok p) : r.givenAfter fields s =
      match r.fieldId fields (stackPop (stackPop s).2).1 with
      | none => r.given
      | some id => Function.update r.given p
          ((id, r.valueOf (stackPop (stackPop (stackPop s).2).2).1) :: r.given p) := by
  simp only [givenAfter, hptr]
  cases r.fieldId fields (stackPop (stackPop s).2).1 <;> rfl

/-- `set_event_field` with its result on the stack. -/
theorem Inv.setEventField (h : Inv st later r) (fields : FieldsHash) {s : List (Option Nat)}
    {p : Nat} {t : Text}
    (hptr : r.w.memory.external (stackPop s).1 = .ok p)
    (hname : r.w.memory.str (stackPop (stackPop s).2).1 = .ok t)
    (hcopies : r.Copies fields (stackPop (stackPop s).2).1
      (stackPop (stackPop (stackPop s).2).2).1) :
    ∃ res w, r.w.setEventField fields st s =
        .ok (res :: (stackPop (stackPop (stackPop s).2).2).2, w) ∧
      (res = st.zero ∨ res = st.one) ∧
      (∀ q, q < r.w.memory.size → w.memory.cell q = r.w.memory.cell q) ∧
      Inv st later { r with w, given := r.givenAfter fields s } := by
  have hid : r.fieldId fields (stackPop (stackPop s).2).1 = fields t := by
    unfold fieldId
    rw [hname]
  cases hf : fields t with
  | none =>
    refine ⟨_, _, Metaevent.setEventField_unknown hname hf, .inl rfl, fun _ _ => rfl, ?_⟩
    rw [givenAfter_eq hptr, hid, hf]
    exact h
  | some id =>
    obtain ⟨v, hv, hc⟩ := hcopies (by simp [hid, hf])
    obtain ⟨a, flags, data, d, hvalue, hcell, hclone, hinv⟩ := h.set p id hv hc
    refine ⟨_, _, Metaevent.setEventField_known hptr hname hf hvalue hcell hclone, .inr rfl,
      fun q hq => Heap.cell_alloc_of_lt _ _ hq, ?_⟩
    rw [givenAfter_eq hptr, hid, hf]
    exact hinv

/-- `FALSE` and `TRUE` are not freed. -/
theorem Inv.trash (h : Inv st later r) {res : Option Nat} (hres : res = st.zero ∨ res = st.one) :
    r.w.memory.trash res = .ok r.w.memory := by
  cases res with
  | none => rfl
  | some z =>
    obtain ⟨-, flags, data, hcell, hflags⟩ :=
      h.statics z (hres.imp (fun hz => hz.symm) fun hz => hz.symm)
    simp only [Memory.trash, Memory.obj_iff.mpr hcell, bind, Except.bind, hflags, if_true]
    rfl

theorem external_built (r : MetaRun F) (s : List (Option Nat)) :
    (r.built s).w.memory.external (some r.w.memory.size) = .ok r.w.memory.size := by
  have hcell : (r.built s).w.memory.cell r.w.memory.size =
      .obj (newFlags .external) (.own .external rfl) := Heap.cell_alloc_self ..
  simp only [Memory.external, deref, Memory.obj_iff.mpr hcell, bind, Except.bind]
  rfl

/-- The name is still there. -/
theorem Inv.fieldId_built (h : Inv st later r) (fields : FieldsHash) {field : Option Nat}
    (hname : r.IsName field) (s : List (Option Nat)) : ∃ t, (r.built s).w.memory.str field = .ok t ∧
      r.fieldId fields field = fields t ∧ (r.built s).fieldId fields field = fields t := by
  obtain ⟨a, t, rfl, hlive, hstr⟩ := hname
  have hcell : (r.built s).w.memory.cell a = r.w.memory.cell a :=
    Heap.cell_alloc_of_lt _ _ (h.wf a hlive)
  have hstr' : (r.built s).w.memory.str (some a) = .ok t := by
    rw [← hstr]
    simp only [Memory.str, Memory.obj_some, hcell]
  refine ⟨t, hstr', ?_, ?_⟩
  · unfold fieldId
    rw [hstr]
  · unfold fieldId
    rw [hstr']

/-- So is the value. -/
theorem Inv.valueOf_built (h : Inv st later r) {value : Option Nat} {v : OvmVar F}
    (hv : r.valueOf value = some v) (s : List (Option Nat)) :
    (r.built s).valueOf value = some v := by
  obtain ⟨b, hb, hvb⟩ := Option.bind_eq_some_iff.mp hv
  exact Option.bind_eq_some_iff.mpr ⟨b, hb, Memory.value_alloc h.wf _ hvb⟩

/-- An event with one field: the three other built-ins one after the other. -/
theorem Inv.injectSingle (h : Inv st later r) {s : List (Option Nat)}
    (hname : r.IsName (stackPop s).1)
    (hcopies : r.Copies fields (stackPop s).1 (stackPop (stackPop s).2).1) :
    ∃ r', step fields st r (.injectSingleEvent s) = .ok r' ∧ Inv st later r' := by
  let p := r.w.memory.size
  let value := (stackPop (stackPop s).2).1
  let s₂ := (stackPop (stackPop s).2).2
  let r₁ := r.built s₂
  have hinv₁ : Inv st (fun q => later q ∨ q = p) r₁ := h.build s₂
  have hptr₁ : r₁.w.memory.external (some p) = .ok p := r.external_built s₂
  obtain ⟨t, hstr₁, hid, hid₁⟩ := h.fieldId_built fields hname s₂
  have hcopies₁ : r₁.Copies fields (stackPop s).1 value := by
    intro hne
    rw [show r₁.fieldId fields _ = _ from hid₁, ← hid] at hne
    obtain ⟨v, hv, hc⟩ := hcopies hne
    exact ⟨v, h.valueOf_built hv s₂, hc⟩
  -- the field
  obtain ⟨res, w₂, hset, hres, hcells, hinv₂⟩ := hinv₁.setEventField fields
    (s := some p :: (stackPop s).1 :: value :: s₂) hptr₁ hstr₁ hcopies₁
  let r₂ : MetaRun F := { r₁ with
    w := w₂
    given := r₁.givenAfter fields (some p :: (stackPop s).1 :: value :: s₂) }
  have hgiven : r₂.given = _ :=
    givenAfter_eq (r := r₁) (s := some p :: (stackPop s).1 :: value :: s₂) hptr₁
  simp only [stackPop_cons] at hgiven
  rw [hid₁] at hgiven
  have hptr₂ : w₂.memory.external (some p) = .ok p := by
    have hlt : p < r₁.w.memory.size := by
      rw [show r₁.w.memory.size = p + 1 from Heap.size_alloc ..]
      exact Nat.lt_succ_self p
    rw [← hptr₁]
    simp only [Memory.external, Memory.obj_some, hcells p hlt]
  -- the queue
  have hgiven₁ : r₁.given = Function.update r.given p [] := rfl
  have hlast : Function.update r₂.given p [] = Function.update r.given p [] := by
    rw [hgiven]
    cases fields t <;> simp only [hgiven₁, Function.update_idem]
  have hasked : r₂.askedAfter p = r.askedSingle fields s := by
    simp only [askedAfter, askedSingle, hid, hgiven]
    cases hf : fields t with
    | none =>
      simp only [hgiven₁, Function.update_self, List.isEmpty_nil, if_true]
      rfl
    | some id =>
      obtain ⟨v, hv, -⟩ := hcopies (by simp [hid, hf])
      have hv₁ : r₁.valueOf value = some v := h.valueOf_built hv s₂
      simp only [Function.update_self, hgiven₁, List.isEmpty_cons, hv₁, hv]
      rfl
  refine ⟨_, ?_, (hinv₂.inject (Or.inr rfl)).mono fun q hq => .inl hq⟩
  have htrash : w₂.memory.trash res = .ok w₂.memory := hinv₂.trash hres
  have hsingle : r.w.injectSingleEvent fields st s =
      .ok (s₂, (w₂.insertTail p).registerRtcallback) := by
    show ((r₁.w.setEventField fields st (some p :: (stackPop s).1 :: value :: s₂)).bind _) = _
    rw [hset]
    show ((w₂.memory.trash res).bind _) = _
    rw [htrash]
    exact Metaevent.injectEvent_eq (s := some p :: s₂) hptr₂
  simp only [step, hsingle, bind, Except.bind]
  rw [← hlast, ← hasked]
  rfl

/-- The rest of the program leaves the values as they are. -/
theorem Inv.other (h : Inv st later r) {memory : Memory F} (hwf : memory.WF)
    (hsize : r.w.memory.size ≤ memory.size)
    (hframe : ∀ a, r.w.Field a ∨ st.Has a →
      memory.cell a = r.w.memory.cell a ∧ memory.live a = r.w.memory.live a)
    (hkeeps : ∀ a, r.w.Pending later a → ∀ str, r.w.memory.ref a = some str →
      memory.read str = r.w.memory.read str) :
    Inv st later { r with w := { r.w with memory } } := by
  apply h.memory hwf
  · intro z hz
    exact ⟨(h.statics z hz).1.trans_le hsize, (hframe z (.inr hz)).1⟩
  · intro a ha
    have hfield : r.w.Field a := ha.imp_right fun ⟨p, _, hmem⟩ => ⟨p, hmem⟩
    obtain ⟨hcell, hlive⟩ := hframe a (.inl hfield)
    exact Memory.value_frame hcell hlive (hkeeps a ha)

theorem step_inv {x : MetaStep F} {rest : List (MetaStep F)} (h : Inv st (Later (x :: rest)) r)
    (hproper : r.Proper st x) (hkeeps : r.Keeps fields rest x) :
    ∃ r', step fields st r x = .ok r' ∧ Inv st (Later rest) r' := by
  have hrest : Inv st (Later rest) r :=
    h.mono fun p ⟨y, hy, hp⟩ => ⟨y, List.mem_cons_of_mem _ hy, hp⟩
  cases x with
  | buildEvent s => exact ⟨_, rfl, (hrest.build s).mono fun p hp => .inl hp⟩
  | setEventField s =>
    obtain ⟨⟨p, hptr⟩, a, t, hfield, -, hstr⟩ := hproper
    obtain ⟨res, w, hset, -, -, hinv⟩ := hrest.setEventField fields hptr (hfield ▸ hstr) hkeeps
    refine ⟨_, ?_, hinv⟩
    simp only [step, hset, bind, Except.bind]
    rfl
  | injectEvent s =>
    obtain ⟨p, hptr⟩ := hproper
    have hlater : Later (.injectEvent s :: rest) p := by
      refine ⟨_, List.mem_cons_self, ?_⟩
      show (stackPop s).1 = some p
      cases hs : (stackPop s).1 with
      | none =>
        rw [hs] at hptr
        cases hptr
      | some a =>
        rw [hs] at hptr
        rw [Memory.external_some hptr]
    refine ⟨_, ?_, (h.inject hlater).mono fun q ⟨y, hy, hq⟩ => ⟨y, List.mem_cons_of_mem _ hy, hq⟩⟩
    simp only [step, hptr, Metaevent.injectEvent_eq hptr, bind, Except.bind]
    rfl
  | injectSingleEvent s => exact hrest.injectSingle hproper hkeeps
  | other memory =>
    obtain ⟨hwf, hsize, hframe⟩ := hproper
    exact ⟨_, rfl, hrest.other hwf hsize hframe hkeeps⟩
  | rtaction => exact hrest.rtaction fields
  | posted => exact hrest.posted fields

theorem run_inv {steps : List (MetaStep F)} (h : Inv st (Later steps) r)
    (hproper : Along fields st (fun r _ x => r.Proper st x) r steps)
    (hkeeps : Along fields st (Keeps fields) r steps) :
    ∃ r', run fields st r steps = .ok r' ∧
      Inv st (Later ([] : List (MetaStep F))) r' := by
  induction steps generalizing r with
  | nil => exact ⟨r, rfl, h⟩
  | cons x rest ih =>
    obtain ⟨r₁, hstep, hinv⟩ := step_inv h hproper.1 hkeeps.1
    obtain ⟨r', hrun, hinv'⟩ := ih hinv (hproper.2 r₁ hstep) (hkeeps.2 r₁ hstep)
    refine ⟨r', ?_, hinv'⟩
    simp only [run, hstep, bind, Except.bind]
    exact hrun

/-! ## What is left in the queue -/

/-- As many calls of the action as there are events in the queue. -/
theorem Inv.drain_idle (h : Inv st later r) (hidle : r.posting = false) {n : Nat}
    (hn : r.w.events.length = n) :
    ∃ r', run fields st r (List.replicate n [.rtaction, .posted]).flatten = .ok r' ∧
      r'.posted = r.asked ∧ r'.w.events = [] := by
  induction n generalizing r with
  | zero =>
    have hnil := List.eq_nil_of_length_eq_zero hn
    refine ⟨r, rfl, ?_, hnil⟩
    rw [h.asked, hnil, List.map_nil, List.append_nil]
  | succ n ih =>
    cases hq : r.w.events with
    | nil =>
      rw [hq] at hn
      cases hn
    | cons event rest =>
      have hdue : 0 < r.w.rtactions :=
        (h.due (by rw [hq]; nofun)).resolve_right (by rw [hidle]; nofun)
      obtain ⟨r₁, hstep, hinv₁⟩ := h.rtaction fields
      have hr₁ := hstep
      rw [step, hidle, Bool.false_or, if_neg (by simpa using hdue.ne')] at hr₁
      simp only [Metaevent.callbackHead, hq, List.head?_cons] at hr₁
      cases hr₁
      obtain ⟨r₂, hstep₂, hinv₂⟩ := hinv₁.posted fields
      have hr₂ := hstep₂
      rw [step, if_pos rfl] at hr₂
      cases hr₂
      have hlen : rest.length = n := by
        rw [hq] at hn
        exact Nat.succ.inj hn
      obtain ⟨r', hrun, hposted, hempty⟩ := ih hinv₂ rfl (by
        rw [Metaevent.callbackEnd, Metaevent.events_registerRtcallback]
        exact hlen)
      refine ⟨r', ?_, hposted, hempty⟩
      rw [List.replicate_succ, List.flatten_cons]
      show run fields st r (.rtaction :: .posted :: _) = _
      simp only [run, hstep, hstep₂, bind, Except.bind]
      exact hrun

theorem Inv.delivered (h : Inv st later r) (fields : FieldsHash) : Delivered fields st r where
  order := ⟨_, h.asked, List.length_map _⟩
  due := h.due
  drained := by
    unfold drain
    cases hp : r.posting with
    | false => exact h.drain_idle hp rfl
    | true =>
      -- the callback that is running ends first
      obtain ⟨r₁, hstep, hinv⟩ := h.posted fields
      have hr₁ := hstep
      rw [step, if_pos hp] at hr₁
      cases hr₁
      obtain ⟨r', hrun, hposted, hempty⟩ := hinv.drain_idle (n := r.w.events.length) rfl
        (by rw [Metaevent.callbackEnd, Metaevent.events_registerRtcallback])
      refine ⟨r', ?_, hposted, hempty⟩
      show run fields st r (.posted :: _) = _
      simp only [run, hstep, bind, Except.bind]
      exact hrun

/-! ## Runs from the start -/

theorem start_inv {memory : Memory F} (hwf : memory.WF) (hst : st.In memory) :
    Inv st later (start memory) where
  wf := hwf
  statics := hst
  asked := rfl
  given _ _ := rfl
  there := by
    rintro a (⟨event, hevent, -⟩ | ⟨p, -, hmem⟩)
    · cases hevent
    · cases hmem
  due h := absurd rfl h

/-- What each step is asked for with the steps that are left holds with fewer of them too. -/
theorem Along.of_append {P : MetaRun F → List (MetaStep F) → MetaStep F → Prop}
    (hP : ∀ r rest more x, P r (rest ++ more) x → P r rest x) {steps more : List (MetaStep F)}
    (h : Along fields st P r (steps ++ more)) : Along fields st P r steps := by
  induction steps generalizing r with
  | nil => trivial
  | cons x rest ih => exact ⟨hP r rest more x h.1, fun r' hstep => ih (h.2 r' hstep)⟩

theorem Keeps.of_append {rest more : List (MetaStep F)} {x : MetaStep F}
    (h : r.Keeps fields (rest ++ more) x) : r.Keeps fields rest x := by
  cases x with
  | other memory =>
    intro a ha
    refine h a (ha.imp_right ?_)
    rintro ⟨p, ⟨y, hy, hp⟩, hmem⟩
    exact ⟨p, ⟨y, List.mem_append_left _ hy, hp⟩, hmem⟩
  | setEventField s => exact h
  | injectSingleEvent s => exact h
  | buildEvent s => trivial
  | injectEvent s => trivial
  | rtaction => trivial
  | posted => trivial

/-- In every run of proper steps, whatever calls come between and within those of the action: if
values are there and can be copied when they are set, and the bytes of virtual strings stay until
their event is posted, then nothing stops, and in each state the events have been delivered. -/
theorem metaevent_delivered (fields : FieldsHash) (st : Statics) {memory : Memory F}
    (hwf : memory.WF) (hst : st.In memory) {steps : List (MetaStep F)}
    (hproper : Along fields st (fun r _ x => r.Proper st x) (start memory) steps)
    (hkeeps : Along fields st (Keeps fields) (start memory) steps) :
    ∀ before, before <+: steps → ∃ r, run fields st (start memory) before = .ok r ∧
      r.Delivered fields st := by
  rintro before ⟨more, rfl⟩
  obtain ⟨r, hrun, hinv⟩ := run_inv (start_inv hwf hst)
    (hproper.of_append fun _ _ _ _ h => h) (hkeeps.of_append fun _ _ _ _ h => h.of_append)
  exact ⟨r, hrun, hinv.delivered fields⟩

theorem Along.cons {P : MetaRun F → List (MetaStep F) → MetaStep F → Prop} {x : MetaStep F}
    {rest : List (MetaStep F)} {r' : MetaRun F} (hstep : step fields st r x = .ok r')
    (hx : P r rest x) (h : Along fields st P r' rest) : Along fields st P r (x :: rest) := by
  refine ⟨hx, fun r'' hstep' => ?_⟩
  cases hstep.symm.trans hstep'
  exact h

end MetaRun

open MetaRun

/-- The name `a` is that of the field 7. -/
def demoFields : FieldsHash := fun t => if t.bytes = [97] then some 7 else none

/-- An object of `build_event`, at the address 6. -/
def demoBuilt : MetaRun ℚ := (start demoMemory).built []

/-- Its field 7 is set to the virtual string. -/
def demoGiven : MetaRun ℚ :=
  { demoBuilt with
    w := { demoBuilt.w with
      memory := demoBuilt.w.memory.alloc (.obj 0 (.vstr { piece := 4, off := 0, len := 2 }))
      extptr := Function.update demoBuilt.w.extptr 6
        ((7, demoBuilt.w.memory.size) :: demoBuilt.w.extptr 6) }
    given := demoBuilt.givenAfter demoFields [some 6, some 0, some 5] }

/-- The event is in the queue. -/
def demoQueued : MetaRun ℚ :=
  { demoGiven with
    w := (demoGiven.w.insertTail 6).registerRtcallback
    given := Function.update demoGiven.given 6 []
    asked := demoGiven.askedAfter 6 }

def demoSteps : List (MetaStep ℚ) :=
  [.buildEvent [], .setEventField [some 6, some 0, some 5], .injectEvent [some 6]]

theorem demoBuilt_external : demoBuilt.w.memory.external (some 6) = .ok 6 :=
  (start demoMemory).external_built []

theorem demoBuilt_str : demoBuilt.w.memory.str (some 0) = .ok ⟨[97], fun _ => 0⟩ := by
  with_unfolding_all rfl

theorem demoBuilt_step : step demoFields demoStatics (start demoMemory) (.buildEvent []) =
    .ok demoBuilt := rfl

theorem demoGiven_step : step demoFields demoStatics demoBuilt
    (.setEventField [some 6, some 0, some 5]) = .ok demoGiven := by
  have hcell : demoBuilt.w.memory.cell 5 = .obj 0 (.vstr { piece := 4, off := 0, len := 2 }) := by
    with_unfolding_all rfl
  have hset : demoBuilt.w.setEventField demoFields demoStatics [some 6, some 0, some 5] = _ :=
    Metaevent.setEventField_known demoBuilt_external demoBuilt_str rfl rfl hcell rfl
  simp only [step, hset, bind, Except.bind]
  rfl

theorem demoGiven_external : demoGiven.w.memory.external (some 6) = .ok 6 := by
  with_unfolding_all rfl

theorem demoQueued_step : step demoFields demoStatics demoGiven (.injectEvent [some 6]) =
    .ok demoQueued := by
  have hptr := demoGiven_external
  simp only [step, stackPop, hptr, Metaevent.injectEvent_eq (s := [some 6]) hptr, bind, Except.bind]
  rfl

theorem demoSteps_proper {rest : List (MetaStep ℚ)}
    (h : Along demoFields demoStatics (fun r _ x => r.Proper demoStatics x) demoQueued rest) :
    Along demoFields demoStatics (fun r _ x => r.Proper demoStatics x) (start demoMemory)
      (demoSteps ++ rest) := by
  have hlive : demoBuilt.w.memory.live 0 = true := by with_unfolding_all rfl
  refine .cons demoBuilt_step trivial (.cons demoGiven_step ?_ (.cons demoQueued_step ?_ h))
  · exact ⟨⟨6, demoBuilt_external⟩, 0, _, rfl, hlive, demoBuilt_str⟩
  · exact ⟨6, demoGiven_external⟩

theorem demoSteps_keeps {rest : List (MetaStep ℚ)}
    (h : Along demoFields demoStatics (MetaRun.Keeps demoFields) demoQueued rest) :
    Along demoFields demoStatics (MetaRun.Keeps demoFields) (start demoMemory)
      (demoSteps ++ rest) := by
  refine .cons demoBuilt_step trivial (.cons demoGiven_step ?_ (.cons demoQueued_step trivial h))
  have hvalue : demoBuilt.valueOf (some 5) = some (.vstr ⟨[120, 121], fun _ => 0⟩) := by
    with_unfolding_all rfl
  exact fun _ => ⟨_, hvalue, rfl⟩

theorem demoStatics_in : demoStatics.In demoMemory := by
  rintro z (hz | hz)
  · cases hz
    exact ⟨by decide, _, _, rfl, by decide⟩
  · cases hz
    exact ⟨by decide, _, _, rfl, by decide⟩

theorem demoMemory_wf : demoMemory.WF := fun _ => of_decide_eq_true

theorem demoQueued_extptr (p : Nat) : demoQueued.w.extptr p = [] := by
  unfold demoQueued demoGiven
  rw [Metaevent.extptr_registerRtcallback, Metaevent.extptr_insertTail]
  by_cases hp : p = 6
  · rw [hp, Function.update_self]
  · simp only [Function.update_of_ne hp]
    exact Function.update_of_ne (show p ≠ demoMemory.size from hp) ..

/-- The bytes of the virtual string come to their end. -/
theorem demoFree_proper {r : MetaRun ℚ} (hmemory : r.w.memory = demoGiven.w.memory)
    (hfield : ∀ a, r.w.Field a → a = 7) : r.Proper demoStatics (.other (r.w.memory.free 4)) := by
  have hwf : demoGiven.w.memory.WF := Heap.WF.alloc _ (Heap.WF.alloc _ demoMemory_wf)
  refine ⟨Heap.WF.free 4 (hmemory ▸ hwf), Nat.le_of_eq (Heap.size_free ..).symm, ?_⟩
  intro a ha
  have hne : a ≠ 4 := by
    rintro rfl
    rcases ha with ha | ha | ha
    · cases hfield 4 ha
    · cases ha
    · cases ha
  exact ⟨congrFun (Heap.cell_free ..) a, Heap.live_free_of_ne _ hne⟩

/-- The event is posted. -/
def demoPosting : MetaRun ℚ :=
  { demoQueued with
    w := demoQueued.w.callbackHead.2
    posting := true
    posted := [demoQueued.w.memory.content [(7, 7)]] }

def demoDone : MetaRun ℚ := { demoPosting with w := demoPosting.w.callbackEnd, posting := false }

theorem demoPosting_step : step demoFields demoStatics demoQueued .rtaction = .ok demoPosting := by
  with_unfolding_all rfl

theorem demoDone_step : step demoFields demoStatics demoPosting .posted = .ok demoDone := rfl

theorem demoDone_field (a : Nat) : ¬ demoDone.w.Field a := by
  rintro (⟨event, hevent, -⟩ | ⟨p, hmem⟩)
  · cases hevent
  · have hnil : demoDone.w.extptr p = [] := demoQueued_extptr p
    rw [hnil] at hmem
    cases hmem

/-- An event with a virtual string, whose bytes are gone when it has been posted. -/
theorem metaevent_delivered_vstr : ∃ r,
    run demoFields demoStatics (start demoMemory)
      (demoSteps ++ [.rtaction, .posted, .other (demoDone.w.memory.free 4)]) = .ok r ∧
      r.Delivered demoFields demoStatics := by
  refine metaevent_delivered demoFields demoStatics demoMemory_wf demoStatics_in
    (demoSteps_proper ?_) (demoSteps_keeps ?_) _ List.prefix_rfl
  · refine .cons demoPosting_step trivial (.cons demoDone_step trivial ⟨?_, fun _ _ => trivial⟩)
    exact demoFree_proper rfl fun a ha => absurd ha (demoDone_field a)
  · refine .cons demoPosting_step trivial (.cons demoDone_step trivial ⟨?_, fun _ _ => trivial⟩)
    rintro a ha
    exact absurd (ha.imp_right fun ⟨p, _, hmem⟩ => ⟨p, hmem⟩) (demoDone_field a)

/-- If they are gone before that, the event is posted without its text. -/
theorem not_delivered : ¬ ∀ (fields : FieldsHash) (st : Statics) (memory : Memory ℚ)
    (steps : List (MetaStep ℚ)), memory.WF → st.In memory →
    Along fields st (fun r _ x => r.Proper st x) (start memory) steps →
    ∀ before, before <+: steps → ∃ r, run fields st (start memory) before = .ok r ∧
      r.Delivered fields st := by
  intro h
  have hfield : ∀ a, demoQueued.w.Field a → a = 7 := by
    rintro a (⟨event, hevent, hmem⟩ | ⟨p, hmem⟩)
    · have hevents : demoQueued.w.events = [[(7, 7)]] := by with_unfolding_all rfl
      rw [hevents] at hevent
      obtain rfl := List.mem_singleton.mp hevent
      exact List.mem_singleton.mp hmem
    · rw [demoQueued_extptr] at hmem
      cases hmem
  let steps := demoSteps ++ [.other (demoQueued.w.memory.free 4), .rtaction]
  have hproper : Along demoFields demoStatics (fun r _ x => r.Proper demoStatics x)
      (start demoMemory) steps :=
    demoSteps_proper (.cons rfl (demoFree_proper rfl hfield) ⟨trivial, fun _ _ => trivial⟩)
  obtain ⟨r, hrun, hdelivered⟩ := h demoFields demoStatics demoMemory steps demoMemory_wf
    demoStatics_in hproper steps List.prefix_rfl
  obtain ⟨queued, hasked, -⟩ := hdelivered.order
  have hposted : (run demoFields demoStatics (start demoMemory) steps).map MetaRun.posted =
      .ok [[(7, none)]] := by
    with_unfolding_all rfl
  have haskedv : (run demoFields demoStatics (start demoMemory) steps).map MetaRun.asked =
      .ok [[(7, some (.vstr ⟨[120, 121], fun _ => 0⟩))]] := by
    with_unfolding_all rfl
  rw [hrun] at hposted haskedv
  have h₁ : r.posted = [[(7, none)]] := Except.ok.inj hposted
  have h₂ : r.asked = [[(7, some (.vstr ⟨[120, 121], fun _ => 0⟩))]] := Except.ok.inj haskedv
  rw [h₁, h₂] at hasked
  cases hasked

end Orchids

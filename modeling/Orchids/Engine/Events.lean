import Orchids.Engine.Liveness
import Orchids.Lib.DLinked

/-!
# Active events

The list of active events, doubly linked, and the reference counts that state instances hold on
them. `EventView` has both, with what the engine does to them; `Events` says that they are in
order, `cur` being the event of the call that is under way.

* `Events.bind`, `Events.drop`, `Events.finish`: a reference more, a reference less, and the end of
  a call.
* `activeEvents_of_quiet`: the list and the counts after every call of a run without the defect of
  `Orchids.Engine.Liveness`.
-/

namespace Orchids

/-! ## The list and the references -/

/-- The active events, and the state instances that refer to them. -/
structure EventView where
  next : Nat → Option Nat
  prev : Nat → Option Nat
  refs : Nat → Int
  live : Nat → Bool
  size : Nat
  head : Option Nat
  tail : Option Nat
  cur : Option Nat
  total : Int
  states : Nat
  stateLive : Nat → Bool
  eventOf : Nat → Option Nat

namespace EventView

variable (v : EventView)

/-- The number of state instances that refer to an event. -/
def refCount (a : Nat) : Nat := countLive v.stateLive v.states fun s => decide (v.eventOf s = some a)

/-- A new event is the current one. -/
def start : EventView :=
  { v with
    next := Function.update v.next v.size none
    prev := Function.update v.prev v.size none
    refs := Function.update v.refs v.size 0
    live := Function.update v.live v.size true
    size := v.size + 1
    cur := some v.size }

/-- A new state instance, without an event. -/
def addState : EventView :=
  { v with
    states := v.states + 1
    stateLive := Function.update v.stateLive v.states true
    eventOf := Function.update v.eventOf v.states none }

/-- The state instance `s` refers to the event `a`. -/
def bind (a s : Nat) : EventView :=
  { v with
    eventOf := Function.update v.eventOf s (some a)
    refs := Function.update v.refs a (v.refs a + 1) }

/-- An event is taken out of the list. -/
def release (a : Nat) : EventView :=
  { v with
    next := setTail v.next (v.prev a) (v.next a)
    prev := setTail v.prev (v.next a) (v.prev a)
    head := if v.prev a = none then v.next a else v.head
    tail := if v.next a = none then v.prev a else v.tail
    live := Function.update v.live a false
    total := v.total - 1 }

/-- The end of the state instance `s`. -/
def drop (s : Nat) : EventView :=
  match v.eventOf s with
  | none => { v with stateLive := Function.update v.stateLive s false }
  | some a =>
    let v' := { v with
      refs := Function.update v.refs a (v.refs a - 1)
      stateLive := Function.update v.stateLive s false }
    if v.refs a - 1 ≤ 0 ∧ v.cur ≠ some a then v'.release a else v'

/-- The end of a call with the event `a`. -/
def finish (a : Nat) : EventView :=
  if v.refs a = 0 then { v with live := Function.update v.live a false }
  else
    { v with
      next := setTail v.next v.tail (some a)
      prev := Function.update v.prev a v.tail
      head := v.head <|> some a
      tail := some a
      total := v.total + 1 }

end EventView

/-- The active events are the list `l` and the current one; the references are counted, and lead
to active events. -/
structure Listed (v : EventView) (cur : Option Nat) (l : List Nat) : Prop where
  list : IsDList v.next v.prev v.head v.tail l
  total : v.total = l.length
  live : ∀ a, v.live a = true ↔ a ∈ l ∨ cur = some a
  lt : ∀ a, v.live a = true → a < v.size
  refs : ∀ a, v.live a = true → v.refs a = v.refCount a
  target : ∀ s, s < v.states → v.stateLive s = true → ∀ a, v.eventOf s = some a → v.live a = true
  current : ∀ e, cur = some e → e ∉ l ∧ v.next e = none ∧ v.prev e = none ∧ v.cur = some e

/-- Each event of the list is referred to. -/
structure Events (v : EventView) (cur : Option Nat) (l : List Nat) : Prop
    extends Listed v cur l where
  pos : ∀ a, a ∈ l → 1 ≤ v.refs a

namespace Events

variable {v : EventView} {cur : Option Nat} {l : List Nat} {a e s : Nat}

theorem start (h : Events v none l) : Events v.start (some v.size) l := by
  have hmem : ∀ a, a ∈ l → a < v.size := fun a ha => h.lt a ((h.live a).mpr (.inl ha))
  have hnot : v.size ∉ l := fun hm => Nat.lt_irrefl _ (hmem _ hm)
  have hne : ∀ a, a ∈ l → a ≠ v.size := fun a ha => (hmem a ha).ne
  have hzero : v.refCount v.size = 0 := by
    refine countLive_eq_zero.mpr fun s hs hl => decide_eq_false fun heq => ?_
    exact Nat.lt_irrefl _ (h.lt _ (h.target s hs hl _ heq))
  refine ⟨⟨h.list.congr (fun a ha => Function.update_of_ne (hne a ha) _ _)
    (fun a ha => Function.update_of_ne (hne a ha) _ _), h.total, ?_, ?_, ?_, ?_, ?_⟩, ?_⟩
  · intro a
    by_cases ha : a = v.size
    · simp [EventView.start, ha]
    · simp only [EventView.start, Function.update_of_ne ha, Option.some.injEq]
      rw [h.live a]
      simp [Ne.symm ha]
  · intro a hl
    by_cases ha : a = v.size
    · simp [EventView.start, ha]
    · simp only [EventView.start, Function.update_of_ne ha] at hl
      exact (h.lt a hl).trans (Nat.lt_succ_self _)
  · intro a hl
    by_cases ha : a = v.size
    · subst ha
      refine (Function.update_self ..).trans ?_
      exact (congrArg Nat.cast hzero).symm
    · simp only [EventView.start, Function.update_of_ne ha] at hl
      exact (Function.update_of_ne ha _ _).trans (h.refs a hl)
  · intro s hs hl a heq
    have hla := h.target s hs hl a heq
    by_cases ha : a = v.size
    · simp [EventView.start, ha]
    · exact (Function.update_of_ne ha _ _).trans hla
  · intro e he
    obtain rfl := Option.some.inj he
    exact ⟨hnot, Function.update_self .., Function.update_self .., rfl⟩
  · intro a ha
    refine le_of_le_of_eq (h.pos a ha) ?_
    exact (Function.update_of_ne (hne a ha) _ _).symm

theorem addState (h : Events v cur l) : Events v.addState cur l := by
  have hcount : ∀ a, v.addState.refCount a = v.refCount a := by
    intro a
    have hnew := countLive_alloc v.stateLive v.states
      fun s => decide (v.addState.eventOf s = some a)
    have hself : decide (v.addState.eventOf v.states = some a) = false := by
      simp [EventView.addState]
    rw [hself] at hnew
    refine hnew.trans ?_
    refine countLive_congr fun s hs _ => ?_
    rw [show v.addState.eventOf s = v.eventOf s from Function.update_of_ne hs.ne _ _]
  refine ⟨⟨h.list, h.total, h.live, h.lt, fun a ha => ?_, ?_, h.current⟩, h.pos⟩
  · rw [hcount]
    exact h.refs a ha
  · intro s hs hl a heq
    by_cases hss : s = v.states
    · simp [EventView.addState, hss] at heq
    · simp only [EventView.addState, Function.update_of_ne hss] at hl heq
      exact h.target s (Nat.lt_of_le_of_ne (Nat.le_of_lt_succ hs) hss) hl a heq

/-- A state instance without an event refers to the current event. -/
theorem bind (h : Events v (some e) l) (hs : s < v.states) (hl : v.stateLive s = true)
    (hnone : v.eventOf s = none) : Events (v.bind e s) (some e) l := by
  obtain ⟨hel, hnext, hprev, hcur⟩ := h.current e rfl
  have hlive : v.live e = true := (h.live e).mpr (.inr rfl)
  have hne : ∀ a, a ∈ l → a ≠ e := fun a ha heq => hel (heq ▸ ha)
  -- count without `s`, which refers to nothing before and to `e` after
  have hcount : ∀ a, (v.bind e s).refCount a = v.refCount a + if a = e then 1 else 0 := by
    intro a
    have hnew := countLive_free (p := fun x => decide ((v.bind e s).eventOf x = some a)) hl hs
    have hold := countLive_free (p := fun x => decide (v.eventOf x = some a)) hl hs
    have hmid : countLive (Function.update v.stateLive s false) v.states
          (fun x => decide ((v.bind e s).eventOf x = some a)) =
        countLive (Function.update v.stateLive s false) v.states
          fun x => decide (v.eventOf x = some a) := by
      refine countLive_congr fun x _ hx => ?_
      have hxs : x ≠ s := by
        rintro rfl
        simp at hx
      rw [show (v.bind e s).eventOf x = v.eventOf x from Function.update_of_ne hxs _ _]
    have hself : (v.bind e s).eventOf s = some e := Function.update_self ..
    simp only [hself, Option.some.injEq, decide_eq_true_eq] at hnew
    simp only [hnone, reduceCtorEq, decide_false, Bool.false_eq_true, if_false] at hold
    unfold EventView.refCount
    rw [show (v.bind e s).stateLive = v.stateLive from rfl,
      show (v.bind e s).states = v.states from rfl, ← hnew, hmid, ← hold, Nat.add_zero]
    simp only [eq_comm]
  refine ⟨⟨h.list, h.total, h.live, h.lt, fun a ha => ?_, ?_, h.current⟩, fun a ha => ?_⟩
  · rw [hcount]
    have href := h.refs a ha
    by_cases hae : a = e
    · subst hae
      simp only [EventView.bind, Function.update_self, if_true]
      omega
    · simp only [EventView.bind, Function.update_of_ne hae, if_neg hae]
      omega
  · intro x hx hlx a heq
    by_cases hxs : x = s
    · subst hxs
      simp only [EventView.bind, Function.update_self, Option.some.injEq] at heq
      exact heq ▸ hlive
    · simp only [EventView.bind, Function.update_of_ne hxs] at heq
      exact h.target x hx hlx a heq
  · simp only [EventView.bind, Function.update_of_ne (hne a ha)]
    exact h.pos a ha

end Events

/-- The end of a state instance takes it out of the count of its event. -/
theorem refCount_free (v : EventView) {s : Nat} (hs : s < v.states) (hl : v.stateLive s = true)
    (a : Nat) :
    countLive (Function.update v.stateLive s false) v.states
        (fun x => decide (v.eventOf x = some a)) + (if v.eventOf s = some a then 1 else 0) =
      v.refCount a := by
  have hfree := countLive_free (p := fun x => decide (v.eventOf x = some a)) hl hs
  unfold EventView.refCount
  simpa using hfree

namespace Listed

variable {v : EventView} {cur : Option Nat} {l : List Nat} {a e s : Nat}

theorem target_free (h : Listed v cur l) {x b : Nat} (hx : x < v.states)
    (hl : Function.update v.stateLive s false x = true) (heq : v.eventOf x = some b) :
    v.live b = true := by
  by_cases hxs : x = s
  · simp [hxs] at hl
  · rw [Function.update_of_ne hxs] at hl
    exact h.target x hx hl b heq

/-- An event without references is taken out of the list. -/
theorem release (h : Listed v (some e) l) (hal : a ∈ l) (hrefs : v.refs a ≤ 0) :
    Listed (v.release a) (some e) (l.erase a) := by
  obtain ⟨hel, hnext, hprev, hcur⟩ := h.current e rfl
  have hnd := h.list.nodup
  have hla : v.live a = true := (h.live a).mpr (.inl hal)
  have hzero : v.refCount a = 0 := by
    have hr := h.refs a hla
    omega
  obtain ⟨l₁, l₂, rfl⟩ := List.append_of_mem hal
  have ha₁ : a ∉ l₁ := fun hm => List.disjoint_of_nodup_append hnd hm List.mem_cons_self
  have herase : (l₁ ++ a :: l₂).erase a = l₁ ++ l₂ := by
    rw [List.erase_append_right _ ha₁, List.erase_cons_head]
  obtain ⟨hn, hp⟩ := h.list.neighbours
  have hne : ∀ b : Nat, (v.prev a = some b ∨ v.next a = some b) → e ≠ b := by
    rintro b hb rfl
    refine hel (List.mem_append.mpr ?_)
    rcases hb with hb | hb
    · exact .inl (List.mem_of_getLast? (hp.symm.trans hb))
    · exact .inr (List.mem_cons_of_mem a (List.mem_of_head? (hn.symm.trans hb)))
  rw [herase]
  refine ⟨h.list.remove, ?_, fun b => ?_, fun b hb => ?_, fun b hb => ?_, ?_, ?_⟩
  · have htotal := h.total
    simp only [List.length_append, List.length_cons, EventView.release] at htotal ⊢
    omega
  · by_cases hb : b = a
    · subst hb
      have hb₂ : b ∉ l₁ ++ l₂ := herase ▸ hnd.not_mem_erase
      have hbe : e ≠ b := by
        rintro rfl
        exact hel hal
      simp only [EventView.release, Function.update_self, Option.some.injEq]
      exact ⟨fun hf => (Bool.false_ne_true hf).elim, fun hm => (hm.elim hb₂ hbe).elim⟩
    · refine (Eq.to_iff (congrArg (· = true) (Function.update_of_ne hb _ _))).trans ?_
      rw [h.live b]
      simp [hb]
  · by_cases hba : b = a
    · simp [EventView.release, hba] at hb
    · exact h.lt b ((Function.update_of_ne hba _ _).symm.trans hb)
  · by_cases hba : b = a
    · simp [EventView.release, hba] at hb
    · exact h.refs b ((Function.update_of_ne hba _ _).symm.trans hb)
  · intro x hx hl b heq
    have hba : b ≠ a := by
      rintro rfl
      have hno := countLive_eq_zero.mp hzero x hx hl
      simp only [decide_eq_false_iff_not] at hno
      exact hno heq
    exact (Function.update_of_ne hba _ _).trans (h.target x hx hl b heq)
  · rintro e' he'
    obtain rfl := Option.some.inj he'
    refine ⟨fun hm => hel (by simp at hm ⊢; tauto), ?_, ?_, hcur⟩
    · refine (setTail_apply _ _ _).trans ?_
      rw [if_neg (fun heq => hne e (.inl heq.symm) rfl)]
      exact hnext
    · refine (setTail_apply _ _ _).trans ?_
      rw [if_neg (fun heq => hne e (.inr heq.symm) rfl)]
      exact hprev

end Listed

namespace Events

variable {v : EventView} {cur : Option Nat} {l : List Nat} {a e s : Nat}

/-- The end of a state instance that refers to no event. -/
theorem dropFirst (h : Events v cur l) (hs : s < v.states) (hl : v.stateLive s = true)
    (hnone : v.eventOf s = none) :
    Events { v with stateLive := Function.update v.stateLive s false } cur l := by
  refine ⟨⟨h.list, h.total, h.live, h.lt, fun a ha => ?_, fun x hx hlx a heq => ?_, h.current⟩, h.pos⟩
  · have hcount := refCount_free v hs hl a
    rw [hnone, if_neg (by simp)] at hcount
    exact (h.refs a ha).trans (congrArg Nat.cast hcount.symm)
  · exact h.target_free hx hlx heq

/-- The end of a state instance: its event loses a reference, and is taken out of the list with
the last one unless it is the current event. -/
theorem drop (h : Events v (some e) l) (hs : s < v.states) (hl : v.stateLive s = true) :
    ∃ l', Events (v.drop s) (some e) l' := by
  unfold EventView.drop
  cases heq : v.eventOf s with
  | none => exact ⟨l, h.dropFirst hs hl heq⟩
  | some a =>
    have hla : v.live a = true := h.target s hs hl a heq
    obtain ⟨hel, -, -, hcur⟩ := h.current e rfl
    simp only
    generalize hv : ({ v with refs := _, stateLive := _ } : EventView) = v'
    have hrefs : ∀ b, v'.refs b = if b = a then v.refs a - 1 else v.refs b := by
      intro b
      rw [← hv]
      exact Function.update_apply ..
    have h' : Listed v' (some e) l := by
      rw [← hv]
      refine ⟨h.list, h.total, h.live, h.lt, fun b hb => ?_, fun x hx hlx b heq => ?_, h.current⟩
      · have hcount := refCount_free v hs hl b
        have hr := h.refs b hb
        rw [hv, hrefs b, ← hv]
        by_cases hba : b = a
        · subst hba
          rw [heq, if_pos rfl] at hcount
          rw [if_pos rfl]
          show _ = ((countLive (Function.update v.stateLive s false) v.states
            fun x => decide (v.eventOf x = some b) : Nat) : Int)
          omega
        · rw [heq, if_neg (fun hf => hba (Option.some.inj hf).symm)] at hcount
          rw [if_neg hba, hr]
          exact congrArg Nat.cast hcount.symm
      · exact h.target_free hx hlx heq
    by_cases hrel : v.refs a - 1 ≤ 0 ∧ v.cur ≠ some a
    · rw [if_pos hrel]
      have hal : a ∈ l := by
        refine ((h.live a).mp hla).resolve_right fun hae => hrel.2 ?_
        rw [hcur, hae]
      refine ⟨l.erase a, h'.release hal (by rw [hrefs, if_pos rfl]; exact hrel.1), fun b hb => ?_⟩
      have hb' := (h.list.nodup.mem_erase_iff).mp hb
      refine (h.pos b hb'.2).trans_eq ?_
      exact ((hrefs b).trans (if_neg hb'.1)).symm
    · rw [if_neg hrel]
      refine ⟨l, h', fun b hb => ?_⟩
      rw [hrefs b]
      by_cases hba : b = a
      · subst hba
        have hne : v.cur ≠ some b := by
          rw [hcur]
          rintro hf
          exact hel (Option.some.inj hf ▸ hb)
        rw [if_pos rfl]
        have hnot := not_and.mp hrel
        by_cases hle : v.refs b - 1 ≤ 0
        · exact (hnot hle hne).elim
        · omega
      · rw [if_neg hba]
        exact h.pos b hb

/-- The end of a call: the event is freed without references, and listed with some. -/
theorem finish (h : Events v (some e) l) : ∃ l', Events (v.finish e) none l' := by
  obtain ⟨hel, hnext, hprev, hcur⟩ := h.current e rfl
  have hle : v.live e = true := (h.live e).mpr (.inr rfl)
  have hne : ∀ b, b ∈ l → b ≠ e := fun b hb heq => hel (heq ▸ hb)
  unfold EventView.finish
  by_cases hz : v.refs e = 0
  · rw [if_pos hz]
    have hzero : v.refCount e = 0 := by
      have hr := h.refs e hle
      omega
    refine ⟨l, ⟨h.list, h.total, fun b => ?_, fun b hb => ?_, fun b hb => ?_, ?_, ?_⟩, h.pos⟩
    · by_cases hbe : b = e
      · subst hbe
        simp [hel]
      · simp only [Function.update_of_ne hbe, reduceCtorEq, or_false]
        rw [h.live b]
        simp [Ne.symm hbe]
    · by_cases hbe : b = e
      · simp [hbe] at hb
      · exact h.lt b ((Function.update_of_ne hbe _ _).symm.trans hb)
    · by_cases hbe : b = e
      · simp [hbe] at hb
      · exact h.refs b ((Function.update_of_ne hbe _ _).symm.trans hb)
    · intro x hx hl b heq
      have hbe : b ≠ e := by
        rintro rfl
        have hno := countLive_eq_zero.mp hzero x hx hl
        simp only [decide_eq_false_iff_not] at hno
        exact hno heq
      exact (Function.update_of_ne hbe _ _).trans (h.target x hx hl b heq)
    · rintro e' he'
      cases he'
  · rw [if_neg hz]
    refine ⟨l ++ [e], ⟨h.list.append hel hnext, ?_, fun b => ?_, h.lt, h.refs, h.target, ?_⟩, ?_⟩
    · have htotal := h.total
      simp only [List.length_append, List.length_singleton]
      omega
    · rw [h.live b]
      simp [eq_comm]
    · rintro e' he'
      cases he'
    · intro b hb
      rcases List.mem_append.mp hb with hb | hb
      · exact h.pos b hb
      · obtain rfl := List.mem_singleton.mp hb
        have hr := h.refs b hle
        show 1 ≤ v.refs b
        omega

end Events

/-! ## The active events of a state -/

variable {V : Type}

/-- The active events of a state. -/
def Ctx.events (c : Ctx V) : EventView where
  next := fun a => (c.ae.cell a).next
  prev := fun a => (c.ae.cell a).prev
  refs := fun a => (c.ae.cell a).refs
  live := c.ae.live
  size := c.ae.size
  head := c.activeEventHead
  tail := c.activeEventTail
  cur := c.activeEventCur
  total := c.activeEvents
  states := c.si.size
  stateLive := c.si.live
  eventOf := fun s => (c.si.cell s).event

@[simp] theorem events_vmExec (vm : Vm V) (s : Nat) (code : List Nat) (c : Ctx V) :
    (c.vmExec vm s code).events = c.events := by
  simp [Ctx.events, Ctx.vmExec, proj_modify_of_eq StateInst.event]

@[simp] theorem events_markDeadRule (r : Nat) (c : Ctx V) :
    (c.markDeadRule r).events = c.events := rfl

theorem events_newState (dest s : Nat) (c : Ctx V) :
    (c.newState dest s).events = c.events.addState := by
  simp [Ctx.events, Ctx.newState, EventView.addState, Heap.live_alloc_eq,
    Heap.proj_alloc_eq c.si _ StateInst.event]

@[simp] theorem events_pushNew (a : Nat) (c : Ctx V) : (c.pushNew a).events = c.events := by
  unfold Ctx.pushNew
  cases c.newQt <;> rfl

@[simp] theorem events_newThread (clock : Ctx V → Nat) (s : Nat) (onlyOnce : Bool) (tr : Trans)
    (c : Ctx V) : (c.newThread clock s onlyOnce tr).events = c.events := by
  unfold Ctx.newThread
  rw [events_pushNew]
  cases onlyOnce <;> simp [Ctx.events, proj_modify_of_eq StateInst.event]

@[simp] theorem events_killThread (t : Nat) (c : Ctx V) : (c.killThread t).events = c.events := rfl

@[simp] theorem events_beginVisit (curTime t : Nat) (c : Ctx V) :
    (c.beginVisit curTime t).events = c.events := by
  unfold Ctx.beginVisit
  simp only
  split <;> rfl

@[simp] theorem events_bumpTail (q : Option Nat) (c : Ctx V) :
    (c.bumpTail q).events = c.events := by
  unfold Ctx.bumpTail
  cases q <;> rfl

@[simp] theorem events_commitAt (t : Nat) (c : Ctx V) : (c.commitAt t).events = c.events := by
  unfold Ctx.commitAt Ctx.commitNew
  simp only
  split
  · split
    · exact (events_bumpTail _ _).trans (events_bumpTail _ _)
    · exact events_bumpTail _ _
  · rfl

@[simp] theorem events_mergeQueues (c : Ctx V) : c.mergeQueues.events = c.events := by
  unfold Ctx.mergeQueues
  cases c.newQh <;> rfl

@[simp] theorem events_requeue (t : Nat) (c : Ctx V) : (c.requeue t).events = c.events := rfl

@[simp] theorem events_freeThread (t : Nat) (p : Option Nat) (c : Ctx V) :
    (c.freeThread t p).events = c.events := rfl

@[simp] theorem events_unlinkThread (t : Nat) (c : Ctx V) :
    (c.unlinkThread t).events = c.events := by
  simp [Ctx.events, Ctx.unlinkThread, proj_modify_of_eq StateInst.event]

@[simp] theorem events_countPass (t : Nat) (c : Ctx V) : (c.countPass t).events = c.events := by
  unfold Ctx.countPass Ctx.setCreationDate
  simp only
  split <;> rfl

theorem events_passState (e t : Nat) (c : Ctx V) :
    (c.passState e t).events = c.events.addState.bind e c.si.size := by
  have hnew := events_newState (c.thr.cell t).trans.dest (c.thr.cell t).stateInstance (c.countPass t)
  unfold Ctx.passState
  simp only
  rw [← events_countPass t c, ← hnew]
  simp [Ctx.bindEvent, Ctx.events, EventView.bind, Heap.proj_modify_eq _ _ _ StateInst.event,
    Heap.proj_modify_eq _ _ _ ActiveEvent.refs, proj_modify_of_eq ActiveEvent.next,
    proj_modify_of_eq ActiveEvent.prev]

theorem events_newRuleInst (k : Nat) (c : Ctx V) :
    (c.newRuleInst k).events = c.events.addState := by
  simp [Ctx.events, Ctx.newRuleInst, EventView.addState, Heap.live_alloc_eq,
    Heap.proj_alloc_eq c.si _ StateInst.event]

theorem events_beginEvent (event : List (Nat × V)) (c : Ctx V) :
    (c.beginEvent event).events = c.events.start := by
  simp [Ctx.events, Ctx.beginEvent, EventView.start, Heap.live_alloc_eq,
    Heap.proj_alloc_eq c.ae _ ActiveEvent.next, Heap.proj_alloc_eq c.ae _ ActiveEvent.prev,
    Heap.proj_alloc_eq c.ae _ ActiveEvent.refs]

@[simp] theorem events_linkRuleInst (r : Nat) (ret : Int) (c : Ctx V) :
    (c.linkRuleInst r ret).events = c.events := by
  unfold Ctx.linkRuleInst
  rw [events_bumpTail]
  rfl

theorem events_endEvent {event : List (Nat × V)} {e : Nat} {c : Ctx V}
    (h : c.activeEventHead = none ↔ c.activeEventTail = none)
    (hp : (c.ae.cell e).prev = none) :
    (c.endEvent event e).events = c.events.finish e := by
  unfold Ctx.endEvent EventView.finish
  simp only
  by_cases hz : (c.ae.cell e).refs = 0
  · rw [if_pos hz, if_pos (c := c.events.refs e = 0) hz]
    simp [Ctx.events, Heap.live_free_eq]
  · rw [if_neg hz, if_neg (c := c.events.refs e = 0) hz]
    cases hh : c.activeEventHead with
    | none =>
      have ht := h.mp hh
      have hid : Function.update (fun a => (c.ae.cell a).prev) e none = fun a => (c.ae.cell a).prev := by
        rw [← hp, Function.update_eq_self]
      simp [Ctx.events, ht, hh, hid, setTail]
    | some hd =>
      cases ht : c.activeEventTail with
      | none => exact absurd (h.mpr ht) (by simp [hh])
      | some tl =>
        have hprev := Heap.proj_modify_eq c.ae e (fun x => { x with prev := some tl }) ActiveEvent.prev
        simp [Ctx.events, ht, hh, setTail, Heap.proj_modify_eq _ _ _ ActiveEvent.next,
          proj_modify_of_eq ActiveEvent.prev, proj_modify_of_eq ActiveEvent.refs, congrFun hprev]

theorem events_releaseEvent (e : Nat) (c : Ctx V) :
    (c.releaseEvent e).events = c.events.release e := by
  unfold Ctx.releaseEvent Ctx.events EventView.release
  cases hp : (c.ae.cell e).prev with
  | none =>
    cases hn : (c.ae.cell e).next with
    | none =>
      simp [hp, hn, setTail, Heap.live_free_eq, proj_modify_of_eq ActiveEvent.next,
        proj_modify_of_eq ActiveEvent.prev, proj_modify_of_eq ActiveEvent.refs]
    | some n =>
      simp [hp, hn, setTail, Heap.live_free_eq, Heap.proj_modify_eq _ n _ ActiveEvent.prev,
        proj_modify_of_eq ActiveEvent.next, proj_modify_of_eq ActiveEvent.prev,
        proj_modify_of_eq ActiveEvent.refs]
  | some p =>
    cases hn : (c.ae.cell e).next with
    | none =>
      simp [hp, hn, setTail, Heap.live_free_eq, Heap.proj_modify_eq _ p _ ActiveEvent.next,
        proj_modify_of_eq ActiveEvent.next, proj_modify_of_eq ActiveEvent.prev,
        proj_modify_of_eq ActiveEvent.refs]
    | some n =>
      simp [hp, hn, setTail, Heap.live_free_eq, Heap.proj_modify_eq _ n _ ActiveEvent.prev,
        Heap.proj_modify_eq _ p _ ActiveEvent.next, proj_modify_of_eq ActiveEvent.next,
        proj_modify_of_eq ActiveEvent.prev, proj_modify_of_eq ActiveEvent.refs]

theorem events_freeState (s : Nat) (c : Ctx V) : (c.freeState s).events = c.events.drop s := by
  have hfree : ∀ d : Ctx V,
      ({ d with si := d.si.free s, stateInstances := d.stateInstances - 1 } : Ctx V).events =
        { d.events with stateLive := Function.update d.events.stateLive s false } := by
    intro d
    simp [Ctx.events, Heap.live_free_eq]
  unfold Ctx.freeState EventView.drop
  cases heq : (c.si.cell s).event with
  | none =>
    rw [show c.events.eventOf s = none from heq]
    exact hfree c
  | some a =>
    rw [show c.events.eventOf s = some a from heq]
    have hev : (c.unref a).events = { c.events with
        refs := Function.update c.events.refs a (c.events.refs a - 1) } := by
      simp [Ctx.unref, Ctx.events, proj_modify_of_eq ActiveEvent.next,
        proj_modify_of_eq ActiveEvent.prev, Heap.proj_modify_eq c.ae _ _ ActiveEvent.refs]
    have hrefs : ((c.unref a).ae.cell a).refs = c.events.refs a - 1 := by
      simp [Ctx.unref, Ctx.events]
    unfold Ctx.dropEvent
    simp only
    rw [hfree, hrefs]
    by_cases hrel : c.events.refs a - 1 ≤ 0 ∧ c.events.cur ≠ some a
    · rw [if_pos hrel, if_pos (c := _ ∧ (c.unref a).activeEventCur ≠ some a) hrel,
        events_releaseEvent, hev]
      rfl
    · rw [if_neg hrel, if_neg (c := _ ∧ (c.unref a).activeEventCur ≠ some a) hrel, hev]

theorem events_foldl_freeState (l : List Nat) (c : Ctx V) :
    (l.foldl (fun c s => c.freeState s) c).events = l.foldl EventView.drop c.events := by
  induction l generalizing c with
  | nil => rfl
  | cons s l ih => rw [List.foldl_cons, List.foldl_cons, ih, events_freeState]

section

variable [SyncValue V] (rules : RuleSet)

@[simp] theorem events_addLock (s : Nat) (c : Ctx V) : (c.addLock rules s).events = c.events := rfl

theorem events_freeRuleInstance (r : Nat) (c : Ctx V) :
    (c.freeRuleInstance rules r).events =
      (c.records.stateList r).foldl EventView.drop
        { c.events with
          stateLive := Function.update c.events.stateLive (c.records.firstState r) false } := by
  unfold Ctx.freeRuleInstance
  obtain ⟨l, hl⟩ := foldl_objhashDel_eq rules (c.ri.cell r).rule (c.ri.cell r).syncLockList c
  simp only [hl]
  rw [countEnd_eq]
  refine (events_foldl_freeState _ _).trans ?_
  simp [Ctx.events, Ctx.records, Heap.live_free_eq]

end

/-! ## The steps of the engine -/

/-- The active events are in order, and an initial state instance refers to none. -/
structure EventsInv (cur : Option Nat) (q : RecordView) (v : EventView) : Prop where
  events : ∃ l, Events v cur l
  first : ∀ r, r < q.ruleInsts → v.eventOf (q.firstState r) = none

/-- The state instances are the same in both views. -/
structure SameStates (q : RecordView) (v : EventView) : Prop where
  states : v.states = q.states
  live : v.stateLive = q.stateLive

theorem Ctx.sameStates (c : Ctx V) : SameStates c.records c.events := ⟨rfl, rfl⟩

namespace EventsInv

variable {q : RecordView} {v : EventView} {cur : Option Nat} {r s e : Nat}

theorem first_lt {cr : Option Nat} (hw : Wf q cr) (hr : r < q.ruleInsts) :
    q.firstState r < q.states :=
  ((hw.mem_statesOf r hr _).mp List.mem_cons_self).1

theorem addState {cr : Option Nat} (h : EventsInv cur q v) (hw : Wf q cr) (hs : SameStates q v) :
    EventsInv cur (q.addState r) v.addState := by
  obtain ⟨l, hl⟩ := h.events
  refine ⟨⟨l, hl.addState⟩, fun r' hr' => ?_⟩
  refine (Function.update_of_ne ?_ _ _).trans (h.first r' hr')
  rw [hs.states]
  exact (first_lt hw hr').ne

theorem addRule (h : EventsInv cur q v) (hw : Wf q none) (hs : SameStates q v) :
    EventsInv cur q.addRule v.addState := by
  obtain ⟨l, hl⟩ := h.events
  refine ⟨⟨l, hl.addState⟩, fun r' hr' => ?_⟩
  by_cases hrr : r' = q.ruleInsts
  · simp [RecordView.addRule, EventView.addState, hrr, hs.states]
  · have hlt : r' < q.ruleInsts := Nat.lt_of_le_of_ne (Nat.le_of_lt_succ hr') hrr
    have hold := h.first r' hlt
    simp only [RecordView.addRule, EventView.addState, Function.update_of_ne hrr]
    refine (Function.update_of_ne ?_ _ _).trans hold
    rw [hs.states]
    exact (first_lt hw hlt).ne

/-- A new state instance that refers to the current event. -/
theorem pass {cr : Option Nat} (h : EventsInv (some e) q v) (hw : Wf q cr) (hs : SameStates q v) :
    EventsInv (some e) (q.addState r) (v.addState.bind e q.states) := by
  obtain ⟨l, hl⟩ := h.events
  have hadd : Events (v.addState.bind e q.states) (some e) l := by
    refine hl.addState.bind ?_ ?_ ?_
    · show q.states < v.states + 1
      rw [hs.states]
      exact Nat.lt_succ_self _
    · simp [EventView.addState, hs.states]
    · simp [EventView.addState, hs.states]
  refine ⟨⟨l, hadd⟩, fun r' hr' => ?_⟩
  have hne := (first_lt hw hr').ne
  refine (Function.update_of_ne hne _ _).trans ?_
  refine (Function.update_of_ne ?_ _ _).trans (h.first r' hr')
  rw [hs.states]
  exact hne

/-- The end of several state instances. -/
theorem foldl_drop {l : List Nat} (h : Events v (some e) l) {ss : List Nat} (hnd : ss.Nodup)
    (hlt : ∀ s ∈ ss, s < v.states ∧ v.stateLive s = true) :
    ∃ l', Events (ss.foldl EventView.drop v) (some e) l' := by
  induction ss generalizing v l with
  | nil => exact ⟨l, h⟩
  | cons s ss ih =>
    obtain ⟨hs, hl⟩ := hlt s List.mem_cons_self
    obtain ⟨l', h'⟩ := h.drop hs hl
    have hstates : (v.drop s).states = v.states := by
      unfold EventView.drop
      split
      · rfl
      · simp only
        split <;> rfl
    have hlive : (v.drop s).stateLive = Function.update v.stateLive s false := by
      unfold EventView.drop
      split
      · rfl
      · simp only
        split <;> rfl
    refine ih h' (List.nodup_cons.mp hnd).2 fun x hx => ?_
    obtain ⟨hxlt, hxl⟩ := hlt x (List.mem_cons_of_mem s hx)
    have hxs : x ≠ s := by
      rintro rfl
      exact (List.nodup_cons.mp hnd).1 hx
    rw [hstates, hlive, Function.update_of_ne hxs]
    exact ⟨hxlt, hxl⟩

theorem eventOf_foldl_drop (v : EventView) (ss : List Nat) :
    (ss.foldl EventView.drop v).eventOf = v.eventOf := by
  induction ss generalizing v with
  | nil => rfl
  | cons s ss ih =>
    rw [List.foldl_cons, ih]
    unfold EventView.drop
    split
    · rfl
    · simp only
      split <;> rfl

/-- The end of a rule instance that is not freed. -/
theorem freeRule {cr : Option Nat} (h : EventsInv (some e) q v) (hw : Wf q cr)
    (hs : SameStates q v) (hr : q.ruleLive r = true) {q' : RecordView}
    (hi : q'.ruleInsts = q.ruleInsts) (hf : q'.firstState = q.firstState) :
    EventsInv (some e) q' ((q.stateList r).foldl EventView.drop
      { v with stateLive := Function.update v.stateLive (q.firstState r) false }) := by
  obtain ⟨l, hl⟩ := h.events
  have hlt := hw.rule_lt r hr
  have hmem : ∀ s ∈ q.statesOf r, s < v.states ∧ v.stateLive s = true := by
    intro s hs'
    obtain ⟨hslt, hsr⟩ := (hw.mem_statesOf r hlt s).mp hs'
    rw [hs.states, hs.live]
    exact ⟨hslt, hw.stateLive s hslt (hsr ▸ hr)⟩
  have hnd := List.nodup_cons.mp (hw.nodup_statesOf r hlt)
  obtain ⟨hfl, hfa⟩ := hmem _ List.mem_cons_self
  have h₁ := hl.dropFirst hfl hfa (h.first r hlt)
  refine ⟨foldl_drop h₁ hnd.2 fun s hs' => ?_, fun r' hr' => ?_⟩
  · obtain ⟨hslt, hsl⟩ := hmem s (List.mem_cons_of_mem _ hs')
    have hne : s ≠ q.firstState r := by
      rintro rfl
      exact hnd.1 hs'
    exact ⟨hslt, (Function.update_of_ne hne _ _).trans hsl⟩
  · rw [eventOf_foldl_drop, hf]
    exact h.first r' (hi ▸ hr')

end EventsInv

section

variable [SyncValue V] {rules : RuleSet} {prune : Nat → Ctx V → Bool} {call : Call V}
  {fuel r s e t : Nat} {onlyOnce : Bool} {cr : Option Nat} {c c' : Ctx V}

theorem simulate_events (ho : Of c r s) (hw : Wf c.records cr)
    (h : EventsInv (some e) c.records c.events) {ret : Int}
    (heq : simulate rules call fuel s onlyOnce c = some (ret, c')) :
    EventsInv (some e) c'.records c'.events := by
  let I : Ctx V → Prop := fun d => Wf d.records cr ∧ EventsInv (some e) d.records d.events
  have hinv : SimRules rules call r onlyOnce (fun _ => I) I I := by
    refine .of_inv ?_ ?_ ?_ ?_ ?_
    · rintro d s code _ ⟨hw, h⟩
      exact ⟨by simpa using hw, by simpa using h⟩
    · rintro d ⟨hw, h⟩
      exact ⟨by simpa using hw, by simpa using h⟩
    · rintro d s _ ⟨hw, h⟩
      exact ⟨by simpa using hw, by simpa using h⟩
    · rintro d s dest ho ⟨hw, h⟩
      refine ⟨?_, ?_⟩
      · rw [records_newState, ho.ruleInstance]
        exact hw.addState ho.rule_lt
      · rw [records_newState, events_newState]
        exact h.addState hw d.sameStates
    · rintro d s tr ho ⟨hw, h⟩
      refine ⟨?_, ?_⟩
      · rw [records_newThread]
        exact hw.addThread ho.lt
      · rw [records_newThread, events_newThread]
        exact ⟨h.events, h.first⟩
  exact (simulate_inv hinv ho ⟨hw, h⟩ heq).2.2

theorem freeRuleInstance_events (hw : Wf c.records cr)
    (h : EventsInv (some e) c.records c.events) (hr : c.ri.live r = true) {q : RecordView}
    (hi : q.ruleInsts = c.records.ruleInsts) (hf : q.firstState = c.records.firstState) :
    EventsInv (some e) q (c.freeRuleInstance rules r).events := by
  rw [events_freeRuleInstance]
  exact h.freeRule hw c.sameStates hr hi hf

theorem startRule_events (hw : Wf c.records none) (h : EventsInv (some e) c.records c.events)
    {k : Nat} (heq : startRule rules call fuel k c = some c') :
    EventsInv (some e) c'.records c'.events := by
  obtain ⟨ret, c₁, hs, rfl⟩ := startRule_some heq
  have ho := Of.newRuleInst k c
  have hw₀ : Wf (c.newRuleInst k).records (some c.ri.size) := by
    rw [records_newRuleInst]
    exact hw.addRule
  have h₀ : EventsInv (some e) (c.newRuleInst k).records (c.newRuleInst k).events := by
    rw [records_newRuleInst, events_newRuleInst]
    exact h.addRule hw c.sameStates
  obtain ⟨-, hw₁⟩ := simulate_wf ho hw₀ hs
  have h₁ := simulate_events ho hw₀ h₀ hs
  have hl₁ : c₁.ri.live c.ri.size = true := (hw₁.ruleLive _).mpr (.inr rfl)
  rw [records_finishRuleInst rules (hw₁.notLinked _ rfl)]
  unfold Ctx.finishRuleInst
  by_cases hret : ret ≤ 0
  · rw [if_pos hret, if_pos hret]
    exact freeRuleInstance_events hw₁ h₁ hl₁ rfl rfl
  · rw [if_neg hret, if_neg hret, events_linkRuleInst]
    exact ⟨h₁.events, h₁.first⟩

theorem reapThread_events (hv : Visiting t c) (h : EventsInv (some e) c.records c.events)
    (p : Option Nat) :
    EventsInv (some e) (c.reapThread rules t p).records (c.reapThread rules t p).events := by
  unfold Ctx.reapThread
  rw [records_freeThread, events_freeThread]
  generalize hr : c.ruleInstOf t = r
  have hrec : ((c.countDown r).killRuleInst r).records = c.records := by
    rw [records_killRuleInst, records_countDown]
  rcases dropThread_cases rules t c with ⟨_, heq⟩ | ⟨_, _, heq⟩ | ⟨_, hm, heq⟩
  · rw [heq, records_unlinkThread, records_countDown, events_unlinkThread]
    exact h
  · rw [heq, hr, hrec]
    exact h
  · rw [heq, records_freeRuleInstance]
    have hl : c.ri.live (c.ruleInstOf t) = true := (hv.wf.ruleLive _).mpr (.inl hm)
    rw [hr] at hl ⊢
    generalize hd : ((c.countDown r).killRuleInst r).unlinkRuleInst r = d
    have hdr : d.records = { c.records with firstRuleInstance := c.firstRuleInstance.erase r } := by
      rw [← hd, ← hrec]
      rfl
    have hde : d.events = c.events := by
      rw [← hd]
      rfl
    rw [events_freeRuleInstance, hde, hdr]
    exact h.freeRule hv.wf c.sameStates hl rfl rfl

theorem evaluated_events (hv : Visiting t c) (h : EventsInv (some e) c.records c.events)
    (hev : Evaluated rules prune call fuel e t c c') : EventsInv (some e) c'.records c'.events := by
  refine evaluated_inv (A := fun d => EventsInv (some e) d.records d.events)
    (B := fun d => EventsInv (some e) d.records d.events) hv.wf hv.lt hev ?_ ?_ ?_ ?_
  · rwa [records_vmExec, events_vmExec]
  · intro c₀ hw₀ _ _ _ h₀
    rw [records_passState, events_passState]
    exact h₀.pass hw₀ c₀.sameStates
  · exact fun r c₁ ret c₂ ho hw₁ _ h₁ hs => simulate_events ho hw₁ h₁ hs
  · intro c₂ h₂
    rwa [records_killThread, events_killThread]

/-- The active events are in order; the current one is not in the list. -/
def eventsInv : EngineInv V where
  between c := EventsInv none c.records c.events
  during e _ c := EventsInv (some e) c.records c.events

theorem events_rules : EngineRules rules prune (fun _ => True) (fun _ _ _ _ => True) base
    (eventsInv (V := V)) where
  init := by
    refine ⟨⟨[], ?_⟩, fun r hr => rfl⟩
    refine ⟨⟨IsDList.empty, rfl, ?_, ?_, ?_, ?_, ?_⟩, ?_⟩ <;> simp [Ctx.events, Ctx.init]
  beginEvent := by
    rintro event c - ⟨⟨l, hl⟩, hf⟩
    refine ⟨⟨l, ?_⟩, hf⟩
    rw [events_beginEvent]
    exact hl.start
  startRule := by
    rintro call fuel e k c c' - - ⟨hw, -⟩ h heq
    exact startRule_events hw h heq
  mergeQueues := by
    rintro e c - h
    simpa [eventsInv] using h
  evtStep := by
    intro call fuel curTime e t c c' _ hb h heq
    obtain ⟨hv, hcase⟩ := evtStep_visiting hb heq
    have h₀ : EventsInv (some e) (c.beginVisit curTime t).records (c.beginVisit curTime t).events := by
      simpa [eventsInv] using h
    rcases hcase with ⟨_, rfl⟩ | ⟨_, c₁, hev, _, ⟨_, hv₂, rfl⟩ | ⟨_, rfl⟩⟩
    · exact reapThread_events hv h₀ _
    · exact reapThread_events hv₂ (by simpa using evaluated_events hv h₀ hev) _
    · simpa [eventsInv] using evaluated_events hv h₀ hev
  endEvent := by
    rintro event e c - ⟨⟨l, hl⟩, hf⟩
    have hfin : (c.endEvent event e).events = c.events.finish e := by
      refine events_endEvent ?_ (hl.current e rfl).2.2.1
      exact hl.list.forward.head_eq_none
    refine ⟨?_, ?_⟩
    · obtain ⟨l', hl'⟩ := hl.finish
      rw [hfin]
      exact ⟨l', hl'⟩
    · intro r hr
      rw [hfin, records_endEvent]
      unfold EventView.finish
      split <;> exact hf r (by simpa using hr)

/-- The number of state instances of live rule instances that refer to the event `a`. -/
def Ctx.eventStates (c : Ctx V) (a : Nat) : Nat :=
  (List.range c.si.size).countP fun s =>
    c.ri.live (c.si.cell s).ruleInstance && decide ((c.si.cell s).event = some a)

/-- The active events are the doubly linked list `l`, with its length and the reference counts;
no state instance refers to a freed event. -/
structure ActiveEvents (c : Ctx V) (l : List Nat) : Prop where
  list : IsDList (fun a => (c.ae.cell a).next) (fun a => (c.ae.cell a).prev) c.activeEventHead
    c.activeEventTail l
  length : c.activeEvents = l.length
  live : ∀ a ∈ l, c.ae.live a = true
  refs : ∀ a ∈ l, (c.ae.cell a).refs = c.eventStates a ∧ 1 ≤ (c.ae.cell a).refs
  target : ∀ s, c.si.live s = true → ∀ a, (c.si.cell s).event = some a → c.ae.live a = true

/-- After every call of a run in which no call frees an instance that has threads, the active
events are in order. -/
theorem activeEvents_of_quiet (hr : Run rules prune (Quiet rules) c) : ∃ l, ActiveEvents c l := by
  have hrules : EngineRules rules prune (fun _ => True) (QuietStart rules) .trivial
      ((quietBase (V := V)).and eventsInv) :=
    quietBase_rules.and ((events_rules.mono (fun _ => id) fun _ _ _ _ _ => trivial).weaken
      (fun _ hb => hb.1.1) fun _ _ _ hb => hb.1.1)
  obtain ⟨⟨⟨⟨hw, -⟩, -⟩, ha⟩, ⟨l, hl⟩, -⟩ :=
    hrules.run hr (fun _ _ _ _ => trivial) fun _ _ _ hok => hok
  have hcount : ∀ a, c.events.refCount a = c.eventStates a := by
    intro a
    refine List.countP_congr fun s hs => ?_
    have hlive : c.si.live s = c.ri.live (c.si.cell s).ruleInstance := by
      rw [Bool.eq_iff_iff]
      exact ⟨ha.state s (List.mem_range.mp hs), hw.stateLive s (List.mem_range.mp hs)⟩
    show c.si.live s && decide ((c.si.cell s).event = some a) ↔ _
    rw [hlive]
  refine ⟨l, hl.list, hl.total, fun a ha => (hl.live a).mpr (.inl ha), fun a ha => ⟨?_, hl.pos a ha⟩,
    fun s hs a heq => hl.target s (hw.state_lt s hs) hs a heq⟩
  rw [← hcount a]
  exact hl.refs a ((hl.live a).mpr (.inl ha))

end

theorem activeEvents_of_quiet_twoEvents :
    ∃ c l, Run twoEvents (backtrackIsNotNeeded twoEvents) (Quiet twoEvents) c ∧
      c.activeEventHead = some 0 ∧ ActiveEvents (V := Val) c l := by
  have hq : Quiet twoEvents passing 3 (Ctx.init Val) := by decide +kernel
  have hrun : ((injectEventWith twoEvents (backtrackIsNotNeeded twoEvents) passing 3
      (Ctx.init Val)).any fun p => p.2.activeEventHead == some 0) = true := by
    decide +kernel
  obtain ⟨⟨visits, c⟩, heq, hn⟩ := (Option.any_eq_true _ _).mp hrun
  have hr : Run twoEvents (backtrackIsNotNeeded twoEvents) (Quiet twoEvents) c :=
    .inject passing 3 .init hq heq
  obtain ⟨l, hl⟩ := activeEvents_of_quiet hr
  exact ⟨c, l, hr, by simpa using hn, hl⟩

/-- The thread of the freed instance passes: its event is listed, with a reference that no state
instance of a live rule instance has. -/
theorem not_activeEvents :
    ∃ c, Reach endsAtOnce (backtrackIsNotNeeded endsAtOnce) c ∧
      ¬ ∃ l, ActiveEvents (V := Val) c l := by
  have hrun : ((injectEvents endsAtOnce (backtrackIsNotNeeded endsAtOnce) 3 [passing]
      (Ctx.init Val)).any fun c => c.activeEventHead == some 0 && c.eventStates 0 == 0) = true := by
    decide +kernel
  obtain ⟨c, hc, hnot⟩ := (Option.any_eq_true _ _).mp hrun
  refine ⟨c, Run.init.injectEvents _ _ _ hc, ?_⟩
  rintro ⟨l, hl⟩
  simp only [Bool.and_eq_true, beq_iff_eq] at hnot
  have hmem : 0 ∈ l := List.mem_of_head? (hl.list.forward.head.symm.trans hnot.1)
  obtain ⟨href, hpos⟩ := hl.refs 0 hmem
  rw [hnot.2] at href
  omega

end Orchids

import Mathlib.Data.Int.Order.Basic
import Mathlib.Data.List.Nodup
import Orchids.EvtMgr.MainLoop
import Orchids.Lib.Agenda

/-!
# Timed actions

* `Timed`: each registered action is called once or waits, the calls are in the order of the dates,
  and the loop sleeps until the first date of all that wait.
* `Meets`: what an input may register for that. The loop holds the next action outside the list: an
  input that registers an earlier one, or any action while none is held, goes past it.
* `Run.length_add_overdue`: a loop over past actions ends when its callbacks register later ones.
* `timed_iff`: the states of a run are `Timed` if its events are such, and only then in a run that is
  back at its sleep.
-/

namespace Orchids

/-! ## Dates -/

namespace Date

theorem lt_iff (a b : Date) : a.lt b = true ↔ a.micros < b.micros := by
  have := a.usec_nonneg
  have := a.usec_lt
  have := b.usec_nonneg
  have := b.usec_lt
  unfold lt timercmp micros
  split <;> simp only [decide_eq_true_eq] <;> omega

theorem gt_iff (a b : Date) : a.gt b = true ↔ b.micros < a.micros := by
  have := a.usec_nonneg
  have := a.usec_lt
  have := b.usec_nonneg
  have := b.usec_lt
  unfold gt timercmp micros
  split <;> simp only [decide_eq_true_eq] <;> omega

theorem le_iff (a b : Date) : a.le b = true ↔ a.micros ≤ b.micros := by
  have := a.usec_nonneg
  have := a.usec_lt
  have := b.usec_nonneg
  have := b.usec_lt
  unfold le timercmp micros
  split <;> simp only [decide_eq_true_eq] <;> omega

theorem micros_timerSub (a b : Date) : (a.timerSub b).micros = a.micros - b.micros := by
  unfold timerSub micros
  split <;> simp only <;> omega

end Date

/-- The order of the actions. -/
def RtAction.key (a : RtAction) : Int := a.date.micros

/-! ## The list of actions -/

theorem perm_registerRtaction (e : RtAction) (l : List RtAction) :
    (registerRtaction e l).Perm (e :: l) := by
  induction l with
  | nil => exact .refl _
  | cons event rest ih =>
    unfold registerRtaction
    split
    · split
      · rename_i h
        obtain ⟨hrest, -⟩ := Bool.and_eq_true_iff.mp h
        rw [List.isEmpty_iff.mp hrest]
        exact .swap _ _ _
      · exact .refl _
    · exact (ih.cons event).trans (.swap _ _ _)

theorem sorted_registerRtaction (e : RtAction) {l : List RtAction} (h : SortedBy RtAction.key l) :
    SortedBy RtAction.key (registerRtaction e l) := by
  induction l with
  | nil => exact List.pairwise_singleton _ _
  | cons event rest ih =>
    obtain ⟨hle, hs⟩ := List.pairwise_cons.mp h
    unfold registerRtaction
    split
    · rename_i hstop
      split
      · rename_i hlast
        obtain ⟨-, hgt⟩ := Bool.and_eq_true_iff.mp hlast
        have hlt := (Date.gt_iff _ _).mp hgt
        refine List.pairwise_cons.mpr ⟨?_, List.pairwise_singleton _ _⟩
        intro b hb
        obtain rfl := List.mem_singleton.mp hb
        exact hlt.le
      · rename_i hlast
        -- `e` is not later than `event`
        have hev : e.key ≤ event.key := by
          rcases Bool.or_eq_true_iff.mp hstop with hlt | hempty
          · exact ((Date.lt_iff _ _).mp hlt).le
          · rw [hempty, Bool.true_and, Date.gt_iff, not_lt] at hlast
            exact hlast
        refine List.pairwise_cons.mpr ⟨?_, h⟩
        intro b hb
        rcases List.mem_cons.mp hb with rfl | hb
        · exact hev
        · exact hev.trans (hle b hb)
    · rename_i hstop
      have hnot : ¬ e.key < event.key := by
        intro hlt
        rw [(Date.lt_iff _ _).mpr hlt, Bool.true_or] at hstop
        exact hstop rfl
      refine List.pairwise_cons.mpr ⟨?_, ih hs⟩
      intro b hb
      rcases List.mem_cons.mp ((perm_registerRtaction e rest).mem_iff.mp hb) with rfl | hb
      · exact not_lt.mp hnot
      · exact hle b hb

namespace EvtLoop

variable {s s' : EvtLoop}

/-- The actions that wait: the held one and the list. -/
def pending (s : EvtLoop) : List RtAction := waiting s.e s.rtactionlist

/-- The actions that have been called. -/
def called (s : EvtLoop) : List RtAction := s.calls.map RtCall.action

/-- The registrations `rs`, from `s` to `s'`: the new actions are in the list, which stays sorted. -/
structure Registers (s s' : EvtLoop) (rs : List Registration) (new : List RtAction) : Prop where
  e : s'.e = s.e
  time : s'.curLoopTime = s.curLoopTime
  calls : s'.calls = s.calls
  pc : s'.pc = s.pc
  dates : new.map RtAction.date = rs.map (Registration.date s.curLoopTime)
  perm : s'.rtactionlist.Perm (new ++ s.rtactionlist)
  sorted : SortedBy RtAction.key s.rtactionlist → SortedBy RtAction.key s'.rtactionlist
  registered : s'.registered = s.registered ++ new
  ids : s.registered.map RtAction.id = List.range s.registered.length →
    s'.registered.map RtAction.id = List.range s'.registered.length

theorem register_registers (s : EvtLoop) (r : Registration) :
    s.Registers (s.register r) [r]
      [{ id := s.registered.length, date := r.date s.curLoopTime }] where
  e := rfl
  time := rfl
  calls := rfl
  pc := rfl
  dates := rfl
  perm := perm_registerRtaction _ _
  sorted := sorted_registerRtaction _
  registered := rfl
  ids := by
    intro h
    show (s.registered ++ [_]).map RtAction.id = List.range (s.registered ++ [_]).length
    rw [List.map_append, h, List.length_append, List.length_singleton, List.range_succ]
    rfl

theorem Registers.trans {s s' s'' : EvtLoop} {rs rs' : List Registration}
    {new new' : List RtAction} (h : s.Registers s' rs new) (h' : s'.Registers s'' rs' new') :
    s.Registers s'' (rs ++ rs') (new ++ new') where
  e := h'.e.trans h.e
  time := h'.time.trans h.time
  calls := h'.calls.trans h.calls
  pc := h'.pc.trans h.pc
  dates := by rw [List.map_append, List.map_append, h.dates, h'.dates, h.time]
  perm := by
    refine h'.perm.trans ((h.perm.append_left new').trans ?_)
    rw [← List.append_assoc]
    exact List.perm_append_comm.append_right _
  sorted := fun hs => h'.sorted (h.sorted hs)
  registered := by rw [h'.registered, h.registered, List.append_assoc]
  ids := fun hs => h'.ids (h.ids hs)

theorem registerAll_registers (s : EvtLoop) (rs : List Registration) :
    ∃ new, s.Registers (s.registerAll rs) rs new := by
  induction rs generalizing s with
  | nil => exact ⟨[], rfl, rfl, rfl, rfl, rfl, .refl _, id, (List.append_nil _).symm, id⟩
  | cons r rs ih =>
    obtain ⟨new, h⟩ := ih (s.register r)
    exact ⟨_, (register_registers s r).trans h⟩

/-- A new action has the date of a registration. -/
theorem Registers.exists_date {rs : List Registration} {new : List RtAction}
    (h : s.Registers s' rs new) {b : RtAction} (hb : b ∈ new) :
    ∃ r ∈ rs, r.date s.curLoopTime = b.date := by
  have hm : b.date ∈ new.map RtAction.date := List.mem_map_of_mem hb
  rw [h.dates] at hm
  exact List.mem_map.mp hm

/-- A registration has a new action with its date. -/
theorem Registers.exists_action {rs : List Registration} {new : List RtAction}
    (h : s.Registers s' rs new) {r : Registration} (hr : r ∈ rs) :
    ∃ b ∈ new, b.date = r.date s.curLoopTime := by
  have hm : r.date s.curLoopTime ∈ rs.map (Registration.date s.curLoopTime) :=
    List.mem_map_of_mem hr
  rw [← h.dates] at hm
  exact List.mem_map.mp hm

/-! ## Each action once, in the order of the dates -/

/-- The loop is in `select` until the first date of all that wait, which has not come. -/
structure Asleep (s : EvtLoop) (waitTime : Option Date) : Prop where
  future : ∀ b ∈ s.pending, s.curLoopTime.micros < b.key
  forever : waitTime = none → s.pending = []
  first : ∀ d, waitTime = some d → ∃ a ∈ s.pending,
    s.curLoopTime.micros + d.micros = a.key ∧ ∀ b ∈ s.pending, a.key ≤ b.key

/-- A registered action has been called once, or it waits and has not been called; no call went past
an earlier action; the loop does not sleep past an action. -/
structure Timed (s : EvtLoop) : Prop where
  distinct : s.registered.Nodup
  once : s.registered.Perm (s.called ++ s.pending)
  order : ∀ c ∈ s.calls, ∀ b ∈ c.others, c.action.key ≤ b.key
  asleep : ∀ w, s.pc = .select w → s.Asleep w

/-- What an event may register: an input registers only while an action is held, and none that is
before the held one. -/
def Meets (s : EvtLoop) : LoopEvent → Prop
  | .input rs => ∀ r ∈ rs, ∃ a, s.e = some a ∧ a.key ≤ (r.date s.curLoopTime).micros
  | _ => True

/-! ## The invariant -/

/-- The held action leads the list. -/
structure Inv (s : EvtLoop) : Prop where
  leads : Leads RtAction.key s.e s.rtactionlist
  ids : s.registered.map RtAction.id = List.range s.registered.length
  once : s.registered.Perm (s.called ++ s.pending)
  order : ∀ c ∈ s.calls, ∀ b ∈ c.others, c.action.key ≤ b.key
  asleep : ∀ w, s.pc = .select w → s.due = false ∧
    w = s.e.map fun a => a.date.timerSub s.curLoopTime

theorem due_iff (s : EvtLoop) :
    s.due = true ↔ ∃ a, s.e = some a ∧ a.key ≤ s.curLoopTime.micros := by
  unfold due
  cases s.e with
  | none => simp
  | some a => simp [Date.le_iff, RtAction.key]

theorem Inv.timed (h : s.Inv) : s.Timed where
  distinct := by
    refine List.Nodup.of_map RtAction.id ?_
    rw [h.ids]
    exact List.nodup_range
  once := h.once
  order := h.order
  asleep := by
    intro w hw
    obtain ⟨hdue, rfl⟩ := h.asleep w hw
    have hnot : ∀ a, s.e = some a → s.curLoopTime.micros < a.key := by
      intro a ha
      by_contra hle
      rw [(due_iff s).mpr ⟨a, ha, not_lt.mp hle⟩] at hdue
      cases hdue
    refine ⟨?_, ?_, ?_⟩
    · intro b hb
      cases he : s.e with
      | none =>
        rw [pending, h.leads.waiting_eq_nil he] at hb
        cases hb
      | some a => exact (hnot a he).trans_le (h.leads.le_of_mem he hb)
    · intro hn
      exact h.leads.waiting_eq_nil (Option.map_eq_none_iff.mp hn)
    · intro d hd
      obtain ⟨a, ha, rfl⟩ := Option.map_eq_some_iff.mp hd
      refine ⟨a, ?_, ?_, fun b hb => h.leads.le_of_mem ha hb⟩
      · show a ∈ waiting s.e s.rtactionlist
        rw [ha]
        exact List.mem_cons_self
      · rw [Date.micros_timerSub, RtAction.key]
        omega

/-! ## Steps -/

/-- The callbacks of inputs, with the next action held. -/
theorem Inv.registerAll (h : s.Inv) {rs : List Registration} {new : List RtAction}
    (hr : s.Registers s' rs new)
    (hnew : ∀ b ∈ new, ∃ a, s.e = some a ∧ a.key ≤ b.key) (pc : Pc) (hpc : ∀ w, pc ≠ .select w) :
    EvtLoop.Inv { s' with pc } where
  leads := by
    show Leads RtAction.key s'.e s'.rtactionlist
    rw [hr.e]
    exact h.leads.add (hr.sorted h.leads.sorted) hr.perm hnew
  ids := hr.ids h.ids
  once := by
    show s'.registered.Perm (s'.calls.map RtCall.action ++ waiting s'.e s'.rtactionlist)
    rw [hr.registered, hr.calls, hr.e]
    have hw : (waiting s.e s'.rtactionlist).Perm (waiting s.e s.rtactionlist ++ new) := by
      unfold waiting
      rw [List.append_assoc]
      exact (hr.perm.trans List.perm_append_comm).append_left _
    refine (h.once.append_right new).trans ?_
    rw [List.append_assoc]
    exact hw.symm.append_left _
  order := by
    show ∀ c ∈ s'.calls, _
    rw [hr.calls]
    exact h.order
  asleep := fun w hw => absurd hw (hpc w)

/-- What holds while a callback runs: its action is called, the others are in the list. -/
structure Ready (s : EvtLoop) : Prop where
  sorted : SortedBy RtAction.key s.rtactionlist
  ids : s.registered.map RtAction.id = List.range s.registered.length
  once : s.registered.Perm (s.called ++ s.rtactionlist)
  order : ∀ c ∈ s.calls, ∀ b ∈ c.others, c.action.key ≤ b.key
  awake : ∀ w, s.pc ≠ .select w

theorem Ready.registers (h : s.Ready) {rs : List Registration} {new : List RtAction}
    (hr : s.Registers s' rs new) : s'.Ready where
  sorted := hr.sorted h.sorted
  ids := hr.ids h.ids
  once := by
    rw [hr.registered, called, hr.calls]
    refine (h.once.append_right new).trans ?_
    rw [List.append_assoc]
    exact (List.perm_append_comm.trans hr.perm.symm).append_left _
  order := by
    rw [hr.calls]
    exact h.order
  awake := by
    rw [hr.pc]
    exact h.awake

theorem Ready.getNextRtaction (h : s.Ready) : s.getNextRtaction.Inv where
  leads := .of_sorted h.sorted
  ids := h.ids
  once := by
    show s.registered.Perm (s.called ++ waiting s.rtactionlist.head? s.rtactionlist.tail)
    rw [waiting_head_tail]
    exact h.once
  order := h.order
  asleep := fun w hw => absurd hw (h.awake w)

theorem Ready.next (h : s.Ready) (rs : List Registration) :
    (s.registerAll rs).getNextRtaction.Inv := by
  obtain ⟨new, hr⟩ := registerAll_registers s rs
  exact (h.registers hr).getNextRtaction

/-- A call of the held action, with all that it registers. -/
theorem Inv.call (h : s.Inv) {a : RtAction} (ha : s.e = some a) (hpc : ∀ w, s.pc ≠ .select w)
    (rs : List Registration) : (s.call a rs).Inv := by
  suffices hready : EvtLoop.Ready
      { s with calls := s.calls ++ [{ action := a, others := s.rtactionlist }] } from
    hready.next rs
  refine ⟨h.leads.sorted, h.ids, ?_, ?_, hpc⟩
  · show s.registered.Perm ((s.calls ++ [_]).map RtCall.action ++ s.rtactionlist)
    have ho := h.once
    rw [pending, ha] at ho
    rw [List.map_append, List.append_assoc]
    exact ho
  · intro c hc
    rcases List.mem_append.mp hc with hc | hc
    · exact h.order c hc
    · obtain rfl := List.mem_singleton.mp hc
      exact h.leads.least a ha

theorem start_inv (t : Date) (rs : List Registration) : (start t rs).Inv := by
  have hready : Ready ⟨[], none, t, .top, [], []⟩ :=
    ⟨.nil, rfl, .refl _, by rintro _ ⟨⟩, by rintro _ ⟨⟩⟩
  exact hready.next rs

/-- Only the place in the loop and the time change. -/
theorem Inv.move (h : s.Inv) (t : Date) (pc : Pc) (hpc : ∀ w, pc ≠ .select w) :
    EvtLoop.Inv { s with curLoopTime := t, pc } where
  leads := h.leads
  ids := h.ids
  once := h.once
  order := h.order
  asleep := fun w hw => absurd hw (hpc w)

theorem Inv.sleep (h : s.Inv) (hdue : s.due = false) :
    EvtLoop.Inv { s with pc := .select (s.e.map fun a => a.date.timerSub s.curLoopTime) } where
  leads := h.leads
  ids := h.ids
  once := h.once
  order := h.order
  asleep := fun _ hw => ⟨hdue, (Pc.select.inj hw).symm⟩

theorem step_inv (h : s.Inv) {ev : LoopEvent} (hm : s.Meets ev) (hs : s.step ev = some s') :
    s'.Inv := by
  cases ev with
  | gettimeofday t =>
    simp only [step] at hs
    split at hs
    · obtain rfl := Option.some.inj hs
      exact h.move t .consume (by rintro _ ⟨⟩)
    · cases hs
  | callback rs =>
    simp only [step] at hs
    split at hs
    · rename_i a hpc ha
      split at hs
      · obtain rfl := Option.some.inj hs
        exact h.call ha (by rw [hpc]; rintro _ ⟨⟩) rs
      · cases hs
    · rename_i a hpc ha
      obtain rfl := Option.some.inj hs
      refine (h.call ha (by rw [hpc]; rintro _ ⟨⟩) rs).move (s.call a rs).curLoopTime _ ?_
      split <;> rintro _ ⟨⟩
    · cases hs
  | sleep =>
    simp only [step] at hs
    split at hs
    · split at hs
      · cases hs
      · rename_i hpc hdue
        obtain rfl := Option.some.inj hs
        exact h.sleep (Bool.eq_false_iff.mpr hdue)
    · cases hs
  | input rs =>
    simp only [step] at hs
    split at hs
    · obtain rfl := Option.some.inj hs
      obtain ⟨new, hr⟩ := registerAll_registers s rs
      refine h.registerAll hr ?_ .top (by rintro _ ⟨⟩)
      intro b hb
      obtain ⟨r, hmem, hdate⟩ := hr.exists_date hb
      obtain ⟨a, ha, hle⟩ := hm r hmem
      refine ⟨a, ha, ?_⟩
      rw [hdate] at hle
      exact hle
    · cases hs
  | timeout t =>
    simp only [step] at hs
    split at hs
    · obtain rfl := Option.some.inj hs
      exact h.move t .fire (by rintro _ ⟨⟩)
    · cases hs

/-! ## An action that the loop goes past -/

/-- An action in the list is before the held one, or none is held. -/
def Passed (s : EvtLoop) : Prop := ∃ b ∈ s.rtactionlist, ∀ a, s.e = some a → b.key < a.key

theorem passed_of_not_meets {rs : List Registration} (hm : ¬ s.Meets (.input rs))
    (pc : Pc) : EvtLoop.Passed { s.registerAll rs with pc } := by
  obtain ⟨new, hr⟩ := registerAll_registers s rs
  simp only [Meets, not_forall, not_exists, not_and] at hm
  obtain ⟨r, hmem, hpast⟩ := hm
  obtain ⟨b, hb, hdate⟩ := hr.exists_action hmem
  refine ⟨b, hr.perm.mem_iff.mpr (List.mem_append_left _ hb), ?_⟩
  intro a ha
  rw [RtAction.key, hdate]
  exact not_le.mp (hpast a (hr.e.symm.trans ha))

theorem Passed.not_timed_call (h : s.Passed) {a : RtAction} (ha : s.e = some a)
    (rs : List Registration) : ¬ (s.call a rs).Timed := by
  intro ht
  obtain ⟨b, hb, hlt⟩ := h
  obtain ⟨new, hr⟩ := registerAll_registers
    { s with calls := s.calls ++ [{ action := a, others := s.rtactionlist }] } rs
  have hcall : (⟨a, s.rtactionlist⟩ : RtCall) ∈ (s.call a rs).calls := by
    rw [show (s.call a rs).calls = _ from hr.calls]
    exact List.mem_append_right _ (List.mem_singleton_self _)
  exact (ht.order _ hcall b hb).not_gt (hlt a ha)

theorem Passed.not_timed_sleep (h : s.Passed) :
    ¬ EvtLoop.Timed
      { s with pc := .select (s.e.map fun a => a.date.timerSub s.curLoopTime) } := by
  intro ht
  obtain ⟨b, hb, hlt⟩ := h
  have hwaits : b ∈ waiting s.e s.rtactionlist := List.mem_append_right _ hb
  have hsleep := ht.asleep _ rfl
  cases he : s.e with
  | none =>
    have hnil : waiting s.e s.rtactionlist = [] := hsleep.forever (by rw [he]; rfl)
    rw [hnil] at hwaits
    cases hwaits
  | some a =>
    obtain ⟨a', -, hdate, hfirst⟩ := hsleep.first _ (by rw [he]; rfl)
    rw [Date.micros_timerSub] at hdate
    have hle := hfirst b hwaits
    have hbefore := hlt a he
    unfold RtAction.key at *
    have hsum : s.curLoopTime.micros + (a.date.micros - s.curLoopTime.micros) =
      a'.date.micros := hdate
    omega

/-! ## Runs -/

variable {tr : List (EvtLoop × LoopEvent)}

theorem run_inv (h : Run s tr s') (hi : s.Inv) (hm : ∀ p ∈ tr, p.1.Meets p.2) :
    (∀ p ∈ tr, p.1.Inv) ∧ s'.Inv := by
  induction h with
  | nil s => exact ⟨List.forall_mem_nil _, hi⟩
  | cons hs hrun ih =>
    obtain ⟨hfirst, hrest⟩ := List.forall_mem_cons.mp hm
    obtain ⟨htr, hend⟩ := ih (step_inv hi hfirst hs) hrest
    exact ⟨List.forall_mem_cons.mpr ⟨hi, htr⟩, hend⟩

/-- The states of a run are all timed. -/
def AllTimed (tr : List (EvtLoop × LoopEvent)) (s : EvtLoop) : Prop :=
  (∀ p ∈ tr, p.1.Timed) ∧ s.Timed

theorem Run.timed_first (h : Run s tr s') (ht : AllTimed tr s') : s.Timed := by
  cases h with
  | nil s => exact ht.2
  | cons hs hrun => exact (List.forall_mem_cons.mp ht.1).1

theorem AllTimed.tail {p : EvtLoop × LoopEvent} (ht : AllTimed (p :: tr) s) : AllTimed tr s :=
  ⟨(List.forall_mem_cons.mp ht.1).2, ht.2⟩

/-- An action that the loop has gone past is seen at the next call or sleep. -/
theorem Run.not_timed_of_consume (h : Run s tr s') (hp : s.Passed) (hpc : s.pc = .consume)
    {w : Option Date} (hsleep : s'.pc = .select w) : ¬ AllTimed tr s' := by
  intro ht
  cases h with
  | nil s =>
    rw [hpc] at hsleep
    cases hsleep
  | @cons _ s₁ _ ev _ hs hrun =>
    have hnext : s₁.Timed := hrun.timed_first ht.tail
    cases ev with
    | callback rs =>
      simp only [step, hpc] at hs
      split at hs
      · rename_i a _ ha
        split at hs
        · obtain rfl := Option.some.inj hs
          exact hp.not_timed_call ha rs hnext
        · cases hs
      · rename_i hfire _
        cases hfire
      · cases hs
    | sleep =>
      simp only [step, hpc] at hs
      split at hs
      · cases hs
      · obtain rfl := Option.some.inj hs
        exact hp.not_timed_sleep hnext
    | gettimeofday t => simp [step, hpc] at hs
    | input rs => simp [step, hpc] at hs
    | timeout t => simp [step, hpc] at hs

theorem Run.not_timed_of_top (h : Run s tr s') (hp : s.Passed) (hpc : s.pc = .top)
    {w : Option Date} (hsleep : s'.pc = .select w) : ¬ AllTimed tr s' := by
  intro ht
  cases h with
  | nil s =>
    rw [hpc] at hsleep
    cases hsleep
  | @cons _ s₁ _ ev _ hs hrun =>
    cases ev with
    | gettimeofday t =>
      simp only [step, hpc] at hs
      obtain rfl := Option.some.inj hs
      exact hrun.not_timed_of_consume hp rfl hsleep ht.tail
    | callback rs => simp [step, hpc] at hs
    | sleep => simp [step, hpc] at hs
    | input rs => simp [step, hpc] at hs
    | timeout t => simp [step, hpc] at hs

theorem Run.meets_of_timed (h : Run s tr s') (hi : s.Inv) {w : Option Date}
    (hsleep : s'.pc = .select w) (ht : AllTimed tr s') : ∀ p ∈ tr, p.1.Meets p.2 := by
  induction h with
  | nil s => exact List.forall_mem_nil _
  | @cons s s₁ _ ev _ hs hrun ih =>
    by_cases hm : s.Meets ev
    · exact List.forall_mem_cons.mpr ⟨hm, ih (step_inv hi hm hs) hsleep ht.tail⟩
    · cases ev with
      | input rs =>
        simp only [step] at hs
        split at hs
        · obtain rfl := Option.some.inj hs
          exact absurd ht.tail
            (hrun.not_timed_of_top (passed_of_not_meets hm .top) rfl hsleep)
        · cases hs
      | gettimeofday t => exact absurd trivial hm
      | callback rs => exact absurd trivial hm
      | sleep => exact absurd trivial hm
      | timeout t => exact absurd trivial hm

/-! ## Progress -/

/-- The actions that wait and whose date has come. -/
def overdue (s : EvtLoop) : List RtAction :=
  s.pending.filter fun a => a.date.le s.curLoopTime

/-- A callback that registers later actions only leaves one overdue action less. -/
theorem length_overdue_call {a : RtAction} (ha : s.e = some a) (hdue : s.due = true)
    {rs : List Registration}
    (hlater : ∀ r ∈ rs, s.curLoopTime.micros < (r.date s.curLoopTime).micros) :
    1 + (s.call a rs).overdue.length = s.overdue.length := by
  obtain ⟨new, hr⟩ := registerAll_registers
    { s with calls := s.calls ++ [{ action := a, others := s.rtactionlist }] } rs
  have htime : (s.call a rs).curLoopTime = s.curLoopTime := hr.time
  have hpending : (s.call a rs).pending.Perm (new ++ s.rtactionlist) := by
    show (waiting (List.head? _) (List.tail _)).Perm _
    rw [waiting_head_tail]
    exact hr.perm
  have hnew : new.filter (fun b => b.date.le s.curLoopTime) = [] := by
    rw [List.filter_eq_nil_iff]
    intro b hb hle
    obtain ⟨r, hmem, hdate⟩ := hr.exists_date hb
    have hlt := hlater r hmem
    rw [show r.date s.curLoopTime = b.date from hdate] at hlt
    exact hlt.not_ge ((Date.le_iff _ _).mp hle)
  have hheld : a.date.le s.curLoopTime = true := by
    rw [due, ha] at hdue
    exact hdue
  unfold overdue
  rw [htime, (hpending.filter _).length_eq, List.filter_append, hnew, pending, ha]
  show _ = (List.filter _ (a :: s.rtactionlist)).length
  simp only [List.filter_cons, hheld, if_true]
  exact Nat.add_comm _ _

/-- The callbacks of a loop over past actions are as many as the overdue actions that it has called,
so it ends. -/
theorem Run.length_add_overdue (h : Run s tr s') (hpc : s.pc = .consume)
    (htr : ∀ p ∈ tr, ∃ rs, p.2 = .callback rs ∧
      ∀ r ∈ rs, p.1.curLoopTime.micros < (r.date p.1.curLoopTime).micros) :
    tr.length + s'.overdue.length = s.overdue.length := by
  induction h with
  | nil s => exact Nat.zero_add _
  | @cons s s₁ _ ev _ hs hrun ih =>
    obtain ⟨⟨rs, rfl, hlater⟩, hrest⟩ := List.forall_mem_cons.mp htr
    simp only [step, hpc] at hs
    split at hs
    · rename_i a _ ha
      split at hs
      · rename_i hdue
        obtain rfl := Option.some.inj hs
        have hkeep : (s.call a rs).pc = .consume := by
          obtain ⟨new, hr⟩ := registerAll_registers
            { s with calls := s.calls ++ [{ action := a, others := s.rtactionlist }] } rs
          exact hr.pc.trans hpc
        have hone := length_overdue_call ha hdue hlater
        have hmany := ih hkeep hrest
        rw [List.length_cons]
        omega
      · cases hs
    · rename_i hfire _
      cases hfire
    · cases hs

/-- With nothing overdue the loop sleeps. -/
theorem step_sleep_isSome (hpc : s.pc = .consume) (hdue : s.overdue = []) :
    (s.step .sleep).isSome := by
  have hnot : s.due = false := by
    unfold due
    cases he : s.e with
    | none => rfl
    | some a =>
      rw [overdue, pending, he] at hdue
      exact Bool.eq_false_iff.mpr (List.filter_eq_nil_iff.mp hdue a List.mem_cons_self)
  simp [step, hpc, hnot]

end EvtLoop

open EvtLoop

/-- In every run whose inputs register only actions that are not before the held one, each registered
action is called once or waits, in the order of the dates, and the loop never sleeps past one. In a
run that is back at its sleep, only then. -/
theorem timed_iff {t : Date} {rs : List Registration} {tr : List (EvtLoop × LoopEvent)}
    {s : EvtLoop} (h : Run (start t rs) tr s) :
    ((∀ p ∈ tr, p.1.Meets p.2) → AllTimed tr s) ∧
      ((∃ w, s.pc = .select w) → AllTimed tr s → ∀ p ∈ tr, p.1.Meets p.2) := by
  constructor
  · intro hm
    obtain ⟨htr, hend⟩ := run_inv h (start_inv t rs) hm
    exact ⟨fun p hp => (htr p hp).timed, hend.timed⟩
  · rintro ⟨w, hsleep⟩ ht
    exact h.meets_of_timed (start_inv t rs) hsleep ht

/-- An action of start-up; an input that registers a later one; both are called. -/
theorem timed_iff_later : ∃ tr s,
    Run (start ⟨0, 0, by decide, by decide⟩ [.rtcallback 3]) tr s ∧
    tr.map Prod.snd = [.gettimeofday ⟨1, 0, by decide, by decide⟩, .sleep, .input [.rtcallback 5],
      .gettimeofday ⟨9, 0, by decide, by decide⟩, .callback [], .callback [.rtcallback 2], .sleep] ∧
    s.called.map RtAction.id = [0, 1] ∧ AllTimed tr s := by
  have hrun : ∃ tr s, Run (start ⟨0, 0, by decide, by decide⟩ [.rtcallback 3]) tr s ∧
      tr.map Prod.snd = [.gettimeofday ⟨1, 0, by decide, by decide⟩, .sleep,
        .input [.rtcallback 5], .gettimeofday ⟨9, 0, by decide, by decide⟩, .callback [],
        .callback [.rtcallback 2], .sleep] ∧
      s.called.map RtAction.id = [0, 1] ∧ ∀ p ∈ tr, p.1.Meets p.2 := by
    refine ⟨_, _, .cons rfl (.cons rfl (.cons rfl (.cons rfl (.cons rfl (.cons rfl (.cons rfl
      (.nil _))))))), rfl, rfl, ?_⟩
    simp only [List.forall_mem_cons, Meets, true_and]
    exact ⟨⟨⟨_, rfl, by decide⟩, List.forall_mem_nil _⟩, List.forall_mem_nil _⟩
  obtain ⟨tr, s, h, hev, hcalled, hm⟩ := hrun
  exact ⟨tr, s, h, hev, hcalled, (timed_iff h).1 hm⟩

/-- No action waits, so none is held; an input registers one. It is never held, and the loop sleeps
with no timeout. -/
theorem not_timed : ¬ ∀ (t : Date) (rs : List Registration) (tr : List (EvtLoop × LoopEvent))
    (s : EvtLoop), Run (start t rs) tr s → AllTimed tr s := by
  intro h
  have hrun : ∃ tr s, Run (start ⟨0, 0, by decide, by decide⟩ []) tr s ∧
      tr.map Prod.snd = [.gettimeofday ⟨0, 0, by decide, by decide⟩, .sleep,
        .input [.rtcallback 5], .gettimeofday ⟨10, 0, by decide, by decide⟩, .sleep] ∧
      s.pc = .select none ∧ s.pending ≠ [] := by
    refine ⟨_, _, .cons rfl (.cons rfl (.cons rfl (.cons rfl (.cons rfl (.nil _))))), rfl, rfl, ?_⟩
    exact List.cons_ne_nil _ _
  obtain ⟨tr, s, h', -, hpc, hwait⟩ := hrun
  exact hwait (((h _ _ _ _ h').2.asleep _ hpc).forever rfl)

end Orchids

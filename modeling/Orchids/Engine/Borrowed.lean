import Orchids.Engine.Counters
import Orchids.Engine.Touches

/-!
# Values borrowed from events

`OP_POP` stores the pointer that `OP_PUSHFIELD` pushed: an environment then borrows a value of the
current event, which is freed with the event.

* `Borrows`: during a call, each rule instance refers to the events that it borrows from, or its
  threads are all initial ones, which are gone at the end of the call.
* `borrowed_of_callKeeps`: no environment has a value of a freed event in a run in which no waiting
  thread fails behind an assignment of a field.
* `not_eventsKept`: a condition that assigns a field and then fails.
-/

namespace Orchids

variable {V : Type}

section

variable [Issdl V] [Origins V]

section

variable {a b e r s t : Nat} {onlyOnce : Bool} {cr : Option Nat} {c c' d : Ctx V}

/-! ## What holds during a call -/

/-- How a rule instance may come to values of the current event `e`: it refers to the event, or it
is not beyond its initial state, or it has none. -/
def Ctx.Settled (e r : Nat) (c : Ctx V) : Prop :=
  c.Refers e r ∨
    (∀ t, c.thr.live t = true → c.ruleInstOf t = r → (c.thr.cell t).onlyOnce = true) ∨
    (¬ c.HoldsIn e r ∧
      ∀ t, c.thr.live t = true → c.ruleInstOf t = r → (c.thr.cell t).onlyOnce = false)

/-- During a call with the event `e` the rule instances that are not freed refer to the other events
of which they have values. -/
structure Borrows (e : Nat) (c : Ctx V) : Prop where
  sound : Sound c
  fields : FieldsOf e c
  past : ∀ r, c.records.ruleLive r = true → ∀ a, a ≠ e → c.HoldsIn a r → c.Refers a r
  settled : ∀ r, c.records.ruleLive r = true → c.Settled e r

theorem Ctx.Settled.untouched (h : c.Settled e b) (hu : Untouched b c c') : c'.Settled e b := by
  rcases h with h | h | ⟨hno, h⟩
  · exact .inl (hu.refers e h)
  · refine .inr (.inl fun t hl hr => ?_)
    obtain ⟨hl₀, hr₀, ho⟩ := hu.thread t hl hr
    exact ho.trans (h t hl₀ hr₀)
  · refine .inr (.inr ⟨fun ha => hno (hu.holds e ha), fun t hl hr => ?_⟩)
    obtain ⟨hl₀, hr₀, ho⟩ := hu.thread t hl hr
    exact ho.trans (h t hl₀ hr₀)

namespace Borrows

/-- Only the rule instance `r` is touched, and it is settled afterwards. -/
theorem touches (h : Borrows e c) (ht : Touches e r onlyOnce c c') (hs : Sound c')
    (hf : c'.globalFields = c.globalFields)
    (hl : ∀ b, c'.records.ruleLive b = true → c.records.ruleLive b = true)
    (hr : c'.records.ruleLive r = true → c'.Settled e r) : Borrows e c' where
  sound := hs
  fields := by
    unfold FieldsOf
    rw [hf]
    exact h.fields
  past b hb a hae ha := by
    by_cases hbr : b = r
    · subst hbr
      exact ht.refers a (h.past b (hl b hb) a hae ((ht.holds a ha).resolve_right hae))
    · have hu := ht.others b hbr
      exact hu.refers a (h.past b (hl b hb) a hae (hu.holds a ha))
  settled b hb := by
    by_cases hbr : b = r
    · exact hbr ▸ hr (hbr ▸ hb)
    · exact (h.settled b (hl b hb)).untouched (ht.others b hbr)

theorem untouched (h : Borrows e c) (hu : ∀ b, Untouched b c c') (hs : Sound c')
    (hf : c'.globalFields = c.globalFields)
    (hl : ∀ b, c'.records.ruleLive b = true → c.records.ruleLive b = true) : Borrows e c' := by
  have ht : Touches e 0 true c c' := .of_untouched hu
  exact h.touches ht hs hf hl fun hb => (h.settled 0 (hl 0 hb)).untouched (hu 0)

end Borrows

omit [Issdl V] [Origins V] in
theorem Sound.of_eq (h : Sound c) (hr : c'.records = c.records) (ha : c'.accounts = c.accounts) :
    Sound c' where
  threads := by
    have hlive : c'.thr.live = c.thr.live := congrArg AccountView.live ha
    have hsize : c'.thr.size = c.thr.size := congrArg RecordView.threads hr
    unfold Heap.WF
    rw [hlive, hsize]
    exact h.threads
  owners := by
    rw [hr]
    exact h.owners

/-- Only links, marks and counters change. -/
theorem untouched_of_views (b : Nat) (h : Stays c c') (hw : Wf c.records cr) (hlt : c.thr.WF)
    (he : c'.events = c.events) (ha : c'.accounts = c.accounts) : Untouched b c c' :=
  .of_stays b h hw hlt
    (fun _ s _ => (congrFun (congrArg EventView.eventOf he) s).trans)
    fun t => (congrFun (congrArg AccountView.live ha) t).symm.trans

theorem Borrows.of_views (h : Borrows e c) (hst : Stays c c') (hw : Wf c.records cr)
    (hr : c'.records = c.records) (he : c'.events = c.events) (ha : c'.accounts = c.accounts)
    (hf : c'.globalFields = c.globalFields) : Borrows e c' :=
  h.untouched (fun b => untouched_of_views b hst hw h.sound.threads he ha) (h.sound.of_eq hr ha) hf
    fun b => (congrFun (congrArg RecordView.ruleLive hr) b).symm.trans

/-! ## The steps of a call -/

/-- The evaluation of the transition of the thread `t`: where its condition is true its rule
instance is not freed, and where the condition of a waiting thread is not true no value of the event
`e` is left in its state instance, unless its rule instance refers to `e`. -/
structure KeepsBindings (call : Call V) (e t : Nat) (c : Ctx V) : Prop where
  pass : (call.vm c (c.thr.cell t).stateInstance ((c.thr.cell t).trans.evalCode.getD [])).ret = 0 →
    c.ri.live (c.ruleInstOf t) = true
  fail : (call.vm c (c.thr.cell t).stateInstance ((c.thr.cell t).trans.evalCode.getD [])).ret ≠ 0 →
    (c.thr.cell t).onlyOnce = false → c.ri.live (c.ruleInstOf t) = true →
    c.Refers e (c.ruleInstOf t) ∨ ¬ (c.vmExec call.vm (c.thr.cell t).stateInstance
      ((c.thr.cell t).trans.evalCode.getD [])).Holds e (c.thr.cell t).stateInstance

section

variable [SyncValue V] {rules : RuleSet} {prune : Nat → Ctx V → Bool} {call : Call V} {fuel : Nat}

omit [SyncValue V] in
/-- An execution of byte code gives new values only to its own state instance. -/
theorem holdsIn_vmExec {vm : Vm V} {code : List Nat} (h : (c.vmExec vm s code).HoldsIn a b) :
    c.HoldsIn a b ∨ (c.vmExec vm s code).Holds a s := by
  obtain ⟨s', hs', hr, hold⟩ := h
  by_cases hss : s' = s
  · exact .inr (hss ▸ hold)
  · have hcell : (c.vmExec vm s code).si.cell s' = c.si.cell s' := c.si.cell_modify_of_ne _ hss
    rw [si_size_vmExec] at hs'
    unfold Ctx.Holds at hold
    rw [hcell] at hr hold
    exact .inl ⟨s', hs', hr, hold⟩

omit [Issdl V] [Origins V] [SyncValue V] in
theorem Sound.vmExec (h : Sound c) (vm : Vm V) (s : Nat) (code : List Nat) :
    Sound (c.vmExec vm s code) :=
  h.of_eq (records_vmExec vm s code c) (accounts_vmExec vm s code c)

omit [SyncValue V] in
/-- The transition of the thread `t` is not taken. -/
theorem fail_borrows (hvm : BindsOwn call.vm) (hv : Visiting t c) (h : Borrows e c)
    (hk : KeepsBindings call e t c)
    (hret : (call.vm c (c.thr.cell t).stateInstance
      ((c.thr.cell t).trans.evalCode.getD [])).ret ≠ 0) :
    Borrows e (c.vmExec call.vm (c.thr.cell t).stateInstance
      ((c.thr.cell t).trans.evalCode.getD [])) := by
  have ho := hv.wf.thread_of hv.lt
  have htouch : ∀ onlyOnce, Touches e (c.ruleInstOf t) onlyOnce c _ := fun onlyOnce =>
    touches_vmExec hvm h.fields ho hv.wf h.sound.threads ((c.thr.cell t).trans.evalCode.getD [])
  refine h.touches (htouch true) (h.sound.vmExec _ _ _) rfl (fun b => id) fun hr => ?_
  rcases h.settled _ hr with href | hall | ⟨hno, hall⟩
  · exact .inl ((htouch true).refers e href)
  · refine .inr (.inl fun t' hl hr' => ?_)
    rcases (htouch true).thread t' hl hr' with hoo | ⟨hl₀, hr₀, hoo⟩
    · exact hoo
    · exact hoo.trans (hall t' hl₀ hr₀)
  · rcases hk.fail hret (hall t hv.live rfl) hr with href | hnew
    · exact .inl ((htouch true).refers e href)
    · refine .inr (.inr ⟨fun ha => (holdsIn_vmExec ha).elim hno hnew, fun t' hl hr' => ?_⟩)
      rcases (htouch false).thread t' hl hr' with hoo | ⟨hl₀, hr₀, hoo⟩
      · exact hoo
      · exact hoo.trans (hall t' hl₀ hr₀)

/-- The transition of the thread `t` is taken. -/
theorem pass_borrows {c₁ c₂ : Ctx V} {code : List Nat} {ret : Int} (hvm : BindsOwn call.vm)
    (hv : Visiting t c) (h : Borrows e c) (hr : c.records.ruleLive (c.ruleInstOf t) = true)
    (hc₁ : c₁ = (c.vmExec call.vm (c.thr.cell t).stateInstance code).passState e t)
    (hs : simulate rules call fuel c.si.size false c₁ = some (ret, c₂)) :
    Touches e (c.ruleInstOf t) false c c₂ ∧ Borrows e c₂ ∧ Wf c₂.records none := by
  have ho := hv.wf.thread_of hv.lt
  have hg := grows_vmExec call.vm (c.thr.cell t).stateInstance code c
  have htouch : Touches e (c.ruleInstOf t) false c
      (c.vmExec call.vm (c.thr.cell t).stateInstance code) :=
    touches_vmExec hvm h.fields ho hv.wf h.sound.threads code
  have hsound := h.sound.vmExec call.vm (c.thr.cell t).stateInstance code
  have hw : Wf (c.vmExec call.vm (c.thr.cell t).stateInstance code).records none := by
    rw [records_vmExec]
    exact hv.wf
  have hrl : (c.vmExec call.vm (c.thr.cell t).stateInstance code).records.ruleLive
      (c.ruleInstOf t) = true := hr
  have hsz := si_size_vmExec call.vm (c.thr.cell t).stateInstance code c
  have hlive : (c.vmExec call.vm (c.thr.cell t).stateInstance code).records.ruleLive =
    c.records.ruleLive := rfl
  have hfields : (c.vmExec call.vm (c.thr.cell t).stateInstance code).globalFields =
    c.globalFields := rfl
  have hlt := lt_of_lt_of_le hv.lt hg.thr.size_le
  have howner := hg.ruleInstOf hv.wf hv.lt
  generalize c.vmExec call.vm (c.thr.cell t).stateInstance code = c₀ at *
  subst hc₁
  have ho₁ := hw.passState_of hlt e
  have hw₁ : Wf (c₀.passState e t).records none := by
    rw [records_passState]
    exact hw.addState (hw.thread_of hlt).rule_lt
  have hsound₁ : Sound (c₀.passState e t) := by
    refine ⟨?_, ?_⟩
    · have hl : (c₀.passState e t).thr.live = c₀.thr.live :=
        congrArg AccountView.live (accounts_passState e t c₀)
      have hn : (c₀.passState e t).thr.size = c₀.thr.size :=
        congrArg RecordView.threads (records_passState e t c₀)
      unfold Heap.WF
      rw [hl, hn]
      exact hsound.threads
    · rw [records_passState]
      exact hsound.owners.addState hw (howner ▸ hrl)
  have hlive₁ : (c₀.passState e t).records.ruleLive = c₀.records.ruleLive := by
    rw [records_passState]
    rfl
  have hfields₁ := globalFields_passState e t c₀
  have hf₁ : FieldsOf e (c₀.passState e t) := by
    unfold FieldsOf
    rw [hfields₁, hfields]
    exact h.fields
  rw [howner] at ho₁
  have href := refers_passState hw hlt e
  rw [howner] at href
  have hsim := simulate_touches hvm hf₁ ho₁ hw₁ hsound₁ (by rwa [hlive₁]) (hsz ▸ hs)
  have htouch₂ := (htouch.trans (.of_untouched fun b =>
    untouched_passState b hw hsound.threads hlt e)).trans hsim.touches
  refine ⟨htouch₂, h.touches htouch₂ hsim.sound ?_ (fun b hb => ?_) fun _ => ?_,
    (simulate_wf ho₁ hw₁ (hsz ▸ hs)).2⟩
  · exact (simulate_globalFields _ _ _ _ hs).trans (hfields₁.trans hfields)
  · rwa [hsim.ruleLive, hlive₁, hlive] at hb
  · exact .inl (hsim.touches.refers e href)

theorem evaluated_borrows (hvm : BindsOwn call.vm) (hv : Visiting t c) (h : Borrows e c)
    (hk : KeepsBindings call e t c) (hev : Evaluated rules prune call fuel e t c c') :
    Touches e (c.ruleInstOf t) false c c' ∧ Borrows e c' := by
  cases hev with
  | fail code hcode hret =>
    subst hcode
    exact ⟨touches_vmExec hvm h.fields (hv.wf.thread_of hv.lt) hv.wf h.sound.threads _,
      fail_borrows hvm hv h hk hret⟩
  | pass code c₁ c₂ ret hcode hret hc₁ hs =>
    have hr := hk.pass (hcode ▸ hret)
    obtain ⟨ht, hb, hw₂⟩ := pass_borrows hvm hv h hr hc₁ hs
    split
    · have hst := stays_killThread t c₂
      have ha := accounts_killThread t c₂
      exact ⟨ht.trans (.of_untouched fun b =>
          untouched_of_views b hst hw₂ hb.sound.threads (events_killThread t c₂) ha),
        hb.of_views hst hw₂ (records_killThread t c₂) (events_killThread t c₂) ha rfl⟩
    · exact ⟨ht, hb⟩

theorem reapThread_borrows (hv : Visiting t c) (h : Borrows e c) (p : Option Nat) :
    Borrows e (c.reapThread rules t p) := by
  have hthr : (c.reapThread rules t p).thr.live = Function.update c.thr.live t false :=
    congrArg AccountView.live (accounts_reapThread rules t p c)
  have hrec : (c.reapThread rules t p).records = (c.dropThread rules t).records :=
    records_freeThread t p _
  have hsize : (c.dropThread rules t).records.threads = c.records.threads := by
    rcases records_dropThread rules t c with heq | ⟨_, _, heq⟩
    · rw [heq]
    · rw [heq]
      rfl
  refine h.untouched (fun b => untouched_reapThread b hv.wf h.sound.threads hv.lt p)
    ⟨fun t' hl => ?_, ?_⟩ (globalFields_reapThread t p c) fun b hb => ?_
  · rw [show (c.reapThread rules t p).thr.size = c.thr.size from
      (congrArg RecordView.threads hrec).trans hsize]
    rw [hthr] at hl
    by_cases htt : t' = t
    · rw [htt, Function.update_self] at hl
      cases hl
    · exact h.sound.threads t' ((Function.update_of_ne htt ..).symm.trans hl)
  · rw [hrec]
    rcases records_dropThread rules t c with heq | ⟨_, _, heq⟩
    · rw [heq]
      exact h.sound.owners
    · rw [heq]
      exact h.sound.owners.freeRule hv.wf (hv.wf.thread_of hv.lt).rule_lt nofun
  · rw [hrec] at hb
    rcases records_dropThread rules t c with heq | ⟨_, _, heq⟩
    · rwa [heq] at hb
    · rw [heq] at hb
      by_cases hbr : b = c.ruleInstOf t
      · simp [RecordView.freeRule, hbr] at hb
      · exact (Function.update_of_ne hbr ..).symm.trans hb

/-- The visit of the thread `t` keeps the bindings. -/
def VisitKeeps (call : Call V) (curTime e t : Nat) (c : Ctx V) : Prop :=
  ((c.beginVisit curTime t).thr.cell t).killed = false →
    KeepsBindings call e t (c.beginVisit curTime t)

/-- A turn of the event loop leaves no initial thread behind, and adds none. -/
structure NoInitial (t : Nat) (c c' : Ctx V) : Prop where
  gone : c'.thr.live t = true → (c'.thr.cell t).onlyOnce = false
  old : ∀ t', c'.thr.live t' = true → (c'.thr.cell t').onlyOnce = true →
    c.thr.live t' = true ∧ (c.thr.cell t').onlyOnce = true

omit [Issdl V] [Origins V] in
theorem not_live_reapThread (t : Nat) (p : Option Nat) (c : Ctx V) :
    (c.reapThread rules t p).thr.live t = false :=
  (congrFun (congrArg AccountView.live (accounts_reapThread rules t p c)) t).trans
    (Function.update_self ..)

theorem evtStep_borrows {curTime : Nat} (hvm : BindsOwn call.vm)
    (hb : base.during e (some t) c) (hk : VisitKeeps call curTime e t c) (h : Borrows e c)
    (heq : evtStep rules prune call fuel curTime e t (c.next t) c = some c') :
    Borrows e c' ∧ NoInitial t c c' := by
  obtain ⟨hv, hcase⟩ := evtStep_visiting hb heq
  have hst₀ := stays_beginVisit curTime t c
  have ht₀ : Touches e 0 false c (c.beginVisit curTime t) := .of_untouched fun b =>
    untouched_of_views b hst₀ hb.1 h.sound.threads (events_beginVisit curTime t c)
      (accounts_beginVisit curTime t c)
  have h₀ : Borrows e (c.beginVisit curTime t) :=
    h.of_views hst₀ hb.1 (records_beginVisit curTime t c) (events_beginVisit curTime t c)
      (accounts_beginVisit curTime t c) (globalFields_beginVisit curTime t c)
  have hold : ∀ {r : Nat} {d : Ctx V}, Touches e r false (c.beginVisit curTime t) d →
      ∀ t', d.thr.live t' = true → (d.thr.cell t').onlyOnce = true →
        c.thr.live t' = true ∧ (c.thr.cell t').onlyOnce = true := fun ht t' hl ho =>
    have ⟨hl₀, ho₀⟩ := ht.initial hl ho
    ht₀.initial hl₀ ho₀
  have hgone : ∀ d : Ctx V, (d.reapThread rules t (c.next t)).thr.live t = true →
      ((d.reapThread rules t (c.next t)).thr.cell t).onlyOnce = false := by
    intro d hl
    rw [not_live_reapThread] at hl
    cases hl
  rcases hcase with ⟨_, rfl⟩ | ⟨hkilled, c₁, hev, hv₁, hcase⟩
  · refine ⟨reapThread_borrows hv h₀ _, hgone _, hold (r := 0) (.of_untouched fun b => ?_)⟩
    exact untouched_reapThread b hv.wf h₀.sound.threads hv.lt _
  · obtain ⟨ht₁, h₁⟩ := evaluated_borrows hvm hv h₀ (hk hkilled) hev
    rcases hcase with ⟨_, hv₂, rfl⟩ | ⟨ho, rfl⟩
    · have hst := (stays_killThread t c₁).trans (stays_commitAt t _)
      have hr : ((c₁.killThread t).commitAt t).records = c₁.records := by simp
      have he : ((c₁.killThread t).commitAt t).events = c₁.events := by simp
      have ha : ((c₁.killThread t).commitAt t).accounts = c₁.accounts := by simp
      have h₂ : Borrows e ((c₁.killThread t).commitAt t) :=
        h₁.of_views hst hv₁.wf hr he ha (globalFields_commitAt t _)
      refine ⟨reapThread_borrows hv₂ h₂ _, hgone _, hold (ht₁.trans (.of_untouched fun b => ?_))⟩
      exact (untouched_of_views b hst hv₁.wf h₁.sound.threads he ha).trans
        (untouched_reapThread b hv₂.wf h₂.sound.threads hv₂.lt _)
    · have hst := (stays_requeue t c₁).trans (stays_commitAt t _)
      have hr : ((c₁.requeue t).commitAt t).records = c₁.records := by simp
      have he : ((c₁.requeue t).commitAt t).events = c₁.events := by simp
      have ha : ((c₁.requeue t).commitAt t).accounts = c₁.accounts := by simp
      refine ⟨h₁.of_views hst hv₁.wf hr he ha (globalFields_commitAt t _), fun _ => ?_,
        hold (ht₁.trans (.of_untouched fun b => ?_))⟩
      · rw [hst.grows.onlyOnce hv₁.lt, ho]
      · exact untouched_of_views b hst hv₁.wf h₁.sound.threads he ha

/-! ## The initial threads -/

/-- A new rule instance has values of the current event only, and its threads are initial ones. -/
theorem simulate_initial {k : Nat} {ret : Int} (hvm : BindsOwn call.vm)
    (hw : Wf c.records none) (h : Borrows e c)
    (hs : simulate rules call fuel c.si.size true (c.newRuleInst k) = some (ret, c')) :
    Borrows e c' := by
  have hw₀ : Wf (c.newRuleInst k).records (some c.ri.size) := by
    rw [records_newRuleInst]
    exact hw.addRule
  have hsound₀ : Sound (c.newRuleInst k) := by
    refine ⟨h.sound.threads, ?_⟩
    rw [records_newRuleInst]
    exact h.sound.owners.addRule hw
  have hlive₀ : (c.newRuleInst k).records.ruleLive = Function.update c.records.ruleLive c.ri.size true := by
    rw [records_newRuleInst]
    rfl
  have hf₀ : FieldsOf e (c.newRuleInst k) := h.fields
  have hsim := simulate_touches hvm hf₀ (.newRuleInst k c) hw₀ hsound₀
    (by rw [hlive₀, Function.update_self]) hs
  have hother : ∀ b, b ≠ c.ri.size → Untouched b c c' := fun b hb =>
    (untouched_newRuleInst hw h.sound.threads k hb).trans (hsim.touches.others b hb)
  have hlive : ∀ b, b ≠ c.ri.size → c'.records.ruleLive b = true → c.records.ruleLive b = true := by
    intro b hb hl
    rw [hsim.ruleLive, hlive₀, Function.update_of_ne hb] at hl
    exact hl
  refine ⟨hsim.sound, ?_, fun b hb a hae ha => ?_, fun b hb => ?_⟩
  · unfold FieldsOf
    rw [simulate_globalFields _ _ _ _ hs]
    exact h.fields
  · by_cases hbr : b = c.ri.size
    · subst hbr
      exact absurd ((hsim.touches.holds a ha).resolve_right hae) (not_holdsIn_newRuleInst hw k a)
    · exact (hother b hbr).refers a (h.past b (hlive b hbr hb) a hae ((hother b hbr).holds a ha))
  · by_cases hbr : b = c.ri.size
    · subst hbr
      refine .inr (.inl fun t hl hr => (hsim.touches.thread t hl hr).resolve_right ?_)
      rintro ⟨hl₀, hr₀, -⟩
      have ht : t < c.thr.size := h.sound.threads t hl₀
      rw [(grows_newRuleInst k c).ruleInstOf hw ht] at hr₀
      exact (hw.thread_of ht).rule_lt.ne hr₀
    · exact (h.settled b (hlive b hbr hb)).untouched (hother b hbr)

theorem finishRuleInst_borrows (hw : Wf c.records (some r)) (h : Borrows e c)
    (hr : r < c.ri.size) (ret : Int) : Borrows e (c.finishRuleInst rules r ret) := by
  have hf : (c.finishRuleInst rules r ret).globalFields = c.globalFields :=
    globalFields_finishRuleInst r ret c
  unfold Ctx.finishRuleInst at hf ⊢
  by_cases hret : ret ≤ 0
  · rw [if_pos hret] at hf ⊢
    have hthr : (c.freeRuleInstance rules r).thr = c.thr := by
      obtain ⟨ae, hd, tl, n, l, heq⟩ := freeRuleInstance_eq rules r c
      rw [heq]
    refine h.untouched (fun b => ?_) ⟨hthr ▸ h.sound.threads, ?_⟩ hf fun b hb => ?_
    · exact untouched_freeRuleInstance b r (grows_freeRuleInstance rules r c) hw h.sound.threads
        rfl rfl
    · rw [records_freeRuleInstance]
      have hfree := h.sound.owners.freeRule hw hr (by rintro _ _ ⟨⟩)
      exact ⟨(by rintro _ _ ⟨⟩), hfree.state⟩
    · rw [records_freeRuleInstance] at hb
      by_cases hbr : b = r
      · simp [RecordView.freeRule, hbr] at hb
      · exact (Function.update_of_ne hbr ..).symm.trans hb
  · rw [if_neg hret] at hf ⊢
    have hlive : (c.linkRuleInst r ret).thr.live = c.thr.live :=
      congrArg AccountView.live (accounts_linkRuleInst r ret c)
    have hst := stays_linkRuleInst r ret c
    refine h.untouched (fun b => ?_) ⟨?_, ?_⟩ hf fun b hb => ?_
    · exact .of_stays b hst hw h.sound.threads
        (fun _ s _ => (congrFun (congrArg EventView.eventOf (events_linkRuleInst r ret c)) s).trans)
        fun t => (congrFun hlive t).symm.trans
    · unfold Heap.WF
      rw [hlive, hst.threads]
      exact h.sound.threads
    · rw [records_linkRuleInst]
      exact ⟨(by rintro _ _ ⟨⟩), h.sound.owners.state⟩
    · rwa [records_linkRuleInst] at hb

theorem startRule_borrows {k : Nat} (hvm : BindsOwn call.vm) (hw : Wf c.records none)
    (h : Borrows e c) (heq : startRule rules call fuel k c = some c') : Borrows e c' := by
  obtain ⟨ret, c₁, hs, rfl⟩ := startRule_some heq
  have hw₀ : Wf (c.newRuleInst k).records (some c.ri.size) := by
    rw [records_newRuleInst]
    exact hw.addRule
  obtain ⟨hg, hw₁⟩ := simulate_wf (.newRuleInst k c) hw₀ hs
  exact finishRuleInst_borrows hw₁ (simulate_initial hvm hw h hs)
    ((Of.newRuleInst k c).grows hg).rule_lt ret

/-! ## Every call -/

/-- Between two calls each rule instance that is not freed refers to the events of which it has
values. -/
structure Borrowed (c : Ctx V) : Prop where
  sound : Sound c
  fields : ∀ x, c.globalFields x = none
  held : ∀ r, c.records.ruleLive r = true → ∀ a, c.HoldsIn a r → c.Refers a r
  initial : ∀ t, c.thr.live t = true → (c.thr.cell t).onlyOnce = false

/-- What the invariant rests on. -/
def borrowBase : EngineInv V := ((base.and counted).and populated).and eventsInv

omit [Issdl V] [Origins V] in
theorem borrowBase_rules : EngineRules rules prune (fun _ => True) (fun _ _ _ _ => True) .trivial
    (borrowBase (V := V)) :=
  ((base_rules.and counted_rules).and
    (populated_rules.weaken (fun _ h => h.1) fun _ _ _ h => h.1)).and
    (events_rules.weaken (fun _ h => h.1.1) fun _ _ _ h => h.1.1)

omit [SyncValue V] [Issdl V] [Origins V] in
theorem threadsFrom_none (c : Ctx V) : c.threadsFrom none = [] := by
  unfold Ctx.threadsFrom
  cases c.thr.size <;> rfl

omit [SyncValue V] [Issdl V] [Origins V] in
/-- Each thread is in the current queue at the beginning of the event loop. -/
theorem mem_threadsFrom_mergeQueues (hb : base.during e none c)
    (hl : c.mergeQueues.thr.live t = true) :
    t ∈ c.mergeQueues.threadsFrom c.mergeQueues.curRetrigQh := by
  obtain ⟨-, new, retrig, rest, h, hp⟩ := hb
  obtain rfl := List.head?_eq_none_iff.mp hp
  have hmq := queues_mergeQueues h.newPtr
  have hhead : c.mergeQueues.curRetrigQh = (new ++ retrig).head? :=
    (congrArg QueueView.curRetrigQh hmq).trans h.append.head
  have hm := h.merge
  rw [← hmq] at hm
  rw [hhead, hm.threadsFrom_eq.2.2]
  simpa using (hm.live t).mp hl

omit [Issdl V] [Origins V] in
/-- The other threads of the current queue stay in it. -/
theorem mem_threadsFrom_evtStep {curTime t' : Nat} (hb : base.during e (some t) c)
    (heq : evtStep rules prune call fuel curTime e t (c.next t) c = some c') (hne : t' ≠ t)
    (ht : t' ∈ c.threadsFrom (some t)) : t' ∈ c'.threadsFrom (c.next t) := by
  obtain ⟨hw, new, retrig, rest, h, hp⟩ := hb
  obtain ⟨rest', rfl⟩ := List.head?_eq_some_iff.mp hp
  have hnext : c.next t = rest'.head? := h.restLinked.1
  have hrest := h.threadsFrom_eq.2.2
  rw [List.head?_cons] at hrest
  rw [hrest] at ht
  rw [hnext] at heq ⊢
  obtain ⟨new', retrig', h', -⟩ := evtStep_queues hw h heq
  rw [h'.threadsFrom_eq.2.2]
  exact (List.mem_cons.mp ht).resolve_left hne

omit [SyncValue V] [Issdl V] [Origins V] in
theorem exists_thread (hc : Counted c.records c.accounts)
    (hp : Populated none c.records c.accounts) (hr : c.records.ruleLive r = true)
    (hlt : r < c.ri.size) : ∃ t, c.thr.live t = true ∧ c.ruleInstOf t = r := by
  by_contra hno
  have hcount := hc.rules r hlt
  have hzero : countLive c.accounts.live c.records.threads
      (fun t => decide (c.records.ownerOf t = r)) = 0 :=
    countLive_eq_zero.mpr fun t _ hl => decide_eq_false fun ho => hno ⟨t, hl, ho⟩
  have hpos := hp r nofun hr
  omega

omit [Issdl V] [Origins V] [SyncValue V] in
theorem mem_of_fieldValue {event : List (Nat × V)} {f : Nat} {v : V}
    (h : fieldValue event f = some v) : (f, v) ∈ event := by
  induction event with
  | nil => cases h
  | cons p event ih =>
    rw [fieldValue] at h
    cases hv : fieldValue event f with
    | some w =>
      rw [hv] at h ih
      exact List.mem_cons_of_mem p (ih h)
    | none =>
      rw [hv] at h
      by_cases hf : f = p.1
      · simp only [if_pos hf, Option.some.injEq] at h
        rw [hf, ← h]
        exact List.mem_cons_self
      · simp [hf] at h

omit [SyncValue V] in
theorem beginEvent_borrows {event : List (Nat × V)} (hw : Wf c.records none)
    (he : EventsInv none c.records c.events) (h : Borrowed c)
    (hown : ∀ p ∈ event, Origins.origin p.2 = some c.ae.size) :
    Borrows c.ae.size (c.beginEvent event) where
  sound := ⟨h.sound.threads, h.sound.owners⟩
  fields := by
    intro x v a hv ha
    have hset := foldl_set event c.globalFields x
    rw [show (c.beginEvent event).globalFields x = _ from hset, h.fields x] at hv
    cases hval : fieldValue event x with
    | none =>
      rw [hval] at hv
      cases hv
    | some w =>
      rw [hval] at hv
      obtain rfl := Option.some.inj hv
      have ho := hown _ (mem_of_fieldValue hval)
      exact Option.some.inj (ha.symm.trans ho)
  past r hr a _ := h.held r hr a
  settled r hr := by
    refine .inr (.inr ⟨fun hold => ?_, fun t hl _ => h.initial t hl⟩)
    -- the address of the event is new
    obtain ⟨s, hs, hsr, ha⟩ := h.held r hr c.ae.size hold
    obtain ⟨l, hl⟩ := he.events
    have hlive : c.si.live s = true := hw.stateLive s hs (by rwa [← hsr] at hr)
    exact Nat.lt_irrefl _ (hl.lt _ (hl.target s hs hlive _ ha))

omit [SyncValue V] [Issdl V] [Origins V] in
theorem si_endEvent (event : List (Nat × V)) (e : Nat) (c : Ctx V) :
    (c.endEvent event e).si = c.si := by
  unfold Ctx.endEvent
  simp only
  split
  · rfl
  · split <;> rfl

omit [SyncValue V] [Issdl V] [Origins V] in
theorem thr_endEvent (event : List (Nat × V)) (e : Nat) (c : Ctx V) :
    (c.endEvent event e).thr = c.thr := by
  unfold Ctx.endEvent
  simp only
  split
  · rfl
  · split <;> rfl

/-- In the call the byte code is run by the machine, the fields belong to the event of the call, and
every visit of the event loop keeps the bindings. -/
structure CallKeeps (rules : RuleSet) (prune : Nat → Ctx V → Bool) (call : Call V) (fuel : Nat)
    (c : Ctx V) : Prop where
  machine : ∀ x ∈ injectVmCalls rules prune call fuel c, PlainMachine call x
  fields : ∀ p ∈ call.event, Origins.origin p.2 = some c.ae.size
  visits : ∀ visits c', injectEventWith rules prune call fuel c = some (visits, c') →
    ∀ v ∈ visits, VisitKeeps call (call.clock c) c.ae.size v.1 v.2

/-- A visit keeps the bindings with a machine that does the same in it. -/
theorem VisitKeeps.congr {vm : Vm V} {curTime : Nat} (h : VisitKeeps call curTime e t c)
    (hag : AgreesOn call vm (visitVmCalls rules call fuel curTime e t c)) :
    VisitKeeps (call.withVm vm) curTime e t c := by
  intro hk
  unfold visitVmCalls at hag
  simp only at hag
  rw [if_neg (by rw [hk]; exact Bool.false_ne_true)] at hag
  have heq := hag _ List.mem_cons_self
  obtain ⟨hpass, hfail⟩ := h hk
  constructor
  · rw [show (call.withVm vm).vm = vm from rfl, heq]
    exact hpass
  · rw [vmExec_withVm heq, show (call.withVm vm).vm = vm from rfl, heq]
    exact hfail

theorem injectEventWith_borrowed {visits : List (Nat × Ctx V)} (hb : borrowBase.between c)
    (hvm : BindsOwn call.vm) (hown : ∀ p ∈ call.event, Origins.origin p.2 = some c.ae.size)
    (h : Borrowed c) (heq : injectEventWith rules prune call fuel c = some (visits, c'))
    (hkeep : ∀ v ∈ visits, VisitKeeps call (call.clock c) c.ae.size v.1 v.2) : Borrowed c' := by
  have hfields := globalFields_injectEventWith heq
  obtain ⟨c₁, c₂, hc₁, hl, rfl⟩ := injectEventWith_some heq
  have hrules : EngineRules rules prune (fun _ => True) (fun _ _ _ _ => True) .trivial
    (borrowBase (V := V)) := borrowBase_rules
  have hb₀ := hrules.beginEvent call.event c trivial hb
  have hb₁ := hrules.startRules trivial (eachStart_true call fuel _ _) hb₀ hc₁
  have h₀ : Borrows c.ae.size (c.beginEvent call.event) :=
    beginEvent_borrows hb.1.1.1.1 hb.2 h hown
  have h₁ : Wf c₁.records none ∧ Borrows c.ae.size c₁ :=
    startRules_inv (I := fun d => Wf d.records none ∧ Borrows c.ae.size d)
      (fun _ _ _ hd hs => ⟨startRule_wf hd.1 hs, startRule_borrows hvm hd.1 hd.2 hs⟩)
      ⟨hb₀.1.1.1.1, h₀⟩ hc₁
  let I : Option Nat → Ctx V → Prop := fun p d => borrowBase.during c.ae.size p d ∧
    Borrows c.ae.size d ∧
      ∀ t, d.thr.live t = true → (d.thr.cell t).onlyOnce = true → t ∈ d.threadsFrom p
  have hI : I c₁.mergeQueues.curRetrigQh c₁.mergeQueues := by
    refine ⟨hrules.mergeQueues _ _ trivial hb₁, ?_, fun t hl _ =>
      mem_threadsFrom_mergeQueues hb₁.1.1.1 hl⟩
    exact h₁.2.of_views (stays_mergeQueues c₁) h₁.1 (records_mergeQueues c₁)
      (events_mergeQueues c₁) (accounts_mergeQueues c₁) (globalFields_mergeQueues c₁)
  obtain ⟨hb₂, h₂, hin⟩ : I none c₂ := by
    refine evtLoop_visits (P := VisitKeeps call (call.clock c) c.ae.size) ?_ hI hl hkeep
    rintro t d d' hk ⟨hb, hd, hin⟩ hs
    obtain ⟨hd', hno⟩ := evtStep_borrows hvm hb.1.1.1 hk hd hs
    refine ⟨hrules.evtStep call fuel _ _ _ _ _ trivial trivial hb hs, hd', fun t' hl ho => ?_⟩
    obtain ⟨hl₀, ho₀⟩ := hno.old t' hl ho
    refine mem_threadsFrom_evtStep hb.1.1.1 hs ?_ (hin t' hl₀ ho₀)
    rintro rfl
    rw [hno.gone hl] at ho
    cases ho
  have hnone : ∀ t, c₂.thr.live t = true → (c₂.thr.cell t).onlyOnce = false := by
    intro t hl
    cases ho : (c₂.thr.cell t).onlyOnce with
    | false => rfl
    | true =>
      have hm := hin t hl ho
      rw [threadsFrom_none] at hm
      exact (List.not_mem_nil hm).elim
  have hheld : ∀ r, c₂.records.ruleLive r = true → ∀ a, c₂.HoldsIn a r → c₂.Refers a r := by
    intro r hr a ha
    by_cases hae : a = c.ae.size
    · subst hae
      rcases h₂.settled r hr with href | hall | ⟨hno, -⟩
      · exact href
      · -- a rule instance whose threads are all initial ones has none
        have hlt := hb₂.1.1.1.1.rule_lt r hr
        obtain ⟨t, hl, hrt⟩ := exists_thread hb₂.1.1.2 hb₂.1.2 hr hlt
        exact absurd (hall t hl hrt) (by simp [hnone t hl])
      · exact absurd ha hno
    · exact h₂.past r hr a hae ha
  have hend : ∀ r, Untouched r c₂ (c₂.endEvent call.event c.ae.size) := fun r => by
    refine .of_stays r (stays_endEvent call.event c.ae.size c₂) hb₂.1.1.1.1 h₂.sound.threads ?_ ?_
    · intro a s _ ha
      rwa [si_endEvent]
    · intro t hl
      rwa [thr_endEvent] at hl
  have hrec : (c₂.endEvent call.event c.ae.size).records = c₂.records := records_endEvent _ _ _
  refine ⟨h₂.sound.of_eq hrec (accounts_endEvent _ _ _), fun x => ?_, fun r hr a ha => ?_,
    fun t hl => ?_⟩
  · rw [hfields, h.fields]
    split <;> rfl
  · rw [hrec] at hr
    exact (hend r).refers a (hheld r hr a ((hend r).holds a ha))
  · rw [thr_endEvent] at hl ⊢
    exact hnone t hl

/-- The values of fields that the environments of live state instances have belong to events of the
list of active events, which are not freed. -/
def EventsKept (c : Ctx V) : Prop :=
  ∃ l, IsDList (fun a => (c.ae.cell a).next) (fun a => (c.ae.cell a).prev) c.activeEventHead
      c.activeEventTail l ∧
    ∀ s, c.si.live s = true → ∀ a, c.Holds a s → a ∈ l ∧ c.ae.live a = true

/-- In a run whose calls keep the bindings, no environment has a value of a freed event. -/
theorem borrowed_of_callKeeps (hr : Run rules prune (CallKeeps rules prune) c) : EventsKept c := by
  have hboth : borrowBase.between c ∧ Borrowed c := by
    induction hr with
    | init =>
      have hrules : EngineRules rules prune (fun _ => True) (fun _ _ _ _ => True) .trivial
        (borrowBase (V := V)) := borrowBase_rules
      exact ⟨hrules.init, ⟨Heap.WF.empty _, nofun, nofun⟩, fun _ => rfl, nofun, nofun⟩
    | @inject c c' visits call fuel _ hok heq ih =>
      have hb := (borrowBase_rules.inject trivial (callOk_true call fuel _) ih.1 heq).1
      -- the same call, with a machine that is plain in all executions
      have hag : AgreesOn call (call.vm.restrict (PlainMachine call)) _ :=
        agreesOn_restrict hok.machine
      have hvm : BindsOwn (call.withVm (call.vm.restrict (PlainMachine call))).vm :=
        bindsOwn_restrict call
      refine ⟨hb, injectEventWith_borrowed ih.1 hvm hok.fields ih.2 (injectEventWith_agrees heq hag)
        fun v hv => ?_⟩
      unfold injectVmCalls at hag
      rw [heq] at hag
      exact (hok.visits visits c' heq v hv).congr fun x hx =>
        hag.append.2 x (List.mem_flatMap.mpr ⟨v, hv, hx⟩)
  obtain ⟨⟨⟨⟨⟨hw, -⟩, -⟩, -⟩, ⟨l, hl⟩, -⟩, h⟩ := hboth
  refine ⟨l, hl.list, fun s hs a ha => ?_⟩
  have hslt := hw.state_lt s hs
  have hrl := h.sound.owners.state s hslt hs
  obtain ⟨s', hs', hr', he⟩ := h.held _ hrl a ⟨s, hslt, rfl, ha⟩
  have hrl' : c.records.ruleLive (c.records.ruleInstance s') = true := by
    rwa [show c.records.ruleInstance s' = c.records.ruleInstance s from hr']
  have hlive := hl.target s' hs' (hw.stateLive s' hs' hrl') a he
  exact ⟨((hl.live a).mp hlive).resolve_right nofun, hlive⟩

omit [SyncValue V] in
/-- A visit at which the transition passes, or that is to an initial thread. -/
theorem visitKeeps_of {curTime : Nat}
    (hl : (c.beginVisit curTime t).ri.live ((c.beginVisit curTime t).ruleInstOf t) = true)
    (ho : Passes call curTime t c ∨ ((c.beginVisit curTime t).thr.cell t).onlyOnce = true) :
    VisitKeeps call curTime e t c := fun _ => by
  refine ⟨fun _ => hl, fun hret hfalse _ => ?_⟩
  rcases ho with hp | ho
  · exact absurd hp.2 hret
  · rw [ho] at hfalse
    cases hfalse

end

end

end

/-! ## A condition that assigns a field -/

instance : SyncValue (Tagged Val) where
  hash l := SyncValue.hash (l.map fun p => (p.1, p.2.map Tagged.val))
  cmp v w := SyncValue.cmp (v.map Tagged.val) (w.map Tagged.val)

/-- The first condition is `.f == 1`, and the second one `$x = .f`. -/
def bindsField : RuleSet :=
  [{ states := [
      { action := none, trans := [⟨1, some [5, 0, 4, 0, 22, 0], 1⟩], havePushfield := false },
      { action := none, trans := [⟨1, some [5, 0, 3, 0, 2, 0, 0], 2⟩], havePushfield := false },
      { action := none, trans := [], havePushfield := false }]
     syncVars := [], syncLock := false }]

/-- The event `e` with the value `n` of its field. -/
def fieldEvent (e : Nat) (n : BitVec 64) : Call (Tagged Val) where
  event := [(0, ⟨.int n, some e⟩)]
  vm := ovmExec (ruleFrame fun _ => (valStaticEnv []).tagged) 16
  clock _ := 0

theorem plainMachine_fieldEvent (e : Nat) (n : BitVec 64) (x : VmCall (Tagged Val)) :
    PlainMachine (fieldEvent e n) x :=
  ⟨ruleFrame (fun _ => (valStaticEnv []).tagged) x.ctx x.stateInstance x.code, [], _, rfl, rfl, rfl,
    ⟨fun _ _ h => StaticEnv.origin_tagged _ h, nofun⟩, nofun, Frame.exec_traces _ _ _, rfl⟩

/-- Both conditions hold at the two events: the last list of active events has both. -/
theorem borrowed_of_callKeeps_bindsField :
    ∃ c : Ctx (Tagged Val), Run bindsField (backtrackIsNotNeeded bindsField)
        (CallKeeps bindsField (backtrackIsNotNeeded bindsField)) c ∧
      c.Holds 1 1 ∧ c.si.live 1 = true ∧ EventsKept c := by
  let prune := backtrackIsNotNeeded (V := Tagged Val) bindsField
  let good := fun (call : Call (Tagged Val)) (p : List (Nat × Ctx (Tagged Val)) × Ctx (Tagged Val)) =>
    p.1.all fun v => decide
      ((v.2.beginVisit 0 v.1).ri.live ((v.2.beginVisit 0 v.1).ruleInstOf v.1) = true ∧
        (Passes call 0 v.1 v.2 ∨ ((v.2.beginVisit 0 v.1).thr.cell v.1).onlyOnce = true))
  have hkeeps : ∀ (e : Nat) (n : BitVec 64) (c : Ctx (Tagged Val))
      (p : List (Nat × Ctx (Tagged Val)) × Ctx (Tagged Val)), c.ae.size = e →
      injectEventWith bindsField prune (fieldEvent e n) 3 c = some p → good (fieldEvent e n) p = true →
      CallKeeps bindsField prune (fieldEvent e n) 3 c := by
    rintro e n c ⟨visits, d⟩ rfl heq hgood
    refine ⟨fun x _ => plainMachine_fieldEvent _ n x, fun p hp => ?_, fun visits' d' heq' v hv => ?_⟩
    · obtain rfl := List.mem_singleton.mp hp
      rfl
    · obtain ⟨rfl, rfl⟩ := Prod.mk.inj (Option.some.inj (heq.symm.trans heq'))
      obtain ⟨hl, ho⟩ := of_decide_eq_true (List.all_eq_true.mp hgood v hv)
      exact visitKeeps_of hl ho
  have hrun : ((injectEventWith bindsField prune (fieldEvent 0 1) 3 (Ctx.init _)).any fun p =>
      good (fieldEvent 0 1) p && decide (p.2.ae.size = 1) &&
        (injectEventWith bindsField prune (fieldEvent 1 5) 3 p.2).any fun q =>
          good (fieldEvent 1 5) q && q.2.si.live 1 &&
            decide ((q.2.si.cell 1).currentEnv 0 = some ⟨.int 5, some 1⟩)) = true := by
    decide +kernel
  obtain ⟨p, hp, hgood⟩ := (Option.any_eq_true _ _).mp hrun
  simp only [Bool.and_eq_true, decide_eq_true_eq] at hgood
  obtain ⟨⟨hgood₀, hsize⟩, hrun₁⟩ := hgood
  obtain ⟨q, hq, hgood⟩ := (Option.any_eq_true _ _).mp hrun₁
  simp only [Bool.and_eq_true, decide_eq_true_eq] at hgood
  obtain ⟨⟨hgood₁, hlive⟩, henv⟩ := hgood
  have hr₀ : Run bindsField prune (CallKeeps bindsField prune) p.2 :=
    .inject _ 3 .init (hkeeps 0 1 _ p rfl hp hgood₀) hp
  have hr : Run bindsField prune (CallKeeps bindsField prune) q.2 :=
    .inject _ 3 hr₀ (hkeeps 1 5 _ q hsize hq hgood₁) hq
  exact ⟨q.2, hr, ⟨0, _, .inl henv, rfl⟩, hlive, borrowed_of_callKeeps hr⟩

/-- The second condition binds the field of the second event, and its value 0 is not true: the event
is freed, and its value stays in the environment of the waiting state instance. -/
theorem not_eventsKept :
    ∃ c : Ctx (Tagged Val), Run bindsField (backtrackIsNotNeeded bindsField)
        (fun call _ c => (∀ x, PlainMachine call x) ∧
          ∀ p ∈ call.event, Origins.origin p.2 = some c.ae.size) c ∧
      ¬ EventsKept c := by
  let prune := backtrackIsNotNeeded (V := Tagged Val) bindsField
  have hrun : ((injectEventWith bindsField prune (fieldEvent 0 1) 3 (Ctx.init _)).any fun p =>
      decide (p.2.ae.size = 1) &&
        (injectEventWith bindsField prune (fieldEvent 1 0) 3 p.2).any fun q =>
          q.2.si.live 1 && !q.2.ae.live 1 &&
            decide ((q.2.si.cell 1).currentEnv 0 = some ⟨.int 0, some 1⟩)) = true := by
    decide +kernel
  obtain ⟨p, hp, h⟩ := (Option.any_eq_true _ _).mp hrun
  simp only [Bool.and_eq_true, decide_eq_true_eq] at h
  obtain ⟨hsize, hrun₁⟩ := h
  obtain ⟨q, hq, h⟩ := (Option.any_eq_true _ _).mp hrun₁
  simp only [Bool.and_eq_true, decide_eq_true_eq, Bool.not_eq_true'] at h
  obtain ⟨⟨hlive, hfreed⟩, henv⟩ := h
  have hown : ∀ (e : Nat) (n : BitVec 64) (c : Ctx (Tagged Val)), c.ae.size = e →
      (∀ x, PlainMachine (fieldEvent e n) x) ∧
        ∀ p ∈ (fieldEvent e n).event, Origins.origin p.2 = some c.ae.size := by
    rintro e n c rfl
    refine ⟨plainMachine_fieldEvent _ n, fun p hp => ?_⟩
    obtain rfl := List.mem_singleton.mp hp
    rfl
  refine ⟨q.2, .inject _ 3 (.inject _ 3 .init (hown 0 1 _ rfl) hp) (hown 1 0 _ hsize) hq, ?_⟩
  rintro ⟨l, -, hkept⟩
  have hl := (hkept 1 hlive 1 ⟨0, _, .inl henv, rfl⟩).2
  rw [hfreed] at hl
  cases hl

end Orchids

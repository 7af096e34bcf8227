import Orchids.Engine.Events
import Orchids.Engine.Fields
import Orchids.Engine.Scoping
import Orchids.Ovm.Origins

/-!
# What the steps do to the values of a rule instance

A value of a field comes into an environment by `OP_POP`, and into others by `create_state_instance`.

* `Untouched`: a rule instance gets no values and no threads, and drops no references to events.
* `Touches`: what a step for one rule instance can do, to it and to the others.
* `simulate_touches`: a simulation binds values of the current event only.
-/

namespace Orchids

variable {V : Type}

/-! ## Values and references of a rule instance -/

section

variable [Issdl V] [Origins V]

/-- The state instance `s` has a value of the event `a` in one of its environments. -/
def Ctx.Holds (a s : Nat) (c : Ctx V) : Prop :=
  ∃ x v, ((c.si.cell s).currentEnv x = some v ∨ (c.si.cell s).inheritEnv x = some v) ∧
    Origins.origin v = some a

/-- A state instance of the rule instance `b` has a value of the event `a`. -/
def Ctx.HoldsIn (a b : Nat) (c : Ctx V) : Prop :=
  ∃ s, s < c.si.size ∧ (c.si.cell s).ruleInstance = b ∧ c.Holds a s

omit [Issdl V] [Origins V] in
/-- A state instance of the rule instance `b` refers to the event `a`. -/
def Ctx.Refers (a b : Nat) (c : Ctx V) : Prop :=
  ∃ s, s < c.si.size ∧ (c.si.cell s).ruleInstance = b ∧ (c.si.cell s).event = some a

/-- The rule instance `b` gets no values and no threads, and drops no references. -/
structure Untouched (b : Nat) (c c' : Ctx V) : Prop where
  refers : ∀ a, c.Refers a b → c'.Refers a b
  holds : ∀ a, c'.HoldsIn a b → c.HoldsIn a b
  thread : ∀ t, c'.thr.live t = true → c'.ruleInstOf t = b →
    c.thr.live t = true ∧ c.ruleInstOf t = b ∧ (c'.thr.cell t).onlyOnce = (c.thr.cell t).onlyOnce

/-- Only the rule instance `r` gets values, of the event `e`, and threads, with the flag
`onlyOnce`. -/
structure Touches (e r : Nat) (onlyOnce : Bool) (c c' : Ctx V) : Prop where
  others : ∀ b, b ≠ r → Untouched b c c'
  refers : ∀ a, c.Refers a r → c'.Refers a r
  holds : ∀ a, c'.HoldsIn a r → c.HoldsIn a r ∨ a = e
  thread : ∀ t, c'.thr.live t = true → c'.ruleInstOf t = r →
    (c'.thr.cell t).onlyOnce = onlyOnce ∨
      c.thr.live t = true ∧ c.ruleInstOf t = r ∧ (c'.thr.cell t).onlyOnce = (c.thr.cell t).onlyOnce

section

variable {a b e r s t : Nat} {onlyOnce : Bool} {cr : Option Nat} {c c' d : Ctx V}

/-- The environments stay. -/
theorem holdsIn_of_eq (hg : Grows c c') (hn : c'.si.size = c.si.size)
    (hcur : ∀ s, (c'.si.cell s).currentEnv = (c.si.cell s).currentEnv)
    (hinh : ∀ s, (c'.si.cell s).inheritEnv = (c.si.cell s).inheritEnv) (h : c'.HoldsIn a b) :
    c.HoldsIn a b := by
  obtain ⟨s, hs, hr, x, v, hv, ha⟩ := h
  rw [hn] at hs
  rw [hcur, hinh] at hv
  exact ⟨s, hs, (hg.ruleInstance hs).symm.trans hr, x, v, hv, ha⟩

omit [Issdl V] [Origins V] in
theorem refers_of_eq (hg : Grows c c')
    (he : ∀ s, s < c.si.size → (c.si.cell s).event = some a → (c'.si.cell s).event = some a)
    (h : c.Refers a b) : c'.Refers a b := by
  obtain ⟨s, hs, hr, ha⟩ := h
  exact ⟨s, lt_of_lt_of_le hs hg.si.size_le, (hg.ruleInstance hs).trans hr, he s hs ha⟩

namespace Untouched

theorem refl (b : Nat) (c : Ctx V) : Untouched b c c :=
  ⟨fun _ => id, fun _ => id, fun _ hl hr => ⟨hl, hr, rfl⟩⟩

theorem trans (h : Untouched b c d) (h' : Untouched b d c') : Untouched b c c' where
  refers a hc := h'.refers a (h.refers a hc)
  holds a hc := h.holds a (h'.holds a hc)
  thread t hl hr := by
    obtain ⟨hl₁, hr₁, ho₁⟩ := h'.thread t hl hr
    obtain ⟨hl₀, hr₀, ho₀⟩ := h.thread t hl₁ hr₁
    exact ⟨hl₀, hr₀, ho₁.trans ho₀⟩

/-- The state instances keep their events, and no value and no thread is new. -/
theorem of_grows (b : Nat) (hg : Grows c c') (hw : Wf c.records cr) (hlt : c.thr.WF)
    (he : ∀ a s, s < c.si.size → (c.si.cell s).event = some a → (c'.si.cell s).event = some a)
    (hh : ∀ a, c'.HoldsIn a b → c.HoldsIn a b)
    (hl : ∀ t, c'.thr.live t = true → c.thr.live t = true) : Untouched b c c' where
  refers a := refers_of_eq hg (he a)
  holds := hh
  thread t hlt' hr := by
    have ht := hlt t (hl t hlt')
    exact ⟨hl t hlt', (hg.ruleInstOf hw ht).symm.trans hr, hg.onlyOnce ht⟩

theorem of_stays (b : Nat) (h : Stays c c') (hw : Wf c.records cr) (hlt : c.thr.WF)
    (he : ∀ a s, s < c.si.size → (c.si.cell s).event = some a → (c'.si.cell s).event = some a)
    (hl : ∀ t, c'.thr.live t = true → c.thr.live t = true) : Untouched b c c' :=
  .of_grows b h.grows hw hlt he (fun _ => holdsIn_of_eq h.grows h.states h.current h.inherit) hl

end Untouched

namespace Touches

theorem refl (e r : Nat) (onlyOnce : Bool) (c : Ctx V) : Touches e r onlyOnce c c :=
  ⟨fun b _ => .refl b c, fun _ => id, fun _ => .inl, fun _ hl hr => .inr ⟨hl, hr, rfl⟩⟩

theorem trans (h : Touches e r onlyOnce c d) (h' : Touches e r onlyOnce d c') :
    Touches e r onlyOnce c c' where
  others b hb := (h.others b hb).trans (h'.others b hb)
  refers a hc := h'.refers a (h.refers a hc)
  holds a hc := (h'.holds a hc).elim (h.holds a) .inr
  thread t hl hr := by
    rcases h'.thread t hl hr with ho | ⟨hl₁, hr₁, ho₁⟩
    · exact .inl ho
    · rcases h.thread t hl₁ hr₁ with ho | ⟨hl₀, hr₀, ho₀⟩
      · exact .inl (ho₁.trans ho)
      · exact .inr ⟨hl₀, hr₀, ho₁.trans ho₀⟩

theorem of_untouched (h : ∀ b, Untouched b c c') : Touches e r onlyOnce c c' where
  others b _ := h b
  refers := (h r).refers
  holds a ha := .inl ((h r).holds a ha)
  thread t hl hr := .inr ((h r).thread t hl hr)

/-- The state instances keep their events, and what is new is of `r`. -/
theorem of_grows (hg : Grows c c') (hw : Wf c.records cr) (hlt : c.thr.WF)
    (he : ∀ a s, s < c.si.size → (c.si.cell s).event = some a → (c'.si.cell s).event = some a)
    (hh : ∀ a b, c'.HoldsIn a b → c.HoldsIn a b ∨ (a = e ∧ b = r))
    (hl : ∀ t, c'.thr.live t = true →
      c.thr.live t = true ∨ (c'.ruleInstOf t = r ∧ (c'.thr.cell t).onlyOnce = onlyOnce)) :
    Touches e r onlyOnce c c' := by
  have hold : ∀ t b, c.thr.live t = true → c'.ruleInstOf t = b →
      c.thr.live t = true ∧ c.ruleInstOf t = b ∧
        (c'.thr.cell t).onlyOnce = (c.thr.cell t).onlyOnce := fun t b hl hr =>
    ⟨hl, (hg.ruleInstOf hw (hlt t hl)).symm.trans hr, hg.onlyOnce (hlt t hl)⟩
  refine ⟨fun b hb => ⟨fun a => refers_of_eq hg (he a), fun a ha => ?_, fun t htl hr => ?_⟩,
    fun a => refers_of_eq hg (he a), fun a ha => (hh a r ha).imp_right And.left, fun t htl hr => ?_⟩
  · exact (hh a b ha).resolve_right fun h => hb h.2
  · rcases hl t htl with h | ⟨hr', -⟩
    · exact hold t b h hr
    · exact absurd (hr.symm.trans hr') hb
  · rcases hl t htl with h | ⟨-, ho⟩
    · exact .inr (hold t r h hr)
    · exact .inl ho

/-- No thread is a new initial one. -/
theorem initial (h : Touches e r false c c') (hl : c'.thr.live t = true)
    (ho : (c'.thr.cell t).onlyOnce = true) :
    c.thr.live t = true ∧ (c.thr.cell t).onlyOnce = true := by
  by_cases hr : c'.ruleInstOf t = r
  · rcases h.thread t hl hr with hf | ⟨hl₀, -, ho₀⟩
    · rw [hf] at ho
      cases ho
    · exact ⟨hl₀, ho₀ ▸ ho⟩
  · obtain ⟨hl₀, -, ho₀⟩ := (h.others _ hr).thread t hl rfl
    exact ⟨hl₀, ho₀ ▸ ho⟩

end Touches

/-! ## The steps of a simulation -/

/-- The values of the fields belong to the event `e`. -/
def FieldsOf (e : Nat) (c : Ctx V) : Prop :=
  ∀ x v a, c.globalFields x = some v → Origins.origin v = some a → a = e

/-- What the byte code does is what a run of the machine does in the environments of the state
instance. The frame has no values of events but the fields, and no value of an event is left on the
operand stack. -/
def PlainMachine (call : Call V) (x : VmCall V) : Prop :=
  ∃ (F : Frame V) (stack : List (Option V)) (m : Machine V),
    F.bytecode = x.code ∧ F.inheritEnv = (x.ctx.si.cell x.stateInstance).inheritEnv ∧
      F.fields = x.ctx.globalFields ∧ F.Plain ∧
      (∀ v, some v ∈ stack → Origins.origin v = none) ∧
      F.Traces ⟨0, stack, (x.ctx.si.cell x.stateInstance).currentEnv⟩ (call.result x).accesses m ∧
      (call.result x).env = m.currentEnv

/-- Every execution binds values of the current event, and values that the state instance has. -/
def BindsOwn (vm : Vm V) : Prop :=
  ∀ (c : Ctx V) (s : Nat) (code : List Nat) (e : Nat), FieldsOf e c → ∀ x v a,
    (vm c s code).env x = some v → Origins.origin v = some a → a = e ∨ c.Holds a s

theorem bindsOwn_restrict (call : Call V) : BindsOwn (call.vm.restrict (PlainMachine call)) := by
  intro c s code e hf x v a hv ha
  rcases call.vm.restrict_cases (PlainMachine call) c s code with ⟨h, heq⟩ | heq
  · obtain ⟨F, stack, m, -, hinh, hfields, hplain, hstack, htr, henv⟩ := h
    rw [heq, show (call.vm c s code).env = m.currentEnv from henv] at hv
    have hclosed : F.Closed fun v => ∀ a, Origins.origin v = some a → a = e ∨ c.Holds a s := by
      refine hplain.closed (fun n v a hv ha => .inr ?_) fun n v a hv ha => .inl ?_
      · exact ⟨n, v, .inr (hinh ▸ hv), ha⟩
      · exact hf n v a (hfields ▸ hv) ha
    have hall := hclosed.traces ⟨fun v hv a ha => ?_, fun n v hv a ha => .inr ⟨n, v, .inl hv, ha⟩⟩ htr
    · exact hall.env x v hv a ha
    · rw [hstack v hv] at ha
      cases ha
  · rw [heq] at hv
    exact .inr ⟨x, v, .inl hv, ha⟩

theorem touches_vmExec {vm : Vm V} (h : BindsOwn vm) (hf : FieldsOf e c) (ho : Of c r s)
    (hw : Wf c.records cr) (hlt : c.thr.WF) (code : List Nat) :
    Touches e r onlyOnce c (c.vmExec vm s code) := by
  have hg := grows_vmExec vm s code c
  have hn : (c.vmExec vm s code).si.size = c.si.size := si_size_vmExec vm s code c
  have he : ∀ s', ((c.vmExec vm s code).si.cell s').event = (c.si.cell s').event :=
    congrFun (congrArg EventView.eventOf (events_vmExec vm s code c))
  refine .of_grows hg hw hlt (fun a s' _ => (he s').trans) ?_ fun t hl => .inl ?_
  · rintro a b ⟨s', hs', hr, x, v, hv, ha⟩
    rw [hn] at hs'
    rw [hg.ruleInstance hs'] at hr
    rw [show ((c.vmExec vm s code).si.cell s').inheritEnv = (c.si.cell s').inheritEnv from
      c.si.proj_modify s s' _ StateInst.inheritEnv rfl] at hv
    by_cases hss : s' = s
    · subst hss
      rw [show ((c.vmExec vm s' code).si.cell s').currentEnv = (vm c s' code).env by
        simp [Ctx.vmExec]] at hv
      rcases hv with hv | hv
      · rcases h c s' code e hf x v a hv ha with rfl | hold
        · exact .inr ⟨rfl, hr.symm.trans ho.ruleInstance⟩
        · exact .inl ⟨s', hs', hr, hold⟩
      · exact .inl ⟨s', hs', hr, x, v, .inr hv, ha⟩
    · rw [show (c.vmExec vm s code).si.cell s' = c.si.cell s' from
        c.si.cell_modify_of_ne _ hss] at hv
      exact .inl ⟨s', hs', hr, x, v, hv, ha⟩
  · exact (congrFun (c.thr.live_map _) t).symm.trans hl

theorem untouched_newState (b : Nat) (ho : Of c r s) (hw : Wf c.records cr) (hlt : c.thr.WF)
    (dest : Nat) : Untouched b c (c.newState dest s) := by
  have hold : ∀ s', s' < c.si.size → (c.newState dest s).si.cell s' = c.si.cell s' :=
    fun s' hs' => c.si.cell_alloc_of_lt _ hs'
  have hsz : (c.newState dest s).si.size = c.si.size + 1 := by simp [Ctx.newState]
  refine .of_grows b (grows_newState dest s c) hw hlt (fun a s' hs' ha => ?_) ?_ fun t => id
  · rw [hold s' hs']
    exact ha
  · rintro a ⟨s', hs', hr, x, v, hv, ha⟩
    by_cases hss : s' = c.si.size
    · -- the new state instance has copies of what its parent has
      subst hss
      have hcell : (c.newState dest s).si.cell c.si.size = _ := c.si.cell_alloc_self _
      rw [hcell] at hr hv
      refine ⟨s, ho.lt, hr, x, v, ?_, ha⟩
      simp only [reduceCtorEq, false_or] at hv
      cases hc : (c.si.cell s).currentEnv x with
      | some w =>
        rw [hc] at hv
        exact .inl hv
      | none =>
        rw [hc] at hv
        exact .inr hv
    · have hs : s' < c.si.size := by omega
      rw [hold s' hs] at hr hv
      exact ⟨s', hs, hr, x, v, hv, ha⟩

omit [Issdl V] [Origins V] in
theorem live_newThread (clock : Ctx V → Nat) (s : Nat) (onlyOnce : Bool) (tr : Trans) (c : Ctx V) :
    (c.newThread clock s onlyOnce tr).thr.live = Function.update c.thr.live c.thr.size true :=
  congrArg AccountView.live (accounts_newThread clock s onlyOnce tr c)

theorem touches_newThread (e : Nat) (ho : Of c r s) (hw : Wf c.records cr) (hlt : c.thr.WF)
    (clock : Ctx V → Nat) (tr : Trans) :
    Touches e r onlyOnce c (c.newThread clock s onlyOnce tr) := by
  have hg := grows_newThread clock s onlyOnce tr c
  obtain ⟨hcur, hinh, -⟩ := newThread_rest clock s onlyOnce tr c
  have hn := si_size_newThread clock s onlyOnce tr c
  have he : ∀ s', ((c.newThread clock s onlyOnce tr).si.cell s').event = (c.si.cell s').event :=
    congrFun (congrArg EventView.eventOf (events_newThread clock s onlyOnce tr c))
  refine .of_grows hg hw hlt (fun a s' _ => (he s').trans)
    (fun a b ha => .inl (holdsIn_of_eq hg hn hcur hinh ha)) fun t hl => ?_
  by_cases ht : t = c.thr.size
  · subst ht
    have hfix := fixed_newThread clock s onlyOnce tr c
    have hs : ((c.newThread clock s onlyOnce tr).thr.cell c.thr.size).stateInstance = s :=
      congrArg (fun x => x.2.1) hfix
    refine .inr ⟨?_, congrArg (fun x => x.2.2.1) hfix⟩
    unfold Ctx.ruleInstOf
    rw [hs, hg.ruleInstance ho.lt]
    exact ho.ruleInstance
  · rw [live_newThread, Function.update_of_ne ht] at hl
    exact .inl hl

theorem untouched_bindEvent (b e : Nat) (hw : Wf c.records cr) (hlt : c.thr.WF)
    (hnone : (c.si.cell s).event = none) : Untouched b c (c.bindEvent e s) := by
  refine .of_stays b (stays_bindEvent e s c) hw hlt (fun a s' _ ha => ?_) fun t => id
  have hss : s' ≠ s := by
    rintro rfl
    rw [hnone] at ha
    cases ha
  exact (congrArg StateInst.event (c.si.cell_modify_of_ne _ hss)).trans ha

omit [Issdl V] [Origins V] in
/-- A passing transition makes its rule instance refer to the event. -/
theorem refers_passState (hw : Wf c.records cr) (ht : t < c.thr.size) (e : Nat) :
    (c.passState e t).Refers e (c.ruleInstOf t) := by
  have ho := hw.passState_of ht e
  have hev := congrArg EventView.eventOf (events_passState e t c)
  exact ⟨c.si.size, ho.lt, ho.ruleInstance, (congrFun hev c.si.size).trans (Function.update_self ..)⟩

theorem untouched_passState (b : Nat) (hw : Wf c.records none) (hlt : c.thr.WF)
    (ht : t < c.thr.size) (e : Nat) : Untouched b c (c.passState e t) := by
  have hcount := stays_countPass t c
  have hlive : (c.countPass t).thr.live = c.thr.live :=
    congrArg AccountView.live (accounts_countPass t c)
  have hlt₁ : (c.countPass t).thr.WF := by
    unfold Heap.WF
    rw [hlive, hcount.threads]
    exact hlt
  have hw₁ : Wf (c.countPass t).records none := by rwa [records_countPass]
  have ho₁ := (hw.thread_of ht).grows hcount.grows
  have hnew := untouched_newState b ho₁ hw₁ hlt₁ (c.thr.cell t).trans.dest
  have hw₂ : Wf ((c.countPass t).newState (c.thr.cell t).trans.dest
      (c.thr.cell t).stateInstance).records none := by
    rw [records_newState, ho₁.ruleInstance]
    exact hw₁.addState ho₁.rule_lt
  have hsz : c.si.size = (c.countPass t).si.size := by rw [si_countPass]
  refine (Untouched.of_stays b hcount hw hlt (fun a s _ => ?_) fun t => ?_).trans
    (hnew.trans (untouched_bindEvent b e hw₂ hlt₁ ?_))
  · rw [si_countPass]
    exact id
  · rw [hlive]
    exact id
  · rw [hsz]
    exact congrArg StateInst.event ((c.countPass t).si.cell_alloc_self _)

theorem untouched_newRuleInst (hw : Wf c.records none) (hlt : c.thr.WF) (k : Nat)
    (hb : b ≠ c.ri.size) : Untouched b c (c.newRuleInst k) := by
  have hold : ∀ s, s < c.si.size → (c.newRuleInst k).si.cell s = c.si.cell s :=
    fun s hs => c.si.cell_alloc_of_lt _ hs
  have hsz : (c.newRuleInst k).si.size = c.si.size + 1 := by simp [Ctx.newRuleInst]
  refine .of_grows b (grows_newRuleInst k c) hw hlt (fun a s hs ha => ?_) ?_ fun t => id
  · rw [hold s hs]
    exact ha
  · rintro a ⟨s, hs, hr, hold'⟩
    by_cases hss : s = c.si.size
    · subst hss
      exact absurd (hr.symm.trans (congrArg StateInst.ruleInstance (c.si.cell_alloc_self _))) hb
    · have hlt : s < c.si.size := by omega
      unfold Ctx.Holds at hold'
      rw [hold s hlt] at hr hold'
      exact ⟨s, hlt, hr, hold'⟩

/-- A new rule instance has no values. -/
theorem not_holdsIn_newRuleInst (hw : Wf c.records none) (k a : Nat) :
    ¬ (c.newRuleInst k).HoldsIn a c.ri.size := by
  rintro ⟨s, hs, hr, x, v, hv, -⟩
  have hsz : (c.newRuleInst k).si.size = c.si.size + 1 := by simp [Ctx.newRuleInst]
  by_cases hss : s = c.si.size
  · subst hss
    rw [show (c.newRuleInst k).si.cell c.si.size = _ from c.si.cell_alloc_self _] at hv
    rcases hv with hv | hv <;> cases hv
  · have hlt : s < c.si.size := by omega
    rw [show (c.newRuleInst k).si.cell s = c.si.cell s from c.si.cell_alloc_of_lt _ hlt] at hr
    exact (hw.ruleInstance_lt s hlt).ne hr

section

variable [SyncValue V] {rules : RuleSet}

/-- The end of a rule instance after changes that leave the state instances and the threads alone. -/
theorem untouched_freeRuleInstance (b r : Nat) (hg : Grows c (d.freeRuleInstance rules r))
    (hw : Wf c.records cr) (hlt : c.thr.WF) (hsi : d.si = c.si) (hthr : d.thr = c.thr) :
    Untouched b c (d.freeRuleInstance rules r) := by
  obtain ⟨ae, hd, tl, n, l, heq⟩ := freeRuleInstance_eq rules r d
  rw [heq, hsi, hthr] at hg
  rw [heq, hsi, hthr]
  have hcell := Heap.cell_foldl_free c.si ((d.ri.cell r).firstState :: (d.ri.cell r).stateList)
  refine .of_grows b hg hw hlt (fun a s _ => ?_) (fun a => ?_) fun t => id
  · simp only [hcell]
    exact id
  · exact holdsIn_of_eq hg (Heap.size_foldl_free ..) (fun s => by simp only [hcell])
      fun s => by simp only [hcell]

theorem untouched_dropThread (b : Nat) (hw : Wf c.records none) (hlt : c.thr.WF) :
    Untouched b c (c.dropThread rules t) := by
  have hg := grows_dropThread rules t c
  have hdown := stays_countDown (c.ruleInstOf t) c
  rcases dropThread_cases rules t c with ⟨_, heq⟩ | ⟨_, _, heq⟩ | ⟨_, _, heq⟩
  · rw [heq]
    refine .of_stays b (hdown.trans (stays_unlinkThread t _)) hw hlt (fun a s _ => ?_) fun t => id
    exact (c.si.proj_modify _ s _ StateInst.event rfl).trans
  · rw [heq]
    exact .of_stays b (hdown.trans (stays_killRuleInst _ _)) hw hlt (fun a s _ => id) fun t => id
  · rw [heq] at hg ⊢
    exact untouched_freeRuleInstance b _ hg hw hlt rfl rfl

theorem untouched_reapThread (b : Nat) (hw : Wf c.records none) (hlt : c.thr.WF)
    (ht : t < c.thr.size) (p : Option Nat) : Untouched b c (c.reapThread rules t p) := by
  have hdrop : Untouched b c (c.dropThread rules t) := untouched_dropThread b hw hlt
  have hthr : (c.dropThread rules t).thr = c.thr := (dropThread_thr rules t c).1
  have hw₁ : Wf (c.dropThread rules t).records none := by
    have hreap : Wf (c.reapThread rules t p).records none := reapThread_wf hw ht p
    unfold Ctx.reapThread at hreap
    rwa [records_freeThread] at hreap
  refine hdrop.trans (.of_stays b (stays_freeThread t p _) hw₁ (hthr ▸ hlt) (fun a s _ => id) ?_)
  intro t' hl
  have hdown : (c.reapThread rules t p).thr.live = Function.update c.thr.live t false :=
    congrArg AccountView.live (accounts_reapThread rules t p c)
  rw [hthr]
  by_cases htt : t' = t
  · rw [htt] at hl
    have hdead := (congrFun hdown t).symm.trans hl
    simp at hdead
  · exact (Function.update_of_ne htt ..).symm.trans ((congrFun hdown t').symm.trans hl)

/-- The threads are below the number of threads, and a state instance that is not freed belongs to
such a rule instance. -/
structure Sound (c : Ctx V) : Prop where
  threads : c.thr.WF
  owners : Alive c.records fun _ => false

/-- What a simulation for a live rule instance does. -/
structure Simulated (e r : Nat) (onlyOnce : Bool) (c c' : Ctx V) : Prop where
  touches : Touches e r onlyOnce c c'
  sound : Sound c'
  ruleLive : c'.records.ruleLive = c.records.ruleLive

theorem simulate_touches {call : Call V} {fuel : Nat} (hvm : BindsOwn call.vm)
    (hf : FieldsOf e c) (ho : Of c r s) (hw : Wf c.records cr) (hc : Sound c)
    (hr : c.records.ruleLive r = true) {ret : Int}
    (heq : simulate rules call fuel s onlyOnce c = some (ret, c')) :
    Simulated e r onlyOnce c c' := by
  let I : Ctx V → Prop := fun d =>
    Wf d.records cr ∧ FieldsOf e d ∧ Simulated e r onlyOnce c d
  have hinv : SimRules rules call r onlyOnce (fun _ => I) I I := by
    refine .of_inv ?_ ?_ ?_ ?_ ?_
    · rintro d s code ho ⟨hw, hf, h⟩
      refine ⟨by rwa [records_vmExec], hf, ?_, ⟨h.sound.threads.map _, ?_⟩, h.ruleLive⟩
      · exact h.touches.trans (touches_vmExec hvm hf ho hw h.sound.threads code)
      · rw [records_vmExec]
        exact h.sound.owners
    · rintro d ⟨hw, hf, h⟩
      have hst := stays_markDeadRule r d
      refine ⟨by rwa [records_markDeadRule], hf, h.touches.trans (.of_untouched fun b => ?_),
        ⟨h.sound.threads.map _, ?_⟩, ?_⟩
      · exact .of_stays b hst hw h.sound.threads (fun _ _ _ => id) fun t =>
          (congrFun (d.thr.live_map _) t).symm.trans
      · rw [records_markDeadRule]
        exact h.sound.owners
      · rw [records_markDeadRule]
        exact h.ruleLive
    · rintro d s - ⟨hw, hf, h⟩
      refine ⟨by rwa [records_addLock], hf, h.touches.trans (.of_untouched fun b => ?_),
        ⟨h.sound.threads, ?_⟩, ?_⟩
      · exact .of_grows b (grows_addLock rules s d) hw h.sound.threads (fun _ _ _ => id)
          (fun _ => id) fun _ => id
      · rw [records_addLock]
        exact h.sound.owners
      · rw [records_addLock]
        exact h.ruleLive
    · rintro d s dest ho ⟨hw, hf, h⟩
      have hrl : d.records.ruleLive r = true := (congrFun h.ruleLive r).trans hr
      refine ⟨?_, hf, h.touches.trans (.of_untouched fun b => ?_), ⟨h.sound.threads, ?_⟩, ?_⟩
      · rw [records_newState, ho.ruleInstance]
        exact hw.addState ho.rule_lt
      · exact untouched_newState b ho hw h.sound.threads dest
      · rw [records_newState, ho.ruleInstance]
        exact h.sound.owners.addState hw hrl
      · rw [records_newState]
        exact h.ruleLive
    · rintro d s tr ho ⟨hw, hf, h⟩
      refine ⟨?_, fun x v a => ?_, ?_, ⟨fun t hl => ?_, ?_⟩, ?_⟩
      · rw [records_newThread]
        exact hw.addThread ho.lt
      · rw [globalFields_newThread]
        exact hf x v a
      · exact h.touches.trans (touches_newThread e ho hw h.sound.threads call.clock tr)
      · rw [thr_size_newThread]
        rw [live_newThread] at hl
        by_cases ht : t = d.thr.size
        · omega
        · exact Nat.lt_succ_of_lt (h.sound.threads t ((Function.update_of_ne ht ..).symm.trans hl))
      · rw [records_newThread]
        exact ⟨nofun, h.sound.owners.state⟩
      · rw [records_newThread]
        exact h.ruleLive
  exact (simulate_inv hinv ho ⟨hw, hf, .refl e r onlyOnce c, hc, rfl⟩ heq).2.2.2

end

end

end

end Orchids

import Orchids.Engine.Accounts
import Orchids.Engine.Executions

/-!
# Threads of freed rule instances

`create_rule_initial_threads` frees a rule instance when the simulation of its initial state ends
without a positive number of threads. A negative code can stand for an end midway, after threads
were created: they stay in the new queue, and belong to a freed rule instance.

* `Quiet`: no call frees an instance that has threads.
* `noFreed_of_quiet`: then no queue has a thread of a freed instance, in any run.
* `not_noFreed`: a rule and an event after which the new queue has such a thread.
-/

namespace Orchids

/-! ## Live owners -/

/-- What is not freed belongs to rule instances that are not freed. -/
structure Alive (q : RecordView) (live : Nat → Bool) : Prop where
  thread : ∀ t, t < q.threads → live t = true → q.ruleLive (q.ownerOf t) = true
  state : ∀ s, s < q.states → q.stateLive s = true → q.ruleLive (q.ruleInstance s) = true

namespace Alive

variable {q : RecordView} {live live' : Nat → Bool} {cr : Option Nat} {r s t : Nat}

theorem mono (h : Alive q live) (hl : ∀ t, live' t = true → live t = true) : Alive q live' :=
  ⟨fun t ht hlt => h.thread t ht (hl t hlt), h.state⟩

theorem addState (h : Alive q live) (hw : Wf q cr) (hr : q.ruleLive r = true) :
    Alive (q.addState r) live := by
  refine ⟨fun t ht hl => ?_, fun s hs hl => ?_⟩
  · have howner : (q.addState r).ownerOf t = q.ownerOf t :=
      Function.update_of_ne (hw.stateInstance_lt t ht).ne _ _
    rw [howner]
    exact h.thread t ht hl
  · by_cases hss : s = q.states
    · simpa [RecordView.addState, hss] using hr
    · simp only [RecordView.addState, Function.update_of_ne hss] at hl ⊢
      exact h.state s (Nat.lt_of_le_of_ne (Nat.le_of_lt_succ hs) hss) hl

theorem addRule (h : Alive q live) (hw : Wf q none) : Alive q.addRule live := by
  refine ⟨fun t ht hl => ?_, fun s hs hl => ?_⟩
  · have hs := hw.stateInstance_lt t ht
    have howner : q.addRule.ownerOf t = q.ownerOf t := Function.update_of_ne hs.ne _ _
    rw [howner]
    exact (Function.update_of_ne (hw.ruleInstance_lt _ hs).ne _ _).trans (h.thread t ht hl)
  · by_cases hss : s = q.states
    · simp [RecordView.addRule, hss]
    · have hs' : s < q.states := Nat.lt_of_le_of_ne (Nat.le_of_lt_succ hs) hss
      simp only [RecordView.addRule, Function.update_of_ne hss] at hl ⊢
      rw [Function.update_of_ne (hw.ruleInstance_lt s hs').ne]
      exact h.state s hs' hl

theorem addThread (h : Alive q live) (hs : q.ruleLive (q.ruleInstance s) = true) :
    Alive (q.addThread s) (Function.update live q.threads true) := by
  refine ⟨fun t ht hl => ?_, h.state⟩
  by_cases htt : t = q.threads
  · rw [htt, RecordView.ownerOf]
    simpa [RecordView.addThread] using hs
  · rw [Function.update_of_ne htt] at hl
    have howner : (q.addThread s).ownerOf t = q.ownerOf t :=
      congrArg q.ruleInstance (Function.update_of_ne htt _ _)
    rw [howner]
    exact h.thread t (Nat.lt_of_le_of_ne (Nat.le_of_lt_succ ht) htt) hl

/-- A rule instance without threads is freed. -/
theorem freeRule (h : Alive q live) (hw : Wf q cr) (hr : r < q.ruleInsts)
    (hno : ∀ t, t < q.threads → live t = true → q.ownerOf t ≠ r) : Alive (q.freeRule r) live := by
  refine ⟨fun t ht hl => ?_, fun s hs hl => ?_⟩
  · exact (Function.update_of_ne (hno t ht hl) _ _).trans (h.thread t ht hl)
  · simp only [RecordView.freeRule, Bool.and_eq_true, decide_eq_true_eq] at hl
    have hne : q.ruleInstance s ≠ r := fun heq =>
      hl.2 ((hw.mem_statesOf r hr s).mpr ⟨hs, heq⟩)
    exact (Function.update_of_ne hne _ _).trans (h.state s hs hl.1)

end Alive

/-! ## The steps of the engine -/

variable {V : Type}

section

variable [SyncValue V] (rules : RuleSet)

/-- A simulation of an initial state that ends without a positive number of threads has created
none: what is freed then has no threads. -/
def QuietStart (call : Call V) (fuel k : Nat) (c : Ctx V) : Prop :=
  ∀ p ∈ simulate rules call fuel c.si.size true (c.newRuleInst k),
    p.1 ≤ 0 → (p.2.ri.cell c.ri.size).threads = 0

instance (call : Call V) (fuel k : Nat) (c : Ctx V) : Decidable (QuietStart rules call fuel k c) :=
  inferInstanceAs (Decidable (∀ p ∈ _, _ → _))

/-- No call frees a rule instance that has threads. -/
def Quiet : Call V → Nat → Ctx V → Prop := CallOk rules (QuietStart rules)

instance (call : Call V) (fuel : Nat) (c : Ctx V) : Decidable (Quiet rules call fuel c) :=
  decidableEachStart rules call fuel _ _ _

variable {rules} {prune : Nat → Ctx V → Bool} {call : Call V} {fuel r s e t : Nat}
  {onlyOnce : Bool} {cr : Option Nat} {c c' : Ctx V}

/-- A call is as quiet with a machine that gives the same results in its executions. -/
theorem Quiet.congr {vm : Vm V} (h : Quiet rules call fuel c)
    (hag : AgreesOn call vm (injectVmCalls rules prune call fuel c)) :
    Quiet rules (call.withVm vm) fuel c := by
  have hstart : ∀ k d,
      AgreesOn call vm (simVmCalls rules call fuel d.si.size true (d.newRuleInst k)) →
      QuietStart rules call fuel k d → QuietStart rules (call.withVm vm) fuel k d := by
    intro k d hd hq
    unfold QuietStart
    rw [simulate_agrees fuel _ _ hd]
    exact hq
  exact eachStart_agrees hstart _ _ hag.append.1 h

theorem simulate_alive (ho : Of c r s) (hw : Wf c.records cr) (h : Alive c.records c.thr.live)
    (hr : c.ri.live r = true) {ret : Int}
    (heq : simulate rules call fuel s onlyOnce c = some (ret, c')) :
    Alive c'.records c'.thr.live ∧ c'.ri.live r = true := by
  let I : Ctx V → Prop := fun d => Wf d.records cr ∧ Alive d.records d.accounts.live ∧
    d.records.ruleLive r = true
  have hinv : SimRules rules call r onlyOnce (fun _ => I) I I := by
    refine .of_inv ?_ ?_ ?_ ?_ ?_
    · rintro d s code _ ⟨hw, h, hd⟩
      exact ⟨by simpa using hw, by simpa using h, by simpa using hd⟩
    · rintro d ⟨hw, h, hd⟩
      exact ⟨by simpa using hw, by simpa using h, by simpa using hd⟩
    · rintro d s _ ⟨hw, h, hd⟩
      exact ⟨by simpa using hw, by simpa using h, by simpa using hd⟩
    · rintro d s dest ho ⟨hw, h, hd⟩
      refine ⟨?_, ?_, ?_⟩
      · rw [records_newState, ho.ruleInstance]
        exact hw.addState ho.rule_lt
      · rw [records_newState, accounts_newState, ho.ruleInstance]
        exact h.addState hw hd
      · rw [records_newState]
        exact hd
    · rintro d s tr ho ⟨hw, h, hd⟩
      refine ⟨?_, ?_, ?_⟩
      · rw [records_newThread]
        exact hw.addThread ho.lt
      · rw [records_newThread, accounts_newThread]
        rw [← ho.ruleInstance] at hd
        exact h.addThread hd
      · rw [records_newThread]
        exact hd
  exact (simulate_inv hinv ho ⟨hw, h, hr⟩ heq).2.2

theorem startRule_alive (hw : Wf c.records none) (hc : Counted c.records c.accounts)
    (h : Alive c.records c.thr.live) {k : Nat} (hq : QuietStart rules call fuel k c)
    (heq : startRule rules call fuel k c = some c') : Alive c'.records c'.thr.live := by
  obtain ⟨ret, c₁, hs, rfl⟩ := startRule_some heq
  have ho := Of.newRuleInst k c
  have hw₀ : Wf (c.newRuleInst k).records (some c.ri.size) := by
    rw [records_newRuleInst]
    exact hw.addRule
  have hc₀ : Counted (c.newRuleInst k).records (c.newRuleInst k).accounts := by
    rw [records_newRuleInst, accounts_newRuleInst]
    exact hc.addRule hw
  have h₀ : Alive (c.newRuleInst k).records (c.newRuleInst k).thr.live := by
    rw [records_newRuleInst]
    exact h.addRule hw
  obtain ⟨h₁, -⟩ := simulate_alive ho hw₀ h₀ (by simp [Ctx.newRuleInst]) hs
  obtain ⟨hg, hw₁⟩ := simulate_wf ho hw₀ hs
  obtain ⟨hc₁, -⟩ := simulate_counted ho hw₀ hc₀ hs
  have hlive : (c₁.finishRuleInst rules c.ri.size ret).thr.live = c₁.thr.live :=
    congrArg QueueView.live (queues_finishRuleInst rules c.ri.size ret c₁)
  rw [records_finishRuleInst rules (hw₁.notLinked _ rfl), hlive]
  by_cases hret : ret ≤ 0
  · rw [if_pos hret]
    exact h₁.freeRule hw₁ (ho.grows hg).rule_lt
      (hc₁.not_live (ho.grows hg).rule_lt (hq _ hs hret))
  · rw [if_neg hret]
    exact ⟨h₁.thread, h₁.state⟩

theorem reapThread_alive (hv : Visiting t c) (hc : Counted c.records c.accounts)
    (h : Alive c.records c.accounts.live) (p : Option Nat) :
    Alive (c.reapThread rules t p).records (c.reapThread rules t p).accounts.live := by
  have hdown : Counted c.records (c.accounts.down (c.ruleInstOf t) t) := hc.reap hv.lt hv.live
  have h' : Alive c.records (c.accounts.down (c.ruleInstOf t) t).live := by
    refine h.mono fun b hb => ?_
    by_cases hbt : b = t
    · simp [AccountView.down, hbt] at hb
    · exact (Function.update_of_ne hbt _ _).symm.trans hb
  rw [accounts_reapThread]
  unfold Ctx.reapThread
  rw [records_freeThread]
  rcases records_dropThread rules t c with heq | ⟨hone, _, heq⟩
  · rw [heq]
    exact h'
  · rw [heq]
    -- the thread was the last one of its rule instance
    have hlt := (hv.wf.thread_of hv.lt).rule_lt
    refine h'.freeRule hv.wf hlt (hdown.not_live hlt ?_)
    refine (Function.update_self ..).trans ?_
    show (c.ri.cell (c.ruleInstOf t)).threads - 1 = 0
    omega

theorem evaluated_alive (hv : Visiting t c) (h : Alive c.records c.accounts.live)
    (hev : Evaluated rules prune call fuel e t c c') : Alive c'.records c'.accounts.live := by
  let A : Ctx V → Prop := fun d =>
    Alive d.records d.accounts.live ∧ d.records.ruleLive (c.ruleInstOf t) = true
  have hr : c.records.ruleLive (c.ruleInstOf t) = true := h.thread t hv.lt hv.live
  have ha := evaluated_inv (A := A) (B := A) hv.wf hv.lt hev ?_ ?_ ?_ ?_
  · exact ha.1
  · refine ⟨?_, ?_⟩
    · rwa [records_vmExec, accounts_vmExec]
    · rwa [records_vmExec]
  · rintro c₀ hw₀ ht₀ hg - ⟨h₀, hr₀⟩
    have howner := hg.ruleInstOf hv.wf hv.lt
    refine ⟨?_, ?_⟩
    · rw [records_passState, accounts_passState]
      exact h₀.addState hw₀ (howner ▸ hr₀)
    · rw [records_passState]
      exact hr₀
  · rintro r c₁ ret c₂ ho hw₁ rfl ⟨h₁, hr₁⟩ hs
    exact simulate_alive ho hw₁ h₁ hr₁ hs
  · rintro c₂ ⟨h₂, hr₂⟩
    refine ⟨?_, ?_⟩
    · rwa [records_killThread, accounts_killThread]
    · rwa [records_killThread]

/-- What is not freed has an owner that is not freed. -/
def alive : EngineInv V where
  between c := Alive c.records c.accounts.live
  during _ _ c := Alive c.records c.accounts.live

theorem alive_rules : EngineRules rules prune (fun _ => True) (QuietStart rules)
    (base.and counted) (alive (V := V)) where
  init := by
    constructor <;> simp [Ctx.records, Ctx.accounts, Ctx.init]
  beginEvent event c _ h := h
  startRule call fuel e k c c' _ hok hb h heq := startRule_alive hb.1.1 hb.2 h hok heq
  mergeQueues := by
    rintro e c - h
    simpa [alive] using h
  evtStep := by
    rintro call fuel curTime e t c c' - ⟨hb, hc⟩ h heq
    obtain ⟨hv, hcase⟩ := evtStep_visiting hb heq
    have hc₀ : Counted (c.beginVisit curTime t).records (c.beginVisit curTime t).accounts := by
      simpa [counted] using hc
    have h₀ : Alive (c.beginVisit curTime t).records (c.beginVisit curTime t).accounts.live := by
      simpa [alive] using h
    rcases hcase with ⟨_, rfl⟩ | ⟨_, c₁, hev, _, ⟨_, hv₂, rfl⟩ | ⟨_, rfl⟩⟩
    · exact reapThread_alive hv hc₀ h₀ _
    · exact reapThread_alive hv₂ (by simpa using evaluated_counted hv hc₀ hev)
        (by simpa using evaluated_alive hv h₀ hev) _
    · simpa [alive] using evaluated_alive hv h₀ hev
  endEvent := by
    rintro event e c - h
    simpa [alive] using h

/-- What holds in every run without the defect. -/
def quietBase : EngineInv V := (base.and counted).and alive

theorem quietBase_rules :
    EngineRules rules prune (fun _ => True) (QuietStart rules) .trivial (quietBase (V := V)) :=
  ((base_rules.and counted_rules).mono (fun _ => id) fun _ _ _ _ _ => trivial).and alive_rules

/-! ## The queues have no threads of freed instances -/

/-- The thread `t` belongs to a rule instance and a state instance that are not freed. -/
def OwnerLive (c : Ctx V) (t : Nat) : Prop :=
  c.ri.live (c.ruleInstOf t) = true ∧ c.si.live (c.thr.cell t).stateInstance = true

/-- No thread of the new queue, of the retrigger queue or of the current queue belongs to a freed
instance. -/
def NoFreed (c : Ctx V) : Prop :=
  ∀ t ∈ c.threadsFrom c.newQh ++ c.threadsFrom c.retrigQh ++ c.threadsFrom c.curRetrigQh,
    OwnerLive c t

instance (c : Ctx V) : Decidable (NoFreed c) :=
  inferInstanceAs (Decidable (∀ t ∈ _, _ ∧ _))

omit [SyncValue V] in
theorem Alive.ownerLive (h : Alive c.records c.thr.live) (hw : Wf c.records none)
    (ht : t < c.thr.size) (hl : c.thr.live t = true) : OwnerLive c t := by
  have hr := h.thread t ht hl
  exact ⟨hr, hw.stateLive _ (hw.stateInstance_lt t ht) hr⟩

omit [SyncValue V] in
theorem Alive.noFreed (h : Alive c.records c.thr.live) (hw : Wf c.records none)
    {new retrig rest : List Nat} (hq : Queues c.queues new retrig rest) :
    NoFreed c ∧ ∀ t ∈ c.threadsFrom rest.head?, OwnerLive c t := by
  have hall : ∀ t ∈ new ++ (retrig ++ rest), OwnerLive c t := fun t ht =>
    h.ownerLive hw (hq.mem_lt ht) ((hq.live t).mpr ht)
  have hnew : ∀ {p : Option Nat}, (∀ a, p = some a → a ∈ new) → ∀ t ∈ c.threadsFrom p, OwnerLive c t :=
    fun hp t ht => hall t (List.mem_append_left _ (hq.newQueue.linked.mem_of_mem_walk hp t ht))
  have hretrig : ∀ {p : Option Nat}, (∀ a, p = some a → a ∈ retrig) →
      ∀ t ∈ c.threadsFrom p, OwnerLive c t := fun hp t ht =>
    hall t (by simp [hq.retrigQueue.linked.mem_of_mem_walk hp t ht])
  have hrest : ∀ {p : Option Nat}, (∀ a, p = some a → a ∈ rest) →
      ∀ t ∈ c.threadsFrom p, OwnerLive c t := fun hp t ht =>
    hall t (by simp [hq.restLinked.mem_of_mem_walk hp t ht])
  have hhead : ∀ {l : List Nat} (a : Nat), l.head? = some a → a ∈ l := fun a => List.mem_of_head?
  refine ⟨fun t ht => ?_, hrest hhead⟩
  rcases List.mem_append.mp ht with ht | ht
  · rcases List.mem_append.mp ht with ht | ht
    · exact hnew (fun a ha => hhead a (hq.newQueue.head.symm.trans ha)) t ht
    · exact hretrig (fun a ha => hhead a (hq.retrigQueue.head.symm.trans ha)) t ht
  · cases hc : c.curRetrigQh with
    | none =>
      rw [hc] at ht
      exact hrest (p := none) (fun a ha => nomatch ha) t ht
    | some b =>
      rw [hc] at ht
      rcases hq.curHead b hc with hb | hb
      · rcases List.mem_append.mp hb with hb | hb
        · exact hnew (fun a ha => Option.some.inj ha ▸ hb) t ht
        · exact hretrig (fun a ha => Option.some.inj ha ▸ hb) t ht
      · exact hrest (fun a ha => Option.some.inj ha ▸ hhead b hb) t ht

/-- In a run in which no call frees an instance that has threads, no queue has a thread of a freed
instance: between any two calls, and at every visit of the next call, also in the rest of the
current queue. -/
theorem noFreed_of_quiet (hr : Run rules prune (Quiet rules) c) :
    NoFreed c ∧
      ∀ (call : Call V) (fuel : Nat) (visits : List (Nat × Ctx V)) (c' : Ctx V),
        Quiet rules call fuel c → injectEventWith rules prune call fuel c = some (visits, c') →
        ∀ v ∈ visits, NoFreed v.2 ∧ ∀ t ∈ v.2.threadsFrom (some v.1), OwnerLive v.2 t := by
  obtain ⟨⟨⟨hw, new, retrig, hq⟩, hc⟩, h⟩ := 
    quietBase_rules.run hr (fun _ _ _ _ => trivial) fun _ _ _ hok => hok
  refine ⟨(Alive.noFreed h hw hq).1, fun call fuel visits c' hok heq v hv => ?_⟩
  obtain ⟨⟨⟨hw', new', retrig', rest, hq', hp⟩, -⟩, h'⟩ :=
    (quietBase_rules.inject trivial hok ⟨⟨⟨hw, new, retrig, hq⟩, hc⟩, h⟩ heq).2 v hv
  exact hp ▸ Alive.noFreed h' hw' hq'

end

theorem noFreed_of_quiet_twoEvents :
    ∃ c, Run twoEvents (backtrackIsNotNeeded twoEvents) (Quiet twoEvents) c ∧
      c.newQh = some 1 ∧ NoFreed (V := Val) c := by
  have hq : Quiet twoEvents passing 3 (Ctx.init Val) := by decide +kernel
  have hrun : ((injectEventWith twoEvents (backtrackIsNotNeeded twoEvents) passing 3
      (Ctx.init Val)).any fun p => p.2.newQh == some 1) = true := by
    decide +kernel
  obtain ⟨⟨visits, c⟩, heq, hn⟩ := (Option.any_eq_true _ _).mp hrun
  have hr : Run twoEvents (backtrackIsNotNeeded twoEvents) (Quiet twoEvents) c :=
    .inject passing 3 .init hq heq
  exact ⟨c, hr, by simpa using hn, (noFreed_of_quiet hr).1⟩

/-- The initial state of a rule whose second transition leads at once to the end: after the first
transition got a thread, the simulation ends with a negative code. -/
def endsAtOnce : RuleSet :=
  [{ states := [
      { action := none, trans := [⟨1, some [0], 1⟩, ⟨0, none, 2⟩], havePushfield := false },
      { action := none, trans := [⟨1, some [1], 2⟩], havePushfield := true },
      { action := none, trans := [], havePushfield := false }]
     syncVars := [], syncLock := false }]

/-- After one event the new queue has a thread of a freed rule instance. -/
theorem not_noFreed :
    ∃ c, Reach endsAtOnce (backtrackIsNotNeeded endsAtOnce) c ∧ ¬ NoFreed (V := Val) c := by
  have hrun : ((injectEvents endsAtOnce (backtrackIsNotNeeded endsAtOnce) 3 [passing]
      (Ctx.init Val)).any fun c => !decide (NoFreed c)) = true := by
    decide +kernel
  obtain ⟨c, hc, hnot⟩ := (Option.any_eq_true _ _).mp hrun
  exact ⟨c, Run.init.injectEvents _ _ _ hc, by simpa using hnot⟩

end Orchids

import Orchids.Engine.Visits

/-!
# The thread counters

`AccountView` has the counters of threads; `Counted` says that they count the live threads.

* `simulate_counted`: a simulation counts its new threads, and gives their number as its result.
* `counted_rules`: so does every step of the engine, between two calls and during a call.
* `Populated`: a rule instance that is not freed has a thread.
-/

namespace Orchids

/-! ## Counters -/

/-- The live threads, the counter of each rule instance and the counter of all threads. -/
structure AccountView where
  live : Nat → Bool
  ruleThreads : Nat → Int
  total : Int

namespace AccountView

variable (a : AccountView)

/-- A new thread `t` of the rule instance `r`. -/
def up (r t : Nat) : AccountView where
  live := Function.update a.live t true
  ruleThreads := Function.update a.ruleThreads r (a.ruleThreads r + 1)
  total := a.total + 1

/-- The end of a thread `t` of the rule instance `r`. -/
def down (r t : Nat) : AccountView where
  live := Function.update a.live t false
  ruleThreads := Function.update a.ruleThreads r (a.ruleThreads r - 1)
  total := a.total - 1

/-- The counter of the rule instance `r` is set. -/
def set (r : Nat) (n : Int) : AccountView :=
  { a with ruleThreads := Function.update a.ruleThreads r n }

end AccountView

/-- The rule instance of a thread. -/
def RecordView.ownerOf (q : RecordView) (t : Nat) : Nat := q.ruleInstance (q.stateInstance t)

/-- The counters are the numbers of live threads. -/
structure Counted (q : RecordView) (a : AccountView) : Prop where
  total : a.total = countLive a.live q.threads fun _ => true
  rules : ∀ r, r < q.ruleInsts →
    a.ruleThreads r = countLive a.live q.threads fun t => decide (q.ownerOf t = r)

namespace Counted

variable {q : RecordView} {a : AccountView} {cr : Option Nat} {r s t : Nat}

/-- Only the owners of the threads matter. -/
theorem congr {q' : RecordView} (h : Counted q a) (hn : q'.threads = q.threads)
    (hr : q'.ruleInsts = q.ruleInsts) (ho : ∀ t, t < q.threads → q'.ownerOf t = q.ownerOf t) :
    Counted q' a := by
  refine ⟨by rw [hn]; exact h.total, fun r hlt => ?_⟩
  rw [h.rules r (hr ▸ hlt), hn]
  congr 1
  refine countLive_congr fun t ht _ => ?_
  rw [ho t ht]

theorem addState (h : Counted q a) (hw : Wf q cr) : Counted (q.addState r) a := by
  refine h.congr rfl rfl fun t ht => ?_
  exact Function.update_of_ne (hw.stateInstance_lt t ht).ne _ _

theorem addRule (h : Counted q a) (hw : Wf q cr) : Counted q.addRule (a.set q.ruleInsts 0) := by
  have howner : ∀ t, t < q.threads → q.addRule.ownerOf t = q.ownerOf t := fun t ht =>
    Function.update_of_ne (hw.stateInstance_lt t ht).ne _ _
  refine ⟨h.total, fun r hr => ?_⟩
  have hcount : countLive a.live q.threads (fun t => decide (q.addRule.ownerOf t = r)) =
      countLive a.live q.threads fun t => decide (q.ownerOf t = r) :=
    countLive_congr fun t ht _ => by rw [howner t ht]
  by_cases hrr : r = q.ruleInsts
  · subst hrr
    refine (Function.update_self ..).trans ?_
    rw [show (a.set q.ruleInsts 0).live = a.live from rfl,
      show q.addRule.threads = q.threads from rfl, hcount, eq_comm, Int.natCast_eq_zero,
      countLive_eq_zero]
    intro t ht _
    exact decide_eq_false (hw.ruleInstance_lt _ (hw.stateInstance_lt t ht)).ne
  · refine (Function.update_of_ne hrr ..).trans ?_
    rw [h.rules r (Nat.lt_of_le_of_ne (Nat.le_of_lt_succ hr) hrr)]
    exact congrArg Nat.cast hcount.symm

theorem addThread (h : Counted q a) : Counted (q.addThread s) (a.up (q.ruleInstance s) q.threads) := by
  have howner : ∀ t, t < q.threads → (q.addThread s).ownerOf t = q.ownerOf t := fun t ht =>
    congrArg q.ruleInstance (Function.update_of_ne ht.ne _ _)
  have hself : (q.addThread s).ownerOf q.threads = q.ruleInstance s :=
    congrArg q.ruleInstance (Function.update_self ..)
  refine ⟨?_, fun r hr => ?_⟩
  · have htotal := h.total
    have hcount := countLive_alloc a.live q.threads fun _ => true
    simp only [AccountView.up, RecordView.addThread] at hcount ⊢
    rw [hcount]
    simp
    omega
  · have hrule := h.rules r hr
    have hold : countLive a.live q.threads (fun t => decide ((q.addThread s).ownerOf t = r)) =
        countLive a.live q.threads fun t => decide (q.ownerOf t = r) :=
      countLive_congr fun t ht _ => by rw [howner t ht]
    have hcount := countLive_alloc a.live q.threads
      fun t => decide ((q.addThread s).ownerOf t = r)
    rw [hold, hself] at hcount
    refine Eq.trans ?_ (congrArg Nat.cast hcount.symm)
    by_cases hrr : r = q.ruleInstance s
    · subst hrr
      simp only [AccountView.up, Function.update_self, decide_true, if_true]
      omega
    · simp only [AccountView.up, Function.update_of_ne hrr, Ne.symm hrr, decide_false,
        Bool.false_eq_true, if_false]
      omega

theorem reap (h : Counted q a) (ht : t < q.threads) (hl : a.live t = true) :
    Counted q (a.down (q.ownerOf t) t) := by
  refine ⟨?_, fun r hr => ?_⟩
  · have htotal := h.total
    have hcount := countLive_free (p := fun _ => true) hl ht
    simp only [AccountView.down, if_true] at hcount ⊢
    omega
  · have hrule := h.rules r hr
    have hcount := countLive_free (p := fun t => decide (q.ownerOf t = r)) hl ht
    by_cases hrr : r = q.ownerOf t
    · subst hrr
      simp only [AccountView.down, Function.update_self, decide_true, if_true] at hcount ⊢
      omega
    · simp only [AccountView.down, Function.update_of_ne hrr, Ne.symm hrr, decide_false,
        Bool.false_eq_true, if_false] at hcount ⊢
      omega

/-- The counter of a rule instance without threads. -/
theorem not_live (h : Counted q a) (hr : r < q.ruleInsts) (hz : a.ruleThreads r = 0) :
    ∀ t, t < q.threads → a.live t = true → q.ownerOf t ≠ r := by
  have hcount := h.rules r hr
  rw [hz, eq_comm, Int.natCast_eq_zero, countLive_eq_zero] at hcount
  exact fun t ht hl => of_decide_eq_false (hcount t ht hl)

end Counted

/-! ## The counters of a state -/

variable {V : Type}

/-- The thread counters of a state. -/
def Ctx.accounts (c : Ctx V) : AccountView where
  live := c.thr.live
  ruleThreads := fun r => (c.ri.cell r).threads
  total := c.threads

@[simp] theorem accounts_vmExec (vm : Vm V) (s : Nat) (code : List Nat) (c : Ctx V) :
    (c.vmExec vm s code).accounts = c.accounts := by
  simp [Ctx.accounts, Ctx.vmExec]

@[simp] theorem accounts_markDeadRule (r : Nat) (c : Ctx V) :
    (c.markDeadRule r).accounts = c.accounts := by
  simp [Ctx.accounts, Ctx.markDeadRule, proj_modify_of_eq RuleInst.threads]

@[simp] theorem accounts_newState (dest s : Nat) (c : Ctx V) :
    (c.newState dest s).accounts = c.accounts := by
  simp [Ctx.accounts, Ctx.newState, proj_modify_of_eq RuleInst.threads]

@[simp] theorem accounts_pushNew (a : Nat) (c : Ctx V) : (c.pushNew a).accounts = c.accounts := by
  unfold Ctx.pushNew
  cases c.newQt <;> simp [Ctx.accounts]

theorem accounts_newThread (clock : Ctx V → Nat) (s : Nat) (onlyOnce : Bool) (tr : Trans)
    (c : Ctx V) : (c.newThread clock s onlyOnce tr).accounts =
      c.accounts.up (c.si.cell s).ruleInstance c.thr.size := by
  unfold Ctx.newThread
  rw [accounts_pushNew]
  simp [Ctx.accounts, AccountView.up, Heap.live_alloc_eq, Heap.proj_modify_eq c.ri _ _ RuleInst.threads]

@[simp] theorem accounts_killThread (t : Nat) (c : Ctx V) :
    (c.killThread t).accounts = c.accounts := by
  simp [Ctx.accounts, Ctx.killThread]

@[simp] theorem accounts_beginVisit (curTime t : Nat) (c : Ctx V) :
    (c.beginVisit curTime t).accounts = c.accounts := by
  unfold Ctx.beginVisit
  simp only
  split
  · exact accounts_killThread t _
  · rfl

@[simp] theorem accounts_bumpTail (q : Option Nat) (c : Ctx V) :
    (c.bumpTail q).accounts = c.accounts := by
  unfold Ctx.bumpTail
  cases q <;> simp [Ctx.accounts]

@[simp] theorem accounts_commitNew (c : Ctx V) : c.commitNew.accounts = c.accounts := by
  have hb : ∀ (q : Option Nat) (c : Ctx V), (c.bumpTail q).accounts = c.accounts :=
    accounts_bumpTail
  unfold Ctx.accounts at hb ⊢
  unfold Ctx.commitNew
  simp only
  split
  · split <;> simp [hb]
  · exact hb c.retrigQt c

@[simp] theorem accounts_commitAt (t : Nat) (c : Ctx V) : (c.commitAt t).accounts = c.accounts := by
  unfold Ctx.commitAt
  split
  · exact accounts_commitNew c
  · rfl

@[simp] theorem accounts_mergeQueues (c : Ctx V) : c.mergeQueues.accounts = c.accounts := by
  unfold Ctx.mergeQueues
  cases c.newQh with
  | none => rfl
  | some p => cases c.newQt <;> simp [Ctx.accounts]

@[simp] theorem accounts_requeue (t : Nat) (c : Ctx V) : (c.requeue t).accounts = c.accounts := by
  unfold Ctx.requeue
  simp only
  split <;> simp [Ctx.accounts]

@[simp] theorem accounts_countPass (t : Nat) (c : Ctx V) :
    (c.countPass t).accounts = c.accounts := by
  unfold Ctx.countPass Ctx.setCreationDate
  simp only
  split <;> simp [Ctx.accounts, proj_modify_of_eq RuleInst.threads]

@[simp] theorem accounts_passState (e t : Nat) (c : Ctx V) :
    (c.passState e t).accounts = c.accounts := by
  rw [← accounts_countPass t c]
  simp [Ctx.accounts, Ctx.passState, Ctx.bindEvent, Ctx.newState,
    proj_modify_of_eq RuleInst.threads]

theorem accounts_newRuleInst (k : Nat) (c : Ctx V) :
    (c.newRuleInst k).accounts = c.accounts.set c.ri.size 0 := by
  simp [Ctx.accounts, Ctx.newRuleInst, AccountView.set, Heap.proj_alloc_eq c.ri _ RuleInst.threads]

@[simp] theorem accounts_beginEvent (event : List (Nat × V)) (c : Ctx V) :
    (c.beginEvent event).accounts = c.accounts := rfl

@[simp] theorem accounts_endEvent (event : List (Nat × V)) (e : Nat) (c : Ctx V) :
    (c.endEvent event e).accounts = c.accounts := by
  unfold Ctx.endEvent
  simp only
  split
  · rfl
  · split <;> rfl

theorem accounts_linkRuleInst (r : Nat) (ret : Int) (c : Ctx V) :
    (c.linkRuleInst r ret).accounts = c.accounts.set r ret := by
  unfold Ctx.linkRuleInst
  rw [accounts_bumpTail]
  simp [Ctx.accounts, AccountView.set, Heap.proj_modify_eq c.ri _ _ RuleInst.threads]

section

variable [SyncValue V] (rules : RuleSet)

@[simp] theorem accounts_addLock (s : Nat) (c : Ctx V) :
    (c.addLock rules s).accounts = c.accounts := by
  simp [Ctx.accounts, Ctx.addLock, Ctx.objhashAdd, proj_modify_of_eq RuleInst.threads]

@[simp] theorem accounts_freeRuleInstance (r : Nat) (c : Ctx V) :
    (c.freeRuleInstance rules r).accounts = c.accounts := by
  obtain ⟨ae, hd, tl, n, l, heq⟩ := freeRuleInstance_eq rules r c
  rw [heq]
  simp [Ctx.accounts]

theorem accounts_dropThread (t : Nat) (c : Ctx V) :
    (c.dropThread rules t).accounts =
      { c.accounts.down (c.ruleInstOf t) t with live := c.thr.live } := by
  have hdown : (c.countDown (c.ruleInstOf t)).accounts =
      { c.accounts.down (c.ruleInstOf t) t with live := c.thr.live } := by
    simp [Ctx.accounts, Ctx.countDown, AccountView.down, Heap.proj_modify_eq c.ri _ _ RuleInst.threads]
  have hkill : ∀ (r : Nat) (c : Ctx V), (c.killRuleInst r).accounts = c.accounts := by
    intro r c
    simp [Ctx.accounts, Ctx.killRuleInst, proj_modify_of_eq RuleInst.threads]
  rw [← hdown]
  rcases dropThread_cases rules t c with ⟨_, heq⟩ | ⟨_, _, heq⟩ | ⟨_, _, heq⟩
  · rw [heq]
    rfl
  · rw [heq, hkill]
  · rw [heq, accounts_freeRuleInstance]
    exact hkill (c.ruleInstOf t) (c.countDown (c.ruleInstOf t))

theorem accounts_reapThread (t : Nat) (p : Option Nat) (c : Ctx V) :
    (c.reapThread rules t p).accounts = c.accounts.down (c.ruleInstOf t) t := by
  have hfree : ∀ c : Ctx V, (c.freeThread t p).accounts =
      { c.accounts with live := Function.update c.thr.live t false } := by
    intro c
    unfold Ctx.freeThread
    cases c.curRetrigQt <;> simp [Ctx.accounts, Heap.live_free_eq]
  have hlive : (c.dropThread rules t).thr.live = c.thr.live :=
    congrArg AccountView.live (accounts_dropThread rules t c)
  unfold Ctx.reapThread
  rw [hfree, hlive, accounts_dropThread]
  rfl

end

/-! ## The steps of the engine -/

section

variable [SyncValue V] {rules : RuleSet} {prune : Nat → Ctx V → Bool} {call : Call V}
  {fuel r s e t : Nat} {onlyOnce : Bool} {cr : Option Nat} {c c' : Ctx V}

/-- A simulation counts its new threads: its result is what it adds to the counter of its rule
instance. -/
theorem simulate_counted (ho : Of c r s) (hw : Wf c.records cr) (h : Counted c.records c.accounts)
    {ret : Int} (heq : simulate rules call fuel s onlyOnce c = some (ret, c')) :
    Counted c'.records c'.accounts ∧
      (0 ≤ ret → (c'.ri.cell r).threads = (c.ri.cell r).threads + ret) := by
  let I : Ctx V → Prop := fun d => Wf d.records cr ∧ Counted d.records d.accounts ∧
    d.accounts.ruleThreads r - d.thr.size = c.accounts.ruleThreads r - c.thr.size
  have hinv : SimRules rules call r onlyOnce (fun _ => I) I I := by
    refine .of_inv ?_ ?_ ?_ ?_ ?_
    · rintro d s code _ ⟨hw, h, hd⟩
      exact ⟨by simpa using hw, by simpa using h, by simpa using hd⟩
    · rintro d ⟨hw, h, hd⟩
      refine ⟨by simpa using hw, by simpa using h, ?_⟩
      rw [accounts_markDeadRule, ← hd]
      simp [Ctx.markDeadRule]
    · rintro d s _ ⟨hw, h, hd⟩
      refine ⟨by simpa using hw, by simpa using h, ?_⟩
      rw [accounts_addLock]
      exact hd
    · rintro d s dest ho ⟨hw, h, hd⟩
      refine ⟨?_, ?_, by simpa using hd⟩
      · rw [records_newState, ho.ruleInstance]
        exact hw.addState ho.rule_lt
      · rw [records_newState, accounts_newState]
        exact h.addState hw
    · rintro d s tr ho ⟨hw, h, hd⟩
      refine ⟨?_, ?_, ?_⟩
      · rw [records_newThread]
        exact hw.addThread ho.lt
      · rw [records_newThread, accounts_newThread]
        exact h.addThread
      · rw [accounts_newThread, thr_size_newThread, ho.ruleInstance]
        simp only [AccountView.up, Function.update_self]
        omega
  obtain ⟨-, ⟨_, hi, hsz⟩ | ⟨hneg, hi⟩⟩ := simulate_rules hinv fuel s c ret c' ho ⟨hw, h, rfl⟩ heq
  · refine ⟨hi.2.1, fun _ => ?_⟩
    have hd : (c'.ri.cell r).threads - c'.thr.size = (c.ri.cell r).threads - c.thr.size := hi.2.2
    omega
  · exact ⟨hi.2.1, fun hnn => by omega⟩

theorem startRule_counted (hw : Wf c.records none) (h : Counted c.records c.accounts) {k : Nat}
    (heq : startRule rules call fuel k c = some c') : Counted c'.records c'.accounts := by
  obtain ⟨ret, c₁, hs, rfl⟩ := startRule_some heq
  have ho := Of.newRuleInst k c
  have hw₀ : Wf (c.newRuleInst k).records (some c.ri.size) := by
    rw [records_newRuleInst]
    exact hw.addRule
  have h₀ : Counted (c.newRuleInst k).records (c.newRuleInst k).accounts := by
    rw [records_newRuleInst, accounts_newRuleInst]
    exact h.addRule hw
  obtain ⟨h₁, hthreads⟩ := simulate_counted ho hw₀ h₀ hs
  obtain ⟨-, hw₁⟩ := simulate_wf ho hw₀ hs
  rw [records_finishRuleInst rules (hw₁.notLinked _ rfl)]
  unfold Ctx.finishRuleInst
  by_cases hret : ret ≤ 0
  · rw [if_pos hret, if_pos hret, accounts_freeRuleInstance]
    exact h₁.congr rfl rfl fun _ _ => rfl
  · rw [if_neg hret, if_neg hret, accounts_linkRuleInst]
    -- the counter is overwritten with the value that it has
    have hret' : ret = c₁.accounts.ruleThreads c.ri.size := by
      have hz : ((c.newRuleInst k).ri.cell c.ri.size).threads = 0 := by simp [Ctx.newRuleInst]
      have hres := hthreads (by omega)
      rw [hz, Int.zero_add] at hres
      exact hres.symm
    have hset : c₁.accounts.set c.ri.size ret = c₁.accounts := by
      unfold AccountView.set
      rw [hret', Function.update_eq_self]
    rw [hset]
    exact h₁.congr rfl rfl fun _ _ => rfl

theorem reapThread_counted (hv : Visiting t c) (h : Counted c.records c.accounts)
    (p : Option Nat) :
    Counted (c.reapThread rules t p).records (c.reapThread rules t p).accounts := by
  have hreap : Counted c.records (c.accounts.down (c.ruleInstOf t) t) := h.reap hv.lt hv.live
  rw [accounts_reapThread]
  unfold Ctx.reapThread
  rw [records_freeThread]
  rcases records_dropThread rules t c with heq | ⟨_, _, heq⟩
  · rw [heq]
    exact hreap
  · rw [heq]
    exact hreap.congr rfl rfl fun _ _ => rfl

theorem evaluated_counted (hv : Visiting t c) (h : Counted c.records c.accounts)
    (hev : Evaluated rules prune call fuel e t c c') : Counted c'.records c'.accounts := by
  refine evaluated_inv (A := fun d => Counted d.records d.accounts)
    (B := fun d => Counted d.records d.accounts) hv.wf hv.lt hev ?_ ?_ ?_ ?_
  · rwa [records_vmExec, accounts_vmExec]
  · intro c₀ hw₀ _ _ _ h₀
    rw [records_passState, accounts_passState]
    exact h₀.addState hw₀
  · exact fun r c₁ ret c₂ ho hw₁ _ h₁ hs => (simulate_counted ho hw₁ h₁ hs).1
  · intro c₂ h₂
    rwa [records_killThread, accounts_killThread]

/-- The counters are right, between two calls and during a call. -/
def counted : EngineInv V where
  between c := Counted c.records c.accounts
  during _ _ c := Counted c.records c.accounts

theorem counted_rules : EngineRules rules prune (fun _ => True) (fun _ _ _ _ => True) base
    (counted (V := V)) where
  init := by
    constructor <;> simp [Ctx.records, Ctx.accounts, Ctx.init, countLive]
  beginEvent event c _ h := h
  startRule := by
    rintro call fuel e k c c' - - ⟨hw, -⟩ h heq
    exact startRule_counted hw h heq
  mergeQueues := by
    rintro e c - h
    simpa [counted] using h
  evtStep := by
    intro call fuel curTime e t c c' _ hb h heq
    obtain ⟨hv, hcase⟩ := evtStep_visiting hb heq
    have h₀ : Counted (c.beginVisit curTime t).records (c.beginVisit curTime t).accounts := by
      simpa [counted] using h
    rcases hcase with ⟨_, rfl⟩ | ⟨_, c₁, hev, _, ⟨_, hv₂, rfl⟩ | ⟨_, rfl⟩⟩
    · exact reapThread_counted hv h₀ _
    · exact reapThread_counted hv₂ (by simpa using evaluated_counted hv h₀ hev) _
    · simpa [counted] using evaluated_counted hv h₀ hev
  endEvent := by
    rintro event e c - h
    simpa [counted] using h

end

/-! ## Rule instances have threads -/

/-- Each rule instance that is not freed has a thread, but for `cr`, which is not in the list yet. -/
def Populated (cr : Option Nat) (q : RecordView) (a : AccountView) : Prop :=
  ∀ r, cr ≠ some r → q.ruleLive r = true → 1 ≤ a.ruleThreads r

section

variable [SyncValue V] {rules : RuleSet} {prune : Nat → Ctx V → Bool} {call : Call V}
  {fuel r s e t : Nat} {onlyOnce : Bool} {cr : Option Nat} {c c' : Ctx V}

theorem simulate_populated (ho : Of c r s) (h : Populated cr c.records c.accounts) {ret : Int}
    (heq : simulate rules call fuel s onlyOnce c = some (ret, c')) :
    Populated cr c'.records c'.accounts := by
  refine (simulate_inv (I := fun d => Populated cr d.records d.accounts)
    (.of_inv ?_ ?_ ?_ ?_ ?_) ho h heq).2
  · intro d s code _ h
    simpa using h
  · intro d h
    simpa using h
  · intro d s _ h
    simpa using h
  · intro d s dest _ h
    rw [records_newState, accounts_newState]
    exact h
  · intro d s tr _ h
    rw [records_newThread, accounts_newThread]
    intro b hb hl
    have hold := h b hb hl
    by_cases hbr : b = (d.si.cell s).ruleInstance
    · subst hbr
      simp only [AccountView.up, Function.update_self]
      omega
    · simp only [AccountView.up, Function.update_of_ne hbr]
      exact hold

theorem startRule_populated (hw : Wf c.records none) (h : Populated none c.records c.accounts)
    {k : Nat} (heq : startRule rules call fuel k c = some c') :
    Populated none c'.records c'.accounts := by
  obtain ⟨ret, c₁, hs, rfl⟩ := startRule_some heq
  have ho := Of.newRuleInst k c
  have hw₀ : Wf (c.newRuleInst k).records (some c.ri.size) := by
    rw [records_newRuleInst]
    exact hw.addRule
  have h₀ : Populated (some c.ri.size) (c.newRuleInst k).records (c.newRuleInst k).accounts := by
    intro b hb hl
    have hne : b ≠ c.ri.size := fun heq => hb (congrArg some heq.symm)
    rw [records_newRuleInst] at hl
    rw [accounts_newRuleInst]
    refine le_of_le_of_eq (h b nofun ?_) (Function.update_of_ne hne ..).symm
    exact (Function.update_of_ne hne ..).symm.trans hl
  have h₁ := simulate_populated ho h₀ hs
  obtain ⟨-, hw₁⟩ := simulate_wf ho hw₀ hs
  rw [records_finishRuleInst rules (hw₁.notLinked _ rfl)]
  unfold Ctx.finishRuleInst
  by_cases hret : ret ≤ 0
  · rw [if_pos hret, if_pos hret, accounts_freeRuleInstance]
    intro b _ hl
    by_cases hbr : b = c.ri.size
    · simp [RecordView.freeRule, hbr] at hl
    · exact h₁ b (fun heq => hbr (Option.some.inj heq).symm)
        ((Function.update_of_ne hbr ..).symm.trans hl)
  · rw [if_neg hret, if_neg hret, accounts_linkRuleInst]
    intro b _ hl
    by_cases hbr : b = c.ri.size
    · simp only [AccountView.set, hbr, Function.update_self]
      omega
    · exact le_of_le_of_eq (h₁ b (fun heq => hbr (Option.some.inj heq).symm) hl)
        (Function.update_of_ne hbr ..).symm

theorem reapThread_populated (hw : Wf c.records none) (h : Populated none c.records c.accounts)
    (p : Option Nat) :
    Populated none (c.reapThread rules t p).records (c.reapThread rules t p).accounts := by
  have hdown : ∀ b, b ≠ c.ruleInstOf t →
      (c.accounts.down (c.ruleInstOf t) t).ruleThreads b = c.accounts.ruleThreads b :=
    fun b hb => Function.update_of_ne hb ..
  rw [accounts_reapThread]
  unfold Ctx.reapThread
  rw [records_freeThread]
  intro b hb hl
  by_cases hbr : b = c.ruleInstOf t
  · subst hbr
    rcases records_dropThread rules t c with heq | ⟨_, _, heq⟩
    · rw [heq] at hl
      have hold := h _ hb hl
      have hne : c.accounts.ruleThreads (c.ruleInstOf t) ≠ 1 := by
        intro hone
        -- the last thread: the rule instance would be freed
        have hm := ((hw.ruleLive _).mp hl).resolve_right nofun
        have hfree := congrArg RecordView.ruleLive (records_dropThread_last rules hone hm)
        rw [heq] at hfree
        have hdead := (congrFun hfree (c.ruleInstOf t)).symm.trans hl
        simp [RecordView.freeRule] at hdead
      simp only [AccountView.down, Function.update_self]
      omega
    · simp [heq, RecordView.freeRule] at hl
  · refine le_of_le_of_eq (h b hb ?_) (hdown b hbr).symm
    rcases records_dropThread rules t c with heq | ⟨_, _, heq⟩
    · rwa [heq] at hl
    · rw [heq] at hl
      exact (Function.update_of_ne hbr ..).symm.trans hl

theorem evaluated_populated (hv : Visiting t c) (h : Populated none c.records c.accounts)
    (hev : Evaluated rules prune call fuel e t c c') : Populated none c'.records c'.accounts := by
  refine evaluated_inv (A := fun d => Populated none d.records d.accounts)
    (B := fun d => Populated none d.records d.accounts) hv.wf hv.lt hev ?_ ?_ ?_ ?_
  · rwa [records_vmExec, accounts_vmExec]
  · intro c₀ _ _ _ _ h₀
    rw [records_passState, accounts_passState]
    exact h₀
  · exact fun r c₁ ret c₂ ho _ _ h₁ hs => simulate_populated ho h₁ hs
  · intro c₂ h₂
    rwa [records_killThread, accounts_killThread]

/-- Each rule instance that is not freed has a thread. -/
def populated : EngineInv V where
  between c := Populated none c.records c.accounts
  during _ _ c := Populated none c.records c.accounts

theorem populated_rules : EngineRules rules prune (fun _ => True) (fun _ _ _ _ => True) base
    (populated (V := V)) where
  init := by
    simp [populated, Populated, Ctx.records, Ctx.init]
  beginEvent event c _ h := h
  startRule := by
    rintro call fuel e k c c' - - ⟨hw, -⟩ h heq
    exact startRule_populated hw h heq
  mergeQueues := by
    rintro e c - h
    simpa [populated] using h
  evtStep := by
    intro call fuel curTime e t c c' _ hb h heq
    obtain ⟨hv, hcase⟩ := evtStep_visiting hb heq
    have h₀ : Populated none (c.beginVisit curTime t).records (c.beginVisit curTime t).accounts := by
      simpa [populated] using h
    rcases hcase with ⟨_, rfl⟩ | ⟨_, c₁, hev, _, ⟨_, hv₂, rfl⟩ | ⟨_, rfl⟩⟩
    · exact reapThread_populated hv.wf h₀ _
    · exact reapThread_populated hv₂.wf (by simpa using evaluated_populated hv h₀ hev) _
    · simpa [populated] using evaluated_populated hv h₀ hev
  endEvent := by
    rintro event e c - h
    simpa [populated] using h

end

end Orchids

import Orchids.Engine.Records

/-!
# What the operations on threads leave alone

`CoreView` is the state without the threads and their queues. The marks, the links and the counters
of the threads leave it as it is, or change only `threadList`, `threads` and `killed` in it: `Stays`
says that no record of `CoreView` gets another content otherwise.
-/

namespace Orchids

variable {V : Type}

/-- All but the threads and their queues. -/
structure CoreView (V : Type) where
  si : Heap (StateInst V)
  ri : Heap RuleInst
  ae : Heap (ActiveEvent V)
  firstRuleInstance : List Nat
  activeEventHead : Option Nat
  activeEventTail : Option Nat
  activeEventCur : Option Nat
  globalFields : Env V
  syncLock : Nat → Nat → List Nat

/-- The state without the threads and their queues. -/
def Ctx.core (c : Ctx V) : CoreView V where
  si := c.si
  ri := c.ri
  ae := c.ae
  firstRuleInstance := c.firstRuleInstance
  activeEventHead := c.activeEventHead
  activeEventTail := c.activeEventTail
  activeEventCur := c.activeEventCur
  globalFields := c.globalFields
  syncLock := c.syncLock

@[simp] theorem core_pushNew (a : Nat) (c : Ctx V) : (c.pushNew a).core = c.core := by
  unfold Ctx.pushNew
  cases c.newQt <;> rfl

@[simp] theorem core_killThread (t : Nat) (c : Ctx V) : (c.killThread t).core = c.core := rfl

@[simp] theorem core_beginVisit (curTime t : Nat) (c : Ctx V) :
    (c.beginVisit curTime t).core = c.core := by
  unfold Ctx.beginVisit
  simp only
  split <;> rfl

@[simp] theorem core_bumpTail (q : Option Nat) (c : Ctx V) : (c.bumpTail q).core = c.core := by
  unfold Ctx.bumpTail
  cases q <;> rfl

@[simp] theorem core_mergeQueues (c : Ctx V) : c.mergeQueues.core = c.core := by
  unfold Ctx.mergeQueues
  cases c.newQh <;> rfl

@[simp] theorem core_commitAt (t : Nat) (c : Ctx V) : (c.commitAt t).core = c.core := by
  unfold Ctx.commitAt
  split
  · unfold Ctx.commitNew
    simp only
    split
    · exact (core_bumpTail _ _).trans (core_bumpTail c.retrigQt c)
    · exact core_bumpTail c.retrigQt c
  · rfl

@[simp] theorem core_requeue (t : Nat) (c : Ctx V) : (c.requeue t).core = c.core := rfl

@[simp] theorem core_freeThread (t : Nat) (p : Option Nat) (c : Ctx V) :
    (c.freeThread t p).core = c.core := rfl

/-- The contents of the records stay, but for the lists and the counters of threads, the marks, and
the event of a state instance. -/
structure Stays (c c' : Ctx V) : Prop where
  grows : Grows c c'
  threads : c'.thr.size = c.thr.size
  states : c'.si.size = c.si.size
  current : ∀ s, (c'.si.cell s).currentEnv = (c.si.cell s).currentEnv
  inherit : ∀ s, (c'.si.cell s).inheritEnv = (c.si.cell s).inheritEnv
  lists : ∀ r, (c'.ri.cell r).syncLockList = (c.ri.cell r).syncLockList
  ruleLive : c'.ri.live = c.ri.live
  syncLock : c'.syncLock = c.syncLock

namespace Stays

variable {c c' c'' : Ctx V}

theorem refl (c : Ctx V) : Stays c c :=
  ⟨.refl c, rfl, rfl, fun _ => rfl, fun _ => rfl, fun _ => rfl, rfl, rfl⟩

theorem trans {d : Ctx V} (h : Stays c d) (h' : Stays d c'') : Stays c c'' where
  grows := h.grows.trans h'.grows
  threads := h'.threads.trans h.threads
  states := h'.states.trans h.states
  current s := (h'.current s).trans (h.current s)
  inherit s := (h'.inherit s).trans (h.inherit s)
  lists r := (h'.lists r).trans (h.lists r)
  ruleLive := h'.ruleLive.trans h.ruleLive
  syncLock := h'.syncLock.trans h.syncLock

/-- Only the threads and the queues change. -/
theorem of_core (hg : Grows c c') (hr : c'.records = c.records) (h : c'.core = c.core) :
    Stays c c' := by
  have hn : c'.thr.size = c.thr.size := congrArg RecordView.threads hr
  have hsi : c'.si = c.si := congrArg CoreView.si h
  have hri : c'.ri = c.ri := congrArg CoreView.ri h
  exact ⟨hg, hn, by rw [hsi], fun s => by rw [hsi], fun s => by rw [hsi], fun r => by rw [hri],
    by rw [hri], congrArg CoreView.syncLock h⟩

/-- One record of a rule instance changes. -/
theorem modifyRule (r : Nat) (f : RuleInst → RuleInst) (hf : ∀ x, (f x).rule = x.rule)
    (hl : ∀ x, (f x).syncLockList = x.syncLockList) (c : Ctx V) :
    Stays c { c with ri := c.ri.modify r f } where
  grows := ⟨.refl _, .refl _, .modify _ _ _ (hf _)⟩
  threads := rfl
  states := rfl
  current _ := rfl
  inherit _ := rfl
  lists b := c.ri.proj_modify r b f RuleInst.syncLockList (hl _)
  ruleLive := c.ri.live_modify r f
  syncLock := rfl

/-- One record of a state instance changes. -/
theorem modifyState (s : Nat) (f : StateInst V → StateInst V) (hf : ∀ x, (f x).fixed = x.fixed)
    (hc : ∀ x, (f x).currentEnv = x.currentEnv) (hi : ∀ x, (f x).inheritEnv = x.inheritEnv)
    (c : Ctx V) : Stays c { c with si := c.si.modify s f } where
  grows := ⟨.refl _, .modify _ _ _ (hf _), .refl _⟩
  threads := rfl
  states := c.si.size_modify s f
  current b := c.si.proj_modify s b f StateInst.currentEnv (hc _)
  inherit b := c.si.proj_modify s b f StateInst.inheritEnv (hi _)
  lists _ := rfl
  ruleLive := rfl
  syncLock := rfl

end Stays

/-- Also a new thread changes only lists and counters of the other records. -/
theorem newThread_rest (clock : Ctx V → Nat) (s : Nat) (onlyOnce : Bool) (tr : Trans)
    (c : Ctx V) :
    (∀ b, ((c.newThread clock s onlyOnce tr).si.cell b).currentEnv = (c.si.cell b).currentEnv) ∧
      (∀ b, ((c.newThread clock s onlyOnce tr).si.cell b).inheritEnv = (c.si.cell b).inheritEnv) ∧
      (∀ r, ((c.newThread clock s onlyOnce tr).ri.cell r).syncLockList =
        (c.ri.cell r).syncLockList) ∧
      (c.newThread clock s onlyOnce tr).ri.live = c.ri.live ∧
      (c.newThread clock s onlyOnce tr).syncLock = c.syncLock := by
  have hcore := core_pushNew c.thr.size { c with
    thr := c.thr.alloc
      { next := none, trans := tr, stateInstance := s, onlyOnce, bump := false, killed := false
        pass := 0, timeout := clock c + Ctx.defaultTimeout }
    ri := c.ri.modify (c.si.cell s).ruleInstance fun x => { x with threads := x.threads + 1 }
    threads := c.threads + 1
    si := if onlyOnce then c.si
      else c.si.modify s fun x => { x with threadList := c.thr.size :: x.threadList } }
  have hsi : (c.newThread clock s onlyOnce tr).si = _ := congrArg CoreView.si hcore
  have hri : (c.newThread clock s onlyOnce tr).ri = _ := congrArg CoreView.ri hcore
  refine ⟨fun b => ?_, fun b => ?_, fun r => ?_, ?_, congrArg CoreView.syncLock hcore⟩
  · rw [hsi]
    cases onlyOnce
    · exact c.si.proj_modify s b _ StateInst.currentEnv rfl
    · rfl
  · rw [hsi]
    cases onlyOnce
    · exact c.si.proj_modify s b _ StateInst.inheritEnv rfl
    · rfl
  · rw [hri]
    exact c.ri.proj_modify _ r _ RuleInst.syncLockList rfl
  · rw [hri]
    exact c.ri.live_modify _ _

theorem stays_markDeadRule (r : Nat) (c : Ctx V) : Stays c (c.markDeadRule r) := by
  refine Stays.trans (d := { c with
    thr := c.thr.map fun a t => { t with killed := t.killed || decide (a ∈ c.markedThreads r) }
    forgotten := c.forgotten + (c.forgottenThreads r).length }) ?_
    (.modifyRule r (fun x => { x with killed := true }) (fun _ => rfl) (fun _ => rfl) _)
  exact .of_core ⟨.map _ _ fun _ _ => rfl, .refl _, .refl _⟩ (by simp [Ctx.records]) rfl

theorem stays_bindEvent (e s : Nat) (c : Ctx V) : Stays c (c.bindEvent e s) := by
  refine Stays.trans (d := { c with
    ae := c.ae.modify e fun x => { x with refs := x.refs + 1 } }) ?_
    (.modifyState s (fun x => { x with event := some e }) (fun _ => rfl) (fun _ => rfl)
      (fun _ => rfl) _)
  exact ⟨⟨.refl _, .refl _, .refl _⟩, rfl, rfl, fun _ => rfl, fun _ => rfl, fun _ => rfl, rfl, rfl⟩

theorem stays_killThread (t : Nat) (c : Ctx V) : Stays c (c.killThread t) :=
  .of_core (grows_killThread t c) (records_killThread t c) rfl

theorem stays_beginVisit (curTime t : Nat) (c : Ctx V) : Stays c (c.beginVisit curTime t) :=
  .of_core (grows_beginVisit curTime t c) (records_beginVisit curTime t c)
    (core_beginVisit curTime t c)

theorem stays_mergeQueues (c : Ctx V) : Stays c c.mergeQueues :=
  .of_core (grows_mergeQueues c) (records_mergeQueues c) (core_mergeQueues c)

theorem stays_commitAt (t : Nat) (c : Ctx V) : Stays c (c.commitAt t) :=
  .of_core (grows_commitAt t c) (records_commitAt t c) (core_commitAt t c)

theorem stays_requeue (t : Nat) (c : Ctx V) : Stays c (c.requeue t) :=
  .of_core (grows_requeue t c) (records_requeue t c) rfl

theorem stays_setCreationDate (r : Nat) (c : Ctx V) : Stays c (c.setCreationDate r) := by
  let k := (c.ri.cell r).rule
  refine Stays.trans (d := { c with
      instances := Function.update c.instances k (c.instances k + 1)
      ruleInstances := c.ruleInstances + 1 }) ?_
    (.modifyRule r (fun x => { x with creationDate := true }) (fun _ => rfl) (fun _ => rfl) _)
  exact ⟨⟨.refl _, .refl _, .refl _⟩, rfl, rfl, fun _ => rfl, fun _ => rfl, fun _ => rfl, rfl, rfl⟩

theorem stays_countPass (t : Nat) (c : Ctx V) : Stays c (c.countPass t) := by
  have hcount : Stays c { c with thr := c.thr.modify t fun x => { x with pass := x.pass + 1 } } :=
    .of_core ⟨.modify _ _ _ rfl, .refl _, .refl _⟩
      (by simp [Ctx.records, proj_modify_of_eq WaitThread.stateInstance]) rfl
  unfold Ctx.countPass
  simp only
  split
  · exact hcount.trans (stays_setCreationDate _ _)
  · exact hcount

theorem stays_freeThread (t : Nat) (p : Option Nat) (c : Ctx V) : Stays c (c.freeThread t p) :=
  .of_core (grows_freeThread t p c) (records_freeThread t p c) rfl

theorem stays_beginEvent (event : List (Nat × V)) (c : Ctx V) : Stays c (c.beginEvent event) :=
  ⟨⟨.refl _, .refl _, .refl _⟩, rfl, rfl, fun _ => rfl, fun _ => rfl, fun _ => rfl, rfl, rfl⟩

theorem stays_endEvent (event : List (Nat × V)) (e : Nat) (c : Ctx V) :
    Stays c (c.endEvent event e) := by
  unfold Ctx.endEvent
  simp only
  have h : ∀ ae n hd tl g, Stays c { c with
      ae := ae, activeEvents := n, activeEventHead := hd, activeEventTail := tl, globalFields := g } :=
    fun _ _ _ _ _ => ⟨⟨.refl _, .refl _, .refl _⟩, rfl, rfl, fun _ => rfl, fun _ => rfl,
      fun _ => rfl, rfl, rfl⟩
  split
  · exact h _ _ _ _ _
  · split <;> exact h _ _ _ _ _

theorem stays_linkRuleInst (r : Nat) (ret : Int) (c : Ctx V) : Stays c (c.linkRuleInst r ret) := by
  unfold Ctx.linkRuleInst
  refine Stays.trans ?_ (.of_core (grows_bumpTail _ _) (records_bumpTail _ _) (core_bumpTail _ _))
  refine Stays.trans (d := { c with firstRuleInstance := r :: c.firstRuleInstance }) ?_
    (.modifyRule r (fun x => { x with threads := ret }) (fun _ => rfl) (fun _ => rfl) _)
  exact ⟨⟨.refl _, .refl _, .refl _⟩, rfl, rfl, fun _ => rfl, fun _ => rfl, fun _ => rfl, rfl, rfl⟩

theorem stays_countDown (r : Nat) (c : Ctx V) : Stays c (c.countDown r) := by
  refine Stays.trans (d := { c with threads := c.threads - 1 }) ?_
    (.modifyRule r (fun x => { x with threads := x.threads - 1 }) (fun _ => rfl) (fun _ => rfl) _)
  exact ⟨⟨.refl _, .refl _, .refl _⟩, rfl, rfl, fun _ => rfl, fun _ => rfl, fun _ => rfl, rfl, rfl⟩

theorem stays_killRuleInst (r : Nat) (c : Ctx V) : Stays c (c.killRuleInst r) :=
  .modifyRule r (fun x => { x with killed := true }) (fun _ => rfl) (fun _ => rfl) c

theorem stays_unlinkRuleInst (r : Nat) (c : Ctx V) : Stays c (c.unlinkRuleInst r) :=
  ⟨⟨.refl _, .refl _, .refl _⟩, rfl, rfl, fun _ => rfl, fun _ => rfl, fun _ => rfl, rfl, rfl⟩

theorem stays_unlinkThread (t : Nat) (c : Ctx V) : Stays c (c.unlinkThread t) :=
  .modifyState (c.thr.cell t).stateInstance (fun x => { x with threadList := x.threadList.erase t })
    (fun _ => rfl) (fun _ => rfl) (fun _ => rfl) c

end Orchids

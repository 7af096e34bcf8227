import Mathlib.Logic.Relation
import Orchids.Engine.Visits

/-!
# Killing the threads of a rule instance (`issdl_kill_threads`)

The built-in goes from `cur_retrig_qh` along the links and marks the threads of its rule instance.
It runs in the middle of a call of `inject_event`, when the event loop has put threads of the
current queue behind the retrigger queue and new threads are in the new queue.

* `EngineAt`, `Comes`: where a call is, and where it comes to next; `Evaluates`: where byte code
  runs.
* `KillPoint`: the states in which a built-in runs.
* `Ok.comes`: what the queues are in all these.
* `killThreads_iff`: all threads of the rule instance are marked if and only if those that are not
  yet are in the queue of `cur_retrig_qh`, and none of them before it.
-/

namespace Orchids

variable {V : Type}

/-! ## The built-in -/

namespace Ctx

/-- The threads that the loop of `issdl_kill_threads` marks. -/
def killedThreads (s : Nat) (c : Ctx V) : List Nat :=
  (c.threadsFrom c.curRetrigQh).filter fun t => c.ruleInstOf t = (c.si.cell s).ruleInstance

/-- `issdl_kill_threads` -/
def killThreads (s : Nat) (c : Ctx V) : Ctx V :=
  { c with
    thr := c.thr.map fun a t => { t with killed := t.killed || decide (a ∈ c.killedThreads s) } }

end Ctx

/-- After the built-in all live threads of the rule instance are marked, and no other ones by it. -/
def KillsInstance (s : Nat) (c : Ctx V) : Prop :=
  (∀ t, c.thr.live t = true → c.ruleInstOf t = (c.si.cell s).ruleInstance →
    ((c.killThreads s).thr.cell t).killed = true) ∧
  ∀ t, c.ruleInstOf t ≠ (c.si.cell s).ruleInstance →
    ((c.killThreads s).thr.cell t).killed = (c.thr.cell t).killed

/-- The thread is the one at `cur_retrig_qh`, or behind it in its queue. -/
def FromCurHead (c : Ctx V) (new retrig rest : List Nat) (t : Nat) : Prop :=
  ∃ p before behind, c.curRetrigQh = some p ∧ before ++ p :: behind ∈ [new, retrig, rest] ∧
    t ∈ p :: behind

/-- The threads of the rule instance that are not marked yet are in the queue of `cur_retrig_qh`,
and none of them before it. -/
def AllFromCurHead (s : Nat) (c : Ctx V) : Prop :=
  ∃ new retrig rest, Queues c.queues new retrig rest ∧
    ∀ t ∈ new ++ (retrig ++ rest), c.ruleInstOf t = (c.si.cell s).ruleInstance →
      (c.thr.cell t).killed = false → FromCurHead c new retrig rest t

section

variable {c : Ctx V} {new retrig rest : List Nat} {s t : Nat}

theorem killed_killThreads (s t : Nat) (c : Ctx V) : ((c.killThreads s).thr.cell t).killed =
    ((c.thr.cell t).killed || decide (t ∈ c.killedThreads s)) := by
  simp [Ctx.killThreads]

theorem mem_killedThreads : t ∈ c.killedThreads s ↔
    t ∈ c.threadsFrom c.curRetrigQh ∧ c.ruleInstOf t = (c.si.cell s).ruleInstance := by
  simp [Ctx.killedThreads]

/-- The queue that a thread is in. -/
theorem Queues.linked_of_mem (h : Queues c.queues new retrig rest) {q : List Nat}
    (hq : q ∈ [new, retrig, rest]) : Linked c.next q ∧ ∀ t ∈ q, t ∈ new ++ (retrig ++ rest) := by
  simp only [List.mem_cons, List.not_mem_nil, or_false] at hq
  rcases hq with rfl | rfl | rfl
  · exact ⟨h.newQueue.linked, fun t ht => List.mem_append_left _ ht⟩
  · exact ⟨h.retrigQueue.linked, fun t ht => List.mem_append_right _ (List.mem_append_left _ ht)⟩
  · exact ⟨h.restLinked, fun t ht => List.mem_append_right _ (List.mem_append_right _ ht)⟩

/-- The links from `cur_retrig_qh` go to the end of its queue. -/
theorem Queues.mem_threadsFrom_cur (h : Queues c.queues new retrig rest) :
    t ∈ c.threadsFrom c.curRetrigQh ↔ FromCurHead c new retrig rest t := by
  have hwalk : ∀ {p : Nat} {before behind : List Nat}, before ++ p :: behind ∈ [new, retrig, rest] →
      c.threadsFrom (some p) = p :: behind := by
    intro p before behind hq
    obtain ⟨hlinked, hsub⟩ := h.linked_of_mem hq
    refine walk_append hlinked (h.length_le hlinked.of_append.nodup fun t ht => hsub t ?_)
    exact List.mem_append_right before ht
  constructor
  · intro ht
    cases hp : c.curRetrigQh with
    | none =>
      rw [hp, Ctx.threadsFrom] at ht
      cases hn : c.thr.size <;> rw [hn] at ht <;> cases ht
    | some p =>
      have hmem : ∃ q ∈ [new, retrig, rest], p ∈ q := by
        rcases h.curHead p hp with hm | hm
        · rcases List.mem_append.mp hm with hm | hm
          · exact ⟨new, by simp, hm⟩
          · exact ⟨retrig, by simp, hm⟩
        · exact ⟨rest, by simp, List.mem_of_mem_head? hm⟩
      obtain ⟨q, hq, hpq⟩ := hmem
      obtain ⟨before, behind, rfl⟩ := List.append_of_mem hpq
      rw [hp, hwalk hq] at ht
      exact ⟨p, before, behind, hp, hq, ht⟩
  · rintro ⟨p, before, behind, hp, hq, ht⟩
    rw [hp, hwalk hq]
    exact ht

theorem Queues.killsInstance_iff (h : Queues c.queues new retrig rest) :
    KillsInstance s c ↔ AllFromCurHead s c := by
  constructor
  · intro hk
    refine ⟨new, retrig, rest, h, fun t ht hr hnot => ?_⟩
    have hmark := hk.1 t ((h.live t).mpr ht) hr
    rw [killed_killThreads, hnot, Bool.false_or, decide_eq_true_iff, mem_killedThreads] at hmark
    exact h.mem_threadsFrom_cur.mp hmark.1
  · rintro ⟨new', retrig', rest', h', hall⟩
    constructor
    · intro t hl hr
      rw [killed_killThreads]
      cases hk : (c.thr.cell t).killed with
      | true => rfl
      | false =>
        rw [Bool.false_or, decide_eq_true_iff, mem_killedThreads]
        exact ⟨h'.mem_threadsFrom_cur.mpr (hall t ((h'.live t).mp hl) hr hk), hr⟩
    · intro t hr
      have hnot : t ∉ c.killedThreads s := fun hm => hr (mem_killedThreads.mp hm).2
      rw [killed_killThreads, decide_eq_false hnot, Bool.or_false]

end

/-! ## Where the byte code runs -/

/-- Where a call of `inject_event` is: in the loop over the rules, at the start of a simulation, in
its loop over the transitions, in the event loop, or at the transition of a thread. -/
inductive EngineAt (V : Type) where
  | rules (ks : List Nat) (c : Ctx V)
  | state (onlyOnce : Bool) (s : Nat) (c : Ctx V)
  | trans (onlyOnce : Bool) (s : Nat) (trs : List Trans) (c : Ctx V)
  | loop (next : Option Nat) (c : Ctx V)
  | visit (t : Nat) (c : Ctx V)

section

variable [SyncValue V] (rules : RuleSet) (prune : Nat → Ctx V → Bool) (call : Call V)

/-- Where a call comes to next: into a function that it calls, or behind that when it returns. -/
inductive Comes (curTime e : Nat) : EngineAt V → EngineAt V → Prop
  | startRule {k : Nat} {ks : List Nat} {c : Ctx V} :
      Comes curTime e (.rules (k :: ks) c) (.state true c.si.size (c.newRuleInst k))
  | nextRule {k fuel : Nat} {ks : List Nat} {c c' : Ctx V} :
      startRule rules call fuel k c = some c' →
      Comes curTime e (.rules (k :: ks) c) (.rules ks c')
  | evtLoop {c : Ctx V} :
      Comes curTime e (.rules [] c) (.loop c.mergeQueues.curRetrigQh c.mergeQueues)
  | visit {t : Nat} {c : Ctx V} :
      ((c.beginVisit curTime t).thr.cell t).killed = false →
      Comes curTime e (.loop (some t) c) (.visit t (c.beginVisit curTime t))
  | pass {t : Nat} {c : Ctx V} {code : List Nat} :
      (c.thr.cell t).trans.evalCode.getD [] = code →
      (call.vm c (c.thr.cell t).stateInstance code).ret = 0 →
      Comes curTime e (.visit t c) (.state false c.si.size
        ((c.vmExec call.vm (c.thr.cell t).stateInstance code).passState e t))
  | nextThread {t fuel : Nat} {c c' : Ctx V} :
      evtStep rules prune call fuel curTime e t (c.next t) c = some c' →
      Comes curTime e (.loop (some t) c) (.loop (c.next t) c')
  | enter {onlyOnce : Bool} {s : Nat} {c c' : Ctx V} :
      ((c.execAction rules call s).stateOf rules s).trans ≠ [] →
      (c.execAction rules call s).checkLock rules s onlyOnce = some c' →
      Comes curTime e (.state onlyOnce s c) (.trans onlyOnce s (c'.stateOf rules s).trans c')
  | newState {onlyOnce : Bool} {s : Nat} {tr : Trans} {trs : List Trans} {c : Ctx V} :
      tr.requiredFieldsNb = 0 → c.condRet call s tr = 0 →
      Comes curTime e (.trans onlyOnce s (tr :: trs) c)
        (.state onlyOnce (c.execCond call s tr).si.size ((c.execCond call s tr).newState tr.dest s))
  | simulated {onlyOnce : Bool} {s fuel : Nat} {tr : Trans} {trs : List Trans} {c c' : Ctx V}
      {ret : Int} : tr.requiredFieldsNb = 0 → c.condRet call s tr = 0 →
      simulate rules call fuel (c.execCond call s tr).si.size onlyOnce
        ((c.execCond call s tr).newState tr.dest s) = some (ret, c') → 0 ≤ ret →
      Comes curTime e (.trans onlyOnce s (tr :: trs) c) (.trans onlyOnce s trs c')
  | failed {onlyOnce : Bool} {s : Nat} {tr : Trans} {trs : List Trans} {c : Ctx V} :
      tr.requiredFieldsNb = 0 → c.condRet call s tr ≠ 0 →
      Comes curTime e (.trans onlyOnce s (tr :: trs) c)
        (.trans onlyOnce s trs (c.execCond call s tr))
  | newThread {onlyOnce : Bool} {s : Nat} {tr : Trans} {trs : List Trans} {c : Ctx V} :
      tr.requiredFieldsNb ≠ 0 →
      Comes curTime e (.trans onlyOnce s (tr :: trs) c)
        (.trans onlyOnce s trs (c.newThread call.clock s onlyOnce tr))

/-- `ovm_exec` is called for the state instance `s`. -/
inductive Evaluates : EngineAt V → Nat → Ctx V → Prop
  | action {onlyOnce : Bool} {s : Nat} {c : Ctx V} :
      (c.stateOf rules s).action ≠ none → Evaluates (.state onlyOnce s c) s c
  | cond {onlyOnce : Bool} {s : Nat} {tr : Trans} {trs : List Trans} {c : Ctx V} :
      tr.requiredFieldsNb = 0 → tr.evalCode ≠ none → Evaluates (.trans onlyOnce s (tr :: trs) c) s c
  | trans {t : Nat} {c : Ctx V} : Evaluates (.visit t c) (c.thr.cell t).stateInstance c

/-- A built-in runs for `s` in the state `c`, during a call from `c₀`: what the byte code has done
before it is what some byte code does. -/
inductive KillPoint (c₀ : Ctx V) (s : Nat) : Ctx V → Prop
  | intro {a : EngineAt V} {c : Ctx V} (vm : Vm V) (code : List Nat) :
      Relation.ReflTransGen (Comes rules prune call (call.clock c₀) c₀.ae.size)
        (.rules (List.range rules.length) (c₀.beginEvent call.event)) a →
      Evaluates rules a s c → KillPoint c₀ s (c.vmExec vm s code)

/-! ## The queues in all these -/

variable {rules prune call} {curTime e : Nat} {c₀ c : Ctx V} {s : Nat}

/-- The queues are in order, wherever the call is. -/
def EngineAt.Ok : EngineAt V → Prop
  | .rules _ c => Wf c.records none ∧ ∃ new retrig, Queues c.queues new retrig []
  | .state _ s c | .trans _ s _ c =>
      (∃ r, Of c r s) ∧ ∃ new retrig rest, Queues c.queues new retrig rest
  | .loop p c =>
      Wf c.records none ∧ ∃ new retrig rest, Queues c.queues new retrig rest ∧ rest.head? = p
  | .visit t c =>
      Wf c.records none ∧ t < c.thr.size ∧ ∃ new retrig rest, Queues c.queues new retrig rest

theorem queues_checkLock {onlyOnce : Bool} {c' : Ctx V}
    (h : c.checkLock rules s onlyOnce = some c') : c'.queues = c.queues := by
  rcases checkLock_some h with rfl | ⟨rfl, -⟩ <;> rfl

theorem EngineAt.Ok.comes {a b : EngineAt V} (h : a.Ok)
    (hab : Comes rules prune call curTime e a b) : b.Ok := by
  cases hab with
  | startRule =>
    obtain ⟨-, new, retrig, hq⟩ := h
    exact ⟨⟨_, .newRuleInst _ _⟩, new, retrig, [], hq⟩
  | nextRule hs =>
    obtain ⟨hw, new, retrig, hq⟩ := h
    exact ⟨startRule_wf hw hs, _, _, (startRule_queues hq hs).queues⟩
  | evtLoop =>
    obtain ⟨hw, new, retrig, hq⟩ := h
    exact (@base_rules V _ rules prune).mergeQueues e _ trivial ⟨hw, new, retrig, [], hq, rfl⟩
  | visit hk =>
    obtain ⟨hw, new, retrig, rest, hq, hp⟩ := h
    obtain ⟨rest, rfl⟩ := List.head?_eq_some_iff.mp hp
    refine ⟨by rwa [records_beginVisit], ?_, new, retrig, _, beginVisit_queues _ hq⟩
    exact lt_of_lt_of_eq (hq.mem_lt (by simp))
      (congrArg RecordView.threads (records_beginVisit _ _ _)).symm
  | pass hcode hret =>
    obtain ⟨hw, ht, new, retrig, rest, hq⟩ := h
    rename_i t c code
    have hw' : Wf (c.vmExec call.vm (c.thr.cell t).stateInstance code).records none := by
      rwa [records_vmExec]
    have ho := hw'.passState_of (by rwa [thr_size_vmExec]) e
    rw [si_size_vmExec] at ho
    exact ⟨⟨_, ho⟩, new, retrig, rest, by rwa [queues_passState, queues_vmExec]⟩
  | nextThread hs =>
    exact (@base_rules V _ rules prune).evtStep call _ _ e _ _ _ trivial trivial h hs
  | enter htrans hl =>
    obtain ⟨⟨r, ho⟩, new, retrig, rest, hq⟩ := h
    refine ⟨⟨r, (ho.grows (grows_execAction rules call _ _)).grows (grows_checkLock hl)⟩,
      new, retrig, rest, ?_⟩
    rwa [queues_checkLock hl, queues_execAction]
  | newState hf hret =>
    obtain ⟨⟨r, ho⟩, new, retrig, rest, hq⟩ := h
    refine ⟨⟨r, (ho.grows (grows_execCond call _ _ _)).newState _⟩, new, retrig, rest, ?_⟩
    rwa [queues_newState, queues_execCond]
  | simulated hf hret hs hpos =>
    obtain ⟨⟨r, ho⟩, new, retrig, rest, hq⟩ := h
    rename_i onlyOnce s fuel tr trs c c' ret
    have ho₁ := ho.grows (grows_execCond call s tr c)
    have hq₁ : Queues ((c.execCond call s tr).newState tr.dest s).queues new retrig rest := by
      rwa [queues_newState, queues_execCond]
    have hg := (simulate_inv (I := fun _ => True) (.of_inv (fun _ _ _ _ h => h) (fun _ h => h)
      (fun _ _ _ h => h) (fun _ _ _ _ h => h) fun _ _ _ _ h => h) (ho₁.newState tr.dest) trivial
      hs).1
    exact ⟨⟨r, (ho₁.grows (grows_newState tr.dest s _)).grows hg⟩, _, retrig, rest,
      (simulate_queues (ho₁.newState tr.dest) hq₁ hs).queues⟩
  | failed hf hret =>
    obtain ⟨⟨r, ho⟩, new, retrig, rest, hq⟩ := h
    exact ⟨⟨r, ho.grows (grows_execCond call _ _ _)⟩, new, retrig, rest,
      by rwa [queues_execCond]⟩
  | newThread hf =>
    obtain ⟨⟨r, ho⟩, new, retrig, rest, hq⟩ := h
    rename_i onlyOnce s tr trs c
    have hpush := hq.push
    rw [← queues_newThread call.clock s onlyOnce tr hq.newPtr] at hpush
    exact ⟨⟨r, ho.grows (grows_newThread call.clock s onlyOnce tr c)⟩, _, retrig, rest, hpush⟩

theorem EngineAt.Ok.reach {a b : EngineAt V} (h : a.Ok)
    (hab : Relation.ReflTransGen (Comes rules prune call curTime e) a b) : b.Ok := by
  induction hab with
  | refl => exact h
  | tail _ hbc ih => exact ih.comes hbc

/-- The queues are in order where a built-in runs. -/
theorem KillPoint.queues (hr : Reach rules prune c₀) (h : KillPoint rules prune call c₀ s c) :
    ∃ new retrig rest, Queues c.queues new retrig rest := by
  obtain ⟨vm, code, hreach, hev⟩ := h
  rename_i a c
  obtain ⟨hw, new, retrig, hq⟩ := hr.base
  have hstart : (EngineAt.rules (List.range rules.length) (c₀.beginEvent call.event)).Ok :=
    ⟨hw, new, retrig, hq⟩
  have hok : a.Ok := hstart.reach hreach
  rw [queues_vmExec]
  cases hev with
  | action => exact hok.2
  | cond => exact hok.2
  | trans => exact hok.2.2

/-- Wherever the built-in runs, in any call after any calls: it marks the live threads of its rule
instance, and no other ones, if and only if those that are not marked yet are in the queue of
`cur_retrig_qh`, and none of them before it. -/
theorem killThreads_iff (hr : Reach rules prune c₀) (h : KillPoint rules prune call c₀ s c) :
    KillsInstance s c ↔ AllFromCurHead s c := by
  obtain ⟨new, retrig, rest, hq⟩ := h.queues hr
  exact hq.killsInstance_iff

end

/-! ## Two rules -/

/-- The transition of the initial thread of `twoEvents`, at the first event. -/
def firstVisit : Ctx Val :=
  ((((startRule twoEvents passing 3 0 ((Ctx.init Val).beginEvent passing.event)).getD
    (Ctx.init Val)).mergeQueues.beginVisit 0 0).vmExec passing.vm 0 [0])

theorem firstVisit_point :
    KillPoint twoEvents (backtrackIsNotNeeded twoEvents) passing (Ctx.init Val) 0 firstVisit := by
  let c := (Ctx.init Val).beginEvent passing.event
  have hsome : (startRule twoEvents passing 3 0 c).isSome = true := by decide +kernel
  obtain ⟨c₁, hc₁⟩ := Option.isSome_iff_exists.mp hsome
  have hget : (startRule twoEvents passing 3 0 c).getD (Ctx.init Val) = c₁ := by
    rw [hc₁]
    rfl
  have hhead : c₁.mergeQueues.curRetrigQh = some 0 := by
    rw [← hget]
    decide +kernel
  have hkilled : ((c₁.mergeQueues.beginVisit 0 0).thr.cell 0).killed = false := by
    rw [← hget]
    decide +kernel
  have hstate : ((c₁.mergeQueues.beginVisit 0 0).thr.cell 0).stateInstance = 0 := by
    rw [← hget]
    decide +kernel
  have hloop : Comes twoEvents (backtrackIsNotNeeded twoEvents) passing 0 0 (.rules [] c₁)
      (.loop (some 0) c₁.mergeQueues) := hhead ▸ .evtLoop
  have hpath := Relation.ReflTransGen.refl.tail (Comes.nextRule hc₁) |>.tail hloop |>.tail
    (.visit hkilled)
  have hpoint : KillPoint twoEvents (backtrackIsNotNeeded twoEvents) passing (Ctx.init Val) _ _ :=
    .intro passing.vm [0] hpath .trans
  rw [hstate, ← hget] at hpoint
  exact hpoint

/-- The built-in marks the one thread of the rule instance. -/
theorem killThreads_iff_firstVisit :
    KillsInstance 0 firstVisit ∧ firstVisit.thr.live 0 = true := by
  have hhead : firstVisit.curRetrigQh = some 0 := by decide +kernel
  have hsize : firstVisit.thr.size = 1 := by decide +kernel
  refine ⟨(killThreads_iff .init firstVisit_point).mpr ?_, by decide +kernel⟩
  obtain ⟨new, retrig, rest, hq⟩ := firstVisit_point.queues .init
  refine ⟨new, retrig, rest, hq, fun t ht _ _ => ?_⟩
  have hlt : t < 1 := lt_of_lt_of_eq (hq.mem_lt ht) hsize
  obtain rfl : t = 0 := Nat.lt_one_iff.mp hlt
  rw [← hq.mem_threadsFrom_cur, hhead, Ctx.threadsFrom, hsize]
  exact List.mem_cons_self

/-- A rule whose initial state waits for an event, and also goes on to a state with an action. -/
def waitAndGo : RuleSet :=
  [{ states := [
      { action := none, trans := [⟨1, some [0], 1⟩, ⟨0, some [1], 1⟩], havePushfield := false },
      { action := some [2], trans := [⟨1, some [0], 1⟩], havePushfield := false }]
     syncVars := [], syncLock := false }]

/-- The rule instance at the first event, with the thread of the first transition. -/
def waitingThread : Ctx Val :=
  (((Ctx.init Val).beginEvent passing.event).newRuleInst 0).newThread passing.clock 0 true
    ⟨1, some [0], 1⟩

/-- The action of the state of the second transition. -/
def goneOn : Ctx Val :=
  ((waitingThread.execCond passing 0 ⟨0, some [1], 1⟩).newState 1 0).vmExec passing.vm 1 [2]

theorem goneOn_point :
    KillPoint waitAndGo (backtrackIsNotNeeded waitAndGo) passing (Ctx.init Val) 1 goneOn := by
  let c := ((Ctx.init Val).beginEvent passing.event).newRuleInst 0
  have haction : c.execAction waitAndGo passing 0 = c := by with_unfolding_all rfl
  have hstate : c.stateOf waitAndGo 0 =
      { action := none, trans := [⟨1, some [0], 1⟩, ⟨0, some [1], 1⟩]
        havePushfield := false } := by
    decide +kernel
  have hlock : c.checkLock waitAndGo 0 true = some c := by with_unfolding_all rfl
  have hsize : (waitingThread.execCond passing 0 ⟨0, some [1], 1⟩).si.size = 1 := by decide +kernel
  have hstart : Comes waitAndGo (backtrackIsNotNeeded waitAndGo) passing 0 0
      (.rules [0] ((Ctx.init Val).beginEvent passing.event)) (.state true 0 c) := .startRule
  have henter : Comes waitAndGo (backtrackIsNotNeeded waitAndGo) passing 0 0 (.state true 0 c)
      (.trans true 0 (c.stateOf waitAndGo 0).trans c) :=
    .enter (by rw [haction, hstate]; nofun) (by rw [haction, hlock])
  rw [hstate] at henter
  have hgo : Comes waitAndGo (backtrackIsNotNeeded waitAndGo) passing 0 0
      (.trans true 0 [⟨0, some [1], 1⟩] waitingThread)
      (.state true (waitingThread.execCond passing 0 ⟨0, some [1], 1⟩).si.size
        ((waitingThread.execCond passing 0 ⟨0, some [1], 1⟩).newState 1 0)) := .newState rfl rfl
  rw [hsize] at hgo
  have haction' : (((waitingThread.execCond passing 0 ⟨0, some [1], 1⟩).newState 1 0).stateOf
      waitAndGo 1).action ≠ none := by decide +kernel
  have hpath := Relation.ReflTransGen.refl.tail hstart |>.tail henter
    |>.tail (.newThread (by decide)) |>.tail hgo
  exact .intro passing.vm [2] hpath (.action haction')

/-- In the first event nothing is at `cur_retrig_qh`: the thread is not marked. -/
theorem not_killsInstance : ¬ ∀ (rules : RuleSet) (prune : Nat → Ctx Val → Bool) (call : Call Val)
    (c₀ c : Ctx Val) (s : Nat), Reach rules prune c₀ → KillPoint rules prune call c₀ s c →
    KillsInstance s c := by
  intro h
  have hk := (h _ _ _ _ _ _ .init goneOn_point).1 0 (by decide +kernel) (by decide +kernel)
  have hnot : ((goneOn.killThreads 1).thr.cell 0).killed = false := by decide +kernel
  rw [hnot] at hk
  cases hk

end Orchids

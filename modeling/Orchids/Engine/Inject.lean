import Orchids.Engine.Simulate

/-!
# The injection of an event (`engine.c`)

`free_rule_instance`, `create_rule_initial_threads` and `inject_event`. One turn of the event loop
is `evtStep`; the loop also returns the threads that it visits, each with the state in which it
comes to them.
-/

namespace Orchids

variable {V : Type}

/-! ## The end of a rule instance -/

namespace Ctx

/-- `si->event` is freed and unlinked from the list of active events. -/
def releaseEvent (e : Nat) (c : Ctx V) : Ctx V :=
  let ae := c.ae.modify e fun x => { x with event := none }
  let c := { c with ae := ae.free e, activeEvents := c.activeEvents - 1 }
  match (ae.cell e).prev, (ae.cell e).next with
  | none, none => { c with activeEventHead := none, activeEventTail := none }
  | none, some n =>
    { c with activeEventHead := some n, ae := c.ae.modify n fun x => { x with prev := none } }
  | some p, none =>
    { c with ae := c.ae.modify p fun x => { x with next := none }, activeEventTail := some p }
  | some p, some n =>
    { c with
      ae := (c.ae.modify p fun x => { x with next := some n }).modify n fun x =>
        { x with prev := some p } }

/-- `si->event->refs--` -/
def unref (e : Nat) (c : Ctx V) : Ctx V :=
  { c with ae := c.ae.modify e fun x => { x with refs := x.refs - 1 } }

/-- One reference of an active event less; the current event is not freed here. -/
def dropEvent (e : Nat) (c : Ctx V) : Ctx V :=
  let c := c.unref e
  if (c.ae.cell e).refs ≤ 0 ∧ c.activeEventCur ≠ some e then c.releaseEvent e else c

/-- A state instance of `state_list`. -/
def freeState (s : Nat) (c : Ctx V) : Ctx V :=
  let c := match (c.si.cell s).event with
    | some e => c.dropEvent e
    | none => c
  { c with si := c.si.free s, stateInstances := c.stateInstances - 1 }

/-- The counters of the rule instances, at the end of one that has left its initial state. -/
def countEnd (r : Nat) (c : Ctx V) : Ctx V :=
  let k := (c.ri.cell r).rule
  if (c.ri.cell r).creationDate then
    { c with
      instances := Function.update c.instances k (c.instances k - 1)
      ruleInstances := c.ruleInstances - 1 }
  else c

variable [SyncValue V] (rules : RuleSet)

/-- `free_rule_instance` -/
def freeRuleInstance (r : Nat) (c : Ctx V) : Ctx V :=
  let x := c.ri.cell r
  let c := x.syncLockList.foldl (fun c s => c.objhashDel rules x.rule s) c
  let c := { c with si := c.si.free x.firstState, stateInstances := c.stateInstances - 1 }
  let c := (x.stateList.foldl (fun c s => c.freeState s) c).countEnd r
  { c with ri := c.ri.free r }

/-- The link of a rule instance is taken out of the list. -/
def unlinkRuleInst (r : Nat) (c : Ctx V) : Ctx V :=
  { c with firstRuleInstance := c.firstRuleInstance.erase r }

/-- `reap_dead_rule` -/
def reapDeadRule (r : Nat) (c : Ctx V) : Ctx V :=
  if r ∈ c.firstRuleInstance then (c.unlinkRuleInst r).freeRuleInstance rules r else c

/-- `unlink_thread_in_state_instance_list` -/
def unlinkThread (t : Nat) (c : Ctx V) : Ctx V :=
  { c with si := c.si.modify (c.thr.cell t).stateInstance fun x =>
      { x with threadList := x.threadList.erase t } }

/-- The thread counters, of the rule instance and of all, go down. -/
def countDown (r : Nat) (c : Ctx V) : Ctx V :=
  { c with
    ri := c.ri.modify r fun x => { x with threads := x.threads - 1 }
    threads := c.threads - 1 }

/-- The flag `THREAD_KILLED` of a rule instance. -/
def killRuleInst (r : Nat) (c : Ctx V) : Ctx V :=
  { c with ri := c.ri.modify r fun x => { x with killed := true } }

/-- A thread less, and the end of the rule instance at its last thread. -/
def dropThread (t : Nat) (c : Ctx V) : Ctx V :=
  let r := c.ruleInstOf t
  let c := c.countDown r
  if (c.ri.cell r).threads = 0 then (c.killRuleInst r).reapDeadRule rules r
  else c.unlinkThread t

/-- The end of a thread in the event loop, `next` behind it in the current queue. -/
def freeThread (t : Nat) (next : Option Nat) (c : Ctx V) : Ctx V :=
  let thr := match c.curRetrigQt with
    | some q => c.thr.modify q fun x => { x with next := none }
    | none => c.thr
  { c with
    curRetrigQh := if c.curRetrigQh = some t then next else c.curRetrigQh
    thr := thr.free t
    currentTail := none }

/-- The two reapers of the event loop: killed threads and initial threads. -/
def reapThread (t : Nat) (next : Option Nat) (c : Ctx V) : Ctx V :=
  (c.dropThread rules t).freeThread t next

/-! ## `create_rule_initial_threads` -/

/-- `create_init_state_instance` and the new rule instance of the rule `k`. -/
def newRuleInst (k : Nat) (c : Ctx V) : Ctx V :=
  { c with
    si := c.si.alloc
      { state := 0, ruleInstance := c.ri.size, event := none, inheritEnv := fun _ => none
        currentEnv := fun _ => none, threadList := [] }
    ri := c.ri.alloc
      { rule := k, firstState := c.si.size, stateList := [], threads := 0, killed := false
        creationDate := false, syncLockList := [] }
    stateInstances := c.stateInstances + 1
    history := .create c.si.size none :: c.history }

/-- The mark `THREAD_BUMP` on the tail of a queue. -/
def bumpTail (q : Option Nat) (c : Ctx V) : Ctx V :=
  match q with
  | some q => { c with thr := c.thr.modify q fun t => { t with bump := true } }
  | none => c

/-- The rule instance `r` with its initial threads. -/
def linkRuleInst (r : Nat) (ret : Int) (c : Ctx V) : Ctx V :=
  { c with
    ri := c.ri.modify r fun x => { x with threads := ret }
    firstRuleInstance := r :: c.firstRuleInstance }.bumpTail c.newQt

/-- The end of one turn: without a positive number of threads the instance is freed. -/
def finishRuleInst (r : Nat) (ret : Int) (c : Ctx V) : Ctx V :=
  if ret ≤ 0 then c.freeRuleInstance rules r else c.linkRuleInst r ret

/-- The current queue: the new queue and the retrigger queue behind it. -/
def mergeQueues (c : Ctx V) : Ctx V :=
  match c.newQh with
  | some q =>
    { c with
      thr := match c.newQt with
        | some qt => c.thr.modify qt fun t => { t with next := c.retrigQh }
        | none => c.thr
      curRetrigQh := some q
      curRetrigQt := match c.retrigQt with
        | some qt => some qt
        | none => c.newQt
      newQh := none, newQt := none, retrigQh := none, retrigQt := none }
  | none =>
    { c with
      curRetrigQh := c.retrigQh, curRetrigQt := c.retrigQt, retrigQh := none, retrigQt := none }

end Ctx

section

variable [SyncValue V] (rules : RuleSet) (call : Call V) (fuel : Nat)

/-- One turn of the loop over the rules. -/
def startRule (k : Nat) (c : Ctx V) : Option (Ctx V) :=
  match simulate rules call fuel c.si.size true (c.newRuleInst k) with
  | none => none
  | some (ret, c') => some (c'.finishRuleInst rules c.ri.size ret)

/-- The loop over the rules. -/
def startRules : List Nat → Ctx V → Option (Ctx V)
  | [], c => some c
  | k :: ks, c =>
    match startRule rules call fuel k c with
    | none => none
    | some c => startRules ks c

/-- `create_rule_initial_threads` -/
def createRuleInitialThreads (c : Ctx V) : Option (Ctx V) :=
  (startRules rules call fuel (List.range rules.length) c).map Ctx.mergeQueues

end

/-! ## The event loop -/

namespace Ctx

/-- The new queue and the retrigger queue behind it are the new queue. -/
def commitNew (c : Ctx V) : Ctx V :=
  let c := c.bumpTail c.retrigQt
  match c.newQh with
  | some _ =>
    let c := c.bumpTail c.newQt
    { c with
      thr := match c.newQt with
        | some qt => c.thr.modify qt fun t => { t with next := c.retrigQh }
        | none => c.thr
      newQt := match c.retrigQt with
        | some qt => some qt
        | none => c.newQt
      retrigQh := none, retrigQt := none }
  | none => { c with newQh := c.retrigQh, newQt := c.retrigQt, retrigQh := none, retrigQt := none }

/-- The threads in front of a mark `THREAD_BUMP` are new threads of the next event. -/
def commitAt (t : Nat) (c : Ctx V) : Ctx V :=
  if (c.thr.cell t).bump then c.commitNew else c

/-- `KILL_THREAD` -/
def killThread (t : Nat) (c : Ctx V) : Ctx V :=
  { c with thr := c.thr.modify t fun x => { x with killed := true } }

/-- The head of a turn: `current_tail`, and the test of the timeout. -/
def beginVisit (curTime : Nat) (t : Nat) (c : Ctx V) : Ctx V :=
  let c := { c with currentTail := some t }
  if (c.thr.cell t).onlyOnce = false ∧ (c.thr.cell t).timeout ≤ curTime then c.killThread t else c

/-- The append to the retrigger queue. -/
def requeue (t : Nat) (c : Ctx V) : Ctx V :=
  let thr := match c.retrigQh, c.retrigQt with
    | some _, some qt => c.thr.modify qt fun x => { x with next := some t }
    | _, _ => c.thr
  { c with
    thr := thr.modify t fun x => { x with next := none }
    retrigQh := match c.retrigQh with
      | some q => some q
      | none => some t
    retrigQt := some t }

/-- The creation date of a rule instance is set, and it is counted. -/
def setCreationDate (r : Nat) (c : Ctx V) : Ctx V :=
  let k := (c.ri.cell r).rule
  { c with
    ri := c.ri.modify r fun x => { x with creationDate := true }
    instances := Function.update c.instances k (c.instances k + 1)
    ruleInstances := c.ruleInstances + 1 }

/-- `t->pass++`, and the creation date where `t` is an initial thread. -/
def countPass (t : Nat) (c : Ctx V) : Ctx V :=
  let c := { c with thr := c.thr.modify t fun x => { x with pass := x.pass + 1 } }
  if (c.thr.cell t).onlyOnce then c.setCreationDate (c.ruleInstOf t) else c

/-- A state instance refers to an active event. -/
def bindEvent (e s : Nat) (c : Ctx V) : Ctx V :=
  { c with
    si := c.si.modify s fun x => { x with event := some e }
    ae := c.ae.modify e fun x => { x with refs := x.refs + 1 } }

/-- A transition that passed: the new state instance, which refers to the current event. -/
def passState (e : Nat) (t : Nat) (c : Ctx V) : Ctx V :=
  let x := c.thr.cell t
  ((c.countPass t).newState x.trans.dest x.stateInstance).bindEvent e c.si.size

end Ctx

/-- `backtrack_is_not_needed` -/
def backtrackIsNotNeeded (rules : RuleSet) (t : Nat) (c : Ctx V) : Bool :=
  let dest := (c.ruleOf rules (c.ruleInstOf t)).state (c.thr.cell t).trans.dest
  !dest.trans.isEmpty && !dest.havePushfield

section

variable [SyncValue V] (rules : RuleSet) (prune : Nat → Ctx V → Bool) (call : Call V) (fuel : Nat)

/-- The transition of the thread `t` passed at the event `e`. -/
def passThread (e t : Nat) (c : Ctx V) : Option (Ctx V) :=
  match simulate rules call fuel c.si.size false (c.passState e t) with
  | none => none
  | some (_, c) => some (if prune t c then c.killThread t else c)

/-- The transition of the thread `t` is evaluated. -/
def evalThread (e t : Nat) (c : Ctx V) : Option (Ctx V) :=
  let s := (c.thr.cell t).stateInstance
  let code := (c.thr.cell t).trans.evalCode.getD []
  if (call.vm c s code).ret = 0 then
    passThread rules prune call fuel e t (c.vmExec call.vm s code)
  else some (c.vmExec call.vm s code)

/-- One turn of the event loop, at the thread `t` with `next` behind it. -/
def evtStep (curTime e t : Nat) (next : Option Nat) (c : Ctx V) : Option (Ctx V) :=
  let c := c.beginVisit curTime t
  if (c.thr.cell t).killed then some (c.reapThread rules t next)
  else
    match evalThread rules prune call fuel e t c with
    | none => none
    | some c =>
      if (c.thr.cell t).onlyOnce then
        some (((c.killThread t).commitAt t).reapThread rules t next)
      else some ((c.requeue t).commitAt t)

/-- The event loop. -/
def evtLoop (curTime e : Nat) : Nat → Option Nat → Ctx V → Option (List (Nat × Ctx V) × Ctx V)
  | _, none, c => some ([], c)
  | 0, some _, _ => none
  | n + 1, some t, c =>
    let next := c.next t
    match evtStep rules prune call fuel curTime e t next c with
    | none => none
    | some c' =>
      match evtLoop curTime e n next c' with
      | none => none
      | some (visits, c'') => some ((t, c) :: visits, c'')

namespace Ctx

/-- The active event of a call, and its field values. -/
def beginEvent (event : List (Nat × V)) (c : Ctx V) : Ctx V :=
  { c with
    ae := c.ae.alloc { event := some event, next := none, prev := none, refs := 0 }
    activeEventCur := some c.ae.size
    globalFields := event.foldl (fun (fields : Env V) (p : Nat × V) =>
      Function.update fields p.1 (some p.2)) c.globalFields }

/-- The end of a call: the event is freed, or linked as the last active event. -/
def endEvent (event : List (Nat × V)) (e : Nat) (c : Ctx V) : Ctx V :=
  let c := { c with
    globalFields := event.foldl (fun (fields : Env V) (p : Nat × V) =>
      Function.update fields p.1 none) c.globalFields }
  if (c.ae.cell e).refs = 0 then { c with ae := c.ae.free e }
  else
    match c.activeEventHead, c.activeEventTail with
    | some _, some tl =>
      { c with
        ae := (c.ae.modify e fun x => { x with prev := some tl }).modify tl fun x =>
          { x with next := some e }
        activeEventTail := some e, activeEvents := c.activeEvents + 1 }
    | _, _ =>
      { c with
        activeEventHead := some e, activeEventTail := some e, activeEvents := c.activeEvents + 1 }

end Ctx

/-- `inject_event`, with `prune` in the place of `backtrack_is_not_needed`. -/
def injectEventWith (c : Ctx V) : Option (List (Nat × Ctx V) × Ctx V) :=
  let curTime := call.clock c
  let e := c.ae.size
  match createRuleInitialThreads rules call fuel (c.beginEvent call.event) with
  | none => none
  | some c =>
    match evtLoop rules prune call fuel curTime e c.thr.size c.curRetrigQh c with
    | none => none
    | some (visits, c) => some (visits, c.endEvent call.event e)

/-- `inject_event` -/
def injectEvent (c : Ctx V) : Option (List (Nat × Ctx V) × Ctx V) :=
  injectEventWith rules (backtrackIsNotNeeded rules) call fuel c

/-! ## Runs -/

/-- The states of the engine between two calls of `inject_event`, where each call meets `ok`. -/
inductive Run (ok : Call V → Nat → Ctx V → Prop) : Ctx V → Prop
  | init : Run ok (Ctx.init V)
  | inject {c c' : Ctx V} {visits : List (Nat × Ctx V)} (call : Call V) (fuel : Nat) :
      Run ok c → ok call fuel c →
      injectEventWith rules prune call fuel c = some (visits, c') → Run ok c'

/-- The states between two calls, for any calls. -/
abbrev Reach : Ctx V → Prop := Run rules prune fun _ _ _ => True

/-- A sequence of calls. -/
def injectEvents : List (Call V) → Ctx V → Option (Ctx V)
  | [], c => some c
  | call :: calls, c =>
    match injectEventWith rules prune call fuel c with
    | none => none
    | some (_, c) => injectEvents calls c

theorem Run.injectEvents {calls : List (Call V)} {c c' : Ctx V}
    (hr : Run rules prune (fun _ _ _ => True) c)
    (h : Orchids.injectEvents rules prune fuel calls c = some c') : Reach rules prune c' := by
  induction calls generalizing c with
  | nil => exact Option.some.inj h ▸ hr
  | cons call calls ih =>
    unfold Orchids.injectEvents at h
    cases hc : injectEventWith rules prune call fuel c with
    | none =>
      rw [hc] at h
      cases h
    | some q =>
      rw [hc] at h
      exact ih (.inject call fuel hr trivial hc) h

end

end Orchids

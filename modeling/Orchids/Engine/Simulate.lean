import Orchids.Engine.Context

/-!
# The simulation of a state (`engine.c`)

`mark_dead_rule`, the lock table, `create_state_instance` and
`simulate_state_and_create_threads`, in the order of the source. The recursion of the simulation
takes its depth as fuel: `none` is a simulation that is deeper.
-/

namespace Orchids

variable {V : Type}

namespace Ctx

/-- `ovm_exec( ctx, state, code )` -/
def vmExec (vm : Vm V) (s : Nat) (code : List Nat) (c : Ctx V) : Ctx V :=
  let res := vm c s code
  { c with
    si := c.si.modify s fun x => { x with currentEnv := res.env }
    thr := c.thr.map fun a t => { t with killed := t.killed || res.kills a }
    history := (res.accesses.map (.access s)).reverse ++ c.history }

/-- The threads that a loop over the links from `p` visits. -/
def threadsFrom (p : Option Nat) (c : Ctx V) : List Nat := walk c.next c.thr.size p

/-- The threads that the first three loops of `mark_dead_rule` mark. -/
def markedThreads (r : Nat) (c : Ctx V) : List Nat :=
  (c.threadsFrom c.curRetrigQh ++ c.threadsFrom c.retrigQh ++ c.threadsFrom c.currentTail).filter
    fun t => c.ruleInstOf t = r

/-- The threads that its last loop finds in the new queue, not killed. -/
def forgottenThreads (r : Nat) (c : Ctx V) : List Nat :=
  (c.threadsFrom c.newQh).filter fun t =>
    c.ruleInstOf t = r ∧ (c.thr.cell t).killed = false ∧ t ∉ c.markedThreads r

/-- `mark_dead_rule` -/
def markDeadRule (r : Nat) (c : Ctx V) : Ctx V :=
  { c with
    thr := c.thr.map fun a t => { t with killed := t.killed || decide (a ∈ c.markedThreads r) }
    ri := c.ri.modify r fun x => { x with killed := true }
    forgotten := c.forgotten + (c.forgottenThreads r).length }

/-! ## Locks -/

/-- The value of a synchronization variable: the current one, else the inherited one. -/
def syncVal (s x : Nat) (c : Ctx V) : Option V :=
  match (c.si.cell s).currentEnv x with
  | some v => some v
  | none => (c.si.cell s).inheritEnv x

/-- The synchronization variables of a state instance with their values. -/
def syncKey (rules : RuleSet) (s : Nat) (c : Ctx V) : List (Nat × Option V) :=
  (c.ruleOf rules (c.si.cell s).ruleInstance).syncVars.map fun x => (x, c.syncVal s x)

/-- `sync_var_env_is_defined` -/
def syncVarEnvIsDefined (rules : RuleSet) (s : Nat) (c : Ctx V) : Bool :=
  (c.syncKey rules s).all fun p => p.2.isSome

end Ctx

/-- The number of buckets of a lock table. -/
def objhashSize : Nat := 1021

section

variable [SyncValue V]

/-- `objhash_rule_instance_cmp`: the first comparison that is not 0. -/
def keyCmp : List (Nat × Option V) → List (Nat × Option V) → Int
  | (_, v) :: l, (_, w) :: l' => if SyncValue.cmp v w ≠ 0 then SyncValue.cmp v w else keyCmp l l'
  | _, _ => 0

namespace Ctx

variable (rules : RuleSet)

/-- `hash->hash(key) % hash->size` -/
def bucketOf (s : Nat) (c : Ctx V) : Nat := SyncValue.hash (c.syncKey rules s) % objhashSize

/-- `! hash->cmp(key, elmt->key)` -/
def sameKey (s e : Nat) (c : Ctx V) : Bool := keyCmp (c.syncKey rules s) (c.syncKey rules e) == 0

/-- `objhash_get` in the table of the rule `k` -/
def objhashGet (k s : Nat) (c : Ctx V) : Option Nat :=
  (c.syncLock k (c.bucketOf rules s)).find? fun e => c.sameKey rules s e

/-- `objhash_add` -/
def objhashAdd (k s : Nat) (c : Ctx V) : Ctx V :=
  { c with
    syncLock := Function.update c.syncLock k
      (Function.update (c.syncLock k) (c.bucketOf rules s)
        (s :: c.syncLock k (c.bucketOf rules s))) }

/-- `objhash_del` -/
def objhashDel (k s : Nat) (c : Ctx V) : Ctx V :=
  { c with
    syncLock := Function.update c.syncLock k
      (Function.update (c.syncLock k) (c.bucketOf rules s)
        ((c.syncLock k (c.bucketOf rules s)).eraseP fun e => c.sameKey rules s e)) }

/-- A lock of the state instance `s` for its rule instance. -/
def addLock (s : Nat) (c : Ctx V) : Ctx V :=
  let r := (c.si.cell s).ruleInstance
  let c := c.objhashAdd rules (c.ri.cell r).rule s
  { c with ri := c.ri.modify r fun x => { x with syncLockList := s :: x.syncLockList } }

/-- The test of the synchronization variables: `none` when another rule instance has the lock. -/
def checkLock (s : Nat) (onlyOnce : Bool) (c : Ctx V) : Option (Ctx V) :=
  let r := (c.si.cell s).ruleInstance
  if (c.ruleOf rules r).syncLock && c.syncVarEnvIsDefined rules s then
    match c.objhashGet rules (c.ri.cell r).rule s with
    | some lock => if (c.si.cell lock).ruleInstance ≠ r then none else some c
    | none => if onlyOnce then some c else some (c.addLock rules s)
  else some c

end Ctx

end

/-! ## New records -/

namespace Ctx

/-- `create_state_instance` and the link in `state_list`. -/
def newState (dest parent : Nat) (c : Ctx V) : Ctx V :=
  let p := c.si.cell parent
  { c with
    si := c.si.alloc
      { state := dest, ruleInstance := p.ruleInstance, event := none
        inheritEnv := fun i => match p.currentEnv i with
          | some v => some v
          | none => p.inheritEnv i
        currentEnv := fun _ => none, threadList := [] }
    ri := c.ri.modify p.ruleInstance fun x => { x with stateList := c.si.size :: x.stateList }
    stateInstances := c.stateInstances + 1
    history := .create c.si.size (some parent) :: c.history }

/-- `DEFAULT_TIMEOUT` -/
def defaultTimeout : Nat := 600

/-- The append to the new queue. -/
def pushNew (a : Nat) (c : Ctx V) : Ctx V :=
  match c.newQt with
  | some q =>
    { c with thr := c.thr.modify q fun t => { t with next := some a }, newQt := some a }
  | none => { c with newQh := some a, newQt := some a }

/-- A new thread, with its place in the counters and in the new queue. -/
def newThread (clock : Ctx V → Nat) (s : Nat) (onlyOnce : Bool) (tr : Trans) (c : Ctx V) : Ctx V :=
  let a := c.thr.size
  let r := (c.si.cell s).ruleInstance
  let thread : WaitThread :=
    { next := none, trans := tr, stateInstance := s, onlyOnce, bump := false, killed := false
      pass := 0, timeout := clock c + defaultTimeout }
  let c := { c with
    thr := c.thr.alloc thread
    ri := c.ri.modify r fun x => { x with threads := x.threads + 1 }
    threads := c.threads + 1
    si := if onlyOnce then c.si
      else c.si.modify s fun x => { x with threadList := a :: x.threadList } }
  c.pushNew a

end Ctx

/-! ## `simulate_state_and_create_threads` -/

/-- The result of the condition of a transition without fields; no condition is true. -/
def Ctx.condRet (call : Call V) (s : Nat) (tr : Trans) (c : Ctx V) : Int :=
  match tr.evalCode with
  | some code => (call.vm c s code).ret
  | none => 0

/-- What its evaluation leaves. -/
def Ctx.execCond (call : Call V) (s : Nat) (tr : Trans) (c : Ctx V) : Ctx V :=
  match tr.evalCode with
  | some code => c.vmExec call.vm s code
  | none => c

section

variable [SyncValue V] (rules : RuleSet) (call : Call V)

/-- The loop over the transitions of the state instance `s`, `created` threads into it; `sim` is
the recursive call. -/
def simulateTrans (sim : Nat → Ctx V → Option (Int × Ctx V)) (s : Nat) (onlyOnce : Bool) :
    List Trans → Int → Ctx V → Option (Int × Ctx V)
  | [], created, c => some (created, c)
  | tr :: trs, created, c =>
    if tr.requiredFieldsNb = 0 then
      if c.condRet call s tr = 0 then
        let c := c.execCond call s tr
        match sim c.si.size (c.newState tr.dest s) with
        | none => none
        | some (simulRet, c) =>
          if simulRet < 0 then some (-created + simulRet, c)
          else simulateTrans sim s onlyOnce trs (created + simulRet) c
      else simulateTrans sim s onlyOnce trs created (c.execCond call s tr)
    else
      simulateTrans sim s onlyOnce trs (created + 1) (c.newThread call.clock s onlyOnce tr)

/-- The action of the state of `s`. -/
def Ctx.execAction (s : Nat) (c : Ctx V) : Ctx V :=
  match (c.stateOf rules s).action with
  | some code => c.vmExec call.vm s code
  | none => c

/-- `simulate_state_and_create_threads` -/
def simulate : Nat → Nat → Bool → Ctx V → Option (Int × Ctx V)
  | 0, _, _, _ => none
  | fuel + 1, s, onlyOnce, c =>
    let c := c.execAction rules call s
    if (c.stateOf rules s).trans = [] then
      some (-1, c.markDeadRule (c.si.cell s).ruleInstance)
    else
      match c.checkLock rules s onlyOnce with
      | none => some (-1, c)
      | some c =>
        simulateTrans call (fun n => simulate fuel n onlyOnce) s onlyOnce
          (c.stateOf rules s).trans 0 c

end

end Orchids

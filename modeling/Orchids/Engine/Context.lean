import Orchids.Lib.Heap
import Orchids.Lib.Linked
import Orchids.Lib.Scopes
import Orchids.Ovm.Machine

/-!
# The state of the engine (`orchids.h`)

The rules as the compiler leaves them, and what `inject_event` changes: wait threads, state
instances, rule instances and active events, each in a heap of its own, with the queues and lists
that the source links through them.

* A pointer is an address, `none` is `NULL`. The queues and the list of active events are the
  source's own links. The other lists (`first_rule_instance`, `state_list`, `sync_lock_list`,
  `thread_list`) are lists, in the order of the source's links.
* A freed record keeps its content and its address is not used again; `Engine.Reuse` has the runs
  in which `calloc` gives the address of a freed state instance again.
* The virtual machine is a parameter: `Vm` is any behaviour of the byte code of a rule.
-/

namespace Orchids

/-! ## Rules -/

/-- `transition_t`. -/
structure Trans where
  requiredFieldsNb : Nat
  evalCode : Option (List Nat)
  dest : Nat
  deriving DecidableEq, Repr, Inhabited

/-- `state_t`; `havePushfield` is the flag `BYTECODE_HAVE_PUSHFIELD`. -/
structure State where
  action : Option (List Nat)
  trans : List Trans
  havePushfield : Bool
  deriving DecidableEq, Repr, Inhabited

/-- `rule_t`; state 0 is the initial one. `syncLock` says that the rule has a lock table. -/
structure Rule where
  states : List State
  syncVars : List Nat
  syncLock : Bool
  deriving DecidableEq, Repr, Inhabited

/-- The state number `i` of a rule. -/
def Rule.state (r : Rule) (i : Nat) : State := r.states.getD i default

/-- The rules of the rule compiler, by their place in the list. -/
abbrev RuleSet := List Rule

/-- The rule number `k`. -/
def RuleSet.rule (rules : RuleSet) (k : Nat) : Rule := rules.getD k default

/-! ## Records -/

/-- `wait_thread_t`; the flags are apart. -/
structure WaitThread where
  next : Option Nat
  trans : Trans
  stateInstance : Nat
  onlyOnce : Bool
  bump : Bool
  killed : Bool
  pass : Nat
  timeout : Nat
  deriving Inhabited

/-- `state_instance_t`. -/
structure StateInst (V : Type) where
  state : Nat
  ruleInstance : Nat
  event : Option Nat
  inheritEnv : Env V
  currentEnv : Env V
  threadList : List Nat
  deriving Inhabited

/-- `rule_instance_t`; `killed` is the flag `THREAD_KILLED`, and `creationDate` says that the date
is set (`time(NULL)` is not 0). -/
structure RuleInst where
  rule : Nat
  firstState : Nat
  stateList : List Nat
  threads : Int
  killed : Bool
  creationDate : Bool
  syncLockList : List Nat
  deriving Inhabited

/-- `active_event_t`. -/
structure ActiveEvent (V : Type) where
  event : Option (List (Nat × V))
  next : Option Nat
  prev : Option Nat
  refs : Int
  deriving Inhabited

/-- `orchids_t`, as far as the engine uses it. Two parts are not in the source: `forgotten` counts
the messages "Forgotten thread ?" of `mark_dead_rule`, and `history` has what happened to the
environments of the state instances, the last first. -/
structure Ctx (V : Type) where
  thr : Heap WaitThread
  si : Heap (StateInst V)
  ri : Heap RuleInst
  ae : Heap (ActiveEvent V)
  newQh : Option Nat
  newQt : Option Nat
  retrigQh : Option Nat
  retrigQt : Option Nat
  curRetrigQh : Option Nat
  curRetrigQt : Option Nat
  currentTail : Option Nat
  threads : Int
  firstRuleInstance : List Nat
  activeEventHead : Option Nat
  activeEventTail : Option Nat
  activeEventCur : Option Nat
  activeEvents : Int
  globalFields : Env V
  /-- The lock table of each rule, by bucket. -/
  syncLock : Nat → Nat → List Nat
  /-- `rule->instances` of each rule. -/
  instances : Nat → Int
  ruleInstances : Int
  stateInstances : Int
  forgotten : Nat
  history : List (ScopeEvent Nat V)

/-- The context before the first event. -/
def Ctx.init (V : Type) : Ctx V where
  thr := Heap.empty default
  si := Heap.empty default
  ri := Heap.empty default
  ae := Heap.empty default
  newQh := none
  newQt := none
  retrigQh := none
  retrigQt := none
  curRetrigQh := none
  curRetrigQt := none
  currentTail := none
  threads := 0
  firstRuleInstance := []
  activeEventHead := none
  activeEventTail := none
  activeEventCur := none
  activeEvents := 0
  globalFields := fun _ => none
  syncLock := fun _ _ => []
  instances := fun _ => 0
  ruleInstances := 0
  stateInstances := 0
  forgotten := 0
  history := []

/-! ## What the engine asks of the outside -/

/-- What `ovm_exec` leaves: its result (0 for true), the environment of the state instance, and
the threads that built-ins marked as killed; and its accesses to variables, in their order. -/
structure VmResult (V : Type) where
  ret : Int
  env : Env V
  kills : Nat → Bool
  accesses : List (Access Nat V) := []

/-- `ovm_exec` on a state instance and some byte code, in any state of the engine. -/
abbrev Vm (V : Type) := Ctx V → Nat → List Nat → VmResult V

/-- The values of synchronization variables: `datahash_pjw` over the names, types and contents of
some variables, and `issdl_cmp`. -/
class SyncValue (V : Type) where
  hash : List (Nat × Option V) → Nat
  cmp : Option V → Option V → Int

/-- One call of `inject_event`: the event, the behaviour of the byte code and `time(NULL)`. -/
structure Call (V : Type) where
  event : List (Nat × V)
  vm : Vm V
  clock : Ctx V → Nat

namespace Ctx

variable {V : Type} (c : Ctx V)

/-- `t->state_instance->rule_instance` -/
def ruleInstOf (t : Nat) : Nat := (c.si.cell (c.thr.cell t).stateInstance).ruleInstance

/-- `t->next` -/
def next (t : Nat) : Option Nat := (c.thr.cell t).next

/-- The rule of a rule instance. -/
def ruleOf (rules : RuleSet) (r : Nat) : Rule := rules.rule (c.ri.cell r).rule

/-- `state->state` for a state instance. -/
def stateOf (rules : RuleSet) (s : Nat) : State :=
  (c.ruleOf rules (c.si.cell s).ruleInstance).state (c.si.cell s).state

end Ctx

end Orchids

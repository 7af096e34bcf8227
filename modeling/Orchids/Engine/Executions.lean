import Orchids.Engine.Runs
import Orchids.Ovm.Accesses

/-!
# The executions of a run

* `VmCall`: a state instance and byte code that `ovm_exec` is called with, in a state of the engine.
* `injectVmCalls`: the executions of one call of `inject_event`, in their order.
* `injectEventWith_agrees`: a call does the same with another machine that gives the same results in
  these executions.
* `Vm.restrict`, `Run.restrict`: so what is proved of machines that always behave in some way holds
  of machines that do so in the executions of the run.
* `ovmExec`: `ovm_exec`, for the frame of a rule.
-/

namespace Orchids

variable {V : Type}

/-- A call of `ovm_exec`. -/
structure VmCall (V : Type) where
  ctx : Ctx V
  stateInstance : Nat
  code : List Nat

/-- What the machine gives in an execution. -/
def Call.result (call : Call V) (x : VmCall V) : VmResult V :=
  call.vm x.ctx x.stateInstance x.code

section

variable [SyncValue V] (rules : RuleSet) (prune : Nat → Ctx V → Bool) (call : Call V) (fuel : Nat)

/-- The executions of the loop over the transitions of a state instance; those of the recursive call
`sim` are `execs`. -/
def transVmCalls (sim : Nat → Ctx V → Option (Int × Ctx V)) (execs : Nat → Ctx V → List (VmCall V))
    (s : Nat) (onlyOnce : Bool) : List Trans → Ctx V → List (VmCall V)
  | [], _ => []
  | tr :: trs, c =>
    if tr.requiredFieldsNb = 0 then
      tr.evalCode.toList.map (VmCall.mk c s) ++
        if c.condRet call s tr = 0 then
          let c := c.execCond call s tr
          execs c.si.size (c.newState tr.dest s) ++
            match sim c.si.size (c.newState tr.dest s) with
            | none => []
            | some (simulRet, c) =>
              if simulRet < 0 then [] else transVmCalls sim execs s onlyOnce trs c
        else transVmCalls sim execs s onlyOnce trs (c.execCond call s tr)
    else transVmCalls sim execs s onlyOnce trs (c.newThread call.clock s onlyOnce tr)

/-- The executions of a simulation. -/
def simVmCalls : Nat → Nat → Bool → Ctx V → List (VmCall V)
  | 0, _, _, _ => []
  | fuel + 1, s, onlyOnce, c =>
    (c.stateOf rules s).action.toList.map (VmCall.mk c s) ++
      let c := c.execAction rules call s
      if (c.stateOf rules s).trans = [] then []
      else
        match c.checkLock rules s onlyOnce with
        | none => []
        | some c =>
          transVmCalls call (fun n => simulate rules call fuel n onlyOnce)
            (fun n => simVmCalls fuel n onlyOnce) s onlyOnce (c.stateOf rules s).trans c

/-- The executions of the loop over the rules. -/
def startVmCalls : List Nat → Ctx V → List (VmCall V)
  | [], _ => []
  | k :: ks, c =>
    simVmCalls rules call fuel c.si.size true (c.newRuleInst k) ++
      match startRule rules call fuel k c with
      | none => []
      | some c => startVmCalls ks c

/-- The executions of a turn of the event loop. -/
def visitVmCalls (curTime e t : Nat) (c : Ctx V) : List (VmCall V) :=
  let c := c.beginVisit curTime t
  if (c.thr.cell t).killed then []
  else
    let s := (c.thr.cell t).stateInstance
    let code := (c.thr.cell t).trans.evalCode.getD []
    ⟨c, s, code⟩ ::
      if (call.vm c s code).ret = 0 then
        simVmCalls rules call fuel c.si.size false ((c.vmExec call.vm s code).passState e t)
      else []

/-- The executions of a call. -/
def injectVmCalls (c : Ctx V) : List (VmCall V) :=
  startVmCalls rules call fuel (List.range rules.length) (c.beginEvent call.event) ++
    match injectEventWith rules prune call fuel c with
    | none => []
    | some (visits, _) =>
      visits.flatMap fun v => visitVmCalls rules call fuel (call.clock c) c.ae.size v.1 v.2

end

/-! ## Machines that give the same results -/

section

variable {rules : RuleSet} {prune : Nat → Ctx V → Bool} {call : Call V} {fuel s : Nat}
  {onlyOnce : Bool} {c c' : Ctx V} {vm : Vm V}

/-- The call with another machine. -/
def Call.withVm (call : Call V) (vm : Vm V) : Call V := { call with vm }

/-- The other machine does the same in these executions. -/
def AgreesOn (call : Call V) (vm : Vm V) (l : List (VmCall V)) : Prop :=
  ∀ x ∈ l, vm x.ctx x.stateInstance x.code = call.result x

theorem AgreesOn.append {l l' : List (VmCall V)} (h : AgreesOn call vm (l ++ l')) :
    AgreesOn call vm l ∧ AgreesOn call vm l' := List.forall_mem_append.mp h

theorem vmExec_withVm {code : List Nat} (h : vm c s code = call.vm c s code) :
    c.vmExec (call.withVm vm).vm s code = c.vmExec call.vm s code := by
  unfold Ctx.vmExec Call.withVm
  simp only
  rw [h]

theorem cond_agrees {tr : Trans} (h : AgreesOn call vm (tr.evalCode.toList.map (VmCall.mk c s))) :
    c.condRet (call.withVm vm) s tr = c.condRet call s tr ∧
      c.execCond (call.withVm vm) s tr = c.execCond call s tr := by
  unfold Ctx.condRet Ctx.execCond
  cases hcode : tr.evalCode with
  | none => exact ⟨rfl, rfl⟩
  | some code =>
    rw [hcode] at h
    have heq : vm c s code = call.vm c s code := h _ List.mem_cons_self
    exact ⟨congrArg VmResult.ret heq, vmExec_withVm heq⟩

theorem simulateTrans_agrees {sim sim' : Nat → Ctx V → Option (Int × Ctx V)}
    {execs : Nat → Ctx V → List (VmCall V)}
    (hsim : ∀ n c, AgreesOn call vm (execs n c) → sim' n c = sim n c) :
    ∀ (trs : List Trans) (created : Int) (c : Ctx V),
      AgreesOn call vm (transVmCalls call sim execs s onlyOnce trs c) →
      simulateTrans (call.withVm vm) sim' s onlyOnce trs created c =
        simulateTrans call sim s onlyOnce trs created c
  | [], _, _, _ => rfl
  | tr :: trs, created, c, h => by
    unfold transVmCalls at h
    unfold simulateTrans
    by_cases hreq : tr.requiredFieldsNb = 0
    · rw [if_pos hreq] at h ⊢
      obtain ⟨hcond, h⟩ := h.append
      obtain ⟨hret, hexec⟩ := cond_agrees hcond
      rw [if_pos hreq, hret, hexec]
      by_cases hzero : c.condRet call s tr = 0
      · rw [if_pos hzero] at h ⊢
        obtain ⟨hrec, h⟩ := h.append
        simp only
        rw [if_pos hzero, hsim _ _ hrec]
        cases hs : sim (c.execCond call s tr).si.size ((c.execCond call s tr).newState tr.dest s) with
        | none => rfl
        | some p =>
          obtain ⟨simulRet, c₂⟩ := p
          rw [hs] at h
          simp only at h ⊢
          by_cases hneg : simulRet < 0
          · rw [if_pos hneg, if_pos hneg]
          · rw [if_neg hneg] at h ⊢
            rw [if_neg hneg]
            exact simulateTrans_agrees hsim trs _ c₂ h
      · rw [if_neg hzero] at h ⊢
        rw [if_neg hzero]
        exact simulateTrans_agrees hsim trs _ _ h
    · rw [if_neg hreq] at h ⊢
      rw [if_neg hreq]
      exact simulateTrans_agrees hsim trs _ _ h

theorem execAction_agrees
    (h : AgreesOn call vm ((c.stateOf rules s).action.toList.map (VmCall.mk c s))) :
    c.execAction rules (call.withVm vm) s = c.execAction rules call s := by
  unfold Ctx.execAction
  cases hact : (c.stateOf rules s).action with
  | none => rfl
  | some code =>
    rw [hact] at h
    exact vmExec_withVm (h _ List.mem_cons_self)

variable [SyncValue V]

theorem simulate_agrees : ∀ (fuel s : Nat) (c : Ctx V),
    AgreesOn call vm (simVmCalls rules call fuel s onlyOnce c) →
    simulate rules (call.withVm vm) fuel s onlyOnce c = simulate rules call fuel s onlyOnce c
  | 0, _, _, _ => rfl
  | fuel + 1, s, c, h => by
    unfold simVmCalls at h
    unfold simulate
    obtain ⟨hact, h⟩ := h.append
    rw [execAction_agrees hact]
    simp only at h ⊢
    by_cases hterm : ((c.execAction rules call s).stateOf rules s).trans = []
    · rw [if_pos hterm, if_pos hterm]
    · rw [if_neg hterm] at h ⊢
      rw [if_neg hterm]
      cases hl : (c.execAction rules call s).checkLock rules s onlyOnce with
      | none => rfl
      | some c₂ =>
        rw [hl] at h
        exact simulateTrans_agrees (fun n c hn => simulate_agrees fuel n c hn) _ 0 c₂ h

theorem startRule_agrees {k : Nat}
    (h : AgreesOn call vm (simVmCalls rules call fuel c.si.size true (c.newRuleInst k))) :
    startRule rules (call.withVm vm) fuel k c = startRule rules call fuel k c := by
  unfold startRule
  rw [simulate_agrees fuel _ _ h]

theorem startRules_agrees : ∀ (ks : List Nat) (c : Ctx V),
    AgreesOn call vm (startVmCalls rules call fuel ks c) →
    startRules rules (call.withVm vm) fuel ks c = startRules rules call fuel ks c
  | [], _, _ => rfl
  | k :: ks, c, h => by
    unfold startVmCalls at h
    unfold startRules
    obtain ⟨hsim, h⟩ := h.append
    rw [startRule_agrees hsim]
    cases hs : startRule rules call fuel k c with
    | none => rfl
    | some c₁ =>
      rw [hs] at h
      exact startRules_agrees ks c₁ h

theorem evtStep_agrees {curTime e t : Nat} {next : Option Nat}
    (h : AgreesOn call vm (visitVmCalls rules call fuel curTime e t c)) :
    evtStep rules prune (call.withVm vm) fuel curTime e t next c =
      evtStep rules prune call fuel curTime e t next c := by
  unfold visitVmCalls at h
  unfold evtStep
  simp only at h ⊢
  by_cases hk : ((c.beginVisit curTime t).thr.cell t).killed = true
  · rw [if_pos hk, if_pos hk]
  · rw [if_neg hk] at h ⊢
    rw [if_neg hk]
    obtain ⟨hcond, h⟩ := List.forall_mem_cons.mp h
    have hvm : vm (c.beginVisit curTime t) ((c.beginVisit curTime t).thr.cell t).stateInstance
        (((c.beginVisit curTime t).thr.cell t).trans.evalCode.getD []) =
      call.vm (c.beginVisit curTime t) ((c.beginVisit curTime t).thr.cell t).stateInstance
        (((c.beginVisit curTime t).thr.cell t).trans.evalCode.getD []) := hcond
    have heval : evalThread rules prune (call.withVm vm) fuel e t (c.beginVisit curTime t) =
        evalThread rules prune call fuel e t (c.beginVisit curTime t) := by
      unfold evalThread passThread
      simp only
      rw [vmExec_withVm hvm, show (call.withVm vm).vm = vm from rfl, hvm]
      split
      · rename_i hret
        rw [if_pos hret] at h
        rw [si_size_vmExec, simulate_agrees fuel _ _ h]
      · rfl
    rw [heval]

theorem evtLoop_agrees {curTime e : Nat} :
    ∀ {n : Nat} {p : Option Nat} {c c' : Ctx V} {visits : List (Nat × Ctx V)},
      evtLoop rules prune call fuel curTime e n p c = some (visits, c') →
      AgreesOn call vm (visits.flatMap fun v => visitVmCalls rules call fuel curTime e v.1 v.2) →
      evtLoop rules prune (call.withVm vm) fuel curTime e n p c = some (visits, c')
  | _, none, c, c', visits, heq, _ => by
    unfold evtLoop at heq ⊢
    exact heq
  | 0, some _, _, _, _, heq, _ => by cases heq
  | n + 1, some t, c, c', visits, heq, h => by
    unfold evtLoop at heq ⊢
    simp only at heq ⊢
    cases hs : evtStep rules prune call fuel curTime e t (c.next t) c with
    | none =>
      rw [hs] at heq
      cases heq
    | some c₁ =>
      rw [hs] at heq
      simp only at heq
      cases hl : evtLoop rules prune call fuel curTime e n (c.next t) c₁ with
      | none =>
        rw [hl] at heq
        cases heq
      | some q =>
        rw [hl] at heq
        obtain ⟨rfl, rfl⟩ := Prod.mk.inj (Option.some.inj heq)
        rw [List.flatMap_cons] at h
        obtain ⟨hstep, h⟩ := h.append
        rw [evtStep_agrees hstep, hs]
        simp only
        rw [evtLoop_agrees hl h]

/-- A call does the same with a machine that gives the same results in its executions. -/
theorem injectEventWith_agrees {visits : List (Nat × Ctx V)}
    (heq : injectEventWith rules prune call fuel c = some (visits, c'))
    (h : AgreesOn call vm (injectVmCalls rules prune call fuel c)) :
    injectEventWith rules prune (call.withVm vm) fuel c = some (visits, c') := by
  unfold injectVmCalls at h
  rw [heq] at h
  obtain ⟨hstart, hvisits⟩ := h.append
  obtain ⟨c₁, c₂, hc₁, hl, rfl⟩ := injectEventWith_some heq
  unfold injectEventWith createRuleInitialThreads
  rw [show (call.withVm vm).event = call.event from rfl, startRules_agrees _ _ hstart, hc₁]
  simp only [Option.map_some]
  rw [show (call.withVm vm).clock = call.clock from rfl, evtLoop_agrees hl hvisits]

/-- The turns of the loop over the rules are the same. -/
theorem eachStart_agrees {ok : Call V → Nat → Nat → Ctx V → Prop}
    (hok : ∀ k c, AgreesOn call vm (simVmCalls rules call fuel c.si.size true (c.newRuleInst k)) →
      ok call fuel k c → ok (call.withVm vm) fuel k c) :
    ∀ (ks : List Nat) (c : Ctx V), AgreesOn call vm (startVmCalls rules call fuel ks c) →
      EachStart rules call fuel (ok call fuel) ks c →
      EachStart rules (call.withVm vm) fuel (ok (call.withVm vm) fuel) ks c
  | [], _, _, _ => trivial
  | k :: ks, c, h, he => by
    unfold startVmCalls at h
    obtain ⟨hsim, h⟩ := h.append
    refine ⟨hok k c hsim he.1, fun c₁ hc₁ => ?_⟩
    rw [startRule_agrees hsim] at hc₁
    rw [Option.mem_def.mp hc₁] at h
    exact eachStart_agrees hok ks c₁ h (he.2 c₁ hc₁)

end

/-! ## Machines that are restricted -/

section

variable [SyncValue V] {rules : RuleSet} {prune : Nat → Ctx V → Bool} {c : Ctx V}

/-- A result that changes nothing. -/
def VmResult.idle (c : Ctx V) (s : Nat) : VmResult V where
  ret := 1
  env := (c.si.cell s).currentEnv
  kills _ := false

open Classical in
/-- The machine where the executions meet `P`, and else one that does nothing. -/
noncomputable def Vm.restrict (vm : Vm V) (P : VmCall V → Prop) : Vm V := fun c s code =>
  if P ⟨c, s, code⟩ then vm c s code else .idle c s

omit [SyncValue V] in
theorem Vm.restrict_cases (vm : Vm V) (P : VmCall V → Prop) (c : Ctx V) (s : Nat)
    (code : List Nat) :
    (P ⟨c, s, code⟩ ∧ vm.restrict P c s code = vm c s code) ∨
      vm.restrict P c s code = .idle c s := by
  unfold Vm.restrict
  split
  · rename_i h
    exact .inl ⟨h, rfl⟩
  · exact .inr rfl

omit [SyncValue V] in
theorem agreesOn_restrict {call : Call V} {P : VmCall V → Prop} {l : List (VmCall V)}
    (h : ∀ x ∈ l, P x) : AgreesOn call (call.vm.restrict P) l := fun x hx => if_pos (h x hx)

/-- A run is one of the restricted machines, if its executions meet `P`. -/
theorem Run.restrict {ok ok' : Call V → Nat → Ctx V → Prop} {P : Call V → VmCall V → Prop}
    (hr : Run rules prune ok c)
    (hexec : ∀ call fuel c, ok call fuel c →
      ∀ x ∈ injectVmCalls rules prune call fuel c, P call x)
    (hok : ∀ call fuel c, ok call fuel c →
      AgreesOn call (call.vm.restrict (P call)) (injectVmCalls rules prune call fuel c) →
      ok' (call.withVm (call.vm.restrict (P call))) fuel c) :
    Run rules prune ok' c := by
  induction hr with
  | init => exact .init
  | inject call fuel _ hc heq ih =>
    have hag : AgreesOn call (call.vm.restrict (P call)) _ := agreesOn_restrict (hexec _ _ _ hc)
    exact .inject _ fuel ih (hok _ _ _ hc hag) (injectEventWith_agrees heq hag)

end

/-! ## The machine -/

/-- `ovm_exec` with at most `fuel` turns of its loop, each time from the empty stack. -/
def ovmExec [Issdl V] [IssdlInt V] (frame : Ctx V → Nat → List Nat → Frame V) (fuel : Nat) : Vm V :=
  fun c s code =>
    let F := frame c s code
    let r := F.exec fuel ⟨0, [], (c.si.cell s).currentEnv⟩
    { ret := match F.step r.2 with
        | .done => ovmRet (stackPop r.2.stack).1
        | _ => 1
      env := r.2.currentEnv, kills := fun _ => false, accesses := r.1 }

/-- The frame of a state instance; each rule has its static environment. The rule has no built-ins. -/
def ruleFrame [Issdl V] (static : Nat → StaticEnv V) (c : Ctx V) (s : Nat) (code : List Nat) :
    Frame V where
  bytecode := code
  inheritEnv := (c.si.cell s).inheritEnv
  staticEnv := static (c.ri.cell (c.si.cell s).ruleInstance).rule
  fields := c.globalFields
  argsNb := fun _ => 0
  builtin := fun _ _ => none

end Orchids

import Orchids.Engine.Visits

/-!
# The counters of instances

`CounterView` has the counters of rule instances and state instances; `Counters` says that they
count the live ones.

* `simulate_counters`, `startRule_counters`, `evtStep_counters`: the steps of the engine.
* `counters_of_firstPasses`: the counters are right in every run in which only threads of live rule
  instances pass, and at most one initial thread of a rule instance.
* `not_counters`: a rule with two transitions from its initial state is counted twice.
-/

namespace Orchids

/-! ## Counters -/

/-- The rule instances and the counters of instances. -/
structure CounterView where
  ruleInsts : Nat
  ruleLive : Nat → Bool
  rule : Nat → Nat
  dated : Nat → Bool
  stateList : Nat → List Nat
  instances : Nat → Int
  ruleInstances : Int
  stateInstances : Int

namespace CounterView

variable (v : CounterView)

/-- The rule instance `r` is one of the rule `k`, and has left its initial state. -/
def datedOf (k r : Nat) : Bool := v.dated r && decide (v.rule r = k)

/-- A new state instance `s` of the rule instance `r`. -/
def addState (s r : Nat) : CounterView :=
  { v with
    stateList := Function.update v.stateList r (s :: v.stateList r)
    stateInstances := v.stateInstances + 1 }

/-- A new rule instance of the rule `k`, with its first state instance. -/
def addRule (k : Nat) : CounterView :=
  { v with
    ruleInsts := v.ruleInsts + 1
    ruleLive := Function.update v.ruleLive v.ruleInsts true
    rule := Function.update v.rule v.ruleInsts k
    dated := Function.update v.dated v.ruleInsts false
    stateList := Function.update v.stateList v.ruleInsts []
    stateInstances := v.stateInstances + 1 }

/-- The rule instance `r` leaves its initial state. -/
def date (r : Nat) : CounterView :=
  { v with
    dated := Function.update v.dated r true
    instances := Function.update v.instances (v.rule r) (v.instances (v.rule r) + 1)
    ruleInstances := v.ruleInstances + 1 }

/-- The end of a rule instance. -/
def freeRule (r : Nat) : CounterView :=
  { v with
    ruleLive := Function.update v.ruleLive r false
    instances := if v.dated r then
      Function.update v.instances (v.rule r) (v.instances (v.rule r) - 1) else v.instances
    ruleInstances := if v.dated r then v.ruleInstances - 1 else v.ruleInstances
    stateInstances := v.stateInstances - 1 - (v.stateList r).length }

end CounterView

/-- The counters are the numbers of live rule instances that have left their initial state, of all
rules and of each one, and the number of the state instances of all live rule instances. -/
structure Counters (v : CounterView) : Prop where
  ruleInstances : v.ruleInstances = countLive v.ruleLive v.ruleInsts v.dated
  instances : ∀ k, v.instances k = countLive v.ruleLive v.ruleInsts (v.datedOf k)
  stateInstances : v.stateInstances =
    sumLive v.ruleLive v.ruleInsts fun r => 1 + (v.stateList r).length

namespace Counters

variable {v : CounterView} {r s : Nat}

theorem addState (h : Counters v) (hr : v.ruleLive r = true) (hlt : r < v.ruleInsts) :
    Counters (v.addState s r) where
  ruleInstances := h.ruleInstances
  instances := h.instances
  stateInstances := by
    have hsum : sumLive v.ruleLive v.ruleInsts (fun a => 1 + ((v.addState s r).stateList a).length)
          + _ = sumLive v.ruleLive v.ruleInsts (fun a => 1 + (v.stateList a).length) + _ :=
      sumLive_change _ _ hlt fun b hb =>
        ⟨rfl, congrArg (fun l => 1 + List.length l) (Function.update_of_ne hb ..)⟩
    have hold := h.stateInstances
    simp only [CounterView.addState, hr, if_true, Function.update_self, List.length_cons]
      at hsum hold ⊢
    omega

theorem addRule (h : Counters v) (k : Nat) : Counters (v.addRule k) := by
  have hbelow : ∀ {α : Type} (f : Nat → α) (x : α) (a : Nat), a < v.ruleInsts →
      Function.update f v.ruleInsts x a = f a := fun f x a ha => Function.update_of_ne ha.ne _ _
  refine ⟨?_, fun k' => ?_, ?_⟩
  · show v.ruleInstances = countLive (Function.update v.ruleLive v.ruleInsts true)
      (v.ruleInsts + 1) (Function.update v.dated v.ruleInsts false)
    rw [countLive_alloc, Function.update_self, h.ruleInstances]
    exact congrArg Nat.cast (countLive_congr fun a ha _ => (hbelow v.dated false a ha).symm)
  · have hof : ∀ a, (v.addRule k).datedOf k' a = (Function.update v.dated v.ruleInsts false a &&
        decide (Function.update v.rule v.ruleInsts k a = k')) := fun _ => rfl
    show v.instances k' = countLive (Function.update v.ruleLive v.ruleInsts true)
      (v.ruleInsts + 1) ((v.addRule k).datedOf k')
    rw [countLive_alloc, hof, Function.update_self, h.instances]
    refine congrArg Nat.cast (countLive_congr fun a ha _ => ?_)
    rw [hof, hbelow v.dated false a ha, hbelow v.rule k a ha, CounterView.datedOf]
  · show v.stateInstances + 1 = sumLive (Function.update v.ruleLive v.ruleInsts true)
      (v.ruleInsts + 1) fun r => 1 + (Function.update v.stateList v.ruleInsts [] r).length
    have hsum : sumLive (Function.update v.ruleLive v.ruleInsts true) v.ruleInsts
          (fun r => 1 + (Function.update v.stateList v.ruleInsts [] r).length) =
        sumLive v.ruleLive v.ruleInsts fun r => 1 + (v.stateList r).length :=
      sumLive_congr fun a ha => by rw [hbelow v.ruleLive true a ha, hbelow v.stateList [] a ha]
    rw [sumLive_succ, hsum, Function.update_self, Function.update_self, h.stateInstances]
    rfl

/-- A live rule instance leaves its initial state for the first time. -/
theorem date (h : Counters v) (hr : v.ruleLive r = true) (hlt : r < v.ruleInsts)
    (hd : v.dated r = false) : Counters (v.date r) where
  ruleInstances := by
    have hcount : countLive v.ruleLive v.ruleInsts (v.date r).dated + _ =
        countLive v.ruleLive v.ruleInsts v.dated + _ :=
      countLive_change _ _ hlt fun b hb => ⟨rfl, Function.update_of_ne hb ..⟩
    have hold := h.ruleInstances
    simp only [CounterView.date, hr, hd, Function.update_self, Bool.and_false, Bool.and_self,
      Bool.toNat_false, Bool.toNat_true] at hcount hold ⊢
    omega
  instances k := by
    have hof : ∀ a, (v.date r).datedOf k a =
        (Function.update v.dated r true a && decide (v.rule a = k)) := fun _ => rfl
    have hcount : countLive v.ruleLive v.ruleInsts ((v.date r).datedOf k) + _ =
        countLive v.ruleLive v.ruleInsts (v.datedOf k) + _ :=
      countLive_change _ _ hlt fun b hb =>
        ⟨rfl, by rw [hof, Function.update_of_ne hb, CounterView.datedOf]⟩
    rw [hof, Function.update_self, CounterView.datedOf, hr, hd] at hcount
    have hold := h.instances k
    show Function.update v.instances (v.rule r) (v.instances (v.rule r) + 1) k =
      countLive v.ruleLive v.ruleInsts ((v.date r).datedOf k)
    by_cases hk : v.rule r = k
    · subst hk
      simp only [Function.update_self, decide_true, Bool.and_self, Bool.false_and, Bool.and_false,
        Bool.toNat_true, Bool.toNat_false] at hcount ⊢
      omega
    · rw [Function.update_of_ne (Ne.symm hk)]
      simp only [hk, decide_false, Bool.and_false, Bool.toNat_false] at hcount
      omega
  stateInstances := h.stateInstances

theorem freeRule (h : Counters v) (hr : v.ruleLive r = true) (hlt : r < v.ruleInsts) :
    Counters (v.freeRule r) where
  ruleInstances := by
    have hcount : countLive (v.freeRule r).ruleLive v.ruleInsts v.dated + _ =
        countLive v.ruleLive v.ruleInsts v.dated + _ :=
      countLive_change _ _ hlt fun b hb => ⟨Function.update_of_ne hb .., rfl⟩
    have hold := h.ruleInstances
    simp only [CounterView.freeRule, hr, Function.update_self, Bool.true_and, Bool.false_and,
      Bool.toNat_false] at hcount hold ⊢
    cases hd : v.dated r with
    | false =>
      simp only [hd, Bool.toNat_false, Bool.false_eq_true, if_false] at hcount ⊢
      omega
    | true =>
      simp only [hd, Bool.toNat_true, if_true] at hcount ⊢
      omega
  instances k := by
    have hcount := countLive_change (v.datedOf k) (v.datedOf k) hlt
      fun b hb => ⟨Function.update_of_ne hb false v.ruleLive, rfl⟩
    rw [Function.update_self, hr, Bool.true_and, Bool.false_and, CounterView.datedOf] at hcount
    have hold := h.instances k
    show (if v.dated r then Function.update v.instances (v.rule r) (v.instances (v.rule r) - 1)
      else v.instances) k = countLive (Function.update v.ruleLive r false) v.ruleInsts (v.datedOf k)
    cases hd : v.dated r with
    | false =>
      simp only [hd, Bool.false_and, Bool.toNat_false, Bool.false_eq_true, if_false] at hcount ⊢
      omega
    | true =>
      simp only [hd, Bool.true_and, if_true] at hcount ⊢
      by_cases hk : v.rule r = k
      · subst hk
        simp only [Function.update_self, decide_true, Bool.toNat_true, Bool.toNat_false]
          at hcount ⊢
        omega
      · rw [Function.update_of_ne (Ne.symm hk)]
        simp only [hk, decide_false, Bool.toNat_false] at hcount
        omega
  stateInstances := by
    have hsum : sumLive (v.freeRule r).ruleLive v.ruleInsts (fun a => 1 + (v.stateList a).length)
          + _ = sumLive v.ruleLive v.ruleInsts (fun a => 1 + (v.stateList a).length) + _ :=
      sumLive_change _ _ hlt fun b hb => ⟨Function.update_of_ne hb .., rfl⟩
    have hold := h.stateInstances
    simp only [CounterView.freeRule, hr, Function.update_self, if_true, Bool.false_eq_true,
      if_false] at hsum hold ⊢
    omega

end Counters

/-! ## The view of the engine -/

variable {V : Type}

/-- The rule instances and the counters of the engine. -/
def Ctx.counters (c : Ctx V) : CounterView where
  ruleInsts := c.ri.size
  ruleLive := c.ri.live
  rule := fun r => (c.ri.cell r).rule
  dated := fun r => (c.ri.cell r).creationDate
  stateList := fun r => (c.ri.cell r).stateList
  instances := c.instances
  ruleInstances := c.ruleInstances
  stateInstances := c.stateInstances

/-- A change of a rule instance that is not counted. -/
theorem counters_modifyRule (r : Nat) (f : RuleInst → RuleInst) (hr : ∀ x, (f x).rule = x.rule)
    (hd : ∀ x, (f x).creationDate = x.creationDate) (hl : ∀ x, (f x).stateList = x.stateList)
    (c : Ctx V) : Ctx.counters { c with ri := c.ri.modify r f } = c.counters := by
  simp [Ctx.counters, proj_modify_of_eq RuleInst.rule hr,
    proj_modify_of_eq RuleInst.creationDate hd, proj_modify_of_eq RuleInst.stateList hl]

@[simp] theorem counters_vmExec (vm : Vm V) (s : Nat) (code : List Nat) (c : Ctx V) :
    (c.vmExec vm s code).counters = c.counters := rfl

@[simp] theorem counters_markDeadRule (r : Nat) (c : Ctx V) :
    (c.markDeadRule r).counters = c.counters :=
  counters_modifyRule r (fun x => { x with killed := true }) (fun _ => rfl) (fun _ => rfl) (fun _ => rfl) c

theorem counters_newState (dest s : Nat) (c : Ctx V) :
    (c.newState dest s).counters = c.counters.addState c.si.size (c.si.cell s).ruleInstance := by
  simp [Ctx.counters, Ctx.newState, CounterView.addState, proj_modify_of_eq RuleInst.rule,
    proj_modify_of_eq RuleInst.creationDate, Heap.proj_modify_eq c.ri _ _ RuleInst.stateList]

@[simp] theorem counters_pushNew (a : Nat) (c : Ctx V) : (c.pushNew a).counters = c.counters := by
  unfold Ctx.pushNew
  cases c.newQt <;> rfl

@[simp] theorem counters_newThread (clock : Ctx V → Nat) (s : Nat) (onlyOnce : Bool) (tr : Trans)
    (c : Ctx V) : (c.newThread clock s onlyOnce tr).counters = c.counters := by
  unfold Ctx.newThread
  rw [counters_pushNew]
  exact counters_modifyRule (c.si.cell s).ruleInstance (fun x => { x with threads := x.threads + 1 })
    (fun _ => rfl) (fun _ => rfl) (fun _ => rfl) c

@[simp] theorem counters_killThread (t : Nat) (c : Ctx V) :
    (c.killThread t).counters = c.counters := rfl

@[simp] theorem counters_beginVisit (curTime t : Nat) (c : Ctx V) :
    (c.beginVisit curTime t).counters = c.counters := by
  unfold Ctx.beginVisit
  simp only
  split <;> rfl

@[simp] theorem counters_bumpTail (q : Option Nat) (c : Ctx V) :
    (c.bumpTail q).counters = c.counters := by
  unfold Ctx.bumpTail
  cases q <;> rfl

@[simp] theorem counters_commitAt (t : Nat) (c : Ctx V) :
    (c.commitAt t).counters = c.counters := by
  unfold Ctx.commitAt
  split
  · unfold Ctx.commitNew
    simp only
    split
    · exact (counters_bumpTail _ _).trans (counters_bumpTail c.retrigQt c)
    · exact counters_bumpTail c.retrigQt c
  · rfl

@[simp] theorem counters_mergeQueues (c : Ctx V) : c.mergeQueues.counters = c.counters := by
  unfold Ctx.mergeQueues
  cases c.newQh <;> rfl

@[simp] theorem counters_requeue (t : Nat) (c : Ctx V) : (c.requeue t).counters = c.counters := rfl

@[simp] theorem counters_freeThread (t : Nat) (p : Option Nat) (c : Ctx V) :
    (c.freeThread t p).counters = c.counters := rfl

theorem counters_setCreationDate (r : Nat) (c : Ctx V) :
    (c.setCreationDate r).counters = c.counters.date r := by
  simp [Ctx.counters, Ctx.setCreationDate, CounterView.date, proj_modify_of_eq RuleInst.rule,
    proj_modify_of_eq RuleInst.stateList, Heap.proj_modify_eq c.ri _ _ RuleInst.creationDate]

theorem counters_countPass (t : Nat) (c : Ctx V) :
    (c.countPass t).counters =
      if (c.thr.cell t).onlyOnce then c.counters.date (c.ruleInstOf t) else c.counters := by
  have honly : ∀ h : Heap WaitThread,
      ((h.modify t fun x => { x with pass := x.pass + 1 }).cell t).onlyOnce = (h.cell t).onlyOnce :=
    fun h => h.proj_modify t t _ WaitThread.onlyOnce rfl
  have hinst : ∀ h : Heap WaitThread, ((h.modify t fun x =>
      { x with pass := x.pass + 1 }).cell t).stateInstance = (h.cell t).stateInstance :=
    fun h => h.proj_modify t t _ WaitThread.stateInstance rfl
  unfold Ctx.countPass
  simp only [honly]
  split
  · rw [counters_setCreationDate]
    unfold Ctx.ruleInstOf
    rw [hinst]
    rfl
  · rfl

@[simp] theorem counters_bindEvent (e s : Nat) (c : Ctx V) :
    (c.bindEvent e s).counters = c.counters := rfl

theorem counters_newRuleInst (k : Nat) (c : Ctx V) :
    (c.newRuleInst k).counters = c.counters.addRule k := by
  simp [Ctx.counters, Ctx.newRuleInst, CounterView.addRule, Heap.live_alloc_eq,
    Heap.proj_alloc_eq c.ri _ RuleInst.rule, Heap.proj_alloc_eq c.ri _ RuleInst.creationDate,
    Heap.proj_alloc_eq c.ri _ RuleInst.stateList]

@[simp] theorem counters_beginEvent (event : List (Nat × V)) (c : Ctx V) :
    (c.beginEvent event).counters = c.counters := rfl

@[simp] theorem counters_endEvent (event : List (Nat × V)) (e : Nat) (c : Ctx V) :
    (c.endEvent event e).counters = c.counters := by
  unfold Ctx.endEvent
  simp only
  split
  · rfl
  · split <;> rfl

@[simp] theorem counters_linkRuleInst (r : Nat) (ret : Int) (c : Ctx V) :
    (c.linkRuleInst r ret).counters = c.counters := by
  unfold Ctx.linkRuleInst
  rw [counters_bumpTail]
  exact counters_modifyRule r (fun x => { x with threads := ret }) (fun _ => rfl) (fun _ => rfl)
    (fun _ => rfl) c

@[simp] theorem counters_countDown (r : Nat) (c : Ctx V) : (c.countDown r).counters = c.counters :=
  counters_modifyRule r (fun x => { x with threads := x.threads - 1 }) (fun _ => rfl) (fun _ => rfl)
    (fun _ => rfl) c

@[simp] theorem counters_killRuleInst (r : Nat) (c : Ctx V) :
    (c.killRuleInst r).counters = c.counters :=
  counters_modifyRule r (fun x => { x with killed := true }) (fun _ => rfl) (fun _ => rfl)
    (fun _ => rfl) c

section

variable [SyncValue V] (rules : RuleSet)

@[simp] theorem counters_addLock (s : Nat) (c : Ctx V) :
    (c.addLock rules s).counters = c.counters :=
  counters_modifyRule _ (fun x => { x with syncLockList := s :: x.syncLockList }) (fun _ => rfl)
    (fun _ => rfl) (fun _ => rfl) (c.objhashAdd rules _ s)

theorem counters_freeRuleInstance (r : Nat) (c : Ctx V) :
    (c.freeRuleInstance rules r).counters = c.counters.freeRule r := by
  obtain ⟨ae, hd, tl, n, l, heq⟩ := freeRuleInstance_eq rules r c
  rw [heq]
  unfold Ctx.counters CounterView.freeRule Ctx.countEnd
  simp only [Heap.size_free, Heap.cell_free, Heap.live_free_eq]
  cases (c.ri.cell r).creationDate <;> rfl

/-- The end of a thread is the end of its rule instance if it was the last one by the counter. -/
theorem counters_dropThread (t : Nat) (c : Ctx V) :
    (c.dropThread rules t).counters = c.counters ∨
      c.ruleInstOf t ∈ c.firstRuleInstance ∧
        (c.dropThread rules t).counters = c.counters.freeRule (c.ruleInstOf t) := by
  rcases dropThread_cases rules t c with ⟨_, heq⟩ | ⟨_, _, heq⟩ | ⟨_, hm, heq⟩
  · left
    rw [heq]
    exact counters_countDown (c.ruleInstOf t) c
  · left
    rw [heq, counters_killRuleInst, counters_countDown]
  · refine .inr ⟨hm, ?_⟩
    rw [heq, counters_freeRuleInstance]
    refine congrArg (CounterView.freeRule · (c.ruleInstOf t)) ?_
    exact (counters_killRuleInst (c.ruleInstOf t) _).trans (counters_countDown (c.ruleInstOf t) c)

end

/-! ## The steps of the engine -/

theorem counters_passState (e t : Nat) (c : Ctx V) :
    (c.passState e t).counters =
      (c.countPass t).counters.addState c.si.size (c.ruleInstOf t) := by
  have h := counters_newState (c.thr.cell t).trans.dest (c.thr.cell t).stateInstance (c.countPass t)
  rwa [si_countPass] at h

section

variable [SyncValue V] {rules : RuleSet} {prune : Nat → Ctx V → Bool} {call : Call V}
  {fuel r s e t : Nat} {onlyOnce : Bool} {cr : Option Nat} {c c' : Ctx V}

theorem simulate_counters (ho : Of c r s) (hw : Wf c.records cr) (hr : c.records.ruleLive r = true)
    (h : Counters c.counters) {ret : Int}
    (heq : simulate rules call fuel s onlyOnce c = some (ret, c')) :
    c'.records.ruleLive r = true ∧ Counters c'.counters := by
  let I : Ctx V → Prop := fun d =>
    Wf d.records cr ∧ d.records.ruleLive r = true ∧ Counters d.counters
  have hinv : SimRules rules call r onlyOnce (fun _ => I) I I := by
    refine .of_inv ?_ ?_ ?_ ?_ ?_
    · rintro d s code _ ⟨hw, hr, h⟩
      exact ⟨by simpa using hw, by simpa using hr, by simpa using h⟩
    · rintro d ⟨hw, hr, h⟩
      exact ⟨by simpa using hw, by simpa using hr, by simpa using h⟩
    · rintro d s _ ⟨hw, hr, h⟩
      exact ⟨by simpa using hw, by simpa using hr, by simpa using h⟩
    · rintro d s dest ho ⟨hw, hr, h⟩
      show Wf (d.newState dest s).records cr ∧ (d.newState dest s).records.ruleLive r = true ∧
        Counters (d.newState dest s).counters
      rw [records_newState, counters_newState, ho.ruleInstance]
      exact ⟨hw.addState ho.rule_lt, hr, h.addState hr ho.rule_lt⟩
    · rintro d s tr ho ⟨hw, hr, h⟩
      show Wf (d.newThread _ s onlyOnce tr).records cr ∧
        (d.newThread _ s onlyOnce tr).records.ruleLive r = true ∧
        Counters (d.newThread _ s onlyOnce tr).counters
      rw [records_newThread, counters_newThread]
      exact ⟨hw.addThread ho.lt, hr, h⟩
  exact (simulate_inv hinv ho ⟨hw, hr, h⟩ heq).2.2

theorem startRule_counters {k : Nat} (hw : Wf c.records none) (h : Counters c.counters)
    (heq : startRule rules call fuel k c = some c') : Counters c'.counters := by
  obtain ⟨ret, c₁, hs, rfl⟩ := startRule_some heq
  have hw₀ : Wf (c.newRuleInst k).records (some c.ri.size) := by
    rw [records_newRuleInst]
    exact hw.addRule
  have h₀ : Counters (c.newRuleInst k).counters := by
    rw [counters_newRuleInst]
    exact h.addRule k
  have hr₀ : (c.newRuleInst k).records.ruleLive c.ri.size = true := (hw₀.ruleLive _).mpr (.inr rfl)
  obtain ⟨hr₁, h₁⟩ := simulate_counters (.newRuleInst k c) hw₀ hr₀ h₀ hs
  have hlt := (simulate_wf (.newRuleInst k c) hw₀ hs).2.rule_lt _ hr₁
  unfold Ctx.finishRuleInst
  split
  · rw [counters_freeRuleInstance]
    exact h₁.freeRule hr₁ hlt
  · rw [counters_linkRuleInst]
    exact h₁

theorem reapThread_counters (hw : Wf c.records none) (h : Counters c.counters) (p : Option Nat) :
    Counters (c.reapThread rules t p).counters := by
  unfold Ctx.reapThread
  rw [counters_freeThread]
  rcases counters_dropThread rules t c with heq | ⟨hm, heq⟩
  · rw [heq]
    exact h
  · rw [heq]
    have hr := (hw.ruleLive _).mpr (.inl hm)
    exact h.freeRule hr (hw.rule_lt _ hr)

/-- The thread `t` can pass with right counters: its rule instance is not freed, and is not counted
yet if it is an initial thread. -/
def CanCount (t : Nat) (c : Ctx V) : Prop :=
  c.counters.ruleLive (c.ruleInstOf t) = true ∧
    ((c.thr.cell t).onlyOnce = true → c.counters.dated (c.ruleInstOf t) = false)

instance (t : Nat) (c : Ctx V) : Decidable (CanCount t c) :=
  inferInstanceAs (Decidable (_ ∧ _))

omit [SyncValue V] in
theorem countPass_counters (hw : Wf c.records none) (h : Counters c.counters)
    (hok : CanCount t c) : Counters (c.countPass t).counters := by
  rw [counters_countPass]
  cases ho : (c.thr.cell t).onlyOnce with
  | false => exact h
  | true => exact h.date hok.1 (hw.rule_lt _ hok.1) (hok.2 ho)

theorem evaluated_counters (hv : Visiting t c) (h : Counters c.counters)
    (hok : (call.vm c (c.thr.cell t).stateInstance
      ((c.thr.cell t).trans.evalCode.getD [])).ret = 0 → CanCount t c)
    (hev : Evaluated rules prune call fuel e t c c') : Counters c'.counters := by
  cases hev with
  | fail code hcode hret =>
    rw [counters_vmExec]
    exact h
  | pass code c₁ c₂ ret hcode hret hc₁ hs =>
    have hcan := hok (hcode ▸ hret)
    have hw₀ : Wf (c.vmExec call.vm (c.thr.cell t).stateInstance code).records none := by
      rw [records_vmExec]
      exact hv.wf
    have hg₀ := grows_vmExec call.vm (c.thr.cell t).stateInstance code c
    have hcan₀ : CanCount t (c.vmExec call.vm (c.thr.cell t).stateInstance code) := by
      unfold CanCount
      rw [counters_vmExec, hg₀.ruleInstOf hv.wf hv.lt, hg₀.onlyOnce hv.lt]
      exact hcan
    have h₀ : Counters (c.vmExec call.vm (c.thr.cell t).stateInstance code).counters := h
    have ht₀ := lt_of_lt_of_le hv.lt hg₀.thr.size_le
    have hsz := si_size_vmExec call.vm (c.thr.cell t).stateInstance code c
    generalize c.vmExec call.vm (c.thr.cell t).stateInstance code = c₀ at *
    subst hc₁
    have ho := (hw₀.thread_of ht₀).rule_lt
    have hpass : Counters (c₀.passState e t).counters := by
      rw [counters_passState]
      refine (countPass_counters hw₀ h₀ hcan₀).addState ?_ ?_
      · rw [counters_countPass]
        split <;> exact hcan₀.1
      · rw [counters_countPass]
        split <;> exact ho
    have hw₁ : Wf (c₀.passState e t).records none := by
      rw [records_passState]
      exact hw₀.addState ho
    have hr₁ : (c₀.passState e t).records.ruleLive (c₀.ruleInstOf t) = true := by
      rw [records_passState]
      exact hcan₀.1
    have h₂ := (simulate_counters (hw₀.passState_of ht₀ e) hw₁ hr₁ hpass (hsz ▸ hs)).2
    split
    · rw [counters_killThread]
      exact h₂
    · exact h₂

/-- At the visit of the thread `t` its transition passes. -/
def Passes (call : Call V) (curTime t : Nat) (c : Ctx V) : Prop :=
  ((c.beginVisit curTime t).thr.cell t).killed = false ∧
    (call.vm (c.beginVisit curTime t) ((c.beginVisit curTime t).thr.cell t).stateInstance
      (((c.beginVisit curTime t).thr.cell t).trans.evalCode.getD [])).ret = 0

instance (call : Call V) (curTime t : Nat) (c : Ctx V) : Decidable (Passes call curTime t c) :=
  inferInstanceAs (Decidable (_ ∧ _))

theorem evtStep_counters {curTime : Nat} (hb : base.during e (some t) c)
    (hok : Passes call curTime t c → CanCount t (c.beginVisit curTime t)) (h : Counters c.counters)
    (heq : evtStep rules prune call fuel curTime e t (c.next t) c = some c') :
    Counters c'.counters := by
  obtain ⟨hv, hcase⟩ := evtStep_visiting hb heq
  have h₀ : Counters (c.beginVisit curTime t).counters := by
    rw [counters_beginVisit]
    exact h
  rcases hcase with ⟨_, rfl⟩ | ⟨hk, c₁, hev, hv₁, ⟨_, hv₂, rfl⟩ | ⟨_, rfl⟩⟩
  · exact reapThread_counters hv.wf h₀ _
  · have h₁ := evaluated_counters hv h₀ (fun hret => hok ⟨hk, hret⟩) hev
    exact reapThread_counters hv₂.wf (by simpa using h₁) _
  · have h₁ := evaluated_counters hv h₀ (fun hret => hok ⟨hk, hret⟩) hev
    simpa using h₁

/-- In a call, a thread that passes belongs to a rule instance that is not freed, and an initial
thread that passes is the first one of its rule instance. -/
def FirstPasses (rules : RuleSet) (prune : Nat → Ctx V → Bool) (call : Call V) (fuel : Nat)
    (c : Ctx V) : Prop :=
  ∀ visits c', injectEventWith rules prune call fuel c = some (visits, c') →
    ∀ v ∈ visits, Passes call (call.clock c) v.1 v.2 → CanCount v.1 (v.2.beginVisit (call.clock c) v.1)

theorem injectEventWith_counters {visits : List (Nat × Ctx V)} (hb : base.between c)
    (hok : FirstPasses rules prune call fuel c) (h : Counters c.counters)
    (heq : injectEventWith rules prune call fuel c = some (visits, c')) : Counters c'.counters := by
  have hvisits := hok visits c' heq
  obtain ⟨c₁, c₂, hc₁, hl, rfl⟩ := injectEventWith_some heq
  have hrules : EngineRules rules prune (fun _ => True) (fun _ _ _ _ => True) .trivial
    (base (V := V)) := base_rules
  have hb₀ := hrules.beginEvent call.event c trivial hb
  have hb₁ := hrules.startRules trivial (eachStart_true call fuel _ _) hb₀ hc₁
  have h₁ : Wf c₁.records none ∧ Counters c₁.counters :=
    startRules_inv (I := fun d => Wf d.records none ∧ Counters d.counters)
      (fun _ _ _ hd hs => ⟨startRule_wf hd.1 hs, startRule_counters hd.1 hd.2 hs⟩) ⟨hb₀.1, h⟩ hc₁
  let I : Option Nat → Ctx V → Prop := fun p d => base.during c.ae.size p d ∧ Counters d.counters
  let P : Nat → Ctx V → Prop := fun t d =>
    Passes call (call.clock c) t d → CanCount t (d.beginVisit (call.clock c) t)
  have hI : I c₁.mergeQueues.curRetrigQh c₁.mergeQueues :=
    ⟨hrules.mergeQueues _ _ trivial hb₁, by simpa using h₁.2⟩
  have h₂ : I none c₂ := by
    refine evtLoop_visits (P := P) (fun t d d' hok ⟨hb, hd⟩ hs => ?_) hI hl hvisits
    exact ⟨hrules.evtStep call fuel _ _ _ _ _ trivial trivial hb hs, evtStep_counters hb hok hd hs⟩
  rw [counters_endEvent]
  exact h₂.2

/-- After every call of a run in which only threads of live rule instances pass, and at most one
initial thread of each, the counters are right. -/
theorem counters_of_firstPasses (hr : Run rules prune (FirstPasses rules prune) c) :
    Counters c.counters := by
  induction hr with
  | init => constructor <;> simp [Ctx.counters, Ctx.init, countLive, sumLive, Heap.empty]
  | inject call fuel hr hok heq ih => exact injectEventWith_counters hr.base hok ih heq

end

theorem counters_of_firstPasses_twoEvents :
    ∃ c : Ctx Val, Run twoEvents (backtrackIsNotNeeded twoEvents)
        (FirstPasses twoEvents (backtrackIsNotNeeded twoEvents)) c ∧
      c.stateInstances = 2 ∧ Counters c.counters := by
  have hrun : ((injectEventWith twoEvents (backtrackIsNotNeeded twoEvents) passing 3
      (Ctx.init Val)).any fun p => decide (p.2.stateInstances = 2) && p.1.all fun v =>
        decide (Passes passing 0 v.1 v.2 → CanCount v.1 (v.2.beginVisit 0 v.1))) = true := by
    decide +kernel
  obtain ⟨⟨visits, c⟩, heq, hc⟩ := (Option.any_eq_true _ _).mp hrun
  simp only [Bool.and_eq_true, decide_eq_true_eq, List.all_eq_true] at hc
  have hok : FirstPasses twoEvents (backtrackIsNotNeeded twoEvents) passing 3 (Ctx.init Val) := by
    intro visits' c' heq' v hv
    obtain ⟨rfl, rfl⟩ := Prod.mk.inj (Option.some.inj (heq.symm.trans heq'))
    exact hc.2 v hv
  have hr := Run.inject passing 3 .init hok heq
  exact ⟨c, hr, hc.1, counters_of_firstPasses hr⟩

/-- The initial state of a rule with two transitions that wait for an event. -/
def twoInitial : RuleSet :=
  [{ states := [
      { action := none, trans := [⟨1, some [0], 1⟩, ⟨1, some [1], 1⟩], havePushfield := false },
      { action := none, trans := [⟨1, some [2], 2⟩], havePushfield := true },
      { action := none, trans := [], havePushfield := false }]
     syncVars := [], syncLock := false }]

/-- Both initial threads pass at the first event: there is one live rule instance, and the counter
is 2. -/
theorem not_counters :
    ∃ c : Ctx Val, Reach twoInitial (backtrackIsNotNeeded twoInitial) c ∧
      ¬ Counters c.counters := by
  have hrun : ((injectEvents twoInitial (backtrackIsNotNeeded twoInitial) 3 [passing]
      (Ctx.init Val)).any fun c => decide (c.ruleInstances = 2) &&
        decide (countLive c.ri.live c.ri.size c.counters.dated = 1)) = true := by
    decide +kernel
  obtain ⟨c, hc, hcount⟩ := (Option.any_eq_true _ _).mp hrun
  refine ⟨c, Run.init.injectEvents _ _ _ hc, fun h => ?_⟩
  simp only [Bool.and_eq_true, decide_eq_true_eq] at hcount
  have hlive : c.ruleInstances = countLive c.ri.live c.ri.size c.counters.dated := h.ruleInstances
  omega

end Orchids

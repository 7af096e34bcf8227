import Mathlib.Data.List.Nodup
import Orchids.Engine.Runs

/-!
# The records of the engine

Which thread belongs to which state instance, and which state instance to which rule instance.
`RecordView` has these references, with what the engine does to them; `Wf` says that the lists of
a rule instance are what it owns, and that what a live rule instance owns is not freed.

* `Wf.addThread`, `Wf.addState`, `Wf.addRule`, `Wf.linkRule`, `Wf.freeRule`: what each operation
  keeps.
* `simulate_wf`, `startRule_wf`, `evtStep_wf`: the steps of the engine.
-/

namespace Orchids

/-! ## References -/

/-- The references between the records. -/
structure RecordView where
  threads : Nat
  stateInstance : Nat → Nat
  states : Nat
  ruleInstance : Nat → Nat
  stateLive : Nat → Bool
  ruleInsts : Nat
  firstState : Nat → Nat
  stateList : Nat → List Nat
  ruleLive : Nat → Bool
  firstRuleInstance : List Nat

namespace RecordView

variable (q : RecordView)

/-- The state instances of a rule instance. -/
def statesOf (r : Nat) : List Nat := q.firstState r :: q.stateList r

/-- A new thread of the state instance `s`. -/
def addThread (s : Nat) : RecordView :=
  { q with
    threads := q.threads + 1, stateInstance := Function.update q.stateInstance q.threads s }

/-- A new state instance of the rule instance `r`. -/
def addState (r : Nat) : RecordView :=
  { q with
    states := q.states + 1
    ruleInstance := Function.update q.ruleInstance q.states r
    stateLive := Function.update q.stateLive q.states true
    stateList := Function.update q.stateList r (q.states :: q.stateList r) }

/-- A new rule instance with its first state instance. -/
def addRule : RecordView :=
  { q with
    states := q.states + 1
    ruleInstance := Function.update q.ruleInstance q.states q.ruleInsts
    stateLive := Function.update q.stateLive q.states true
    ruleInsts := q.ruleInsts + 1
    firstState := Function.update q.firstState q.ruleInsts q.states
    stateList := Function.update q.stateList q.ruleInsts []
    ruleLive := Function.update q.ruleLive q.ruleInsts true }

/-- A rule instance that is put into the list of rule instances. -/
def linkRule (r : Nat) : RecordView := { q with firstRuleInstance := r :: q.firstRuleInstance }

/-- The end of a rule instance and its state instances. -/
def freeRule (r : Nat) : RecordView :=
  { q with
    firstRuleInstance := q.firstRuleInstance.erase r
    stateLive := fun s => q.stateLive s && decide (s ∉ q.statesOf r)
    ruleLive := Function.update q.ruleLive r false }

end RecordView

/-- The references are in order; `cr` is a rule instance that is not in the list yet. -/
structure Wf (q : RecordView) (cr : Option Nat) : Prop where
  stateInstance_lt : ∀ t, t < q.threads → q.stateInstance t < q.states
  ruleInstance_lt : ∀ s, s < q.states → q.ruleInstance s < q.ruleInsts
  mem_statesOf : ∀ r, r < q.ruleInsts → ∀ s, s ∈ q.statesOf r ↔ s < q.states ∧ q.ruleInstance s = r
  nodup_statesOf : ∀ r, r < q.ruleInsts → (q.statesOf r).Nodup
  state_lt : ∀ s, q.stateLive s = true → s < q.states
  stateLive : ∀ s, s < q.states → q.ruleLive (q.ruleInstance s) = true → q.stateLive s = true
  rule_lt : ∀ r, q.ruleLive r = true → r < q.ruleInsts
  ruleLive : ∀ r, q.ruleLive r = true ↔ r ∈ q.firstRuleInstance ∨ cr = some r
  nodup : q.firstRuleInstance.Nodup
  notLinked : ∀ r, cr = some r → r ∉ q.firstRuleInstance

namespace Wf

variable {q : RecordView} {cr : Option Nat} {r s : Nat}

theorem addThread (h : Wf q cr) (hs : s < q.states) : Wf (q.addThread s) cr where
  stateInstance_lt := by
    intro t ht
    by_cases htt : t = q.threads
    · simpa [RecordView.addThread, htt] using hs
    · simp only [RecordView.addThread, Function.update_of_ne htt]
      exact h.stateInstance_lt t (Nat.lt_of_le_of_ne (Nat.le_of_lt_succ ht) htt)
  ruleInstance_lt := h.ruleInstance_lt
  mem_statesOf := h.mem_statesOf
  nodup_statesOf := h.nodup_statesOf
  state_lt := h.state_lt
  stateLive := h.stateLive
  rule_lt := h.rule_lt
  ruleLive := h.ruleLive
  nodup := h.nodup
  notLinked := h.notLinked

theorem addState (h : Wf q cr) (hr : r < q.ruleInsts) : Wf (q.addState r) cr where
  stateInstance_lt t ht := (h.stateInstance_lt t ht).trans (Nat.lt_succ_self _)
  ruleInstance_lt := by
    intro s hs
    by_cases hss : s = q.states
    · simpa [RecordView.addState, hss] using hr
    · simp only [RecordView.addState, Function.update_of_ne hss]
      exact h.ruleInstance_lt s (Nat.lt_of_le_of_ne (Nat.le_of_lt_succ hs) hss)
  mem_statesOf := by
    intro r' hr' s
    have hold := h.mem_statesOf r' hr' s
    have hlt : s < q.states + 1 ↔ s < q.states ∨ s = q.states := by omega
    simp only [RecordView.statesOf, RecordView.addState, List.mem_cons, hlt] at hold ⊢
    by_cases hss : s = q.states
    · subst hss
      have hnot : ¬ (q.states = q.firstState r' ∨ q.states ∈ q.stateList r') := by
        rw [hold]
        exact fun hf => Nat.lt_irrefl _ hf.1
      rw [Function.update_self]
      by_cases hrr : r' = r
      · simp [hrr]
      · rw [Function.update_of_ne hrr]
        simp only [Nat.lt_irrefl, or_true, true_and]
        exact ⟨fun hf => (hnot hf).elim, fun hf => (hrr hf.symm).elim⟩
    · rw [Function.update_of_ne hss]
      by_cases hrr : r' = r
      · subst hrr
        simp only [Function.update_self, List.mem_cons, hss, false_or, or_false]
        exact hold
      · simp only [Function.update_of_ne hrr, hss, or_false]
        exact hold
  nodup_statesOf := by
    intro r' hr'
    have hold := h.nodup_statesOf r' hr'
    by_cases hrr : r' = r
    · subst hrr
      have hnot : q.states ∉ q.statesOf r' := fun hm =>
        Nat.lt_irrefl _ ((h.mem_statesOf r' hr' _).mp hm).1
      simp only [RecordView.statesOf, RecordView.addState, Function.update_self,
        List.nodup_cons, List.mem_cons, not_or] at hold hnot ⊢
      exact ⟨⟨fun hf => hnot.1 hf.symm, hold.1⟩, hnot.2, hold.2⟩
    · simpa [RecordView.statesOf, RecordView.addState, Function.update_of_ne hrr] using hold
  state_lt := by
    intro s hs
    by_cases hss : s = q.states
    · simp [RecordView.addState, hss]
    · simp only [RecordView.addState, Function.update_of_ne hss] at hs
      exact (h.state_lt s hs).trans (Nat.lt_succ_self _)
  stateLive := by
    intro s hs hl
    by_cases hss : s = q.states
    · simp [RecordView.addState, hss]
    · simp only [RecordView.addState, Function.update_of_ne hss] at hl ⊢
      exact h.stateLive s (Nat.lt_of_le_of_ne (Nat.le_of_lt_succ hs) hss) hl
  rule_lt := h.rule_lt
  ruleLive := h.ruleLive
  nodup := h.nodup
  notLinked := h.notLinked

theorem addRule (h : Wf q none) : Wf q.addRule (some q.ruleInsts) where
  stateInstance_lt t ht := (h.stateInstance_lt t ht).trans (Nat.lt_succ_self _)
  ruleInstance_lt := by
    intro s hs
    by_cases hss : s = q.states
    · simp [RecordView.addRule, hss]
    · simp only [RecordView.addRule, Function.update_of_ne hss]
      exact (h.ruleInstance_lt s (Nat.lt_of_le_of_ne (Nat.le_of_lt_succ hs) hss)).trans
        (Nat.lt_succ_self _)
  mem_statesOf := by
    intro r hr s
    have hlt : s < q.states + 1 ↔ s < q.states ∨ s = q.states := by omega
    simp only [RecordView.statesOf, RecordView.addRule, List.mem_cons, hlt]
    by_cases hrr : r = q.ruleInsts
    · subst hrr
      simp only [Function.update_self, List.not_mem_nil, or_false]
      by_cases hss : s = q.states
      · simp [hss]
      · rw [Function.update_of_ne hss]
        refine ⟨fun hf => (hss hf).elim, fun hf => ?_⟩
        have hlt := h.ruleInstance_lt s (hf.1.resolve_right hss)
        omega
    · have hr' : r < q.ruleInsts := Nat.lt_of_le_of_ne (Nat.le_of_lt_succ hr) hrr
      have hold := h.mem_statesOf r hr' s
      simp only [RecordView.statesOf, List.mem_cons] at hold
      rw [Function.update_of_ne hrr, Function.update_of_ne hrr, hold]
      by_cases hss : s = q.states
      · subst hss
        rw [Function.update_self]
        omega
      · rw [Function.update_of_ne hss]
        simp [hss]
  nodup_statesOf := by
    intro r hr
    by_cases hrr : r = q.ruleInsts
    · simp [RecordView.statesOf, RecordView.addRule, hrr]
    · have hr' : r < q.ruleInsts := Nat.lt_of_le_of_ne (Nat.le_of_lt_succ hr) hrr
      simpa [RecordView.statesOf, RecordView.addRule, Function.update_of_ne hrr] using
        h.nodup_statesOf r hr'
  state_lt := by
    intro s hs
    by_cases hss : s = q.states
    · simp [RecordView.addRule, hss]
    · simp only [RecordView.addRule, Function.update_of_ne hss] at hs
      exact (h.state_lt s hs).trans (Nat.lt_succ_self _)
  stateLive := by
    intro s hs hl
    by_cases hss : s = q.states
    · simp [RecordView.addRule, hss]
    · have hs' : s < q.states := Nat.lt_of_le_of_ne (Nat.le_of_lt_succ hs) hss
      simp only [RecordView.addRule, Function.update_of_ne hss] at hl ⊢
      rw [Function.update_of_ne (h.ruleInstance_lt s hs').ne] at hl
      exact h.stateLive s hs' hl
  rule_lt := by
    intro r hr
    by_cases hrr : r = q.ruleInsts
    · simp [RecordView.addRule, hrr]
    · simp only [RecordView.addRule, Function.update_of_ne hrr] at hr
      exact (h.rule_lt r hr).trans (Nat.lt_succ_self _)
  ruleLive := by
    intro r
    by_cases hrr : r = q.ruleInsts
    · simp [RecordView.addRule, hrr]
    · simp only [RecordView.addRule, Function.update_of_ne hrr, Option.some.injEq]
      simpa [Ne.symm hrr] using h.ruleLive r
  nodup := h.nodup
  notLinked := by
    rintro r hr hm
    obtain rfl := Option.some.inj hr
    exact Nat.lt_irrefl _ (h.rule_lt _ ((h.ruleLive _).mpr (.inl hm)))

theorem linkRule (h : Wf q (some r)) : Wf (q.linkRule r) none where
  stateInstance_lt := h.stateInstance_lt
  ruleInstance_lt := h.ruleInstance_lt
  mem_statesOf := h.mem_statesOf
  nodup_statesOf := h.nodup_statesOf
  state_lt := h.state_lt
  stateLive := h.stateLive
  rule_lt := h.rule_lt
  ruleLive := by
    intro r'
    rw [show (q.linkRule r).ruleLive = q.ruleLive from rfl, h.ruleLive r']
    simp [RecordView.linkRule, eq_comm, or_comm]
  nodup := List.nodup_cons.mpr ⟨h.notLinked r rfl, h.nodup⟩
  notLinked _ hr := by cases hr

/-- A rule instance is taken out of the list before it is freed. -/
theorem unlink (h : Wf q none) (hr : r ∈ q.firstRuleInstance) :
    Wf { q with firstRuleInstance := q.firstRuleInstance.erase r } (some r) where
  stateInstance_lt := h.stateInstance_lt
  ruleInstance_lt := h.ruleInstance_lt
  mem_statesOf := h.mem_statesOf
  nodup_statesOf := h.nodup_statesOf
  state_lt := h.state_lt
  stateLive := h.stateLive
  rule_lt := h.rule_lt
  ruleLive r' := by
    refine (h.ruleLive r').trans ?_
    by_cases hrr : r' = r
    · simp [hrr, hr]
    · rw [List.mem_erase_of_ne hrr]
      simp [Ne.symm hrr]
  nodup := h.nodup.erase r
  notLinked r' hr' := by
    obtain rfl := Option.some.inj hr'
    exact h.nodup.not_mem_erase

/-- A rule instance is freed that is in the list, or that is not yet in the list. -/
theorem freeRule (h : Wf q cr) (hr : r < q.ruleInsts) (hcr : cr = none ∨ cr = some r) :
    Wf (q.freeRule r) none where
  stateInstance_lt := h.stateInstance_lt
  ruleInstance_lt := h.ruleInstance_lt
  mem_statesOf := h.mem_statesOf
  nodup_statesOf := h.nodup_statesOf
  state_lt s hs := by
    simp only [RecordView.freeRule, Bool.and_eq_true] at hs
    exact h.state_lt s hs.1
  stateLive := by
    intro s hs hl
    have hne : q.ruleInstance s ≠ r := by
      rintro heq
      simp [RecordView.freeRule, heq] at hl
    simp only [RecordView.freeRule, Function.update_of_ne hne] at hl
    have hnot : s ∉ q.statesOf r := fun hm => hne ((h.mem_statesOf r hr s).mp hm).2
    simp [RecordView.freeRule, h.stateLive s hs hl, hnot]
  rule_lt := by
    intro r' hr'
    by_cases hrr : r' = r
    · simp [RecordView.freeRule, hrr] at hr'
    · simp only [RecordView.freeRule, Function.update_of_ne hrr] at hr'
      exact h.rule_lt r' hr'
  ruleLive := by
    intro r'
    by_cases hrr : r' = r
    · have hnot := h.nodup.not_mem_erase (a := r)
      simp [RecordView.freeRule, hrr, hnot]
    · have hcr' : cr ≠ some r' := by
        rcases hcr with rfl | rfl
        · exact fun hf => nomatch hf
        · exact fun hf => hrr (Option.some.inj hf).symm
      simp only [RecordView.freeRule, Function.update_of_ne hrr]
      rw [h.ruleLive r', List.mem_erase_of_ne hrr]
      simp [hcr']
  nodup := h.nodup.erase r
  notLinked _ hr := by cases hr

end Wf

/-! ## The references of a state -/

variable {V : Type}

/-- The references between the records of a state. -/
def Ctx.records (c : Ctx V) : RecordView where
  threads := c.thr.size
  stateInstance := fun t => (c.thr.cell t).stateInstance
  states := c.si.size
  ruleInstance := fun s => (c.si.cell s).ruleInstance
  stateLive := c.si.live
  ruleInsts := c.ri.size
  firstState := fun r => (c.ri.cell r).firstState
  stateList := fun r => (c.ri.cell r).stateList
  ruleLive := c.ri.live
  firstRuleInstance := c.firstRuleInstance

/-- A part of the records that a change of one of them leaves alone. -/
theorem proj_modify_of_eq {α β : Type} {h : Heap α} {a : Nat} {f : α → α} (p : α → β)
    (hp : ∀ x, p (f x) = p x) : (fun b => p ((h.modify a f).cell b)) = fun b => p (h.cell b) := by
  funext b
  exact h.proj_modify a b f p (hp _)

@[simp] theorem records_vmExec (vm : Vm V) (s : Nat) (code : List Nat) (c : Ctx V) :
    (c.vmExec vm s code).records = c.records := by
  simp [Ctx.records, Ctx.vmExec, proj_modify_of_eq StateInst.ruleInstance]

@[simp] theorem records_markDeadRule (r : Nat) (c : Ctx V) :
    (c.markDeadRule r).records = c.records := by
  simp [Ctx.records, Ctx.markDeadRule, proj_modify_of_eq RuleInst.firstState,
    proj_modify_of_eq RuleInst.stateList]

theorem records_newState (dest s : Nat) (c : Ctx V) :
    (c.newState dest s).records = c.records.addState (c.si.cell s).ruleInstance := by
  simp [Ctx.records, Ctx.newState, RecordView.addState, Heap.live_alloc_eq,
    Heap.proj_alloc_eq c.si _ StateInst.ruleInstance, proj_modify_of_eq RuleInst.firstState,
    Heap.proj_modify_eq c.ri _ _ RuleInst.stateList]

@[simp] theorem records_pushNew (a : Nat) (c : Ctx V) : (c.pushNew a).records = c.records := by
  unfold Ctx.pushNew
  cases c.newQt with
  | none => rfl
  | some q => simp [Ctx.records, proj_modify_of_eq WaitThread.stateInstance]

theorem records_newThread (clock : Ctx V → Nat) (s : Nat) (onlyOnce : Bool) (tr : Trans)
    (c : Ctx V) : (c.newThread clock s onlyOnce tr).records = c.records.addThread s := by
  unfold Ctx.newThread
  rw [records_pushNew]
  cases onlyOnce <;>
    simp [Ctx.records, RecordView.addThread, Heap.proj_alloc_eq c.thr _ WaitThread.stateInstance,
      proj_modify_of_eq RuleInst.firstState, proj_modify_of_eq RuleInst.stateList,
      proj_modify_of_eq StateInst.ruleInstance]

@[simp] theorem records_killThread (t : Nat) (c : Ctx V) :
    (c.killThread t).records = c.records := by
  simp [Ctx.records, Ctx.killThread, proj_modify_of_eq WaitThread.stateInstance]

@[simp] theorem records_beginVisit (curTime t : Nat) (c : Ctx V) :
    (c.beginVisit curTime t).records = c.records := by
  unfold Ctx.beginVisit
  simp only
  split
  · exact records_killThread t _
  · rfl

@[simp] theorem records_bumpTail (q : Option Nat) (c : Ctx V) :
    (c.bumpTail q).records = c.records := by
  unfold Ctx.bumpTail
  cases q with
  | none => rfl
  | some q => simp [Ctx.records, proj_modify_of_eq WaitThread.stateInstance]

@[simp] theorem records_commitNew (c : Ctx V) : c.commitNew.records = c.records := by
  unfold Ctx.commitNew
  simp only
  split
  · split
    · trans ((c.bumpTail c.retrigQt).bumpTail (c.bumpTail c.retrigQt).newQt).records
      · simp [Ctx.records, proj_modify_of_eq WaitThread.stateInstance]
      · simp
    · trans ((c.bumpTail c.retrigQt).bumpTail (c.bumpTail c.retrigQt).newQt).records
      · rfl
      · simp
  · exact records_bumpTail c.retrigQt c

@[simp] theorem records_commitAt (t : Nat) (c : Ctx V) : (c.commitAt t).records = c.records := by
  unfold Ctx.commitAt
  split
  · exact records_commitNew c
  · rfl

@[simp] theorem records_mergeQueues (c : Ctx V) : c.mergeQueues.records = c.records := by
  unfold Ctx.mergeQueues
  cases c.newQh with
  | none => rfl
  | some p =>
    cases c.newQt with
    | none => rfl
    | some q => simp [Ctx.records, proj_modify_of_eq WaitThread.stateInstance]

@[simp] theorem records_requeue (t : Nat) (c : Ctx V) : (c.requeue t).records = c.records := by
  unfold Ctx.requeue
  simp only
  split <;> simp [Ctx.records, proj_modify_of_eq WaitThread.stateInstance]

@[simp] theorem records_freeThread (t : Nat) (p : Option Nat) (c : Ctx V) :
    (c.freeThread t p).records = c.records := by
  unfold Ctx.freeThread
  cases c.curRetrigQt <;> simp [Ctx.records, proj_modify_of_eq WaitThread.stateInstance]

@[simp] theorem records_unlinkThread (t : Nat) (c : Ctx V) :
    (c.unlinkThread t).records = c.records := by
  simp [Ctx.records, Ctx.unlinkThread, proj_modify_of_eq StateInst.ruleInstance]

@[simp] theorem records_countDown (r : Nat) (c : Ctx V) :
    (c.countDown r).records = c.records := by
  simp [Ctx.records, Ctx.countDown, proj_modify_of_eq RuleInst.firstState,
    proj_modify_of_eq RuleInst.stateList]

@[simp] theorem records_killRuleInst (r : Nat) (c : Ctx V) :
    (c.killRuleInst r).records = c.records := by
  simp [Ctx.records, Ctx.killRuleInst, proj_modify_of_eq RuleInst.firstState,
    proj_modify_of_eq RuleInst.stateList]

@[simp] theorem records_setCreationDate (r : Nat) (c : Ctx V) :
    (c.setCreationDate r).records = c.records := by
  simp [Ctx.records, Ctx.setCreationDate, proj_modify_of_eq RuleInst.firstState,
    proj_modify_of_eq RuleInst.stateList]

@[simp] theorem records_countPass (t : Nat) (c : Ctx V) :
    (c.countPass t).records = c.records := by
  unfold Ctx.countPass
  simp only
  split
  · rw [records_setCreationDate]
    simp [Ctx.records, proj_modify_of_eq WaitThread.stateInstance]
  · simp [Ctx.records, proj_modify_of_eq WaitThread.stateInstance]

@[simp] theorem records_bindEvent (e s : Nat) (c : Ctx V) :
    (c.bindEvent e s).records = c.records := by
  simp [Ctx.records, Ctx.bindEvent, proj_modify_of_eq StateInst.ruleInstance]

theorem records_passState (e t : Nat) (c : Ctx V) :
    (c.passState e t).records = c.records.addState (c.ruleInstOf t) := by
  unfold Ctx.passState
  rw [records_bindEvent, records_newState, records_countPass, si_countPass]
  rfl

theorem records_newRuleInst (k : Nat) (c : Ctx V) :
    (c.newRuleInst k).records = c.records.addRule := by
  simp [Ctx.records, Ctx.newRuleInst, RecordView.addRule, Heap.live_alloc_eq,
    Heap.proj_alloc_eq c.si _ StateInst.ruleInstance, Heap.proj_alloc_eq c.ri _ RuleInst.firstState,
    Heap.proj_alloc_eq c.ri _ RuleInst.stateList]

@[simp] theorem records_beginEvent (event : List (Nat × V)) (c : Ctx V) :
    (c.beginEvent event).records = c.records := rfl

@[simp] theorem records_endEvent (event : List (Nat × V)) (e : Nat) (c : Ctx V) :
    (c.endEvent event e).records = c.records := by
  unfold Ctx.endEvent
  simp only
  split
  · rfl
  · split <;> rfl

theorem records_linkRuleInst (r : Nat) (ret : Int) (c : Ctx V) :
    (c.linkRuleInst r ret).records = c.records.linkRule r := by
  unfold Ctx.linkRuleInst
  rw [records_bumpTail]
  simp [Ctx.records, RecordView.linkRule, proj_modify_of_eq RuleInst.firstState,
    proj_modify_of_eq RuleInst.stateList]

section

variable [SyncValue V] (rules : RuleSet)

@[simp] theorem records_addLock (s : Nat) (c : Ctx V) :
    (c.addLock rules s).records = c.records := by
  simp [Ctx.records, Ctx.addLock, Ctx.objhashAdd, proj_modify_of_eq RuleInst.firstState,
    proj_modify_of_eq RuleInst.stateList]

theorem records_freeRuleInstance (r : Nat) (c : Ctx V) :
    (c.freeRuleInstance rules r).records =
      { c.records.freeRule r with firstRuleInstance := c.firstRuleInstance } := by
  obtain ⟨ae, hd, tl, n, l, heq⟩ := freeRuleInstance_eq rules r c
  rw [heq]
  unfold Ctx.records RecordView.freeRule
  simp only [Heap.size_foldl_free, Heap.cell_foldl_free, Heap.size_free, Heap.cell_free,
    Heap.live_free_eq, RecordView.mk.injEq, true_and, and_true]
  funext s
  exact Heap.live_foldl_free _ s _

theorem records_finishRuleInst {r : Nat} {c : Ctx V} (hr : r ∉ c.firstRuleInstance) (ret : Int) :
    (c.finishRuleInst rules r ret).records =
      if ret ≤ 0 then c.records.freeRule r else c.records.linkRule r := by
  unfold Ctx.finishRuleInst
  by_cases h : ret ≤ 0
  · rw [if_pos h, if_pos h, records_freeRuleInstance, ← List.erase_of_not_mem hr]
    rfl
  · rw [if_neg h, if_neg h, records_linkRuleInst]

/-- The end of the last thread by the counter is the end of its rule instance. -/
theorem records_dropThread_last {t : Nat} {c : Ctx V}
    (hone : (c.ri.cell (c.ruleInstOf t)).threads = 1) (hm : c.ruleInstOf t ∈ c.firstRuleInstance) :
    (c.dropThread rules t).records = c.records.freeRule (c.ruleInstOf t) := by
  rcases dropThread_cases rules t c with ⟨hn, _⟩ | ⟨_, hn, _⟩ | ⟨_, _, heq⟩
  · exact absurd hone hn
  · exact absurd hm hn
  · have hrec : ((c.countDown (c.ruleInstOf t)).killRuleInst (c.ruleInstOf t)).records =
        c.records := by
      rw [records_killRuleInst, records_countDown]
    rw [heq, records_freeRuleInstance, ← hrec]
    rfl

/-- The end of a thread is the end of its rule instance if it was the last one by the counter. -/
theorem records_dropThread (t : Nat) (c : Ctx V) :
    (c.dropThread rules t).records = c.records ∨
      (c.ri.cell (c.ruleInstOf t)).threads = 1 ∧ c.ruleInstOf t ∈ c.firstRuleInstance ∧
        (c.dropThread rules t).records = c.records.freeRule (c.ruleInstOf t) := by
  rcases dropThread_cases rules t c with ⟨_, heq⟩ | ⟨_, _, heq⟩ | ⟨hone, hm, _⟩
  · left
    rw [heq, records_unlinkThread, records_countDown]
  · left
    rw [heq, records_killRuleInst, records_countDown]
  · exact .inr ⟨hone, hm, records_dropThread_last rules hone hm⟩

end

/-! ## The steps of the engine -/

/-- The state instance of a thread belongs to its rule instance. -/
theorem Wf.thread_of {c : Ctx V} {cr : Option Nat} (h : Wf c.records cr) {t : Nat}
    (ht : t < c.thr.size) : Of c (c.ruleInstOf t) (c.thr.cell t).stateInstance :=
  ⟨h.stateInstance_lt t ht, rfl, h.ruleInstance_lt _ (h.stateInstance_lt t ht)⟩

theorem Wf.state_of {c : Ctx V} {cr : Option Nat} (h : Wf c.records cr) {s : Nat}
    (hs : s < c.si.size) : Of c (c.si.cell s).ruleInstance s :=
  ⟨hs, rfl, h.ruleInstance_lt s hs⟩

/-- A thread keeps its rule instance. -/
theorem Grows.ruleInstOf {c c' : Ctx V} (hg : Grows c c') {cr : Option Nat}
    (h : Wf c.records cr) {t : Nat} (ht : t < c.thr.size) : c'.ruleInstOf t = c.ruleInstOf t := by
  unfold Ctx.ruleInstOf
  rw [hg.stateInstance ht, hg.ruleInstance (h.thread_of ht).lt]

theorem Wf.passState_of {c : Ctx V} {cr : Option Nat} (h : Wf c.records cr) {t : Nat}
    (ht : t < c.thr.size) (e : Nat) : Of (c.passState e t) (c.ruleInstOf t) c.si.size := by
  have ho := ((h.thread_of ht).grows (grows_countPass t c)).newState (c.thr.cell t).trans.dest
  rw [si_countPass] at ho
  exact ho.grows (grows_bindEvent e c.si.size _)

section

variable [SyncValue V] {rules : RuleSet} {prune : Nat → Ctx V → Bool} {call : Call V}
  {fuel r s : Nat} {onlyOnce : Bool} {cr : Option Nat} {c c' : Ctx V}

theorem simulate_wf (ho : Of c r s) (h : Wf c.records cr) {ret : Int}
    (heq : simulate rules call fuel s onlyOnce c = some (ret, c')) :
    Grows c c' ∧ Wf c'.records cr := by
  refine simulate_inv (I := fun c => Wf c.records cr) (.of_inv ?_ ?_ ?_ ?_ ?_) ho h heq
  · intro c s code _ h
    simpa using h
  · intro c h
    simpa using h
  · intro c s _ h
    simpa using h
  · intro c s dest ho h
    rw [records_newState, ho.ruleInstance]
    exact h.addState ho.rule_lt
  · intro c s tr ho h
    rw [records_newThread]
    exact h.addThread ho.lt

theorem startRule_wf (h : Wf c.records none) {k : Nat}
    (heq : startRule rules call fuel k c = some c') : Wf c'.records none := by
  obtain ⟨ret, c₁, hs, rfl⟩ := startRule_some heq
  have h₀ : Wf (c.newRuleInst k).records (some c.ri.size) := by
    rw [records_newRuleInst]
    exact h.addRule
  obtain ⟨hg, h₁⟩ := simulate_wf (.newRuleInst k c) h₀ hs
  have ho₁ := (Of.newRuleInst k c).grows hg
  rw [records_finishRuleInst rules (h₁.notLinked _ rfl)]
  by_cases hret : ret ≤ 0
  · rw [if_pos hret]
    exact h₁.freeRule ho₁.rule_lt (.inr rfl)
  · rw [if_neg hret]
    exact h₁.linkRule

theorem reapThread_wf (h : Wf c.records none) {t : Nat} (ht : t < c.thr.size) (p : Option Nat) :
    Wf (c.reapThread rules t p).records none := by
  unfold Ctx.reapThread
  rw [records_freeThread]
  rcases records_dropThread rules t c with heq | ⟨_, _, heq⟩
  · rw [heq]
    exact h
  · rw [heq]
    exact h.freeRule (h.thread_of ht).rule_lt (.inl rfl)

/-- The evaluation of a thread: the byte code of its transition, and where this passes a new state
instance and the simulation of its state, with `B` between the two. -/
theorem evaluated_inv {e t : Nat} {A B : Ctx V → Prop} (hw : Wf c.records none)
    (ht : t < c.thr.size) (hev : Evaluated rules prune call fuel e t c c')
    (hvm : A (c.vmExec call.vm (c.thr.cell t).stateInstance
      ((c.thr.cell t).trans.evalCode.getD [])))
    (hpass : ∀ c₀, Wf c₀.records none → t < c₀.thr.size → Grows c c₀ → c₀.si.size = c.si.size →
      A c₀ → B (c₀.passState e t))
    (hsim : ∀ r c₁ ret c₂, Of c₁ r c.si.size → Wf c₁.records none → r = c.ruleInstOf t → B c₁ →
      simulate rules call fuel c.si.size false c₁ = some (ret, c₂) → A c₂)
    (hkill : ∀ c₂, A c₂ → A (c₂.killThread t)) : A c' := by
  cases hev with
  | fail code hcode hret => exact hcode ▸ hvm
  | pass code c₁ c₂ ret hcode hret hc₁ hs =>
    have ha := hvm
    rw [← hcode] at ha
    have hg₀ : Grows c (c.vmExec call.vm (c.thr.cell t).stateInstance code) := grows_vmExec _ _ _ _
    have hsz : (c.vmExec call.vm (c.thr.cell t).stateInstance code).si.size = c.si.size :=
      si_size_vmExec _ _ _ _
    have hw₀ : Wf (c.vmExec call.vm (c.thr.cell t).stateInstance code).records none := by
      rwa [records_vmExec]
    generalize c.vmExec call.vm (c.thr.cell t).stateInstance code = c₀ at hc₁ ha hg₀ hsz hw₀
    have ht₀ : t < c₀.thr.size := lt_of_lt_of_le ht hg₀.thr.size_le
    have hw₁ : Wf c₁.records none := by
      rw [hc₁, records_passState]
      exact hw₀.addState (hw₀.thread_of ht₀).rule_lt
    have ho : Of c₁ (c₀.ruleInstOf t) c.si.size := hsz ▸ hc₁ ▸ hw₀.passState_of ht₀ e
    have h₂ := hsim _ c₁ ret c₂ ho hw₁ (hg₀.ruleInstOf hw ht) (hc₁ ▸ hpass c₀ hw₀ ht₀ hg₀ hsz ha) hs
    split
    · exact hkill c₂ h₂
    · exact h₂

theorem evaluated_wf {e t : Nat} (h : Wf c.records none) (ht : t < c.thr.size)
    (hev : Evaluated rules prune call fuel e t c c') : Grows c c' ∧ Wf c'.records none := by
  refine evaluated_inv (A := fun d => Grows c d ∧ Wf d.records none)
    (B := fun d => Grows c d ∧ Wf d.records none) h ht hev ?_ ?_ ?_ ?_
  · exact ⟨grows_vmExec _ _ _ _, by rwa [records_vmExec]⟩
  · rintro c₀ hw₀ ht₀ - - ⟨hg, -⟩
    refine ⟨hg.trans (grows_passState e t c₀), ?_⟩
    rw [records_passState]
    exact hw₀.addState (hw₀.thread_of ht₀).rule_lt
  · rintro r c₁ ret c₂ ho hw₁ - ⟨hg, -⟩ hs
    obtain ⟨hg₂, hw₂⟩ := simulate_wf ho hw₁ hs
    exact ⟨hg.trans hg₂, hw₂⟩
  · rintro c₂ ⟨hg, hw₂⟩
    exact ⟨hg.trans (grows_killThread t c₂), by rwa [records_killThread]⟩

theorem evtStep_wf {curTime e t : Nat} {p : Option Nat} (h : Wf c.records none)
    (ht : t < c.thr.size) (heq : evtStep rules prune call fuel curTime e t p c = some c') :
    Wf c'.records none := by
  have h₀ : Wf (c.beginVisit curTime t).records none := by simpa using h
  have ht₀ : t < (c.beginVisit curTime t).thr.size :=
    lt_of_lt_of_eq ht (congrArg RecordView.threads (records_beginVisit curTime t c)).symm
  rcases evtStep_cases heq with ⟨_, rfl⟩ | ⟨_, c₁, hev, ⟨_, rfl⟩ | ⟨_, rfl⟩⟩
  · exact reapThread_wf h₀ ht₀ p
  · obtain ⟨hg, h₁⟩ := evaluated_wf h₀ ht₀ hev
    refine reapThread_wf (by simpa using h₁) ?_ p
    have hrec : ((c₁.killThread t).commitAt t).records = c₁.records := by simp
    exact lt_of_lt_of_eq (lt_of_lt_of_le ht₀ hg.thr.size_le) (congrArg RecordView.threads hrec).symm
  · obtain ⟨hg, h₁⟩ := evaluated_wf h₀ ht₀ hev
    simpa using h₁

end

end Orchids

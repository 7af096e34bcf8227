import Orchids.Engine.Inject
import Orchids.Engine.Rules

/-!
# Rules for runs of the engine

How an invariant is carried through the calls of `inject_event`: once for the loop over the
rules, the event loop and the sequence of calls.

* `evtStep_cases`: what one turn of the event loop does.
* `freeRuleInstance_eq`: what the end of a rule instance leaves alone.
* `EngineInv`: an invariant of the engine, with what it says between two calls and during one.
* `EngineRules`: what the turns of the loops have to keep; `EngineRules.run`,
  `EngineRules.inject`: then every run keeps it.
-/

namespace Orchids

variable {V : Type}

/-! ## The end of a rule instance -/

section

variable [SyncValue V] (rules : RuleSet)

theorem foldl_objhashDel_eq (k : Nat) (l : List Nat) (c : Ctx V) :
    ∃ t, l.foldl (fun c s => c.objhashDel rules k s) c = { c with syncLock := t } := by
  induction l generalizing c with
  | nil => exact ⟨_, rfl⟩
  | cons s l ih =>
    obtain ⟨t, ht⟩ := ih (c.objhashDel rules k s)
    exact ⟨t, ht⟩

end

theorem releaseEvent_eq (e : Nat) (c : Ctx V) :
    ∃ ae hd tl n, c.releaseEvent e =
      { c with ae := ae, activeEventHead := hd, activeEventTail := tl, activeEvents := n } := by
  unfold Ctx.releaseEvent
  simp only
  split <;> exact ⟨_, _, _, _, rfl⟩

theorem dropEvent_eq (e : Nat) (c : Ctx V) :
    ∃ ae hd tl n, c.dropEvent e =
      { c with ae := ae, activeEventHead := hd, activeEventTail := tl, activeEvents := n } := by
  unfold Ctx.dropEvent
  simp only
  split
  · exact releaseEvent_eq _ _
  · exact ⟨_, _, _, _, rfl⟩

theorem freeState_eq (s : Nat) (c : Ctx V) :
    ∃ ae hd tl n, c.freeState s =
      { c with
        si := c.si.free s, ae := ae, activeEventHead := hd, activeEventTail := tl
        activeEvents := n, stateInstances := c.stateInstances - 1 } := by
  unfold Ctx.freeState
  cases (c.si.cell s).event with
  | none => exact ⟨c.ae, c.activeEventHead, c.activeEventTail, c.activeEvents, rfl⟩
  | some e =>
    obtain ⟨ae, hd, tl, n, heq⟩ := dropEvent_eq e c
    simp only [heq]
    exact ⟨ae, hd, tl, n, rfl⟩

theorem foldl_freeState_eq (l : List Nat) (c : Ctx V) :
    ∃ ae hd tl n, l.foldl (fun c s => c.freeState s) c =
      { c with
        si := l.foldl Heap.free c.si, ae := ae, activeEventHead := hd, activeEventTail := tl
        activeEvents := n, stateInstances := c.stateInstances - l.length } := by
  induction l generalizing c with
  | nil => exact ⟨c.ae, c.activeEventHead, c.activeEventTail, c.activeEvents, by simp⟩
  | cons s l ih =>
    obtain ⟨ae, hd, tl, n, heq⟩ := freeState_eq s c
    obtain ⟨ae', hd', tl', n', heq'⟩ := ih (c.freeState s)
    have hlen : c.stateInstances - 1 - (l.length : Int) =
        c.stateInstances - ((s :: l).length : Int) := by
      rw [List.length_cons]
      omega
    refine ⟨ae', hd', tl', n', ?_⟩
    rw [List.foldl_cons, heq', heq]
    simp only [hlen, List.foldl_cons]

theorem countEnd_eq (r : Nat) (c : Ctx V) :
    c.countEnd r =
      { c with
        instances := (c.countEnd r).instances, ruleInstances := (c.countEnd r).ruleInstances } := by
  unfold Ctx.countEnd
  simp only
  split <;> rfl

section

variable [SyncValue V] (rules : RuleSet)

/-- The state instances and the rule instance are freed; the threads stay as they are. -/
theorem freeRuleInstance_eq (r : Nat) (c : Ctx V) :
    ∃ ae hd tl n l, c.freeRuleInstance rules r =
      { c with
        si := ((c.ri.cell r).firstState :: (c.ri.cell r).stateList).foldl Heap.free c.si
        ri := c.ri.free r, ae := ae, activeEventHead := hd, activeEventTail := tl
        activeEvents := n, syncLock := l, instances := (c.countEnd r).instances
        ruleInstances := (c.countEnd r).ruleInstances
        stateInstances := c.stateInstances - 1 - (c.ri.cell r).stateList.length } := by
  unfold Ctx.freeRuleInstance
  obtain ⟨l, hl⟩ := foldl_objhashDel_eq rules (c.ri.cell r).rule (c.ri.cell r).syncLockList c
  simp only [hl]
  obtain ⟨ae, hd, tl, n, heq⟩ := foldl_freeState_eq (c.ri.cell r).stateList
    { c with
      syncLock := l, si := c.si.free (c.ri.cell r).firstState
      stateInstances := c.stateInstances - 1 }
  have hcount : ∀ c' : Ctx V, c'.ri = c.ri → c'.instances = c.instances →
      c'.ruleInstances = c.ruleInstances →
      (c'.countEnd r).instances = (c.countEnd r).instances ∧
        (c'.countEnd r).ruleInstances = (c.countEnd r).ruleInstances := by
    intro c' hri hi hr
    unfold Ctx.countEnd
    simp only [hri, hi, hr]
    split
    · exact ⟨rfl, rfl⟩
    · exact ⟨hi, hr⟩
  refine ⟨ae, hd, tl, n, l, ?_⟩
  rw [countEnd_eq, heq]
  obtain ⟨hi, hr⟩ := hcount { c with
    si := (c.ri.cell r).stateList.foldl Heap.free (c.si.free (c.ri.cell r).firstState)
    ae := ae, activeEventHead := hd, activeEventTail := tl, activeEvents := n, syncLock := l
    stateInstances := c.stateInstances - 1 - (c.ri.cell r).stateList.length } rfl rfl rfl
  simp only [hi, hr]
  rfl

/-- The end of a thread: its rule instance goes on, was not in the list, or is freed. -/
theorem dropThread_cases (t : Nat) (c : Ctx V) :
    ((c.ri.cell (c.ruleInstOf t)).threads ≠ 1 ∧
        c.dropThread rules t = (c.countDown (c.ruleInstOf t)).unlinkThread t) ∨
      ((c.ri.cell (c.ruleInstOf t)).threads = 1 ∧ c.ruleInstOf t ∉ c.firstRuleInstance ∧
        c.dropThread rules t = (c.countDown (c.ruleInstOf t)).killRuleInst (c.ruleInstOf t)) ∨
      ((c.ri.cell (c.ruleInstOf t)).threads = 1 ∧ c.ruleInstOf t ∈ c.firstRuleInstance ∧
        c.dropThread rules t =
          (((c.countDown (c.ruleInstOf t)).killRuleInst (c.ruleInstOf t)).unlinkRuleInst
            (c.ruleInstOf t)).freeRuleInstance rules (c.ruleInstOf t)) := by
  unfold Ctx.dropThread Ctx.reapDeadRule
  simp only
  generalize c.ruleInstOf t = r
  have hthreads : ((c.countDown r).ri.cell r).threads = (c.ri.cell r).threads - 1 := by
    simp [Ctx.countDown]
  by_cases hz : (c.ri.cell r).threads = 1
  · rw [if_pos (by omega)]
    by_cases hm : r ∈ c.firstRuleInstance
    · exact .inr (.inr ⟨hz, hm, if_pos hm⟩)
    · exact .inr (.inl ⟨hz, hm, if_neg hm⟩)
  · rw [if_neg (by omega)]
    exact .inl ⟨hz, rfl⟩

theorem dropThread_thr (t : Nat) (c : Ctx V) :
    (c.dropThread rules t).thr = c.thr ∧ (c.dropThread rules t).forgotten = c.forgotten := by
  rcases dropThread_cases rules t c with ⟨_, heq⟩ | ⟨_, _, heq⟩ | ⟨_, _, heq⟩
  · rw [heq]
    exact ⟨rfl, rfl⟩
  · rw [heq]
    exact ⟨rfl, rfl⟩
  · rw [heq]
    obtain ⟨ae, hd, tl, n, l, heq⟩ := freeRuleInstance_eq rules (c.ruleInstOf t)
      (((c.countDown (c.ruleInstOf t)).killRuleInst (c.ruleInstOf t)).unlinkRuleInst
        (c.ruleInstOf t))
    rw [heq]
    exact ⟨rfl, rfl⟩

end

/-! ## Growth in the steps of the engine -/

theorem grows_newRuleInst (k : Nat) (c : Ctx V) : Grows c (c.newRuleInst k) := by
  unfold Ctx.newRuleInst
  exact ⟨.refl _, .alloc _ _, .alloc _ _⟩

theorem grows_bumpTail (q : Option Nat) (c : Ctx V) : Grows c (c.bumpTail q) := by
  unfold Ctx.bumpTail
  cases q with
  | none => exact .refl _
  | some q => exact ⟨.modify _ _ _ rfl, .refl _, .refl _⟩

theorem grows_mergeQueues (c : Ctx V) : Grows c c.mergeQueues := by
  unfold Ctx.mergeQueues
  cases c.newQh with
  | none => exact ⟨.refl _, .refl _, .refl _⟩
  | some p =>
    cases c.newQt with
    | none => exact ⟨.refl _, .refl _, .refl _⟩
    | some q => exact ⟨.modify _ _ _ rfl, .refl _, .refl _⟩

theorem grows_commitNew (c : Ctx V) : Grows c c.commitNew := by
  unfold Ctx.commitNew
  simp only
  split
  · refine ((grows_bumpTail c.retrigQt c).trans (grows_bumpTail _ _)).trans ⟨?_, .refl _, .refl _⟩
    split
    · exact .modify _ _ _ rfl
    · exact .refl _
  · exact (grows_bumpTail c.retrigQt c).trans ⟨.refl _, .refl _, .refl _⟩

theorem grows_commitAt (t : Nat) (c : Ctx V) : Grows c (c.commitAt t) := by
  unfold Ctx.commitAt
  split
  · exact grows_commitNew c
  · exact .refl _

theorem grows_countPass (t : Nat) (c : Ctx V) : Grows c (c.countPass t) := by
  unfold Ctx.countPass Ctx.setCreationDate
  simp only
  split
  · exact ⟨.modify _ _ _ rfl, .refl _, .modify _ _ _ rfl⟩
  · exact ⟨.modify _ _ _ rfl, .refl _, .refl _⟩

@[simp] theorem si_countPass (t : Nat) (c : Ctx V) : (c.countPass t).si = c.si := by
  unfold Ctx.countPass Ctx.setCreationDate
  simp only
  split <;> rfl

theorem grows_bindEvent (e s : Nat) (c : Ctx V) : Grows c (c.bindEvent e s) := by
  unfold Ctx.bindEvent
  exact ⟨.refl _, .modify _ _ _ rfl, .refl _⟩

theorem grows_passState (e t : Nat) (c : Ctx V) : Grows c (c.passState e t) := by
  unfold Ctx.passState
  exact ((grows_countPass _ _).trans (grows_newState _ _ _)).trans (grows_bindEvent _ _ _)

theorem grows_killThread (t : Nat) (c : Ctx V) : Grows c (c.killThread t) := by
  unfold Ctx.killThread
  exact ⟨.modify _ _ _ rfl, .refl _, .refl _⟩

theorem grows_beginVisit (curTime t : Nat) (c : Ctx V) : Grows c (c.beginVisit curTime t) := by
  unfold Ctx.beginVisit
  simp only
  split
  · refine Grows.trans ?_ (grows_killThread t _)
    exact ⟨.refl _, .refl _, .refl _⟩
  · exact ⟨.refl _, .refl _, .refl _⟩

theorem grows_requeue (t : Nat) (c : Ctx V) : Grows c (c.requeue t) := by
  unfold Ctx.requeue
  refine ⟨Heap.Grows.trans ?_ (.modify _ _ _ rfl), .refl _, .refl _⟩
  split
  · exact .modify _ _ _ rfl
  · exact .refl _

theorem grows_freeThread (t : Nat) (p : Option Nat) (c : Ctx V) : Grows c (c.freeThread t p) := by
  unfold Ctx.freeThread
  refine ⟨Heap.Grows.trans ?_ (.free _ _), .refl _, .refl _⟩
  split
  · exact .modify _ _ _ rfl
  · exact .refl _

section

variable [SyncValue V] (rules : RuleSet)

theorem grows_freeRuleInstance (r : Nat) (c : Ctx V) : Grows c (c.freeRuleInstance rules r) := by
  obtain ⟨ae, hd, tl, n, l, heq⟩ := freeRuleInstance_eq rules r c
  have hsi : ∀ (l : List Nat) (h : Heap (StateInst V)),
      h.Grows StateInst.fixed (l.foldl Heap.free h) := fun l h =>
    ⟨(h.size_foldl_free l).ge, fun a _ => by rw [Heap.cell_foldl_free]⟩
  rw [heq]
  exact ⟨.refl _, hsi _ _, .free _ _⟩

theorem grows_dropThread (t : Nat) (c : Ctx V) : Grows c (c.dropThread rules t) := by
  have hdown : ∀ r, Grows c (c.countDown r) := fun r => by
    unfold Ctx.countDown
    exact ⟨.refl _, .refl _, .modify _ _ _ rfl⟩
  have hkill : ∀ (r : Nat) (c : Ctx V), Grows c (c.killRuleInst r) := fun r c => by
    unfold Ctx.killRuleInst
    exact ⟨.refl _, .refl _, .modify _ _ _ rfl⟩
  rcases dropThread_cases rules t c with ⟨_, heq⟩ | ⟨_, _, heq⟩ | ⟨_, _, heq⟩
  · rw [heq]
    unfold Ctx.unlinkThread
    exact (hdown _).trans ⟨.refl _, .modify _ _ _ rfl, .refl _⟩
  · rw [heq]
    exact (hdown _).trans (hkill _ _)
  · rw [heq]
    refine Grows.trans ?_ (grows_freeRuleInstance rules _ _)
    refine ((hdown (c.ruleInstOf t)).trans (hkill (c.ruleInstOf t) _)).trans ?_
    exact ⟨.refl _, .refl _, .refl _⟩

theorem grows_reapThread (t : Nat) (p : Option Nat) (c : Ctx V) :
    Grows c (c.reapThread rules t p) :=
  (grows_dropThread rules t c).trans (grows_freeThread t p _)

end

/-! ## What the steps do -/

section

variable [SyncValue V] {rules : RuleSet} {prune : Nat → Ctx V → Bool} {call : Call V}
  {fuel : Nat}

theorem startRule_some {k : Nat} {c c' : Ctx V} (h : startRule rules call fuel k c = some c') :
    ∃ ret c₁, simulate rules call fuel c.si.size true (c.newRuleInst k) = some (ret, c₁) ∧
      c' = c₁.finishRuleInst rules c.ri.size ret := by
  unfold startRule at h
  cases hs : simulate rules call fuel c.si.size true (c.newRuleInst k) with
  | none =>
    rw [hs] at h
    cases h
  | some p =>
    rw [hs] at h
    exact ⟨p.1, p.2, rfl, (Option.some.inj h).symm⟩

/-- What the evaluation of the transition of a thread does. -/
inductive Evaluated (rules : RuleSet) (prune : Nat → Ctx V → Bool) (call : Call V) (fuel e t : Nat)
    (c : Ctx V) : Ctx V → Prop
  | fail (code : List Nat) :
      code = (c.thr.cell t).trans.evalCode.getD [] →
      (call.vm c (c.thr.cell t).stateInstance code).ret ≠ 0 →
      Evaluated rules prune call fuel e t c (c.vmExec call.vm (c.thr.cell t).stateInstance code)
  | pass (code : List Nat) (c₁ c₂ : Ctx V) (ret : Int) :
      code = (c.thr.cell t).trans.evalCode.getD [] →
      (call.vm c (c.thr.cell t).stateInstance code).ret = 0 →
      c₁ = (c.vmExec call.vm (c.thr.cell t).stateInstance code).passState e t →
      simulate rules call fuel c.si.size false c₁ = some (ret, c₂) →
      Evaluated rules prune call fuel e t c (if prune t c₂ then c₂.killThread t else c₂)

theorem evalThread_some {e t : Nat} {c c' : Ctx V}
    (h : evalThread rules prune call fuel e t c = some c') :
    Evaluated rules prune call fuel e t c c' := by
  unfold evalThread at h
  simp only at h
  by_cases hret : (call.vm c (c.thr.cell t).stateInstance
      ((c.thr.cell t).trans.evalCode.getD [])).ret = 0
  · rw [if_pos hret] at h
    unfold passThread at h
    rw [si_size_vmExec] at h
    generalize hc₁ : Ctx.passState e t _ = c₁ at h
    cases hs : simulate rules call fuel c.si.size false c₁ with
    | none =>
      rw [hs] at h
      cases h
    | some p =>
      rw [hs] at h
      obtain rfl := Option.some.inj h
      exact .pass _ c₁ p.2 p.1 rfl hret hc₁.symm hs
  · rw [if_neg hret] at h
    obtain rfl := Option.some.inj h
    exact .fail _ rfl hret

/-- One turn of the event loop: the thread is reaped, or its transition is evaluated and it is
reaped as an initial thread or put into the retrigger queue. -/
theorem evtStep_cases {curTime e t : Nat} {next : Option Nat} {c c' : Ctx V}
    (h : evtStep rules prune call fuel curTime e t next c = some c') :
    (((c.beginVisit curTime t).thr.cell t).killed = true ∧
      c' = (c.beginVisit curTime t).reapThread rules t next) ∨
    (((c.beginVisit curTime t).thr.cell t).killed = false ∧
      ∃ c₁, Evaluated rules prune call fuel e t (c.beginVisit curTime t) c₁ ∧
        (((c₁.thr.cell t).onlyOnce = true ∧
            c' = ((c₁.killThread t).commitAt t).reapThread rules t next) ∨
          ((c₁.thr.cell t).onlyOnce = false ∧ c' = (c₁.requeue t).commitAt t))) := by
  unfold evtStep at h
  simp only at h
  by_cases hk : ((c.beginVisit curTime t).thr.cell t).killed = true
  · rw [if_pos hk] at h
    exact .inl ⟨hk, (Option.some.inj h).symm⟩
  · rw [if_neg hk] at h
    refine .inr ⟨by simpa using hk, ?_⟩
    cases he : evalThread rules prune call fuel e t (c.beginVisit curTime t) with
    | none =>
      rw [he] at h
      cases h
    | some c₁ =>
      rw [he] at h
      simp only at h
      refine ⟨c₁, evalThread_some he, ?_⟩
      by_cases ho : (c₁.thr.cell t).onlyOnce = true
      · rw [if_pos ho] at h
        exact .inl ⟨ho, (Option.some.inj h).symm⟩
      · rw [if_neg ho] at h
        exact .inr ⟨by simpa using ho, (Option.some.inj h).symm⟩

/-- A call: the initial threads, the event loop, and the end. -/
theorem injectEventWith_some {c c' : Ctx V} {visits : List (Nat × Ctx V)}
    (h : injectEventWith rules prune call fuel c = some (visits, c')) :
    ∃ c₁ c₂, startRules rules call fuel (List.range rules.length) (c.beginEvent call.event) =
        some c₁ ∧
      evtLoop rules prune call fuel (call.clock c) c.ae.size c₁.mergeQueues.thr.size
        c₁.mergeQueues.curRetrigQh c₁.mergeQueues = some (visits, c₂) ∧
      c' = c₂.endEvent call.event c.ae.size := by
  unfold injectEventWith createRuleInitialThreads at h
  simp only at h
  cases hc : startRules rules call fuel (List.range rules.length) (c.beginEvent call.event) with
  | none =>
    rw [hc] at h
    cases h
  | some c₁ =>
    rw [hc] at h
    simp only [Option.map_some] at h
    cases hl : evtLoop rules prune call fuel (call.clock c) c.ae.size c₁.mergeQueues.thr.size
        c₁.mergeQueues.curRetrigQh c₁.mergeQueues with
    | none =>
      rw [hl] at h
      cases h
    | some q =>
      rw [hl] at h
      obtain ⟨rfl, rfl⟩ := Prod.mk.inj (Option.some.inj h)
      exact ⟨c₁, q.2, rfl, hl, rfl⟩

end

/-! ## Invariants -/

/-- An invariant of the engine. During a call it may speak of the current active event and of the
thread that the event loop comes to. -/
structure EngineInv (V : Type) where
  between : Ctx V → Prop
  during : Nat → Option Nat → Ctx V → Prop

/-- Two invariants. -/
def EngineInv.and (A B : EngineInv V) : EngineInv V where
  between c := A.between c ∧ B.between c
  during e p c := A.during e p c ∧ B.during e p c

/-- No invariant. -/
def EngineInv.trivial : EngineInv V where
  between _ := True
  during _ _ _ := True

section

variable [SyncValue V] (rules : RuleSet) (prune : Nat → Ctx V → Bool)

/-- What the engine has to keep of `A` where `B` holds, if the calls meet `okCall` and the turns of
the loop over the rules meet `okStart`. -/
structure EngineRules (okCall : Call V → Prop) (okStart : Call V → Nat → Nat → Ctx V → Prop)
    (B A : EngineInv V) : Prop where
  init : A.between (Ctx.init V)
  beginEvent : ∀ event c, B.between c → A.between c →
    A.during c.ae.size none (c.beginEvent event)
  startRule : ∀ call fuel e k c c', okCall call → okStart call fuel k c → B.during e none c →
    A.during e none c → Orchids.startRule rules call fuel k c = some c' → A.during e none c'
  mergeQueues : ∀ e c, B.during e none c → A.during e none c →
    A.during e c.mergeQueues.curRetrigQh c.mergeQueues
  evtStep : ∀ call fuel curTime e t c c', okCall call → B.during e (some t) c →
    A.during e (some t) c →
    Orchids.evtStep rules prune call fuel curTime e t (c.next t) c = some c' →
    A.during e (c.next t) c'
  endEvent : ∀ event e c, B.during e none c → A.during e none c → A.between (c.endEvent event e)

/-- Every turn of the loop over the rules meets `ok`. -/
def EachStart (call : Call V) (fuel : Nat) (ok : Nat → Ctx V → Prop) : List Nat → Ctx V → Prop
  | [], _ => True
  | k :: ks, c =>
    ok k c ∧ ∀ c' ∈ startRule rules call fuel k c, EachStart call fuel ok ks c'

instance decidableEachStart (call : Call V) (fuel : Nat) (ok : Nat → Ctx V → Prop)
    [∀ k c, Decidable (ok k c)] : ∀ ks c, Decidable (EachStart rules call fuel ok ks c)
  | [], _ => isTrue trivial
  | k :: ks, c =>
    have := decidableEachStart call fuel ok ks
    inferInstanceAs (Decidable (ok k c ∧ ∀ c' ∈ startRule rules call fuel k c,
      EachStart rules call fuel ok ks c'))

/-- The turns of the loop over the rules meet `okStart` in a call. -/
def CallOk (okStart : Call V → Nat → Nat → Ctx V → Prop) (call : Call V) (fuel : Nat)
    (c : Ctx V) : Prop :=
  EachStart rules call fuel (okStart call fuel) (List.range rules.length)
    (c.beginEvent call.event)

variable {rules prune} {okCall : Call V → Prop} {okStart : Call V → Nat → Nat → Ctx V → Prop}
  {A B : EngineInv V}

namespace EngineRules

theorem mono {okCall' : Call V → Prop} {okStart' : Call V → Nat → Nat → Ctx V → Prop}
    (h : EngineRules rules prune okCall okStart B A) (hcall : ∀ call, okCall' call → okCall call)
    (hok : ∀ call fuel k c, okStart' call fuel k c → okStart call fuel k c) :
    EngineRules rules prune okCall' okStart' B A :=
  { h with
    startRule := fun call fuel e k c c' hc ho =>
      h.startRule call fuel e k c c' (hcall _ hc) (hok _ _ _ _ ho)
    evtStep := fun call fuel curTime e t c c' hc =>
      h.evtStep call fuel curTime e t c c' (hcall _ hc) }

/-- More to stand on. -/
theorem weaken {B' : EngineInv V} (h : EngineRules rules prune okCall okStart B A)
    (hb : ∀ c, B'.between c → B.between c) (hd : ∀ e p c, B'.during e p c → B.during e p c) :
    EngineRules rules prune okCall okStart B' A where
  init := h.init
  beginEvent event c hB := h.beginEvent event c (hb c hB)
  startRule call fuel e k c c' hc ho hB := h.startRule call fuel e k c c' hc ho (hd _ _ _ hB)
  mergeQueues e c hB := h.mergeQueues e c (hd _ _ _ hB)
  evtStep call fuel curTime e t c c' hc hB := h.evtStep call fuel curTime e t c c' hc (hd _ _ _ hB)
  endEvent event e c hB := h.endEvent event e c (hd _ _ _ hB)

/-- The invariant `B` on its own, and `A` on the ground of `B`. -/
theorem and (hB : EngineRules rules prune okCall okStart .trivial B)
    (hA : EngineRules rules prune okCall okStart B A) :
    EngineRules rules prune okCall okStart .trivial (B.and A) where
  init := ⟨hB.init, hA.init⟩
  beginEvent event c _ h := ⟨hB.beginEvent event c ⟨⟩ h.1, hA.beginEvent event c h.1 h.2⟩
  startRule call fuel e k c c' hc ho _ h heq :=
    ⟨hB.startRule call fuel e k c c' hc ho ⟨⟩ h.1 heq,
      hA.startRule call fuel e k c c' hc ho h.1 h.2 heq⟩
  mergeQueues e c _ h := ⟨hB.mergeQueues e c ⟨⟩ h.1, hA.mergeQueues e c h.1 h.2⟩
  evtStep call fuel curTime e t c c' hc _ h heq :=
    ⟨hB.evtStep call fuel curTime e t c c' hc ⟨⟩ h.1 heq,
      hA.evtStep call fuel curTime e t c c' hc h.1 h.2 heq⟩
  endEvent event e c _ h := ⟨hB.endEvent event e c ⟨⟩ h.1, hA.endEvent event e c h.1 h.2⟩

variable (h : EngineRules rules prune okCall okStart .trivial A)
include h

theorem startRules {call : Call V} (hcall : okCall call) {fuel e : Nat} :
    ∀ {ks : List Nat} {c c' : Ctx V}, EachStart rules call fuel (okStart call fuel) ks c →
      A.during e none c → Orchids.startRules rules call fuel ks c = some c' → A.during e none c'
  | [], c, c', _, hi, heq => Option.some.inj heq ▸ hi
  | k :: ks, c, c', hok, hi, heq => by
    unfold Orchids.startRules at heq
    cases hs : Orchids.startRule rules call fuel k c with
    | none =>
      rw [hs] at heq
      cases heq
    | some c₁ =>
      rw [hs] at heq
      exact startRules hcall (hok.2 c₁ hs)
        (h.startRule call fuel e k c c₁ hcall hok.1 ⟨⟩ hi hs) heq

/-- The event loop: the invariant holds at every visit and at the end. -/
theorem evtLoop {call : Call V} (hcall : okCall call) {fuel curTime e : Nat} :
    ∀ {n : Nat} {p : Option Nat} {c c' : Ctx V} {visits : List (Nat × Ctx V)},
      A.during e p c →
      Orchids.evtLoop rules prune call fuel curTime e n p c = some (visits, c') →
      A.during e none c' ∧ ∀ v ∈ visits, A.during e (some v.1) v.2
  | _, none, c, c', visits, hi, heq => by
    unfold Orchids.evtLoop at heq
    obtain ⟨rfl, rfl⟩ := Prod.mk.inj (Option.some.inj heq)
    exact ⟨hi, fun v hv => (List.not_mem_nil hv).elim⟩
  | 0, some _, _, _, _, _, heq => by cases heq
  | n + 1, some t, c, c', visits, hi, heq => by
    unfold Orchids.evtLoop at heq
    simp only at heq
    cases hs : Orchids.evtStep rules prune call fuel curTime e t (c.next t) c with
    | none =>
      rw [hs] at heq
      cases heq
    | some c₁ =>
      rw [hs] at heq
      simp only at heq
      cases hl : Orchids.evtLoop rules prune call fuel curTime e n (c.next t) c₁ with
      | none =>
        rw [hl] at heq
        cases heq
      | some q =>
        rw [hl] at heq
        obtain ⟨rfl, rfl⟩ := Prod.mk.inj (Option.some.inj heq)
        obtain ⟨hend, hvis⟩ := evtLoop hcall
          (h.evtStep call fuel curTime e t c c₁ hcall ⟨⟩ hi hs) hl
        refine ⟨hend, fun v hv => ?_⟩
        rcases List.mem_cons.mp hv with rfl | hv
        · exact hi
        · exact hvis v hv

/-- One call of `inject_event`. -/
theorem inject {call : Call V} {fuel : Nat} {c c' : Ctx V} {visits : List (Nat × Ctx V)}
    (hcall : okCall call) (hok : CallOk rules okStart call fuel c) (hi : A.between c)
    (heq : injectEventWith rules prune call fuel c = some (visits, c')) :
    A.between c' ∧ ∀ v ∈ visits, A.during c.ae.size (some v.1) v.2 := by
  obtain ⟨c₁, c₂, hc₁, hl, rfl⟩ := injectEventWith_some heq
  have h₁ := h.startRules hcall hok (h.beginEvent call.event c ⟨⟩ hi) hc₁
  obtain ⟨hend, hvis⟩ := h.evtLoop hcall (h.mergeQueues _ _ ⟨⟩ h₁) hl
  exact ⟨h.endEvent call.event _ _ ⟨⟩ hend, hvis⟩

/-- What the turns of the loops keep holds between any two calls. -/
theorem run {ok : Call V → Nat → Ctx V → Prop} {c : Ctx V} (hr : Run rules prune ok c)
    (hcall : ∀ call fuel c, ok call fuel c → okCall call)
    (hok : ∀ call fuel c, ok call fuel c → CallOk rules okStart call fuel c) : A.between c := by
  induction hr with
  | init => exact h.init
  | inject call fuel _ hc heq ih => exact (h.inject (hcall _ _ _ hc) (hok _ _ _ hc) ih heq).1

end EngineRules

/-- The loop over the rules keeps what each of its turns keeps. -/
theorem startRules_inv {call : Call V} {fuel : Nat} {I : Ctx V → Prop}
    (hstep : ∀ k c c', I c → startRule rules call fuel k c = some c' → I c') :
    ∀ {ks : List Nat} {c c' : Ctx V}, I c → startRules rules call fuel ks c = some c' → I c'
  | [], c, c', hi, heq => Option.some.inj heq ▸ hi
  | k :: ks, c, c', hi, heq => by
    unfold startRules at heq
    cases hs : startRule rules call fuel k c with
    | none =>
      rw [hs] at heq
      cases heq
    | some c₁ =>
      rw [hs] at heq
      exact startRules_inv hstep (hstep k c c₁ hi hs) heq

/-- The event loop keeps what each of its turns keeps, if the visits meet `P`. -/
theorem evtLoop_visits {call : Call V} {fuel curTime e : Nat} {I : Option Nat → Ctx V → Prop}
    {P : Nat → Ctx V → Prop}
    (hstep : ∀ t c c', P t c → I (some t) c →
      evtStep rules prune call fuel curTime e t (c.next t) c = some c' → I (c.next t) c') :
    ∀ {n : Nat} {p : Option Nat} {c c' : Ctx V} {visits : List (Nat × Ctx V)}, I p c →
      evtLoop rules prune call fuel curTime e n p c = some (visits, c') →
      (∀ v ∈ visits, P v.1 v.2) → I none c'
  | _, none, c, c', visits, hi, heq, _ => by
    unfold evtLoop at heq
    obtain ⟨rfl, rfl⟩ := Prod.mk.inj (Option.some.inj heq)
    exact hi
  | 0, some _, _, _, _, _, heq, _ => by cases heq
  | n + 1, some t, c, c', visits, hi, heq, hok => by
    unfold evtLoop at heq
    simp only at heq
    cases hs : evtStep rules prune call fuel curTime e t (c.next t) c with
    | none =>
      rw [hs] at heq
      cases heq
    | some c₁ =>
      rw [hs] at heq
      simp only at heq
      cases hl : evtLoop rules prune call fuel curTime e n (c.next t) c₁ with
      | none =>
        rw [hl] at heq
        cases heq
      | some q =>
        rw [hl] at heq
        obtain ⟨rfl, rfl⟩ := Prod.mk.inj (Option.some.inj heq)
        have hi₁ := hstep t c c₁ (hok (t, c) List.mem_cons_self) hi hs
        exact evtLoop_visits hstep hi₁ hl fun v hv => hok v (List.mem_cons_of_mem _ hv)

theorem eachStart_true (call : Call V) (fuel : Nat) :
    ∀ (ks : List Nat) (c : Ctx V), EachStart rules call fuel (fun _ _ => True) ks c
  | [], _ => trivial
  | _ :: ks, _ => ⟨trivial, fun c' _ => eachStart_true call fuel ks c'⟩

theorem callOk_true (call : Call V) (fuel : Nat) (c : Ctx V) :
    CallOk rules (fun _ _ _ _ => True) call fuel c := eachStart_true call fuel _ _

end

end Orchids

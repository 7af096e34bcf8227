import Orchids.Engine.Liveness

/-!
# Addresses that are used again

`calloc` may give the address of a freed record to a new one. The records of the engine have names
of their own, which are not used twice; here a new initial state instance may lie where a freed
state instance lay. A pointer that still has the old address is then a pointer to the new one.

* `Ctx.reuse`: what such a pointer is after the allocation.
* `RunAt`: the runs in which `calloc` places the initial state instances in any way.
* `threads_of_quiet`: the counters of threads, in the runs in which no call frees an instance that
  has threads.
* `not_threads`: a forgotten thread of a freed instance counts down another rule instance.
-/

namespace Orchids

variable {V : Type}

/-! ## Allocation at a freed address -/

namespace Ctx

/-- The next state instance gets the address of the freed state instance `a`: the pointers to `a`,
in threads and in lock tables, are pointers to it. -/
def reuse (a : Nat) (c : Ctx V) : Ctx V :=
  { c with
    thr := c.thr.map fun t x =>
      if c.thr.live t = true ∧ x.stateInstance = a then { x with stateInstance := c.si.size } else x
    syncLock := fun k b => (c.syncLock k b).map fun s => if s = a then c.si.size else s }

/-- The address of the next state instance: that of a freed one, or a new address. -/
def place (p : Option Nat) (c : Ctx V) : Ctx V :=
  match p with
  | some a => if a < c.si.size ∧ c.si.live a = false then c.reuse a else c
  | none => c

end Ctx

section

variable [SyncValue V] (rules : RuleSet) (prune : Nat → Ctx V → Bool) (call : Call V) (fuel : Nat)
  (addr : Nat → Option Nat)

/-- The loop over the rules, with the initial state instance of the rule `k` at `addr k`. -/
def startRulesAt : List Nat → Ctx V → Option (Ctx V)
  | [], c => some c
  | k :: ks, c =>
    match startRule rules call fuel k (c.place (addr k)) with
    | none => none
    | some c => startRulesAt ks c

/-- `inject_event`, with the initial state instances at `addr`. -/
def injectEventAt (c : Ctx V) : Option (Ctx V) :=
  match startRulesAt rules call fuel addr (List.range rules.length) (c.beginEvent call.event) with
  | none => none
  | some c₁ =>
    let c₁ := c₁.mergeQueues
    match evtLoop rules prune call fuel (call.clock c) c.ae.size c₁.thr.size c₁.curRetrigQh c₁ with
    | none => none
    | some (_, c₂) => some (c₂.endEvent call.event c.ae.size)

/-- The states of the engine between two calls of `inject_event`, where each call meets `ok`. -/
inductive RunAt (ok : Call V → Nat → (Nat → Option Nat) → Ctx V → Prop) : Ctx V → Prop
  | init : RunAt ok (Ctx.init V)
  | inject {c c' : Ctx V} (call : Call V) (fuel : Nat) (addr : Nat → Option Nat) :
      RunAt ok c → ok call fuel addr c → injectEventAt rules prune call fuel addr c = some c' →
      RunAt ok c'

/-- The turns of the loop over the rules free no rule instance that has threads. -/
def QuietStarts : List Nat → Ctx V → Prop
  | [], _ => True
  | k :: ks, c =>
    QuietStart rules call fuel k (c.place (addr k)) ∧
      ∀ c' ∈ startRule rules call fuel k (c.place (addr k)), QuietStarts ks c'

instance decidableQuietStarts : ∀ ks c, Decidable (QuietStarts rules call fuel addr ks c)
  | [], _ => isTrue trivial
  | k :: ks, c =>
    have := decidableQuietStarts ks
    inferInstanceAs (Decidable (QuietStart rules call fuel k (c.place (addr k)) ∧
      ∀ c' ∈ startRule rules call fuel k (c.place (addr k)),
        QuietStarts rules call fuel addr ks c'))

/-- No call frees a rule instance that has threads. -/
def QuietAt (c : Ctx V) : Prop :=
  QuietStarts rules call fuel addr (List.range rules.length) (c.beginEvent call.event)

instance (c : Ctx V) : Decidable (QuietAt rules call fuel addr c) :=
  decidableQuietStarts rules call fuel addr _ _

variable {rules prune call fuel addr} {c c' : Ctx V} {e : Nat}

/-! ## New addresses -/

theorem startRulesAt_none :
    ∀ (ks : List Nat) (c : Ctx V),
      startRulesAt rules call fuel (fun _ => none) ks c = startRules rules call fuel ks c
  | [], _ => rfl
  | k :: ks, c => by
    unfold startRulesAt startRules
    show (match startRule rules call fuel k c with | none => none | some c => _) = _
    cases startRule rules call fuel k c with
    | none => rfl
    | some c₁ => exact startRulesAt_none ks c₁

/-- A call in which `calloc` gives new addresses only. -/
theorem injectEventAt_none :
    injectEventAt rules prune call fuel (fun _ => none) c =
      (injectEventWith rules prune call fuel c).map Prod.snd := by
  unfold injectEventAt injectEventWith createRuleInitialThreads
  rw [startRulesAt_none]
  cases startRules rules call fuel (List.range rules.length) (c.beginEvent call.event) with
  | none => rfl
  | some c₁ =>
    simp only [Option.map_some]
    cases evtLoop rules prune call fuel (call.clock c) c.ae.size c₁.mergeQueues.thr.size
        c₁.mergeQueues.curRetrigQh c₁.mergeQueues with
    | none => rfl
    | some q => rfl

theorem quietStarts_none :
    ∀ (ks : List Nat) (c : Ctx V), EachStart rules call fuel (QuietStart rules call fuel) ks c →
      QuietStarts rules call fuel (fun _ => none) ks c
  | [], _, _ => trivial
  | _ :: ks, _, h => ⟨h.1, fun c' hc => quietStarts_none ks c' (h.2 c' hc)⟩

/-- The runs in which addresses are not used again are among them. -/
theorem Run.runAt (hr : Run rules prune (Quiet rules) c) : RunAt rules prune (QuietAt rules) c := by
  induction hr with
  | init => exact .init
  | inject call fuel _ hok heq ih =>
    refine .inject call fuel (fun _ => none) ih (quietStarts_none _ _ hok) ?_
    rw [injectEventAt_none, heq]
    rfl

/-! ## Without stale pointers -/

omit [SyncValue V] in
/-- Where no thread in a queue belongs to a freed state instance, an address that is used again
changes nothing but lock tables. -/
theorem place_eq (hlive : ∀ t, c.thr.live t = true → c.si.live (c.thr.cell t).stateInstance = true)
    (p : Option Nat) : ∃ l, c.place p = { c with syncLock := l } := by
  unfold Ctx.place
  cases p with
  | none => exact ⟨c.syncLock, rfl⟩
  | some a =>
    simp only
    split
    · rename_i ha
      have hcell : ∀ t, (if c.thr.live t = true ∧ (c.thr.cell t).stateInstance = a then
          { c.thr.cell t with stateInstance := c.si.size } else c.thr.cell t) = c.thr.cell t := by
        refine fun t => if_neg fun ⟨hl, heq⟩ => ?_
        have hs := hlive t hl
        rw [heq, ha.2] at hs
        cases hs
      refine ⟨(c.reuse a).syncLock, ?_⟩
      unfold Ctx.reuse Heap.map
      simp only [hcell]
    · exact ⟨c.syncLock, rfl⟩

omit [SyncValue V] in
/-- What holds in runs without the defect of the starts stays so. -/
theorem quietBase_place (h : (quietBase (V := V)).during e none c) (p : Option Nat) :
    (quietBase (V := V)).during e none (c.place p) := by
  obtain ⟨⟨⟨hw, new, retrig, rest, hq, -⟩, -⟩, ha⟩ := id h
  have hlive : ∀ t, c.thr.live t = true → c.si.live (c.thr.cell t).stateInstance = true :=
    fun t hl => (Alive.ownerLive ha hw (hq.lt t hl) hl).2
  obtain ⟨l, heq⟩ := place_eq hlive p
  rw [heq]
  exact h

theorem startRulesAt_quietBase :
    ∀ {ks : List Nat} {c c' : Ctx V}, QuietStarts rules call fuel addr ks c →
      (quietBase (V := V)).during e none c →
      startRulesAt rules call fuel addr ks c = some c' → (quietBase (V := V)).during e none c'
  | [], c, c', _, hi, heq => Option.some.inj heq ▸ hi
  | k :: ks, c, c', hok, hi, heq => by
    unfold startRulesAt at heq
    cases hs : startRule rules call fuel k (c.place (addr k)) with
    | none =>
      rw [hs] at heq
      cases heq
    | some c₁ =>
      rw [hs] at heq
      have hrules : EngineRules rules (fun _ _ => false) (fun _ => True) (QuietStart rules) .trivial
        (quietBase (V := V)) := quietBase_rules
      have hi₁ := hrules.startRule call fuel e k _ c₁ trivial hok.1 ⟨⟩
        (quietBase_place hi (addr k)) hs
      exact startRulesAt_quietBase (hok.2 c₁ hs) hi₁ heq

theorem injectEventAt_quietBase (hok : QuietAt rules call fuel addr c)
    (hi : (quietBase (V := V)).between c)
    (heq : injectEventAt rules prune call fuel addr c = some c') :
    (quietBase (V := V)).between c' := by
  unfold injectEventAt at heq
  cases hs : startRulesAt rules call fuel addr (List.range rules.length)
      (c.beginEvent call.event) with
  | none =>
    rw [hs] at heq
    cases heq
  | some c₁ =>
    rw [hs] at heq
    simp only at heq
    cases hl : evtLoop rules prune call fuel (call.clock c) c.ae.size c₁.mergeQueues.thr.size
        c₁.mergeQueues.curRetrigQh c₁.mergeQueues with
    | none =>
      rw [hl] at heq
      cases heq
    | some q =>
      rw [hl] at heq
      obtain rfl := Option.some.inj heq
      have hrules : EngineRules rules prune (fun _ => True) (QuietStart rules) .trivial
        (quietBase (V := V)) := quietBase_rules
      have h₁ := startRulesAt_quietBase hok (hrules.beginEvent call.event c ⟨⟩ hi) hs
      obtain ⟨hend, -⟩ := hrules.evtLoop trivial (hrules.mergeQueues _ _ ⟨⟩ h₁) hl
      exact hrules.endEvent call.event _ _ ⟨⟩ hend

theorem RunAt.between (hr : RunAt rules prune (QuietAt rules) c) :
    (quietBase (V := V)).between c := by
  have hrules : EngineRules rules prune (fun _ => True) (QuietStart rules) .trivial
    (quietBase (V := V)) := quietBase_rules
  induction hr with
  | init => exact hrules.init
  | inject call fuel addr _ hok heq ih => exact injectEventAt_quietBase hok ih heq

/-! ## The counters of threads -/

/-- The new queue is `new` and the retrigger queue is `retrig`; the counter of each rule instance
that is not freed is the number of its threads in them, and the counter of all threads is the length
of both. -/
structure ThreadCounts (c : Ctx V) (new retrig : List Nat) : Prop where
  queues : Intact c new retrig
  rule : ∀ r, c.ri.live r = true →
    (c.ri.cell r).threads = ((new ++ retrig).countP fun t => decide (c.ruleInstOf t = r) : Nat)
  total : c.threads = ((new ++ retrig).length : Nat)

/-- Between two calls of a run in which no call frees an instance that has threads, the counters are
right, wherever the initial state instances lie. -/
theorem threads_of_quiet (hr : RunAt rules prune (QuietAt rules) c) :
    ∃ new retrig, ThreadCounts c new retrig := by
  obtain ⟨⟨⟨hw, new, retrig, hq⟩, h⟩, -⟩ := hr.between
  have hlive : ∀ t, c.thr.live t = true ↔ t ∈ new ++ retrig := fun t =>
    (hq.live t).trans (by simp)
  have hcount : ∀ p, countLive c.thr.live c.thr.size p = (new ++ retrig).countP p := fun p =>
    countLive_eq_countP hq.lt (by simpa using hq.nodup) hlive
  refine ⟨new, retrig, hq.intact, fun r hr => ?_, ?_⟩
  · rw [← hcount]
    exact h.rules r (hw.rule_lt r hr)
  · have htotal := h.total
    rw [show c.accounts.live = c.thr.live from rfl, show c.records.threads = c.thr.size from rfl,
      hcount, List.countP_true] at htotal
    exact htotal

end

/-- The only rule instance has the counter 1 and a thread in the new queue. -/
theorem threads_of_quiet_twoEvents :
    ∃ (c : Ctx Val) (new retrig : List Nat),
      injectEventAt twoEvents (backtrackIsNotNeeded twoEvents) passing 3 (fun _ => none)
          (Ctx.init Val) = some c ∧
      ThreadCounts c new retrig ∧ c.ri.live 0 = true ∧ (c.ri.cell 0).threads = 1 := by
  have hq : QuietAt twoEvents passing 3 (fun _ => none) (Ctx.init Val) := by decide +kernel
  have hrun : ((injectEventAt twoEvents (backtrackIsNotNeeded twoEvents) passing 3 (fun _ => none)
      (Ctx.init Val)).any fun c => c.ri.live 0 && (c.ri.cell 0).threads == 1) = true := by
    decide +kernel
  obtain ⟨c, hc, hn⟩ := (Option.any_eq_true _ _).mp hrun
  obtain ⟨new, retrig, h⟩ := threads_of_quiet (.inject passing 3 _ .init hq hc)
  simp only [Bool.and_eq_true, beq_iff_eq] at hn
  exact ⟨c, new, retrig, hc, h, hn⟩

/-! ## A forgotten thread -/

/-- A rule whose instance is freed with a thread in the new queue, and two rules whose initial
states have two transitions. -/
def threeRules : RuleSet :=
  [{ states := [
      { action := none, trans := [⟨1, some [0], 1⟩, ⟨0, none, 2⟩], havePushfield := false },
      { action := none, trans := [⟨1, some [1], 2⟩], havePushfield := true },
      { action := none, trans := [], havePushfield := false }]
     syncVars := [], syncLock := false },
   { states := [
      { action := none, trans := [⟨1, some [1], 1⟩], havePushfield := false },
      { action := none, trans := [⟨1, some [1], 1⟩], havePushfield := true }]
     syncVars := [], syncLock := false },
   { states := [
      { action := none, trans := [⟨1, some [1], 1⟩, ⟨1, some [1], 1⟩], havePushfield := false },
      { action := none, trans := [⟨1, some [1], 1⟩], havePushfield := true }]
     syncVars := [], syncLock := false }]

/-- An event at which the condition with the byte code `[0]` is false and every other is true. -/
def halfPassing : Call Val where
  event := [(0, .int 1)]
  vm c s code := {
    ret := if code = [0] then 1 else 0
    env := (c.si.cell s).currentEnv
    kills := fun _ => false }
  clock _ := 0

/-- The third initial state instance gets the address of the first. -/
def thirdAtFirst (k : Nat) : Option Nat := if k = 2 then some 0 else none

/-- The forgotten thread of the first rule counts down the instance of the third, which stays live
with the counter 1 and two threads in the new queue. -/
theorem not_threads :
    ∃ c, RunAt threeRules (backtrackIsNotNeeded threeRules) (fun _ _ _ _ => True) c ∧
      ¬ ∃ new retrig, ThreadCounts (V := Val) c new retrig := by
  have hrun : ((injectEventAt threeRules (backtrackIsNotNeeded threeRules) halfPassing 5 thirdAtFirst
      (Ctx.init Val)).any fun c =>
        c.newQh == some 4 && c.next 4 == some 5 && c.next 5 == some 6 && c.next 6 == none &&
        c.ri.live 2 && (c.ri.cell 2).threads == 1 && c.ruleInstOf 5 == 2 && c.ruleInstOf 6 == 2) =
      true := by
    decide +kernel
  obtain ⟨c, hc, hn⟩ := (Option.any_eq_true _ _).mp hrun
  simp only [Bool.and_eq_true, beq_iff_eq] at hn
  obtain ⟨⟨⟨⟨⟨⟨⟨hq, h4⟩, h5⟩, h6⟩, hlive⟩, hone⟩, ho5⟩, ho6⟩ := hn
  refine ⟨c, .inject halfPassing 5 thirdAtFirst .init trivial hc, ?_⟩
  rintro ⟨new, retrig, h⟩
  have hnew : new = [4, 5, 6] :=
    h.queues.newQueue.linked.unique ⟨h4, h5, h6, trivial⟩ (h.queues.newQueue.head.symm.trans hq)
  have htwo : 2 ≤ (new ++ retrig).countP fun t => decide (c.ruleInstOf t = 2) := by
    simp only [hnew, List.countP_append, List.countP_cons, ho5, ho6, decide_true, if_true]
    omega
  have hcount := h.rule 2 hlive
  omega

end Orchids

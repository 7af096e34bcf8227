import Mathlib.Data.List.Perm.Subperm
import Mathlib.Logic.Relation
import Orchids.Engine.Queues
import Orchids.Engine.SyncVal

/-!
# The visits of the event loop

* `base`: the references and the queues are in order, between any two calls and during a call.
* `injectEvent_queues`: what one call does to the queues, from any state between two calls.
* `injectEventWith_ne_none`: a call returns if the simulations do.
-/

namespace Orchids

variable {V : Type}

section

variable [SyncValue V] {rules : RuleSet} {prune : Nat → Ctx V → Bool} {call : Call V}
  {fuel e t : Nat} {c c' : Ctx V} {new retrig rest : List Nat}

/-- What the invariants of the engine rest on: the references and the queues are in order. -/
def base : EngineInv V where
  between c := Wf c.records none ∧ ∃ new retrig, Queues c.queues new retrig []
  during _ p c :=
    Wf c.records none ∧ ∃ new retrig rest, Queues c.queues new retrig rest ∧ rest.head? = p

theorem base_rules :
    EngineRules rules prune (fun _ => True) (fun _ _ _ _ => True) .trivial (base (V := V)) where
  init := by
    refine ⟨?_, [], [], ?_⟩
    · constructor <;> simp [Ctx.records, Ctx.init]
    · constructor <;> simp [Ctx.queues, Ctx.init, Linked, IsQueue.empty]
  beginEvent := by
    rintro event c ⟨⟩ ⟨hw, new, retrig, h⟩
    exact ⟨hw, new, retrig, [], h, rfl⟩
  startRule := by
    rintro call fuel e k c c' - - ⟨⟩ ⟨hw, new, retrig, rest, h, hp⟩ heq
    obtain rfl := List.head?_eq_none_iff.mp hp
    exact ⟨startRule_wf hw heq, _, _, [], (startRule_queues h heq).queues, rfl⟩
  mergeQueues := by
    rintro e c ⟨⟩ ⟨hw, new, retrig, rest, h, hp⟩
    obtain rfl := List.head?_eq_none_iff.mp hp
    have hm := h.merge
    have hhead := congrArg QueueView.curRetrigQh (queues_mergeQueues h.newPtr)
    rw [← queues_mergeQueues h.newPtr] at hm
    exact ⟨by simpa using hw, [], [], _, hm, h.append.head.symm.trans hhead.symm⟩
  evtStep := by
    rintro call fuel curTime e t c c' - ⟨⟩ ⟨hw, new, retrig, rest, h, hp⟩ heq
    obtain ⟨rest', rfl⟩ := List.head?_eq_some_iff.mp hp
    have hnext : c.next t = rest'.head? := h.restLinked.1
    rw [hnext] at heq
    obtain ⟨new', retrig', h', _⟩ := evtStep_queues hw h heq
    exact ⟨evtStep_wf hw (h.mem_lt (by simp)) heq, new', retrig', rest', h', hnext.symm⟩
  endEvent := by
    rintro event e c ⟨⟩ ⟨hw, new, retrig, rest, h, hp⟩
    obtain rfl := List.head?_eq_none_iff.mp hp
    exact ⟨by simpa using hw, new, retrig, by simpa using h⟩

/-- The invariant holds in every run. -/
theorem Run.base {ok : Call V → Nat → Ctx V → Prop} (hr : Run rules prune ok c) :
    Orchids.base.between c :=
  base_rules.run hr (fun _ _ _ _ => trivial) fun call fuel c _ => callOk_true call fuel c

/-- The event loop is at the thread `t`. -/
structure Visiting (t : Nat) (c : Ctx V) : Prop where
  wf : Wf c.records none
  lt : t < c.thr.size
  live : c.thr.live t = true

omit [SyncValue V] in
theorem Visiting.congr (h : Visiting t c) (hr : c'.records = c.records)
    (hq : c'.queues.live = c.queues.live) : Visiting t c' :=
  ⟨by rw [hr]; exact h.wf, lt_of_lt_of_eq h.lt (congrArg RecordView.threads hr).symm,
    (congrFun hq t).trans h.live⟩

/-- What one turn of the event loop does, with the place of the thread in the states between. -/
theorem evtStep_visiting {curTime : Nat} (hb : base.during e (some t) c)
    (heq : evtStep rules prune call fuel curTime e t (c.next t) c = some c') :
    Visiting t (c.beginVisit curTime t) ∧
      ((((c.beginVisit curTime t).thr.cell t).killed = true ∧
          c' = (c.beginVisit curTime t).reapThread rules t (c.next t)) ∨
        (((c.beginVisit curTime t).thr.cell t).killed = false ∧
          ∃ c₁, Evaluated rules prune call fuel e t (c.beginVisit curTime t) c₁ ∧
            Visiting t c₁ ∧
            (((c₁.thr.cell t).onlyOnce = true ∧ Visiting t ((c₁.killThread t).commitAt t) ∧
                c' = ((c₁.killThread t).commitAt t).reapThread rules t (c.next t)) ∨
              ((c₁.thr.cell t).onlyOnce = false ∧ c' = (c₁.requeue t).commitAt t)))) := by
  obtain ⟨hw, new, retrig, rest, hq, hp⟩ := hb
  obtain ⟨rest', rfl⟩ := List.head?_eq_some_iff.mp hp
  have hmem : t ∈ new ++ (retrig ++ t :: rest') := by simp
  have hq₀ := beginVisit_queues curTime hq
  have h : Visiting t c := ⟨hw, hq.mem_lt hmem, (hq.live t).mpr hmem⟩
  have h₀ : Visiting t (c.beginVisit curTime t) := by
    refine h.congr (records_beginVisit curTime t c) ?_
    funext b
    rw [Bool.eq_iff_iff, hq₀.live b, hq.live b]
  refine ⟨h₀, ?_⟩
  rcases evtStep_cases heq with hreap | ⟨hk, c₁, hev, hcase⟩
  · exact .inl hreap
  · obtain ⟨hg, hw₁⟩ := evaluated_wf h₀.wf h₀.lt hev
    have hadd := evaluated_queues h₀.wf h₀.lt hq₀ hev
    have h₁ : Visiting t c₁ :=
      ⟨hw₁, lt_of_lt_of_le h₀.lt hg.thr.size_le, (hadd.queues.live t).mpr (by simp)⟩
    refine .inr ⟨hk, c₁, hev, h₁, hcase.imp_left fun ⟨ho, heq⟩ => ⟨ho, ?_, heq⟩⟩
    have hkill := h₁.congr (records_killThread t c₁) (by rw [queues_killThread])
    refine hkill.congr (records_commitAt t _) ?_
    have hqk := hadd.queues
    rw [← queues_killThread t c₁] at hqk
    unfold Ctx.commitAt
    split
    · rw [queues_commitNew hqk.newPtr]
      rfl
    · rfl

/-! ## Every call -/

omit [SyncValue V] in
/-- The number of threads is a bound for a loop over a part of the queues. -/
theorem Queues.length_le (h : Queues c.queues new retrig rest) {l : List Nat} (hnd : l.Nodup)
    (hl : ∀ t ∈ l, t ∈ new ++ (retrig ++ rest)) : l.length ≤ c.thr.size := by
  have hsub : l ⊆ List.range c.thr.size := fun t ht => List.mem_range.mpr (h.mem_lt (hl t ht))
  simpa using (hnd.subperm hsub).length_le

omit [SyncValue V] in
/-- The loops over the three queues visit them. -/
theorem Queues.threadsFrom_eq (h : Queues c.queues new retrig rest) :
    c.threadsFrom c.newQh = new ∧ c.threadsFrom c.retrigQh = retrig ∧
      c.threadsFrom rest.head? = rest := by
  have hnew : c.newQh = new.head? := h.newQueue.head
  have hretrig : c.retrigQh = retrig.head? := h.retrigQueue.head
  rw [hnew, hretrig]
  refine ⟨walk_eq h.newQueue.linked (h.length_le h.newQueue.nodup fun t ht => ?_),
    walk_eq h.retrigQueue.linked (h.length_le h.retrigQueue.nodup fun t ht => ?_),
    walk_eq h.restLinked (h.length_le h.restLinked.nodup fun t ht => ?_)⟩
  · simp [ht]
  · simp [ht]
  · simp [ht]

/-- The queues between two calls: two lists that end, with no thread in common and no freed
thread, and no freed thread behind the pointers that are read before the next call. -/
structure Intact (c : Ctx V) (new retrig : List Nat) : Prop where
  newQueue : IsQueue c.next c.newQh c.newQt new
  retrigQueue : IsQueue c.next c.retrigQh c.retrigQt retrig
  nodup : (new ++ retrig).Nodup
  live : ∀ t ∈ new ++ retrig, c.thr.live t = true
  reachable : ∀ p t, c.curRetrigQh = some p ∨ c.currentTail = some p →
    Relation.ReflTransGen (fun a b => c.next a = some b) p t → c.thr.live t = true

omit [SyncValue V] in
theorem Queues.intact (h : Queues c.queues new retrig []) : Intact c new retrig where
  newQueue := h.newQueue
  retrigQueue := h.retrigQueue
  nodup := by simpa using h.nodup
  live t ht := (h.live t).mpr (by simpa using ht)
  reachable p t hp hpt := by
    have hmem : t ∈ new ++ retrig := by
      induction hpt with
      | refl =>
        rcases hp with hp | hp
        · exact (h.curHead p hp).resolve_right (by simp)
        · simpa using h.curTail p hp
      | tail _ hab ih =>
        rcases List.mem_append.mp ih with hm | hm
        · exact List.mem_append_left _ (h.newQueue.linked.next_mem hm hab)
        · exact List.mem_append_right _ (h.retrigQueue.linked.next_mem hm hab)
    exact (h.live t).mpr (by simpa using hmem)

/-- What a call from `c` to `c'` does, `c₁` being the state at the start of its event loop. -/
structure QueueCall (rules : RuleSet) (call : Call V) (fuel : Nat) (c c₁ c' : Ctx V)
    (visits : List (Nat × Ctx V)) (new retrig new' retrig' : List Nat) : Prop where
  before : Intact c new retrig
  after : Intact c' new' retrig'
  initial : createRuleInitialThreads rules call fuel (c.beginEvent call.event) = some c₁
  /-- The new queue, the initial threads and the retrigger queue are visited in this order. -/
  visited : visits.map Prod.fst = new ++ List.range' c.thr.size (c₁.thr.size - c.thr.size) ++ retrig
  once : (visits.map Prod.fst).Nodup
  /-- No thread is visited that the event loop creates. -/
  created : ∀ v ∈ visits, v.1 < c₁.thr.size
  /-- A visited thread that is not killed, no initial thread and not timed out is in one queue. -/
  kept : ∀ v ∈ visits, (v.2.thr.cell v.1).killed = false → (v.2.thr.cell v.1).onlyOnce = false →
    call.clock c < (v.2.thr.cell v.1).timeout →
    (v.1 ∈ new' ∧ v.1 ∉ retrig') ∨ (v.1 ∉ new' ∧ v.1 ∈ retrig')

/-- From any state between two calls, a call keeps the queues intact and visits each thread that
was in them, and each initial thread, exactly once. -/
theorem injectEvent_queues {visits : List (Nat × Ctx V)} (hr : Reach rules prune c)
    (heq : injectEventWith rules prune call fuel c = some (visits, c')) :
    ∃ c₁ new retrig new' retrig',
      QueueCall rules call fuel c c₁ c' visits new retrig new' retrig' := by
  obtain ⟨hw, new, retrig, h⟩ := hr.base
  obtain ⟨c₁, c₂, hc₁, hl, rfl⟩ := injectEventWith_some heq
  obtain ⟨hw₁, hle, hq₁⟩ := startRules_queues (c := c.beginEvent call.event) hw h hc₁
  rw [show (c.beginEvent call.event).thr.size = c.thr.size from rfl] at hq₁
  have hm := hq₁.merge
  have hmq := queues_mergeQueues hq₁.newPtr
  rw [← hmq] at hm
  have hhead : c₁.mergeQueues.curRetrigQh = _ :=
    (congrArg QueueView.curRetrigQh hmq).trans hq₁.append.head
  have hsz : c₁.mergeQueues.thr.size = c₁.thr.size := congrArg QueueView.size hmq
  rw [hhead] at hl
  obtain ⟨new', retrig', h', -, hvis, -, hkeep⟩ := evtLoop_queues (by simpa using hw₁) hm hl
  have hnd : (new' ++ retrig').Nodup := by simpa using h'.nodup
  refine ⟨c₁.mergeQueues, new, retrig, new', retrig', h.intact,
    Queues.intact (by simpa using h'), ?_, by rw [hvis, hsz], ?_, ?_, ?_⟩
  · unfold createRuleInitialThreads
    rw [hc₁]
    rfl
  · rw [hvis]
    simpa using hm.nodup
  · intro v hv
    have hmem : v.1 ∈ visits.map Prod.fst := List.mem_map_of_mem hv
    rw [hvis] at hmem
    exact hm.mem_lt (by simpa using hmem)
  · intro v hv hk ho htime
    rcases List.mem_append.mp (hkeep v hv hk ho htime) with hm | hm
    · exact .inl ⟨hm, fun hr => List.disjoint_of_nodup_append hnd hm hr⟩
    · exact .inr ⟨fun hn => List.disjoint_of_nodup_append hnd hn hm, hm⟩

end

/-- A rule that waits for two events in a row. -/
def twoEvents : RuleSet :=
  [{ states := [
      { action := none, trans := [⟨1, some [0], 1⟩], havePushfield := false },
      { action := none, trans := [⟨1, some [1], 2⟩], havePushfield := true },
      { action := none, trans := [], havePushfield := false }]
     syncVars := [], syncLock := false }]

/-- An event at which every condition is true. -/
def passing : Call Val where
  event := [(0, .int 1)]
  vm c s _ := { ret := 0, env := (c.si.cell s).currentEnv, kills := fun _ => false }
  clock _ := 0

theorem injectEvent_queues_twoEvents :
    ∃ (c c₁ c' : Ctx Val) (visits : List (Nat × Ctx Val)) (new retrig new' retrig' : List Nat),
      injectEvents twoEvents (backtrackIsNotNeeded twoEvents) 3 [passing, passing] (Ctx.init Val) =
        some c ∧
      QueueCall twoEvents passing 3 c c₁ c' visits new retrig new' retrig' := by
  have hrun : ((injectEvents twoEvents (backtrackIsNotNeeded twoEvents) 3 [passing, passing]
      (Ctx.init Val)).any fun c =>
        (injectEventWith twoEvents (backtrackIsNotNeeded twoEvents) passing 3 c).isSome) = true := by
    decide +kernel
  obtain ⟨c, hc, hsome⟩ := (Option.any_eq_true _ _).mp hrun
  obtain ⟨⟨visits, c'⟩, heq⟩ := Option.isSome_iff_exists.mp hsome
  obtain ⟨c₁, new, retrig, new', retrig', h⟩ :=
    injectEvent_queues (Run.init.injectEvents _ _ _ hc) heq
  exact ⟨c, c₁, c', visits, new, retrig, new', retrig', hc, h⟩

section

variable [SyncValue V] {rules : RuleSet} {prune : Nat → Ctx V → Bool} {call : Call V}
  {fuel e t : Nat} {c c' : Ctx V} {new retrig rest : List Nat}

/-! ## Every call returns -/

theorem evalThread_ne_none (hw : Wf c.records none) (ht : t < c.thr.size)
    (hsim : ∀ r s o d, Of d r s → simulate rules call fuel s o d ≠ none) :
    evalThread rules prune call fuel e t c ≠ none := by
  intro heq
  unfold evalThread passThread at heq
  simp only at heq
  generalize hc : c.vmExec call.vm (c.thr.cell t).stateInstance _ = c₁ at heq
  have hw₁ : Wf c₁.records none := by rwa [← hc, records_vmExec]
  have ht₁ : t < c₁.thr.size := by rwa [← hc, thr_size_vmExec]
  split at heq
  · cases hs : simulate rules call fuel c₁.si.size false (c₁.passState e t) with
    | none => exact hsim _ _ _ _ (hw₁.passState_of ht₁ e) hs
    | some q =>
      rw [hs] at heq
      cases heq
  · cases heq

theorem evtStep_ne_none {curTime : Nat} {p : Option Nat} (hw : Wf c.records none)
    (ht : t < c.thr.size) (hsim : ∀ r s o d, Of d r s → simulate rules call fuel s o d ≠ none) :
    evtStep rules prune call fuel curTime e t p c ≠ none := by
  intro heq
  have hrec := records_beginVisit curTime t c
  have ht₀ : t < (c.beginVisit curTime t).thr.size :=
    lt_of_lt_of_eq ht (congrArg RecordView.threads hrec).symm
  unfold evtStep at heq
  simp only at heq
  split at heq
  · cases heq
  · cases he : evalThread rules prune call fuel e t (c.beginVisit curTime t) with
    | none => exact evalThread_ne_none (by rwa [hrec]) ht₀ hsim he
    | some c₁ =>
      rw [he] at heq
      simp only at heq
      split at heq <;> cases heq

theorem evtLoop_ne_none {curTime n : Nat} (hw : Wf c.records none)
    (h : Queues c.queues new retrig rest) (hn : rest.length ≤ n)
    (hsim : ∀ r s o d, Of d r s → simulate rules call fuel s o d ≠ none) :
    evtLoop rules prune call fuel curTime e n rest.head? c ≠ none := by
  induction rest generalizing c new retrig n with
  | nil =>
    unfold evtLoop
    exact Option.some_ne_none _
  | cons t rest ih =>
    cases n with
    | zero => exact absurd hn (Nat.not_succ_le_zero _)
    | succ n =>
      have ht : t < c.thr.size := h.mem_lt (by simp)
      intro heq
      unfold evtLoop at heq
      simp only [List.head?_cons, show c.next t = rest.head? from h.restLinked.1] at heq
      cases hs : evtStep rules prune call fuel curTime e t rest.head? c with
      | none => exact evtStep_ne_none hw ht hsim hs
      | some c₁ =>
        rw [hs] at heq
        simp only at heq
        obtain ⟨new', retrig', h', -⟩ := evtStep_queues hw h hs
        cases hl : evtLoop rules prune call fuel curTime e n rest.head? c₁ with
        | none => exact ih (evtStep_wf hw ht hs) h' (Nat.le_of_succ_le_succ hn) hl
        | some q =>
          rw [hl] at heq
          cases heq

theorem startRules_ne_none {ks : List Nat} (hw : Wf c.records none)
    (hsim : ∀ r s o d, Of d r s → simulate rules call fuel s o d ≠ none) :
    startRules rules call fuel ks c ≠ none := by
  induction ks generalizing c with
  | nil => exact Option.some_ne_none _
  | cons k ks ih =>
    intro heq
    unfold startRules at heq
    cases hs : startRule rules call fuel k c with
    | none =>
      unfold startRule at hs
      cases hsim' : simulate rules call fuel c.si.size true (c.newRuleInst k) with
      | none => exact hsim _ _ _ _ (Of.newRuleInst k c) hsim'
      | some q =>
        rw [hsim'] at hs
        cases hs
    | some c₁ =>
      rw [hs] at heq
      exact ih (startRule_wf hw hs) heq

/-- A call returns if the simulations do: the length of the current queue is a bound for the event
loop. -/
theorem injectEventWith_ne_none (hr : Reach rules prune c)
    (hsim : ∀ r s o d, Of d r s → simulate rules call fuel s o d ≠ none) :
    injectEventWith rules prune call fuel c ≠ none := by
  obtain ⟨hw, new, retrig, h⟩ := hr.base
  intro heq
  unfold injectEventWith createRuleInitialThreads at heq
  simp only at heq
  cases hc : startRules rules call fuel (List.range rules.length) (c.beginEvent call.event) with
  | none => exact startRules_ne_none (c := c.beginEvent call.event) hw hsim hc
  | some c₁ =>
    rw [hc] at heq
    simp only [Option.map_some] at heq
    obtain ⟨hw₁, hle, hq₁⟩ := startRules_queues (c := c.beginEvent call.event) hw h hc
    have hm := hq₁.merge
    have hmq := queues_mergeQueues hq₁.newPtr
    rw [← hmq] at hm
    have hhead : c₁.mergeQueues.curRetrigQh = _ :=
      (congrArg QueueView.curRetrigQh hmq).trans hq₁.append.head
    rw [hhead] at heq
    have hlen := hm.length_le hm.restLinked.nodup fun t ht => by simpa using ht
    cases hl : evtLoop rules prune call fuel (call.clock c) c.ae.size c₁.mergeQueues.thr.size
        _ c₁.mergeQueues with
    | none => exact evtLoop_ne_none (by simpa using hw₁) hm hlen hsim hl
    | some q =>
      rw [hl] at heq
      cases heq

end

end Orchids

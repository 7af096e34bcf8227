import Mathlib.Data.List.Range
import Orchids.Engine.Records

/-!
# The queues of threads

The new queue, the retrigger queue and the rest of the current queue share the `next` links of
the threads. `QueueView` has these links and the pointers into them, with what the engine does to
them; `Queues` says which threads are in which queue.

* `Queues.push`, `Queues.merge`, `Queues.commit`, `Queues.requeue`, `Queues.reap`: what each
  operation keeps.
* `simulate_queues`: a simulation appends its new threads to the new queue.
* `evtStep_queues`, `evtLoop_queues`: the event loop.
-/

namespace Orchids

/-! ## The links and the pointers -/

/-- What the queues consist of. -/
structure QueueView where
  next : Nat → Option Nat
  live : Nat → Bool
  size : Nat
  newQh : Option Nat
  newQt : Option Nat
  retrigQh : Option Nat
  retrigQt : Option Nat
  curRetrigQh : Option Nat
  curRetrigQt : Option Nat
  currentTail : Option Nat

namespace QueueView

variable (q : QueueView)

/-- A new thread at the tail of the new queue. -/
def push : QueueView :=
  { q with
    size := q.size + 1
    live := Function.update q.live q.size true
    next := setTail (Function.update q.next q.size none) q.newQt (some q.size)
    newQh := q.newQh <|> some q.size
    newQt := some q.size }

/-- The new queue and the retrigger queue are the current queue. -/
def merge : QueueView :=
  { q with
    next := setTail q.next q.newQt q.retrigQh
    curRetrigQh := q.newQh <|> q.retrigQh
    curRetrigQt := q.retrigQt <|> q.newQt
    newQh := none, newQt := none, retrigQh := none, retrigQt := none }

/-- The new queue and the retrigger queue are the new queue. -/
def commit : QueueView :=
  { q with
    next := setTail q.next q.newQt q.retrigQh
    newQh := q.newQh <|> q.retrigQh
    newQt := q.retrigQt <|> q.newQt
    retrigQh := none, retrigQt := none }

/-- A thread behind the retrigger queue. -/
def requeue (t : Nat) : QueueView :=
  { q with
    next := Function.update (setTail q.next q.retrigQt (some t)) t none
    retrigQh := q.retrigQh <|> some t
    retrigQt := some t }

/-- The end of a thread, with `p` behind it in the current queue. -/
def reap (t : Nat) (p : Option Nat) : QueueView :=
  { q with
    next := setTail q.next q.curRetrigQt none
    curRetrigQh := if q.curRetrigQh = some t then p else q.curRetrigQh
    live := Function.update q.live t false
    currentTail := none }

end QueueView

/-- The live threads are those of the new queue, of the retrigger queue and of the rest of the
current queue. -/
structure Queues (q : QueueView) (new retrig rest : List Nat) : Prop where
  newQueue : IsQueue q.next q.newQh q.newQt new
  retrigQueue : IsQueue q.next q.retrigQh q.retrigQt retrig
  restLinked : Linked q.next rest
  restTail : rest ≠ [] → q.curRetrigQt = rest.getLast?
  nodup : (new ++ (retrig ++ rest)).Nodup
  live : ∀ t, q.live t = true ↔ t ∈ new ++ (retrig ++ rest)
  lt : ∀ t, q.live t = true → t < q.size
  curHead : ∀ t, q.curRetrigQh = some t → t ∈ new ++ retrig ∨ rest.head? = some t
  curTail : ∀ t, q.currentTail = some t → t ∈ new ++ (retrig ++ rest)

namespace Queues

variable {q : QueueView} {new retrig rest : List Nat} {t : Nat}

theorem mem_lt (h : Queues q new retrig rest) (ht : t ∈ new ++ (retrig ++ rest)) : t < q.size :=
  h.lt t ((h.live t).mpr ht)

theorem size_not_mem (h : Queues q new retrig rest) : q.size ∉ new ++ (retrig ++ rest) :=
  fun hm => Nat.lt_irrefl _ (h.mem_lt hm)

/-- The links of the retrigger queue and of the rest are not those of a new thread or of the tail
of the new queue. -/
theorem push_next (h : Queues q new retrig rest) :
    ∀ b ∈ retrig ++ rest, q.push.next b = q.next b := by
  intro b hb
  have hb' : b ∈ new ++ (retrig ++ rest) := List.mem_append_right _ hb
  have hne : b ≠ q.size := (h.mem_lt hb').ne
  refine (setTail_apply _ _ _).trans ?_
  rw [Function.update_of_ne hne, if_neg]
  intro hq
  exact List.disjoint_of_nodup_append h.nodup
    (hq ▸ h.newQueue : IsQueue _ _ (some b) _).last_mem hb

theorem push (h : Queues q new retrig rest) : Queues q.push (new ++ [q.size]) retrig rest := by
  have hsz := h.size_not_mem
  have hmem : ∀ t, t ∈ new ++ [q.size] ++ (retrig ++ rest) ↔
      t = q.size ∨ t ∈ new ++ (retrig ++ rest) := by
    intro t
    simp only [List.mem_append, List.mem_singleton]
    tauto
  refine ⟨h.newQueue.push fun hm => hsz (List.mem_append_left _ hm),
    h.retrigQueue.congr fun b hb => h.push_next b (List.mem_append_left _ hb),
    h.restLinked.congr fun b hb => h.push_next b (List.mem_append_right _ hb),
    h.restTail, ?_, ?_, ?_, ?_, ?_⟩
  · have hperm : (new ++ [q.size] ++ (retrig ++ rest)).Perm (q.size :: (new ++ (retrig ++ rest))) := by
      simp
    exact hperm.nodup_iff.mpr (List.nodup_cons.mpr ⟨hsz, h.nodup⟩)
  · intro t
    rw [hmem t, ← h.live t]
    by_cases ht : t = q.size
    · simp [QueueView.push, ht]
    · simp [QueueView.push, ht]
  · intro t
    by_cases ht : t = q.size
    · simp [QueueView.push, ht]
    · simp only [QueueView.push, Function.update_of_ne ht]
      exact fun hl => (h.lt t hl).trans (Nat.lt_succ_self _)
  · intro t ht
    refine (h.curHead t ht).imp_left fun hm => ?_
    simp only [List.mem_append] at hm ⊢
    tauto
  · exact fun t ht => (hmem t).mpr (.inr (h.curTail t ht))

/-- What the new queue and the retrigger queue are together. -/
theorem append (h : Queues q new retrig rest) :
    IsQueue (setTail q.next q.newQt q.retrigQh) (q.newQh <|> q.retrigQh)
      (q.retrigQt <|> q.newQt) (new ++ retrig) :=
  h.newQueue.append h.retrigQueue fun _ hb hr =>
    List.disjoint_of_nodup_append h.nodup hb (List.mem_append_left _ hr)

theorem merge (h : Queues q new retrig []) : Queues q.merge [] [] (new ++ retrig) := by
  have happ := h.append
  have hnil : ∀ t, t ∈ new ++ (retrig ++ []) ↔ t ∈ [] ++ ([] ++ (new ++ retrig)) := by simp
  refine ⟨.empty, .empty, happ.linked, fun _ => happ.last, by simpa using h.nodup,
    fun t => (h.live t).trans (hnil t), h.lt, ?_, fun t ht => (hnil t).mp (h.curTail t ht)⟩
  exact fun t ht => .inr (happ.head.symm.trans ht)

theorem commit (h : Queues q new retrig rest) : Queues q.commit (new ++ retrig) [] rest := by
  have hassoc : ∀ t, t ∈ new ++ (retrig ++ rest) ↔ t ∈ new ++ retrig ++ ([] ++ rest) := by simp
  refine ⟨h.append, .empty, h.restLinked.congr ?_, h.restTail, by simpa using h.nodup,
    fun t => (h.live t).trans (hassoc t), h.lt, ?_, fun t ht => (hassoc t).mp (h.curTail t ht)⟩
  · refine h.newQueue.setTail_of_disjoint fun b hb hr => ?_
    exact List.disjoint_of_nodup_append h.nodup hb (List.mem_append_right _ hr)
  · intro t ht
    simpa using h.curHead t ht

theorem requeue (h : Queues q new retrig (t :: rest)) :
    Queues (q.requeue t) new (retrig ++ [t]) rest := by
  have hassoc : ∀ b, b ∈ new ++ (retrig ++ t :: rest) ↔ b ∈ new ++ (retrig ++ [t] ++ rest) := by
    simp
  have hnd := (List.nodup_append.mp h.nodup).2.1
  have hdis := List.disjoint_of_nodup_append hnd
  have ht : t ∉ retrig := fun hm => hdis hm List.mem_cons_self
  have hq : q.retrigQt ≠ some t := fun hq =>
    ht (hq ▸ h.retrigQueue : IsQueue _ _ (some t) _).last_mem
  have htr : t ∉ rest := (List.nodup_cons.mp (List.nodup_append.mp hnd).2.1).1
  -- neither the tail of the retrigger queue nor the thread is elsewhere
  have hother : ∀ b, b ∈ new ∨ b ∈ rest → (q.requeue t).next b = q.next b := by
    intro b hb
    have hbt : b ≠ t := by
      rintro rfl
      rcases hb with hb | hb
      · exact List.disjoint_of_nodup_append h.nodup hb (by simp)
      · exact htr hb
    refine (Function.update_of_ne hbt _ _).trans ?_
    rw [setTail_apply, if_neg]
    intro hqb
    have hbr := (hqb ▸ h.retrigQueue : IsQueue _ _ (some b) _).last_mem
    rcases hb with hb | hb
    · exact List.disjoint_of_nodup_append h.nodup hb (List.mem_append_left _ hbr)
    · exact hdis hbr (List.mem_cons_of_mem _ hb)
  refine ⟨h.newQueue.congr fun b hb => hother b (.inl hb), ?_,
    h.restLinked.tail.congr fun b hb => hother b (.inr hb), ?_, by simpa using h.nodup,
    fun b => (h.live b).trans (hassoc b), h.lt, ?_, fun b hb => (hassoc b).mp (h.curTail b hb)⟩
  · have hpush := h.retrigQueue.push ht
    rwa [← update_setTail hq] at hpush
  · intro hne
    obtain ⟨b, rest', rfl⟩ := List.exists_cons_of_ne_nil hne
    exact (h.restTail (List.cons_ne_nil _ _)).trans List.getLast?_cons_cons
  · intro b hb
    rcases h.curHead b hb with hm | hm
    · simp only [List.mem_append] at hm ⊢
      tauto
    · obtain rfl : t = b := Option.some.inj hm
      simp

theorem reap (h : Queues q new retrig (t :: rest)) :
    Queues (q.reap t rest.head?) new retrig rest := by
  have hmid : (new ++ (retrig ++ t :: rest)).Perm (t :: (new ++ (retrig ++ rest))) := by
    have hmiddle : ((new ++ retrig) ++ t :: rest).Perm (t :: ((new ++ retrig) ++ rest)) :=
      List.perm_middle
    simpa using hmiddle
  have hnd := List.nodup_cons.mp (hmid.nodup_iff.mp h.nodup)
  have hmem : ∀ b, b ∈ new ++ (retrig ++ t :: rest) ↔ b = t ∨ b ∈ new ++ (retrig ++ rest) :=
    fun b => hmid.mem_iff.trans List.mem_cons
  -- the tail is the thread itself, or its link is already the end of the list
  have hnext : ∀ b ∈ new ++ (retrig ++ rest), (q.reap t rest.head?).next b = q.next b := by
    intro b hb
    refine (setTail_apply _ _ _).trans ?_
    by_cases hq : some b = q.curRetrigQt
    · rw [if_pos hq]
      refine (h.restLinked.next_last ?_).symm
      rw [hq]
      exact (h.restTail (List.cons_ne_nil _ _)).symm
    · rw [if_neg hq]
  refine ⟨h.newQueue.congr fun b hb => hnext b (by simp [hb]),
    h.retrigQueue.congr fun b hb => hnext b (by simp [hb]),
    h.restLinked.tail.congr fun b hb => hnext b (by simp [hb]), ?_, hnd.2, ?_, ?_, ?_, ?_⟩
  · intro hne
    obtain ⟨b, rest', rfl⟩ := List.exists_cons_of_ne_nil hne
    exact (h.restTail (List.cons_ne_nil _ _)).trans List.getLast?_cons_cons
  · intro b
    by_cases hb : b = t
    · simp only [QueueView.reap, hb, Function.update_self]
      exact ⟨fun hf => (Bool.false_ne_true hf).elim, fun hm => (hnd.1 hm).elim⟩
    · simp only [QueueView.reap, Function.update_of_ne hb]
      rw [h.live b, hmem b]
      exact ⟨fun hm => hm.resolve_left hb, .inr⟩
  · intro b
    by_cases hb : b = t
    · simp [QueueView.reap, hb]
    · simp only [QueueView.reap, Function.update_of_ne hb]
      exact h.lt b
  · intro b hb
    by_cases hc : q.curRetrigQh = some t
    · simp only [QueueView.reap, if_pos hc] at hb
      exact .inr hb
    · simp only [QueueView.reap, if_neg hc] at hb
      refine (h.curHead b hb).imp_right fun hm => ?_
      obtain rfl : t = b := Option.some.inj hm
      exact (hc hb).elim
  · intro b hb
    cases hb

end Queues

/-! ## The queues of a state -/

variable {V : Type}

/-- The queues of a state. -/
def Ctx.queues (c : Ctx V) : QueueView where
  next := fun t => (c.thr.cell t).next
  live := c.thr.live
  size := c.thr.size
  newQh := c.newQh
  newQt := c.newQt
  retrigQh := c.retrigQh
  retrigQt := c.retrigQt
  curRetrigQh := c.curRetrigQh
  curRetrigQt := c.curRetrigQt
  currentTail := c.currentTail

theorem next_modify (h : Heap WaitThread) (a : Nat) (f : WaitThread → WaitThread)
    (hf : ∀ t, (f t).next = t.next) :
    (fun t => ((h.modify a f).cell t).next) = fun t => (h.cell t).next := by
  funext t
  exact h.proj_modify a t f WaitThread.next (hf _)

@[simp] theorem queues_vmExec (vm : Vm V) (s : Nat) (code : List Nat) (c : Ctx V) :
    (c.vmExec vm s code).queues = c.queues := by
  simp [Ctx.queues, Ctx.vmExec]

@[simp] theorem queues_execCond (call : Call V) (s : Nat) (tr : Trans) (c : Ctx V) :
    (c.execCond call s tr).queues = c.queues := by
  unfold Ctx.execCond
  cases tr.evalCode with
  | none => rfl
  | some code => exact queues_vmExec _ _ _ _

@[simp] theorem queues_execAction (rules : RuleSet) (call : Call V) (s : Nat) (c : Ctx V) :
    (c.execAction rules call s).queues = c.queues := by
  unfold Ctx.execAction
  cases (c.stateOf rules s).action with
  | none => rfl
  | some code => exact queues_vmExec _ _ _ _

@[simp] theorem queues_markDeadRule (r : Nat) (c : Ctx V) :
    (c.markDeadRule r).queues = c.queues := by
  simp [Ctx.queues, Ctx.markDeadRule]

@[simp] theorem queues_newState (dest s : Nat) (c : Ctx V) :
    (c.newState dest s).queues = c.queues := rfl

@[simp] theorem queues_killThread (t : Nat) (c : Ctx V) : (c.killThread t).queues = c.queues := by
  simp [Ctx.queues, Ctx.killThread, next_modify]

@[simp] theorem queues_bumpTail (q : Option Nat) (c : Ctx V) :
    (c.bumpTail q).queues = c.queues := by
  unfold Ctx.bumpTail
  cases q with
  | none => rfl
  | some q => simp [Ctx.queues, next_modify]

@[simp] theorem queues_countPass (t : Nat) (c : Ctx V) : (c.countPass t).queues = c.queues := by
  unfold Ctx.countPass Ctx.setCreationDate
  simp only
  split <;> simp [Ctx.queues, next_modify]

@[simp] theorem queues_passState (e t : Nat) (c : Ctx V) :
    (c.passState e t).queues = c.queues := queues_countPass t c

@[simp] theorem queues_newRuleInst (k : Nat) (c : Ctx V) :
    (c.newRuleInst k).queues = c.queues := rfl

@[simp] theorem queues_beginEvent (event : List (Nat × V)) (c : Ctx V) :
    (c.beginEvent event).queues = c.queues := rfl

@[simp] theorem queues_endEvent (event : List (Nat × V)) (e : Nat) (c : Ctx V) :
    (c.endEvent event e).queues = c.queues := by
  unfold Ctx.endEvent
  simp only
  split
  · rfl
  · split <;> rfl

@[simp] theorem queues_unlinkThread (t : Nat) (c : Ctx V) :
    (c.unlinkThread t).queues = c.queues := rfl

@[simp] theorem queues_linkRuleInst (r : Nat) (ret : Int) (c : Ctx V) :
    (c.linkRuleInst r ret).queues = c.queues := by
  unfold Ctx.linkRuleInst
  rw [queues_bumpTail]
  rfl

section

variable [SyncValue V] (rules : RuleSet)

@[simp] theorem queues_addLock (s : Nat) (c : Ctx V) :
    (c.addLock rules s).queues = c.queues := rfl

@[simp] theorem queues_freeRuleInstance (r : Nat) (c : Ctx V) :
    (c.freeRuleInstance rules r).queues = c.queues := by
  obtain ⟨ae, hd, tl, n, l, heq⟩ := freeRuleInstance_eq rules r c
  rw [heq]
  rfl

@[simp] theorem queues_finishRuleInst (r : Nat) (ret : Int) (c : Ctx V) :
    (c.finishRuleInst rules r ret).queues = c.queues := by
  unfold Ctx.finishRuleInst
  split
  · exact queues_freeRuleInstance rules r c
  · exact queues_linkRuleInst r ret c

@[simp] theorem queues_dropThread (t : Nat) (c : Ctx V) :
    (c.dropThread rules t).queues = c.queues := by
  rcases dropThread_cases rules t c with ⟨_, heq⟩ | ⟨_, _, heq⟩ | ⟨_, _, heq⟩
  · rw [heq]
    rfl
  · rw [heq]
    rfl
  · rw [heq, queues_freeRuleInstance]
    rfl

end

theorem queues_newThread {c : Ctx V} (clock : Ctx V → Nat) (s : Nat) (onlyOnce : Bool) (tr : Trans)
    (h : c.newQh = none ↔ c.newQt = none) :
    (c.newThread clock s onlyOnce tr).queues = c.queues.push := by
  unfold Ctx.newThread Ctx.pushNew Ctx.queues QueueView.push setTail
  cases hq : c.newQt with
  | none =>
    simp [h.mpr hq, Heap.live_alloc_eq, Heap.proj_alloc_eq c.thr _ WaitThread.next]
  | some q =>
    cases hp : c.newQh with
    | none => exact absurd (h.mp hp) (by simp [hq])
    | some p =>
      simp [Heap.live_alloc_eq, Heap.proj_modify_eq _ _ _ WaitThread.next,
        Heap.proj_alloc_eq c.thr _ WaitThread.next]

theorem queues_mergeQueues {c : Ctx V} (h : c.newQh = none ↔ c.newQt = none) :
    c.mergeQueues.queues = c.queues.merge := by
  unfold Ctx.mergeQueues Ctx.queues QueueView.merge setTail
  cases hp : c.newQh with
  | none => simp [h.mp hp]
  | some p =>
    cases hq : c.newQt with
    | none => exact absurd (h.mpr hq) (by simp [hp])
    | some q =>
      cases hr : c.retrigQt <;> simp [Heap.proj_modify_eq _ _ _ WaitThread.next]

theorem queues_commitNew {c : Ctx V} (h : c.newQh = none ↔ c.newQt = none) :
    c.commitNew.queues = c.queues.commit := by
  have hb : ∀ (q : Option Nat) (c : Ctx V), c.bumpTail q = { c with thr := (c.bumpTail q).thr } := by
    intro q c
    cases q <;> rfl
  have hnext : ∀ (q : Option Nat) (c : Ctx V),
      (fun t => ((c.bumpTail q).thr.cell t).next) = fun t => (c.thr.cell t).next :=
    fun q c => congrArg QueueView.next (queues_bumpTail q c)
  have hlive : ∀ (q : Option Nat) (c : Ctx V), (c.bumpTail q).thr.live = c.thr.live :=
    fun q c => congrArg QueueView.live (queues_bumpTail q c)
  have hsize : ∀ (q : Option Nat) (c : Ctx V), (c.bumpTail q).thr.size = c.thr.size :=
    fun q c => congrArg QueueView.size (queues_bumpTail q c)
  unfold Ctx.commitNew
  rw [hb c.retrigQt c]
  cases hp : c.newQh with
  | none => simp [Ctx.queues, QueueView.commit, setTail, hp, h.mp hp, hnext, hlive, hsize]
  | some p =>
    cases hq : c.newQt with
    | none => exact absurd (h.mpr hq) (by simp [hp])
    | some q =>
      simp only
      rw [hb (some q)]
      cases hr : c.retrigQt <;>
        simp [Ctx.queues, QueueView.commit, setTail, hp, hq, hr, hnext, hlive, hsize,
          Heap.proj_modify_eq _ _ _ WaitThread.next]

theorem queues_requeue {c : Ctx V} (t : Nat) (h : c.retrigQh = none ↔ c.retrigQt = none) :
    (c.requeue t).queues = c.queues.requeue t := by
  unfold Ctx.requeue Ctx.queues QueueView.requeue setTail
  cases hp : c.retrigQh with
  | none => simp [h.mp hp, Heap.proj_modify_eq _ _ _ WaitThread.next]
  | some p =>
    cases hq : c.retrigQt with
    | none => exact absurd (h.mpr hq) (by simp [hp])
    | some q => simp [Heap.proj_modify_eq _ _ _ WaitThread.next]

theorem queues_freeThread (c : Ctx V) (t : Nat) (p : Option Nat) :
    (c.freeThread t p).queues = c.queues.reap t p := by
  unfold Ctx.freeThread Ctx.queues QueueView.reap setTail
  cases c.curRetrigQt with
  | none => simp [Heap.live_free_eq]
  | some q => simp [Heap.live_free_eq, Heap.proj_modify_eq _ _ _ WaitThread.next]

/-! ## The steps of the engine -/

theorem Queues.newPtr {q : QueueView} {new retrig rest : List Nat} (h : Queues q new retrig rest) :
    q.newQh = none ↔ q.newQt = none := h.newQueue.head_eq_none

theorem Queues.retrigPtr {q : QueueView} {new retrig rest : List Nat}
    (h : Queues q new retrig rest) : q.retrigQh = none ↔ q.retrigQt = none :=
  h.retrigQueue.head_eq_none

/-- At a mark the retrigger queue joins the new queue, otherwise nothing happens. -/
theorem commitAt_queues {c : Ctx V} {new retrig rest : List Nat} (t : Nat)
    (h : Queues c.queues new retrig rest) :
    Queues (c.commitAt t).queues new retrig rest ∨
      Queues (c.commitAt t).queues (new ++ retrig) [] rest := by
  unfold Ctx.commitAt
  split
  · right
    rw [queues_commitNew h.newPtr]
    exact h.commit
  · exact .inl h

theorem beginVisit_queues {c : Ctx V} {new retrig rest : List Nat} {t : Nat} (curTime : Nat)
    (h : Queues c.queues new retrig (t :: rest)) :
    Queues (c.beginVisit curTime t).queues new retrig (t :: rest) := by
  have h' : Queues ({ c with currentTail := some t } : Ctx V).queues new retrig (t :: rest) := by
    refine { h with curTail := fun b hb => ?_ }
    obtain rfl := Option.some.inj hb
    simp
  unfold Ctx.beginVisit
  simp only
  split
  · simpa using h'
  · exact h'

section

variable [SyncValue V] {rules : RuleSet} {prune : Nat → Ctx V → Bool} {call : Call V}
  {fuel r s e t : Nat} {onlyOnce : Bool} {cr : Option Nat} {c c' : Ctx V}
  {new retrig rest : List Nat}

/-- The threads from `n` on are behind the new queue. -/
structure Added (n : Nat) (new retrig rest : List Nat) (c : Ctx V) : Prop where
  le : n ≤ c.thr.size
  queues : Queues c.queues (new ++ List.range' n (c.thr.size - n)) retrig rest

/-- A simulation appends its new threads to the new queue. -/
theorem simulate_queues (ho : Of c r s) (h : Queues c.queues new retrig rest) {ret : Int}
    (heq : simulate rules call fuel s onlyOnce c = some (ret, c')) :
    Added c.thr.size new retrig rest c' := by
  have hinv : SimRules rules call r onlyOnce (fun _ => Added c.thr.size new retrig rest)
      (Added c.thr.size new retrig rest) (Added c.thr.size new retrig rest) := by
    refine .of_inv ?_ ?_ ?_ ?_ ?_
    · exact fun c s code _ h => ⟨by simpa using h.le, by simpa using h.queues⟩
    · intro c h
      have hsz : (c.markDeadRule r).thr.size = c.thr.size := by simp [Ctx.markDeadRule]
      exact ⟨by rw [hsz]; exact h.le, by rw [hsz, queues_markDeadRule]; exact h.queues⟩
    · exact fun c s _ h => ⟨h.le, h.queues⟩
    · exact fun c s dest _ h => ⟨h.le, h.queues⟩
    · intro c₁ s tr _ h
      have hle := h.le
      have hpush := h.queues.push
      rw [← queues_newThread call.clock s onlyOnce tr h.queues.newPtr, List.append_assoc] at hpush
      refine ⟨by rw [thr_size_newThread]; omega, ?_⟩
      rw [thr_size_newThread, show c₁.thr.size + 1 - c.thr.size = c₁.thr.size - c.thr.size + 1 by omega,
        List.range'_concat, Nat.one_mul, Nat.add_sub_cancel' hle]
      exact hpush
  refine (simulate_inv hinv ho ⟨Nat.le_refl _, ?_⟩ heq).2
  simpa using h

theorem reapThread_queues (h : Queues c.queues new retrig (t :: rest)) :
    Queues (c.reapThread rules t rest.head?).queues new retrig rest := by
  unfold Ctx.reapThread
  rw [queues_freeThread, queues_dropThread]
  exact h.reap

theorem evaluated_queues (hw : Wf c.records none) (ht : t < c.thr.size)
    (h : Queues c.queues new retrig rest) (hev : Evaluated rules prune call fuel e t c c') :
    Added c.thr.size new retrig rest c' := by
  cases hev with
  | fail code hcode hret => exact ⟨by simp, by simpa using h⟩
  | pass code c₁ c₂ ret hcode hret hc₁ hs =>
    generalize hc₀ : c.vmExec call.vm (c.thr.cell t).stateInstance code = c₀ at hc₁
    have hw₀ : Wf c₀.records none := by
      rw [← hc₀, records_vmExec]
      exact hw
    have hsz : c.si.size = c₀.si.size := by rw [← hc₀, si_size_vmExec]
    have hth : c.thr.size = c₀.thr.size := by rw [← hc₀, thr_size_vmExec]
    have h₁ : Queues c₁.queues new retrig rest := by
      rw [hc₁, queues_passState, ← hc₀, queues_vmExec]
      exact h
    have hth₁ : c₁.thr.size = c.thr.size := by
      rw [hth, hc₁]
      exact congrArg QueueView.size (queues_passState e t c₀)
    rw [hsz] at hs
    have hadd := simulate_queues (hc₁ ▸ hw₀.passState_of (hth ▸ ht) e) h₁ hs
    rw [hth₁] at hadd
    split
    · have hk : (c₂.killThread t).thr.size = c₂.thr.size :=
        congrArg QueueView.size (queues_killThread t c₂)
      exact ⟨by rw [hk]; exact hadd.le, by rw [hk, queues_killThread]; exact hadd.queues⟩
    · exact hadd

/-- One turn of the event loop: the thread `t` goes, and it stays in a queue unless it is killed,
is timed out, or is an initial thread. -/
theorem evtStep_queues {curTime : Nat} (hw : Wf c.records none)
    (h : Queues c.queues new retrig (t :: rest))
    (heq : evtStep rules prune call fuel curTime e t rest.head? c = some c') :
    ∃ new' retrig', Queues c'.queues new' retrig' rest ∧
      (∀ b ∈ new ++ retrig, b ∈ new' ++ retrig') ∧
      ((c.thr.cell t).killed = false → (c.thr.cell t).onlyOnce = false →
        curTime < (c.thr.cell t).timeout → t ∈ new' ++ retrig') := by
  have ht : t < c.thr.size := h.mem_lt (by simp)
  have hrec := records_beginVisit curTime t c
  have hw₀ : Wf (c.beginVisit curTime t).records none := by rwa [hrec]
  have ht₀ : t < (c.beginVisit curTime t).thr.size :=
    lt_of_lt_of_eq ht (congrArg RecordView.threads hrec).symm
  have hq₀ : Queues (c.beginVisit curTime t).queues new retrig (t :: rest) := beginVisit_queues curTime h
  have honly : ((c.beginVisit curTime t).thr.cell t).onlyOnce = (c.thr.cell t).onlyOnce := by
    unfold Ctx.beginVisit Ctx.killThread
    simp only
    split <;> simp
  rcases evtStep_cases heq with ⟨hk, rfl⟩ | ⟨_, c₁, hev, ⟨ho, rfl⟩ | ⟨_, rfl⟩⟩
  · refine ⟨new, retrig, reapThread_queues hq₀, fun _ => id, fun hkill hoo htime => ?_⟩
    unfold Ctx.beginVisit at hk
    rw [if_neg (fun hf => Nat.not_le.mpr htime hf.2)] at hk
    rw [hkill] at hk
    cases hk
  · obtain ⟨hg, _⟩ := evaluated_wf hw₀ ht₀ hev
    have hadd := evaluated_queues hw₀ ht₀ hq₀ hev
    have hk := hadd.queues
    rw [← queues_killThread t c₁] at hk
    have hnot : (c.thr.cell t).onlyOnce = false → False := by
      intro hoo
      rw [hg.onlyOnce ht₀, honly, hoo] at ho
      cases ho
    rcases commitAt_queues t hk with hc | hc
    · exact ⟨_, _, reapThread_queues hc, by simp +contextual [or_imp], fun _ hoo _ => (hnot hoo).elim⟩
    · exact ⟨_, _, reapThread_queues hc, by simp +contextual [or_imp], fun _ hoo _ => (hnot hoo).elim⟩
  · have hadd := evaluated_queues hw₀ ht₀ hq₀ hev
    have hr := hadd.queues.requeue
    rw [← queues_requeue t hadd.queues.retrigPtr] at hr
    rcases commitAt_queues t hr with hc | hc
    · exact ⟨_, _, hc, by simp +contextual [or_imp], by simp⟩
    · exact ⟨_, _, hc, by simp +contextual [or_imp], by simp⟩

theorem startRule_queues {k : Nat} (h : Queues c.queues new retrig [])
    (heq : startRule rules call fuel k c = some c') : Added c.thr.size new retrig [] c' := by
  obtain ⟨ret, c₁, hs, rfl⟩ := startRule_some heq
  have hadd : Added (c.newRuleInst k).thr.size new retrig [] c₁ :=
    simulate_queues (Of.newRuleInst k c) h hs
  have hsz : (c₁.finishRuleInst rules c.ri.size ret).thr.size = c₁.thr.size :=
    congrArg QueueView.size (queues_finishRuleInst rules c.ri.size ret c₁)
  exact ⟨by rw [hsz]; exact hadd.le, by rw [hsz, queues_finishRuleInst]; exact hadd.queues⟩

/-- The loop over the rules appends the initial threads to the new queue. -/
theorem startRules_queues {ks : List Nat} (hw : Wf c.records none)
    (h : Queues c.queues new retrig []) (heq : startRules rules call fuel ks c = some c') :
    Wf c'.records none ∧ Added c.thr.size new retrig [] c' := by
  induction ks generalizing c new with
  | nil =>
    obtain rfl := Option.some.inj heq
    exact ⟨hw, Nat.le_refl _, by simpa using h⟩
  | cons k ks ih =>
    unfold startRules at heq
    cases hs : startRule rules call fuel k c with
    | none =>
      rw [hs] at heq
      cases heq
    | some c₁ =>
      rw [hs] at heq
      have hadd := startRule_queues h hs
      obtain ⟨hw', hadd'⟩ := ih (startRule_wf hw hs) hadd.queues heq
      have hle := hadd.le
      have hle' := hadd'.le
      refine ⟨hw', by omega, ?_⟩
      have hq := hadd'.queues
      have hcat : List.range' c.thr.size (c₁.thr.size - c.thr.size) ++
          List.range' c₁.thr.size (c'.thr.size - c₁.thr.size) =
          List.range' c.thr.size (c'.thr.size - c.thr.size) := by
        have happ : List.range' c.thr.size (c₁.thr.size - c.thr.size) ++
            List.range' (c.thr.size + 1 * (c₁.thr.size - c.thr.size))
              (c'.thr.size - c₁.thr.size) = _ := List.range'_append
        rwa [Nat.one_mul, Nat.add_sub_cancel' hle,
          show c₁.thr.size - c.thr.size + (c'.thr.size - c₁.thr.size) =
            c'.thr.size - c.thr.size by omega] at happ
      rwa [List.append_assoc, hcat] at hq

/-- The event loop visits the current queue from its head to its end. -/
theorem evtLoop_queues {curTime n : Nat} {visits : List (Nat × Ctx V)} (hw : Wf c.records none)
    (h : Queues c.queues new retrig rest)
    (heq : evtLoop rules prune call fuel curTime e n rest.head? c = some (visits, c')) :
    ∃ new' retrig', Queues c'.queues new' retrig' [] ∧ Wf c'.records none ∧
      visits.map Prod.fst = rest ∧
      (∀ b ∈ new ++ retrig, b ∈ new' ++ retrig') ∧
      ∀ v ∈ visits, (v.2.thr.cell v.1).killed = false → (v.2.thr.cell v.1).onlyOnce = false →
        curTime < (v.2.thr.cell v.1).timeout → v.1 ∈ new' ++ retrig' := by
  induction rest generalizing c new retrig n visits with
  | nil =>
    unfold evtLoop at heq
    obtain ⟨rfl, rfl⟩ := Prod.mk.inj (Option.some.inj heq)
    exact ⟨new, retrig, h, hw, rfl, fun _ => id, fun v hv => (List.not_mem_nil hv).elim⟩
  | cons t rest ih =>
    cases n with
    | zero => cases heq
    | succ n =>
      have hnext : c.next t = rest.head? := h.restLinked.1
      have ht : t < c.thr.size := h.mem_lt (by simp)
      unfold evtLoop at heq
      simp only [List.head?_cons, hnext] at heq
      cases hs : evtStep rules prune call fuel curTime e t rest.head? c with
      | none =>
        rw [hs] at heq
        cases heq
      | some c₁ =>
        rw [hs] at heq
        simp only at heq
        obtain ⟨new₁, retrig₁, hq₁, hsub, hkeep⟩ := evtStep_queues hw h hs
        cases hl : evtLoop rules prune call fuel curTime e n rest.head? c₁ with
        | none =>
          rw [hl] at heq
          cases heq
        | some q =>
          rw [hl] at heq
          obtain ⟨rfl, rfl⟩ := Prod.mk.inj (Option.some.inj heq)
          obtain ⟨new', retrig', hq', hw', hvis, hsub', hkeep'⟩ := ih (evtStep_wf hw ht hs) hq₁ hl
          refine ⟨new', retrig', hq', hw', by rw [List.map_cons, hvis], fun b hb =>
            hsub' b (hsub b hb), fun v hv => ?_⟩
          rcases List.mem_cons.mp hv with rfl | hv
          · exact fun hk ho htime => hsub' t (hkeep hk ho htime)
          · exact hkeep' v hv

end

end Orchids
